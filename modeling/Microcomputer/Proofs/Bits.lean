import Mathlib
import Microcomputer.Bits.Collapse
import Microcomputer.Layout
import Microcomputer.Proofs.Traversal

/-!
# Bit fields, bit by bit

Every operation on bit fields is read through single bits of the two words of a field.

* `Canonical f` : only bits that are not X have a value, and only bits below the width are not X;
* `canonical_parse` : every field that is read is canonical;
* `accepts_iff` : a word is accepted if it has the value of every bit that is not X;
* `overlay_spec`, `merge_spec` : the overlay of canonical fields accepts what all of them accept;
* `accepts_place`, `concat_unknown` : values at a position of a field;
* `gather` : the count whose bits `scatter` puts at given positions;
* `exists_variant_iff`, `variant_word_lt` : the concrete fields behind a field are the words it
  accepts, each once and in ascending order.
-/

namespace Microcomputer.BitField

theorem getLsbD_mask (width n : Nat) :
    (mask width).getLsbD n = (decide (n < 64) && decide (n < width)) := by
  unfold mask maxWidth
  split
  · rename_i h
    rw [BitVec.getLsbD_allOnes]
    by_cases hn : n < 64
    · simp [hn, show n < width by omega]
    · simp [hn]
  · rename_i h
    have hlt : 2 ^ width < 2 ^ 64 := Nat.pow_lt_pow_right (by decide) (by omega)
    have hpos : 0 < 2 ^ width := Nat.two_pow_pos width
    have e : (1#64 <<< width - 1#64).toNat = 2 ^ width - 1 := by
      rw [BitVec.toNat_sub, BitVec.toNat_shiftLeft]
      simp only [BitVec.toNat_ofNat, Nat.one_mod, Nat.shiftLeft_eq, one_mul]
      norm_num at hlt ⊢
      omega
    rw [BitVec.getLsbD, e, Nat.testBit_two_pow_sub_one]
    by_cases hn : n < width
    · simp [hn, show n < 64 by omega]
    · simp [hn]

theorem toNat_lt_iff (w : BitVec 64) (width : Nat) :
    (∀ n, w.getLsbD n = true → n < width) ↔ w.toNat < 2 ^ width := by
  constructor
  · intro h
    apply Nat.lt_pow_two_of_testBit
    intro i hi
    by_contra hbit
    have := h i (by simpa [BitVec.getLsbD] using hbit)
    omega
  · intro h n hn
    by_contra hge
    have : w.toNat < 2 ^ n := lt_of_lt_of_le h (Nat.pow_le_pow_right (by decide) (by omega))
    rw [BitVec.getLsbD, Nat.testBit_lt_two_pow this] at hn
    cases hn

theorem toNat_and_mask (w : BitVec 64) (width : Nat) : (w &&& mask width).toNat = w.toNat % 2 ^ width := by
  apply Nat.eq_of_testBit_eq
  intro n
  rw [Nat.testBit_mod_two_pow, ← BitVec.getLsbD, ← BitVec.getLsbD, BitVec.getLsbD_and, getLsbD_mask]
  by_cases hn : n < 64
  · simp [hn, Bool.and_comm]
  · rw [BitVec.getLsbD_of_ge _ _ (by omega)]
    simp

/-- A field in its only form: a bit has a value only if it is not X, and no bit from the width on is
anything but X. -/
structure Canonical (f : BitField) : Prop where
  value_care : ∀ n, f.value.getLsbD n = true → f.care.getLsbD n = true
  care_width : ∀ n, f.care.getLsbD n = true → n < f.width

theorem Canonical.value_eq_false {f : BitField} (hf : f.Canonical) {n : Nat}
    (hn : f.care.getLsbD n = false) : f.value.getLsbD n = false := by
  by_contra hv
  simp [hf.value_care n (by simpa using hv)] at hn

theorem word_lt {f : BitField} (hf : f.Canonical) : f.word.toNat < 2 ^ f.width := by
  rw [← toNat_lt_iff]
  intro n hn
  rw [word, BitVec.getLsbD_and, Bool.and_eq_true] at hn
  exact hf.care_width n hn.2

theorem accepts_iff (f : BitField) (w : BitVec 64) :
    f.accepts w = true ↔ ∀ n, f.care.getLsbD n = true → w.getLsbD n = f.value.getLsbD n := by
  unfold accepts
  rw [beq_iff_eq]
  constructor
  · intro h n hn
    have hbit := congrArg (BitVec.getLsbD · n) h
    simpa [hn] using hbit
  · intro h
    apply BitVec.eq_of_getLsbD_eq
    intro n _
    cases hn : f.care.getLsbD n with
    | false => simp [hn]
    | true => simp [hn, h n hn]

/-! ## Plain fields -/

theorem canonical_unknown (width : Nat) : (unknown width).Canonical :=
  ⟨fun n h => by simp [unknown] at h, fun n h => by simp [unknown] at h⟩

theorem accepts_unknown (width : Nat) (w : BitVec 64) : (unknown width).accepts w = true := by
  rw [accepts_iff]
  intro n h
  simp [unknown] at h

theorem canonical_ofWord (word : BitVec 64) (width : Nat) : (ofWord word width).Canonical := by
  constructor
  · intro n h
    simp only [ofWord, BitVec.getLsbD_and, Bool.and_eq_true] at h ⊢
    exact h.2
  · intro n h
    simp only [ofWord, getLsbD_mask, Bool.and_eq_true, decide_eq_true_eq] at h ⊢
    exact h.2

theorem eq_ofWord {f : BitField} (hf : f.Canonical) (hc : f.isConcrete = true) :
    f = ofWord f.word f.width := by
  have hcare : f.care = mask f.width := by simpa [isConcrete] using hc
  have hvalue : f.value = f.value &&& f.care := by
    apply BitVec.eq_of_getLsbD_eq
    intro n _
    cases hn : f.value.getLsbD n with
    | false => simp [hn]
    | true => simp [hn, hf.value_care n hn]
  cases f with
  | mk width value care =>
    simp only at hcare hvalue
    simp only [ofWord, word, mk.injEq, true_and]
    rw [← hcare]
    exact ⟨by rw [← hvalue, ← hvalue], rfl⟩

theorem accepts_ofWord (word w : BitVec 64) (width : Nat) (hw : width ≤ 64) :
    (ofWord word width).accepts w = true ↔ ∀ n < width, w.getLsbD n = word.getLsbD n := by
  rw [accepts_iff]
  constructor
  · intro h n hn
    have hmask : (mask width).getLsbD n = true := by simp [getLsbD_mask, hn, show n < 64 by omega]
    simpa [ofWord, hmask] using h n hmask
  · intro h n hn
    have hlt : n < width := (canonical_ofWord word width).care_width n hn
    simp only [ofWord] at hn ⊢
    rw [BitVec.getLsbD_and, hn, Bool.and_true]
    exact h n hlt

theorem Canonical.push {f : BitField} (hf : f.Canonical) (b : Bit) : (f.push b).Canonical := by
  have shifted : ∀ (w : BitVec 64) n, (w <<< 1).getLsbD n = true →
      0 < n ∧ n < 64 ∧ w.getLsbD (n - 1) = true := by
    intro w n h
    rw [BitVec.getLsbD_shiftLeft] at h
    simp only [Bool.and_eq_true, Bool.not_eq_true', decide_eq_true_eq, decide_eq_false_iff_not] at h
    exact ⟨by omega, h.1.1, h.2⟩
  have value_care : ∀ n, (f.value <<< 1).getLsbD n = true → (f.care <<< 1).getLsbD n = true := by
    intro n h
    obtain ⟨h₀, h₁, h₂⟩ := shifted _ _ h
    rw [BitVec.getLsbD_shiftLeft]
    simp [h₁, show ¬ n < 1 by omega, hf.value_care _ h₂]
  have care_width : ∀ n, (f.care <<< 1).getLsbD n = true → n < f.width + 1 := by
    intro n h
    obtain ⟨h₀, -, h₂⟩ := shifted _ _ h
    have := hf.care_width _ h₂
    omega
  constructor
  · intro n h
    cases b <;>
      simp only [BitField.push, BitVec.getLsbD_or, Bool.or_eq_true] at h ⊢
    · exact Or.inl (value_care n h)
    · exact h.imp_left (value_care n)
    · exact value_care n h
  · intro n h
    cases b <;>
      simp only [BitField.push, BitVec.getLsbD_or, Bool.or_eq_true, BitVec.getLsbD_one,
        Bool.and_eq_true, decide_eq_true_eq] at h ⊢
    · rcases h with h | h
      · exact care_width n h
      · omega
    · rcases h with h | h
      · exact care_width n h
      · omega
    · exact care_width n h

theorem canonical_parseFrom {text : String} (cs : List Char) {f g : BitField} (hf : f.Canonical)
    (e : parseFrom text f cs = .ok g) : g.Canonical := by
  fun_induction parseFrom text f cs with
  | case1 f =>
    cases e
    exact hf
  | case2 f cs ih => exact ih hf e
  | case3 => cases e
  | case4 => cases e
  | case5 f c cs _ b _ _ ih => exact ih (hf.push b) e

theorem canonical_parse {text : String} {f : BitField} (e : parse text = .ok f) : f.Canonical :=
  canonical_parseFrom _ (canonical_unknown 0) e

/-! ## Overlay -/

theorem overlay_spec {f g h : BitField} (hf : f.Canonical) (hg : g.Canonical)
    (e : f.overlay g = .ok h) :
    h.Canonical ∧ h.width = f.width ∧ g.width = f.width ∧
      ∀ w, h.accepts w = true ↔ f.accepts w = true ∧ g.accepts w = true := by
  unfold overlay at e
  split at e
  · cases e
  rename_i hwidth
  split at e
  · cases e
  rename_i hagree
  cases e
  simp only [ne_eq, Decidable.not_not] at hwidth hagree
  -- where both fields have a bit they have the same one
  have agree : ∀ n, f.care.getLsbD n = true → g.care.getLsbD n = true →
      f.value.getLsbD n = g.value.getLsbD n := by
    intro n hfn hgn
    have hbit := congrArg (BitVec.getLsbD · n) hagree
    simpa [hfn, hgn] using hbit
  refine ⟨⟨fun n hn => ?_, fun n hn => ?_⟩, rfl, hwidth, fun w => ?_⟩
  · simp only [BitVec.getLsbD_or, BitVec.getLsbD_and, Bool.or_eq_true, Bool.and_eq_true] at hn ⊢
    rcases hn with hn | hn
    · exact Or.inl (hf.value_care n hn)
    · exact Or.inr hn.2
  · simp only [BitVec.getLsbD_or, Bool.or_eq_true] at hn ⊢
    rcases hn with hn | hn
    · exact hf.care_width n hn
    · exact hwidth ▸ hg.care_width n hn
  · rw [accepts_iff, accepts_iff, accepts_iff]
    simp only [BitVec.getLsbD_or, BitVec.getLsbD_and, Bool.or_eq_true]
    constructor
    · intro hw
      refine ⟨fun n hn => ?_, fun n hn => ?_⟩
      · rw [hw n (Or.inl hn)]
        cases hgn : g.care.getLsbD n with
        | false => simp
        | true => simp [agree n hn hgn]
      · rw [hw n (Or.inr hn), hn]
        cases hfn : f.care.getLsbD n with
        | false => simp [hf.value_eq_false hfn]
        | true => simp [agree n hfn hn]
    · rintro ⟨hfw, hgw⟩ n hn
      cases hfn : f.care.getLsbD n with
      | false =>
        have hgn : g.care.getLsbD n = true := by simpa [hfn] using hn
        simp [hf.value_eq_false hfn, hgn, hgw n hgn]
      | true =>
        rw [hfw n hfn]
        cases hgn : g.care.getLsbD n with
        | false => simp
        | true => simp [agree n hfn hgn]

theorem foldlM_overlay_spec (fs : List BitField) {f h : BitField} (hf : f.Canonical)
    (hfs : ∀ g ∈ fs, g.Canonical) (e : fs.foldlM overlay f = .ok h) :
    h.Canonical ∧ h.width = f.width ∧ (∀ g ∈ fs, g.width = f.width) ∧
      ∀ w, h.accepts w = true ↔ f.accepts w = true ∧ ∀ g ∈ fs, g.accepts w = true := by
  induction fs generalizing f with
  | nil =>
    cases e
    exact ⟨hf, rfl, by simp, by simp⟩
  | cons g fs ih =>
    rw [List.foldlM_cons] at e
    obtain ⟨k, hk, e⟩ := Traversal.bind_eq_ok.mp e
    obtain ⟨ck, wk, wg, ak⟩ := overlay_spec hf (hfs g (by simp)) hk
    obtain ⟨ch, wh, wfs, ah⟩ := ih ck (fun g' hg' => hfs g' (by simp [hg'])) e
    refine ⟨ch, wh.trans wk, ?_, fun w => ?_⟩
    · intro g' hg'
      rcases List.mem_cons.mp hg' with rfl | hg'
      · exact wg
      · exact (wfs g' hg').trans wk
    · rw [ah, ak, List.forall_mem_cons, and_assoc]

/-- The overlay of fields accepts the words that all of them accept. -/
theorem merge_spec {fs : List BitField} {h : BitField} (hfs : ∀ g ∈ fs, g.Canonical)
    (e : merge fs = .ok h) :
    h.Canonical ∧ (∀ g ∈ fs, g.width = h.width) ∧
      ∀ w, h.accepts w = true ↔ ∀ g ∈ fs, g.accepts w = true := by
  cases fs with
  | nil =>
    cases e
    refine ⟨canonical_unknown 0, by simp, fun w => ?_⟩
    exact ⟨by simp, fun _ => accepts_unknown 0 w⟩
  | cons f fs =>
    obtain ⟨ch, wh, wfs, ah⟩ := foldlM_overlay_spec (f :: fs) (canonical_unknown f.width) hfs e
    refine ⟨ch, fun g hg => ?_, fun w => ?_⟩
    · rw [wfs g hg, wh]
    · rw [ah, and_iff_right (accepts_unknown _ w)]

theorem foldlM_overlay_value (fs : List BitField) {f h : BitField} (hfs : ∀ g ∈ fs, g.Canonical)
    (e : fs.foldlM overlay f = .ok h) (n : Nat) :
    h.value.getLsbD n = true ↔ f.value.getLsbD n = true ∨ ∃ g ∈ fs, g.value.getLsbD n = true := by
  induction fs generalizing f with
  | nil => cases e; simp
  | cons g fs ih =>
    rw [List.foldlM_cons] at e
    obtain ⟨k, hk, e⟩ := Traversal.bind_eq_ok.mp e
    have hvalue : k.value.getLsbD n = true ↔ f.value.getLsbD n = true ∨ g.value.getLsbD n = true := by
      unfold overlay at hk
      split at hk
      · cases hk
      split at hk
      · cases hk
      cases hk
      simp only [BitVec.getLsbD_or, BitVec.getLsbD_and, Bool.or_eq_true, Bool.and_eq_true]
      exact or_congr_right ⟨And.left, fun hg => ⟨hg, (hfs g (by simp)).value_care n hg⟩⟩
    rw [ih (fun g' hg' => hfs g' (by simp [hg'])) e, hvalue, or_assoc]
    simp

theorem merge_value {fs : List BitField} {h : BitField} (hfs : ∀ g ∈ fs, g.Canonical)
    (e : merge fs = .ok h) (n : Nat) :
    h.value.getLsbD n = true ↔ ∃ g ∈ fs, g.value.getLsbD n = true := by
  cases fs with
  | nil => cases e; simp [empty]
  | cons f fs =>
    rw [foldlM_overlay_value (f :: fs) hfs e n]
    simp [unknown]

/-! ## Values at a position -/

theorem getLsbD_mask_shiftLeft (size position n : Nat) :
    (mask size <<< position).getLsbD n =
      (decide (n < 64) && decide (position ≤ n) && decide (n < position + size)) := by
  rw [BitVec.getLsbD_shiftLeft, getLsbD_mask]
  by_cases hn : n < 64
  · by_cases hp : position ≤ n
    · simp only [hn, hp, show ¬ n < position by omega, decide_true, decide_false, Bool.not_false,
        Bool.true_and, show n - position < 64 by omega, decide_eq_decide]
      omega
    · simp [hp, show n < position by omega]
  · simp [hn]

theorem canonical_place (width position : Nat) (value : BitVec 64) (size : Nat)
    (h : position + size ≤ width) : (Layout.place width position value size).Canonical := by
  constructor
  · intro n hn
    simp only [Layout.place, BitVec.getLsbD_shiftLeft, BitVec.getLsbD_and, Bool.and_eq_true] at hn ⊢
    exact ⟨hn.1, hn.2.2⟩
  · intro n hn
    simp only [Layout.place, getLsbD_mask_shiftLeft, Bool.and_eq_true, decide_eq_true_eq] at hn ⊢
    omega

theorem accepts_place (width position : Nat) (value : BitVec 64) (size : Nat)
    (h : position + size ≤ 64) (w : BitVec 64) :
    (Layout.place width position value size).accepts w = true ↔
      ∀ i < size, w.getLsbD (position + i) = value.getLsbD i := by
  rw [accepts_iff]
  simp only [Layout.place, getLsbD_mask_shiftLeft, Bool.and_eq_true, decide_eq_true_eq]
  have bit : ∀ i < size,
      ((value &&& mask size) <<< position).getLsbD (position + i) = value.getLsbD i := by
    intro i hi
    rw [BitVec.getLsbD_shiftLeft, BitVec.getLsbD_and, getLsbD_mask]
    simp [show position + i < 64 by omega, hi, show i < 64 by omega]
  constructor
  · intro hw i hi
    rw [hw (position + i) (by omega), bit i hi]
  · intro hw n hn
    obtain ⟨i, rfl⟩ := Nat.exists_eq_add_of_le hn.1.2
    rw [hw i (by omega), bit i (by omega)]

/-- `k` more X bits at the right end move every other bit to the left. -/
theorem concat_unknown {f g : BitField} {k : Nat} (hf : f.Canonical)
    (e : concat [f, unknown k] = .ok g) :
    g.Canonical ∧ g.width = f.width + k ∧ ∀ w, g.accepts w = true ↔ f.accepts (w >>> k) = true := by
  simp only [concat, List.foldlM_cons, List.foldlM_nil, append, empty, unknown, zero_add] at e
  by_cases h₁ : maxWidth < f.width
  · simp [h₁, bind, Except.bind] at e
  by_cases h₂ : maxWidth < f.width + k
  · simp [h₁, h₂, bind, Except.bind] at e
  simp only [h₁, h₂, if_false, bind, Except.bind, pure, Except.pure, BitVec.zero_shiftLeft,
    BitVec.zero_or, BitVec.zero_and, BitVec.or_zero] at e
  cases e
  simp only [maxWidth, not_lt] at h₂
  have low : ∀ n, f.care.getLsbD n = true → n + k < 64 := by
    intro n hn
    have := hf.care_width n hn
    omega
  refine ⟨⟨fun n hn => ?_, fun n hn => ?_⟩, rfl, fun w => ?_⟩
  · simp only [BitVec.getLsbD_shiftLeft, BitVec.getLsbD_and, Bool.and_eq_true] at hn ⊢
    exact ⟨hn.1, hn.2.2⟩
  · simp only [BitVec.getLsbD_shiftLeft, Bool.and_eq_true, Bool.not_eq_true', decide_eq_true_eq,
      decide_eq_false_iff_not] at hn
    have := hf.care_width _ hn.2
    simp only
    omega
  · rw [accepts_iff, accepts_iff]
    simp only [BitVec.getLsbD_shiftLeft, BitVec.getLsbD_and, BitVec.getLsbD_ushiftRight]
    constructor
    · intro hw n hn
      have := hw (k + n) (by simp [hn, show k + n < 64 by have := low n hn; omega])
      simpa [hn, show k + n < 64 by have := low n hn; omega] using this
    · intro hw n hn
      simp only [Bool.and_eq_true, Bool.not_eq_true', decide_eq_true_eq,
        decide_eq_false_iff_not] at hn
      have hnk : k + (n - k) = n := by omega
      have := hw (n - k) hn.2
      rw [hnk] at this
      rw [this]
      simp [hn.1.1, hn.1.2, hn.2]

/-! ## The concrete fields behind a field -/

/-- The count whose bits, from the lowest up, are the bits of a word at the given positions. -/
def gather : List Nat → Nat → Nat
  | [], _ => 0
  | p :: ps, word => (if word.testBit p then 1 else 0) + 2 * gather ps word

theorem testBit_scatter (ps : List Nat) (count n : Nat) :
    (scatter ps count).testBit n = true ↔ ∃ i, ps[i]? = some n ∧ count.testBit i = true := by
  induction ps generalizing count with
  | nil => simp [scatter]
  | cons p ps ih =>
    have head : ((if count % 2 = 1 then 1 <<< p else 0).testBit n = true) ↔
        p = n ∧ count.testBit 0 = true := by
      rw [Nat.testBit_zero]
      by_cases hc : count % 2 = 1
      · simp [hc, Nat.shiftLeft_eq, Nat.testBit_two_pow]
      · simp [hc]
    rw [scatter, Nat.testBit_or, Bool.or_eq_true, head, ih]
    constructor
    · rintro (⟨rfl, h⟩ | ⟨i, hi, h⟩)
      · exact ⟨0, rfl, h⟩
      · exact ⟨i + 1, hi, by rwa [Nat.testBit_succ]⟩
    · rintro ⟨i, hi, h⟩
      cases i with
      | zero => exact Or.inl ⟨by simpa using hi, h⟩
      | succ i => exact Or.inr ⟨i, by simpa using hi, by rwa [Nat.testBit_succ] at h⟩

theorem testBit_gather (ps : List Nat) (word i : Nat) :
    (gather ps word).testBit i = (ps[i]?).any word.testBit := by
  induction ps generalizing i with
  | nil => simp [gather]
  | cons p ps ih =>
    cases i with
    | zero =>
      rw [gather, Nat.testBit_zero]
      cases hp : word.testBit p <;> simp [hp]
    | succ i =>
      have half : ((if word.testBit p then 1 else 0) + 2 * gather ps word) / 2 = gather ps word := by
        split <;> omega
      rw [gather, Nat.testBit_succ, half, ih]
      simp

theorem gather_lt (ps : List Nat) (word : Nat) : gather ps word < 2 ^ ps.length := by
  induction ps with
  | nil => simp [gather]
  | cons p ps ih =>
    rw [gather, List.length_cons, pow_succ]
    split <;> omega

theorem mem_unknownPositions (f : BitField) (n : Nat) :
    n ∈ f.unknownPositions ↔ n < f.width ∧ n < 64 ∧ f.care.getLsbD n = false := by
  simp [unknownPositions, maxWidth, and_assoc]

theorem nodup_unknownPositions (f : BitField) : f.unknownPositions.Nodup :=
  List.nodup_range.filter _

theorem unknowns_le_width (f : BitField) : f.unknowns ≤ f.width := by
  refine (List.length_filter_le _ _).trans ?_
  simp

/-- Less than 64 X bits can be counted through. -/
theorem variants_eq_two_pow {f : BitField} (hw : f.width ≤ 64) (hk : f.unknowns < 64) :
    f.variants = 2 ^ f.unknowns := by
  have hk' : f.unknowns + (f.width - maxWidth) = f.unknowns := by
    unfold maxWidth
    omega
  unfold variants
  simp only [hk']
  rw [if_pos hk, Nat.shiftLeft_eq, one_mul]

theorem variants_eq {f : BitField} (hw : f.width < 64) : f.variants = 2 ^ f.unknowns :=
  variants_eq_two_pow hw.le (f.unknowns_le_width.trans_lt hw)

/-- A bit of a concrete field behind `f` is the bit of `f`, or for an X bit that of the count. -/
theorem getLsbD_variant_word {f : BitField} (hf : f.Canonical) (count n : Nat) (hn : n < 64) :
    (f.variant count).word.getLsbD n = true ↔
      f.value.getLsbD n = true ∨ ∃ i, f.unknownPositions[i]? = some n ∧ count.testBit i = true := by
  simp only [variant, variantAt, word, BitVec.getLsbD_and, BitVec.getLsbD_or, BitVec.getLsbD_ofNat,
    getLsbD_mask, Bool.and_eq_true, Bool.or_eq_true, decide_eq_true_eq, testBit_scatter]
  constructor
  · rintro ⟨h | h, -⟩
    · exact Or.inl h.1
    · exact Or.inr h.2
  · rintro (h | ⟨i, hi, h⟩)
    · have hc := hf.value_care n h
      exact ⟨Or.inl ⟨h, hc⟩, hn, hf.care_width n hc⟩
    · have hmem := (mem_unknownPositions f n).mp (List.mem_of_getElem? hi)
      exact ⟨Or.inr ⟨hn, i, hi, h⟩, hn, hmem.1⟩

theorem accepts_variant {f : BitField} (hf : f.Canonical) (count : Nat) :
    f.accepts (f.variant count).word = true := by
  rw [accepts_iff]
  intro n hn
  have hlt : n < 64 := BitVec.lt_of_getLsbD hn
  rw [Bool.eq_iff_iff, getLsbD_variant_word hf count n hlt]
  constructor
  · rintro (h | ⟨i, hi, -⟩)
    · exact h
    · have hmem := (mem_unknownPositions f n).mp (List.mem_of_getElem? hi)
      simp [hn] at hmem
  · exact Or.inl

theorem variant_gather {f : BitField} (hf : f.Canonical) {w : BitVec 64}
    (hacc : f.accepts w = true) (hw : ∀ n, w.getLsbD n = true → n < f.width) :
    (f.variant (gather f.unknownPositions w.toNat)).word = w := by
  rw [accepts_iff] at hacc
  apply BitVec.eq_of_getLsbD_eq
  intro n hn
  rw [Bool.eq_iff_iff, getLsbD_variant_word hf _ n hn]
  simp only [testBit_gather]
  constructor
  · rintro (h | ⟨i, hi, h⟩)
    · rw [hacc n (hf.value_care n h), h]
    · rw [hi] at h
      exact h
  · intro h
    cases hc : f.care.getLsbD n with
    | true => exact Or.inl (by rw [← hacc n hc, h])
    | false =>
      have hmem := (mem_unknownPositions f n).mpr ⟨hw n h, hn, hc⟩
      obtain ⟨i, hi⟩ := List.getElem?_of_mem hmem
      refine Or.inr ⟨i, hi, ?_⟩
      rw [hi]
      exact h

/-- The words of the concrete fields behind `f` are the words within its width that it accepts. -/
theorem exists_variant_iff {f : BitField} (hf : f.Canonical) (hcount : f.variants = 2 ^ f.unknowns)
    (w : BitVec 64) :
    (∃ count < f.variants, (f.variant count).word = w) ↔
      f.accepts w = true ∧ ∀ n, w.getLsbD n = true → n < f.width := by
  constructor
  · rintro ⟨count, -, rfl⟩
    refine ⟨accepts_variant hf count, fun n hn => ?_⟩
    have hlt : n < 64 := BitVec.lt_of_getLsbD hn
    rcases (getLsbD_variant_word hf count n hlt).mp hn with h | ⟨i, hi, -⟩
    · exact hf.care_width n (hf.value_care n h)
    · exact ((mem_unknownPositions f n).mp (List.mem_of_getElem? hi)).1
  · rintro ⟨hacc, hbits⟩
    refine ⟨gather f.unknownPositions w.toNat, ?_, variant_gather hf hacc hbits⟩
    rw [hcount]
    exact gather_lt _ _

/-- A bit of a count stands at the X bit with that number. -/
theorem testBit_of_variant {f : BitField} (hf : f.Canonical) (count : Nat) {i : Nat}
    (hi : i < f.unknowns) :
    count.testBit i = true ↔
      (f.variant count).word.getLsbD (f.unknownPositions.get ⟨i, hi⟩) = true := by
  have hmem := (mem_unknownPositions f _).mp (List.get_mem f.unknownPositions ⟨i, hi⟩)
  rw [getLsbD_variant_word hf count _ hmem.2.1]
  constructor
  · intro h
    exact Or.inr ⟨i, by simp, h⟩
  · rintro (h | ⟨j, hj, h⟩)
    · rw [hf.value_eq_false hmem.2.2] at h
      cases h
    · obtain ⟨hjl, hj⟩ := List.getElem?_eq_some_iff.mp hj
      have : j = i := by
        rw [List.get_eq_getElem] at hj
        exact (nodup_unknownPositions f).getElem_inj_iff.mp hj
      rwa [this] at h

/-- Counting through the X bits from the right, the words increase. -/
theorem variant_word_lt {f : BitField} (hf : f.Canonical) {c d : Nat} (hd : d < 2 ^ f.unknowns)
    (hcd : c < d) : (f.variant c).word.toNat < (f.variant d).word.toNat := by
  obtain ⟨i, hbit, habove⟩ := Nat.exists_most_significant_bit (Nat.xor_ne_zero_iff.mpr hcd.ne)
  have agree : ∀ j, i < j → c.testBit j = d.testBit j := by
    intro j hj
    simpa [Nat.testBit_xor] using habove j hj
  have hne : c.testBit i ≠ d.testBit i := by simpa [Nat.testBit_xor] using hbit
  -- the highest bit in which the counts differ is set in the larger one
  have hdi : d.testBit i = true := by
    by_contra h
    have hci : c.testBit i = true := by
      rw [Bool.not_eq_true] at h
      simpa [h] using hne
    have := Nat.lt_of_testBit i (by simpa using h) hci fun j hj => (agree j hj).symm
    omega
  have hci : c.testBit i = false := by simpa [hdi] using hne
  have hi : i < f.unknowns := by
    by_contra hge
    have hpow : 2 ^ f.unknowns ≤ 2 ^ i := Nat.pow_le_pow_right (by decide) (by omega)
    rw [Nat.testBit_lt_two_pow (by omega)] at hdi
    cases hdi
  have hsorted : f.unknownPositions.Pairwise (· < ·) := List.pairwise_lt_range.filter _
  apply Nat.lt_of_testBit (f.unknownPositions.get ⟨i, hi⟩)
  · rw [← BitVec.getLsbD, ← Bool.not_eq_true, ← testBit_of_variant hf c hi, hci]
    decide
  · exact (testBit_of_variant hf d hi).mp hdi
  · intro n hn
    rw [← BitVec.getLsbD, ← BitVec.getLsbD]
    by_cases hn64 : n < 64
    · rw [Bool.eq_iff_iff, getLsbD_variant_word hf c n hn64, getLsbD_variant_word hf d n hn64]
      refine or_congr_right (exists_congr fun j => and_congr_right fun hj => ?_)
      obtain ⟨hjl, rfl⟩ := List.getElem?_eq_some_iff.mp hj
      have hij : i < j := by
        by_contra hle
        rcases Nat.eq_or_lt_of_le (Nat.not_lt.mp hle) with rfl | hlt
        · exact absurd hn (lt_irrefl _)
        · have := List.pairwise_iff_getElem.mp hsorted j i hjl hi hlt
          exact absurd (this.trans hn) (lt_irrefl _)
      rw [agree j hij]
    · rw [BitVec.getLsbD_of_ge _ _ (by omega), BitVec.getLsbD_of_ge _ _ (by omega)]

theorem variant_word_inj {f : BitField} (hf : f.Canonical) (hw : f.width < 64) {c d : Nat}
    (hc : c < f.variants) (hd : d < f.variants)
    (e : (f.variant c).word = (f.variant d).word) : c = d := by
  rw [variants_eq hw] at hc hd
  rcases lt_trichotomy c d with h | h | h
  · exact absurd (congrArg BitVec.toNat e) (variant_word_lt hf hd h).ne
  · exact h
  · exact absurd (congrArg BitVec.toNat e) (variant_word_lt hf hc h).ne'

theorem variant_eq_ofWord {f : BitField} (hf : f.Canonical) (count : Nat) :
    f.variant count = ofWord (f.variant count).word f.width := by
  have hcanonical : (f.variant count).Canonical := by
    constructor
    · intro n hn
      have hlt : n < 64 := BitVec.lt_of_getLsbD hn
      simp only [variant, variantAt, word, BitVec.getLsbD_or, BitVec.getLsbD_and,
        BitVec.getLsbD_ofNat, getLsbD_mask, Bool.or_eq_true, Bool.and_eq_true, decide_eq_true_eq,
        testBit_scatter] at hn ⊢
      rcases hn with h | ⟨-, i, hi, -⟩
      · exact ⟨hlt, hf.care_width n h.2⟩
      · exact ⟨hlt, ((mem_unknownPositions f n).mp (List.mem_of_getElem? hi)).1⟩
    · intro n hn
      simp only [variant, variantAt, getLsbD_mask, Bool.and_eq_true, decide_eq_true_eq] at hn ⊢
      exact hn.2
  exact eq_ofWord hcanonical (by simp [isConcrete, variant, variantAt])

end Microcomputer.BitField
