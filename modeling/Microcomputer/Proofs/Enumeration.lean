import Mathlib
import Microcomputer.Proofs.Rows

/-!
# Counting through the X bits

The concrete fields behind a field are found by counting: the bits of the count go to the X bits. With less
than 64 of them the count does not run over, and every field that agrees with the other bits comes up
once, in order of its word. A word is compared with the bits that are not X alone, so that the words that
are accepted go beyond those of the fields: their bits from the width on are not looked at.

* `length_collapse`, `pairwise_collapse` : how many fields come up, and in which order;
* `exists_collapse_iff` : their words are those below `2 ^ width` that are accepted;
* `mem_collapse_iff` : they are the fields that agree with all bits but X;
* `count_text` : the X bits are the X in writing;
* `collapse_enumerates` : all of it, `accepts_iff_collapse` : the words that are accepted.
-/

namespace Microcomputer.BitField

variable {f g : BitField}

theorem mem_collapse : g ∈ f.collapse ↔ ∃ count < f.variants, f.variant count = g := by
  simp [collapse]

theorem length_collapse (f : BitField) : f.collapse.length = f.variants := by simp [collapse]

theorem pairwise_collapse (hf : f.Canonical) (hcount : f.variants = 2 ^ f.unknowns) :
    (f.collapse.map fun g => g.word.toNat).Pairwise (· < ·) := by
  rw [collapse, List.map_map, List.pairwise_map]
  apply List.pairwise_lt_range.imp_of_mem
  intro c d _ hd hcd
  apply variant_word_lt hf _ hcd
  rw [← hcount]
  exact List.mem_range.mp hd

/-- With 64 X bits the count runs over, and nothing comes up. -/
theorem collapse_eq_nil (h : 64 ≤ f.unknowns) : f.collapse = [] := by
  have hvariants : f.variants = 0 := if_neg (by omega)
  rw [collapse, hvariants]
  rfl

theorem concrete_of_mem_collapse (hf : f.Canonical) (hg : g ∈ f.collapse) :
    g.Canonical ∧ g.width = f.width ∧ g.isConcrete = true := by
  obtain ⟨count, -, rfl⟩ := mem_collapse.mp hg
  refine ⟨?_, rfl, by simp [isConcrete, variant, variantAt]⟩
  rw [variant_eq_ofWord hf]
  exact canonical_ofWord _ _

theorem exists_collapse_iff (hf : f.Canonical) (hcount : f.variants = 2 ^ f.unknowns) (w : BitVec 64) :
    (∃ g ∈ f.collapse, g.word = w) ↔ f.accepts w = true ∧ w.toNat < 2 ^ f.width := by
  rw [← toNat_lt_iff, ← exists_variant_iff hf hcount]
  constructor
  · rintro ⟨g, hg, rfl⟩
    obtain ⟨count, hlt, rfl⟩ := mem_collapse.mp hg
    exact ⟨count, hlt, rfl⟩
  · rintro ⟨count, hlt, rfl⟩
    exact ⟨_, mem_collapse.mpr ⟨count, hlt, rfl⟩, rfl⟩

/-! ## Agreement bit by bit -/

theorem bitAt_eq_unknown_iff {n : Nat} : f.bitAt n = .unknown ↔ f.care.getLsbD n = false := by
  unfold bitAt
  cases f.care.getLsbD n with
  | false => simp
  | true => cases f.value.getLsbD n <;> simp

theorem accepts_word_iff (hf : f.Canonical) (hw : f.width ≤ 64) (hwidth : g.width = f.width)
    (hconcrete : g.isConcrete = true) :
    f.accepts g.word = true ↔ ∀ n < f.width, f.bitAt n ≠ .unknown → g.bitAt n = f.bitAt n := by
  have hcare : g.care = mask f.width := by
    rw [← hwidth]
    exact eq_of_beq hconcrete
  have known : ∀ n < f.width, g.care.getLsbD n = true := by
    intro n hn
    rw [hcare, getLsbD_mask]
    simp [hn, show n < 64 by omega]
  rw [accepts_iff]
  constructor
  · intro h n hn hbit
    have hknown : f.care.getLsbD n = true := by
      rw [ne_eq, bitAt_eq_unknown_iff] at hbit
      simpa using hbit
    have hvalue := h n hknown
    rw [word, BitVec.getLsbD_and, known n hn, Bool.and_true] at hvalue
    unfold bitAt
    rw [known n hn, hknown, hvalue]
  · intro h n hknown
    have hn := hf.care_width n hknown
    have hbit := h n hn (by rw [ne_eq, bitAt_eq_unknown_iff, hknown]; decide)
    unfold bitAt at hbit
    rw [known n hn, hknown, if_pos rfl, if_pos rfl] at hbit
    rw [word, BitVec.getLsbD_and, known n hn, Bool.and_true]
    cases hg : g.value.getLsbD n <;> cases hv : f.value.getLsbD n <;> simp [hg, hv] at hbit ⊢

theorem mem_collapse_iff (hf : f.Canonical) (hw : f.width ≤ 64) (hcount : f.variants = 2 ^ f.unknowns)
    (hg : g.Canonical) (hwidth : g.width = f.width) (hconcrete : g.isConcrete = true) :
    g ∈ f.collapse ↔ ∀ n < f.width, f.bitAt n ≠ .unknown → g.bitAt n = f.bitAt n := by
  have hbelow : g.word.toNat < 2 ^ f.width := hwidth ▸ word_lt hg
  have hword : g ∈ f.collapse ↔ ∃ k ∈ f.collapse, k.word = g.word := by
    refine ⟨fun h => ⟨g, h, rfl⟩, ?_⟩
    -- both are their words
    rintro ⟨k, hk, heq⟩
    obtain ⟨ck, wk, kk⟩ := concrete_of_mem_collapse hf hk
    rw [eq_ofWord ck kk, heq, wk, ← hwidth, ← eq_ofWord hg hconcrete] at hk
    exact hk
  rw [hword, exists_collapse_iff hf hcount, and_iff_left hbelow, accepts_word_iff hf hw hwidth hconcrete]

/-- The X bits are those that are written X. -/
theorem count_text (hw : f.width ≤ 64) : f.text.toList.count 'X' = f.unknowns := by
  have hchar : ∀ b : Bit, (b.char == 'X') = (b == .unknown) := by
    intro b
    cases b <;> decide
  rw [text_eq, String.toList_ofList, List.count, List.countP_map, row, List.countP_map,
    List.countP_reverse, unknowns, unknownPositions, ← List.countP_eq_length_filter, maxWidth,
    Nat.min_eq_left hw]
  apply List.countP_congr
  intro n _
  simp only [Function.comp_apply, hchar, beq_iff_eq, bitAt_eq_unknown_iff, Bool.not_eq_true']

/-- A field with `k` X bits, which are the X in writing, has `2 ^ k` concrete fields behind it if `k` is
below 64, and none if it is 64. They have the width of the field and come in order of their words, and
they are the concrete fields of that width that agree with the field on every bit but X. -/
theorem collapse_enumerates (f : BitField) (hf : f.Canonical) (hw : f.width ≤ 64) :
    f.unknowns = f.text.toList.count 'X' ∧
    (f.unknowns < 64 →
      f.collapse.length = 2 ^ f.unknowns ∧
      (∀ g ∈ f.collapse, g.Canonical ∧ g.width = f.width ∧ g.isConcrete = true) ∧
      (f.collapse.map fun g => g.word.toNat).Pairwise (· < ·) ∧
      ∀ g : BitField, g.Canonical → g.width = f.width → g.isConcrete = true →
        (g ∈ f.collapse ↔ ∀ n < f.width, f.bitAt n ≠ .unknown → g.bitAt n = f.bitAt n)) ∧
    (f.unknowns = 64 → f.collapse = []) := by
  refine ⟨(count_text hw).symm, fun hk => ?_, fun hk => collapse_eq_nil hk.ge⟩
  have hcount := variants_eq_two_pow hw hk
  refine ⟨?_, fun g hg => concrete_of_mem_collapse hf hg, pairwise_collapse hf hcount, ?_⟩
  · rw [length_collapse, hcount]
  · intro g hg hwidth hconcrete
    exact mem_collapse_iff hf hw hcount hg hwidth hconcrete

/-- With an X for each bit but the lowest of 64, the count is as large as it can be; the last field is all
ones. -/
theorem collapse_enumerates_all_but_one : ∃ f : BitField,
    parse (String.ofList (List.replicate 63 'X' ++ ['1'])) = .ok f ∧ f.unknowns = 63 ∧
      f.collapse.length = 2 ^ 63 ∧ (f.collapse.map fun g => g.word.toNat).Pairwise (· < ·) ∧
      ofWord (BitVec.allOnes 64) 64 ∈ f.collapse ∧ ofWord 0#64 64 ∉ f.collapse := by
  have hparse : parse (String.ofList (List.replicate 63 'X' ++ ['1'])) = .ok ⟨64, 1#64, 1#64⟩ := by
    decide +kernel
  have hunknowns : unknowns ⟨64, 1#64, 1#64⟩ = 63 := by decide +kernel
  obtain ⟨-, hfields, -⟩ := collapse_enumerates _ (canonical_parse hparse) (by decide)
  rw [hunknowns] at hfields
  obtain ⟨hlength, -, hsorted, hmem⟩ := hfields (by decide)
  refine ⟨_, hparse, hunknowns, hlength, hsorted, ?_, ?_⟩
  · rw [hmem _ (canonical_ofWord _ _) rfl (by decide)]
    decide +kernel
  · rw [hmem _ (canonical_ofWord _ _) rfl (by decide)]
    decide +kernel

/-! ## Words that are accepted -/

/-- Bits from the width on are not looked at. -/
theorem accepts_and_mask (hf : f.Canonical) (w : BitVec 64) :
    f.accepts (w &&& mask f.width) = f.accepts w := by
  rw [Bool.eq_iff_iff, accepts_iff, accepts_iff]
  apply forall_congr'
  intro n
  apply imp_congr_right
  intro hknown
  have hn := hf.care_width n hknown
  have hword : n < 64 := BitVec.lt_of_getLsbD hknown
  rw [BitVec.getLsbD_and, getLsbD_mask]
  simp only [hn, hword, decide_true, Bool.and_true]

theorem toNat_and_mask_lt (w : BitVec 64) (width : Nat) : (w &&& mask width).toNat < 2 ^ width := by
  rw [toNat_and_mask]
  exact Nat.mod_lt _ (Nat.two_pow_pos width)

/-- A word is accepted if its bits below the width are the word of one of the concrete fields, so the words
of these are the words below `2 ^ width` that are accepted. -/
theorem accepts_iff_collapse (f : BitField) (hf : f.Canonical) (hw : f.width ≤ 64) (hk : f.unknowns < 64)
    (w : BitVec 64) :
    (f.accepts w = true ↔ ∃ g ∈ f.collapse, g.word = w &&& mask f.width) ∧
    ((∃ g ∈ f.collapse, g.word = w) ↔ f.accepts w = true ∧ w.toNat < 2 ^ f.width) := by
  have hcount := variants_eq_two_pow hw hk
  refine ⟨?_, exists_collapse_iff hf hcount w⟩
  rw [exists_collapse_iff hf hcount, accepts_and_mask hf, and_iff_left (toNat_and_mask_lt w f.width)]

/-- Of the words 3 and 7, both accepted, one is the word of a field. -/
theorem accepts_iff_collapse_two_bits : ∃ f : BitField, parse "1X" = .ok f ∧
    f.accepts 7#64 = true ∧ (∃ g ∈ f.collapse, g.word = 7#64 &&& mask f.width) ∧
    (∃ g ∈ f.collapse, g.word = 3#64) ∧ ¬ ∃ g ∈ f.collapse, g.word = 7#64 := by
  have hparse : parse "1X" = .ok ⟨2, 2#64, 2#64⟩ := by decide
  have haccepts : accepts ⟨2, 2#64, 2#64⟩ 7#64 = true := by decide
  have hall := accepts_iff_collapse _ (canonical_parse hparse) (by decide) (by decide)
  refine ⟨_, hparse, haccepts, (hall 7#64).1.mp haccepts, (hall 3#64).2.mpr (by decide), ?_⟩
  rw [(hall 7#64).2]
  decide

/-- The field of one bit that is 1 accepts the word 3, which has a bit beyond it. -/
theorem accepts_beyond_width : ∃ (f : BitField) (w : BitVec 64), parse "1" = .ok f ∧ w = 3#64 ∧
    f.Canonical ∧ f.width ≤ 64 ∧ f.unknowns < 64 ∧
    ¬ (f.accepts w = true ↔ ∃ g ∈ f.collapse, g.word = w) := by
  have hparse : parse "1" = .ok ⟨1, 1#64, 1#64⟩ := by decide
  refine ⟨_, _, hparse, rfl, canonical_parse hparse, ?_⟩
  decide

end Microcomputer.BitField
