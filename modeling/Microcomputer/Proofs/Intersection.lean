import Mathlib
import Microcomputer.Proofs.Enumeration

/-!
# The overlay of fields is what they have in common

A field stands for the words that agree with all its bits but X. Laid over each other one after the other,
fields are compared with what has been gathered so far only; a word that agrees with all of them agrees with
that as well, so the fields go together exactly if there is such a word, whatever their order.

* `Agrees w f` : the word has the bits of the field, `accepts_iff_agrees` : then the field accepts it;
* `accepts_own_word` : a field accepts the word it holds, with X read as 0;
* `eq_of_accepts` : fields of one width that accept the same words are the same;
* `exists_overlay`, `exists_foldlM_overlay` : fields that accept a common word can be laid over each other;
* `overlay_eq_error`, `foldlM_overlay_eq_error` : otherwise two of their bits are in conflict;
* `exists_merge`, `care_merge` : the same for lists of fields, and the bits that their overlay leaves X;
* `merge_isOk_iff`, `merge_of_mem_iff` : when a list of fields can be overlaid, and that neither order nor
  repetition matters;
* `merge_intersects` : all of it.
-/

namespace Microcomputer.BitField

variable {f g h : BitField} {w : BitVec 64} {width : Nat}

/-! ## Words that agree with a field -/

/-- The word has the value of every bit of the field that is 0 or 1. -/
def Agrees (w : BitVec 64) (f : BitField) : Prop :=
  ∀ n < f.width, (f.bitAt n = .zero → w.getLsbD n = false) ∧ (f.bitAt n = .one → w.getLsbD n = true)

theorem accepts_iff_agrees (hf : f.Canonical) : f.accepts w = true ↔ Agrees w f := by
  rw [accepts_iff]
  unfold Agrees bitAt
  constructor
  · intro h n _
    by_cases hknown : f.care.getLsbD n = true
    · rw [if_pos hknown, h n hknown]
      cases f.value.getLsbD n <;> simp
    · rw [if_neg hknown]
      simp
  · intro h n hknown
    have hbit := h n (hf.care_width n hknown)
    rw [if_pos hknown] at hbit
    cases hvalue : f.value.getLsbD n with
    | false => exact hbit.1 (by rw [hvalue]; rfl)
    | true => exact hbit.2 (by rw [hvalue]; rfl)

theorem accepts_own_word (f : BitField) : f.accepts f.word = true := by
  rw [accepts_iff]
  intro n hknown
  rw [word, BitVec.getLsbD_and, hknown, Bool.and_true]

/-- A bit that is X may be turned over. -/
theorem accepts_flip {n : Nat} (hn : n < 64) (hw : f.accepts w = true) :
    f.accepts (w ^^^ BitVec.twoPow 64 n) = true ↔ f.care.getLsbD n = false := by
  rw [accepts_iff] at hw
  rw [accepts_iff]
  constructor
  · intro h
    by_contra hknown
    rw [Bool.not_eq_false] at hknown
    have hbit := h n hknown
    rw [BitVec.getLsbD_xor, BitVec.getLsbD_twoPow, hw n hknown] at hbit
    simp [hn] at hbit
  · intro hunknown m hm
    have hne : n ≠ m := by
      rintro rfl
      rw [hunknown] at hm
      cases hm
    rw [BitVec.getLsbD_xor, BitVec.getLsbD_twoPow, hw m hm]
    simp [hne]

theorem eq_of_accepts (hf : f.Canonical) (hg : g.Canonical) (hwidth : f.width = g.width)
    (hsame : ∀ w, f.accepts w = true ↔ g.accepts w = true) : f = g := by
  have hword : g.accepts f.word = true := (hsame _).mp f.accepts_own_word
  have hcare : f.care = g.care := by
    apply BitVec.eq_of_getLsbD_eq
    intro n hn
    rw [← Bool.not_inj_iff, Bool.eq_iff_iff, Bool.not_eq_true', Bool.not_eq_true',
      ← accepts_flip hn f.accepts_own_word, ← accepts_flip hn hword, hsame]
  apply eq_of_care hf hg hwidth hcare
  intro n hknown
  have hbit := (accepts_iff g f.word).mp hword n (hcare ▸ hknown)
  rwa [word, BitVec.getLsbD_and, hknown, Bool.and_true] at hbit

/-! ## Laying fields over each other -/

theorem exists_overlay (hwidth : g.width = f.width) (hf : f.accepts w = true) (hg : g.accepts w = true) :
    ∃ h, f.overlay g = .ok h := by
  rw [accepts_iff] at hf hg
  have hagree : (f.value ^^^ g.value) &&& (f.care &&& g.care) = 0#64 := by
    apply BitVec.eq_of_getLsbD_eq
    intro n _
    rw [BitVec.getLsbD_and, BitVec.getLsbD_xor, BitVec.getLsbD_and, BitVec.getLsbD_zero]
    cases hfn : f.care.getLsbD n with
    | false => simp
    | true =>
      cases hgn : g.care.getLsbD n with
      | false => simp
      | true => rw [← hf n hfn, ← hg n hgn, Bool.xor_self, Bool.false_and]
  unfold overlay
  rw [if_neg (not_not.mpr hwidth), if_neg (not_not.mpr hagree)]
  exact ⟨_, rfl⟩

/-- Fields of one width cannot be laid over each other for one reason only. -/
theorem overlay_eq_error {e : BitError} (hwidth : g.width = f.width) (he : f.overlay g = .error e) :
    e = .conflict := by
  unfold overlay at he
  rw [if_neg (not_not.mpr hwidth)] at he
  split at he
  · exact (Except.error.inj he).symm
  · cases he

/-- A word that all fields accept is accepted by what has been gathered of them at any time. -/
theorem exists_foldlM_overlay (fs : List BitField) (hf : f.Canonical)
    (hfs : ∀ g ∈ fs, g.Canonical ∧ g.width = f.width ∧ g.accepts w = true) (hw : f.accepts w = true) :
    ∃ h, fs.foldlM overlay f = .ok h := by
  induction fs generalizing f with
  | nil => exact ⟨f, rfl⟩
  | cons g fs ih =>
    rw [List.forall_mem_cons] at hfs
    obtain ⟨⟨hg, hwidth, hgw⟩, hrest⟩ := hfs
    obtain ⟨k, hk⟩ := exists_overlay hwidth hw hgw
    obtain ⟨ck, wk, -, ak⟩ := overlay_spec hf hg hk
    obtain ⟨h, hh⟩ := ih ck (by rwa [wk]) ((ak w).mpr ⟨hw, hgw⟩)
    refine ⟨h, ?_⟩
    rw [List.foldlM_cons]
    exact Traversal.bind_eq_ok.mpr ⟨k, hk, hh⟩

theorem foldlM_overlay_eq_error (fs : List BitField) {e : BitError} (hf : f.Canonical)
    (hfs : ∀ g ∈ fs, g.Canonical ∧ g.width = f.width) (he : fs.foldlM overlay f = .error e) :
    e = .conflict := by
  induction fs generalizing f with
  | nil => cases he
  | cons g fs ih =>
    rw [List.forall_mem_cons] at hfs
    obtain ⟨⟨hg, hwidth⟩, hrest⟩ := hfs
    rw [List.foldlM_cons] at he
    rcases Traversal.bind_eq_error.mp he with hfirst | ⟨k, hk, he⟩
    · exact overlay_eq_error hwidth hfirst
    · obtain ⟨ck, wk, -, -⟩ := overlay_spec hf hg hk
      exact ih ck (by rwa [wk]) he

/-! ## Lists of fields -/

section

variable {fs gs : List BitField}

theorem exists_merge (hfs : ∀ f ∈ fs, f.Canonical ∧ f.width = width ∧ f.accepts w = true) :
    ∃ h, merge fs = .ok h := by
  cases fs with
  | nil => exact ⟨empty, rfl⟩
  | cons f rest =>
    apply exists_foldlM_overlay (f :: rest) (canonical_unknown f.width) _ (accepts_unknown _ w)
    intro g hg
    obtain ⟨hcanonical, hwidth, haccepts⟩ := hfs g hg
    refine ⟨hcanonical, ?_, haccepts⟩
    show g.width = f.width
    rw [hwidth, (hfs f List.mem_cons_self).2.1]

theorem care_merge (hfs : ∀ f ∈ fs, f.Canonical) (e : merge fs = .ok h) {n : Nat} :
    h.care.getLsbD n = false ↔ ∀ f ∈ fs, f.care.getLsbD n = false := by
  obtain ⟨-, -, haccepts⟩ := merge_spec hfs e
  rcases Nat.lt_or_ge n 64 with hn | hn
  · have hcommon := (haccepts h.word).mp h.accepts_own_word
    rw [← accepts_flip hn h.accepts_own_word, haccepts]
    exact forall₂_congr fun f hf => accepts_flip hn (hcommon f hf)
  · rw [BitVec.getLsbD_of_ge _ _ hn]
    exact iff_of_true rfl fun f _ => BitVec.getLsbD_of_ge _ _ hn

/-- Fields can be overlaid exactly if they have one width and a word within it agrees with them all. -/
theorem merge_isOk_iff (hfs : ∀ f ∈ fs, f.Canonical) :
    (∃ h, merge fs = .ok h) ↔ ∃ width, (∀ f ∈ fs, f.width = width) ∧
      ∃ w : BitVec 64, w.toNat < 2 ^ width ∧ ∀ f ∈ fs, Agrees w f := by
  constructor
  · rintro ⟨h, hmerge⟩
    obtain ⟨ch, wfs, ah⟩ := merge_spec hfs hmerge
    have hcommon := (ah h.word).mp h.accepts_own_word
    exact ⟨h.width, wfs, h.word, word_lt ch,
      fun f hf => (accepts_iff_agrees (hfs f hf)).mp (hcommon f hf)⟩
  · rintro ⟨width, hwidth, w, -, hagrees⟩
    exact exists_merge fun f hf =>
      ⟨hfs f hf, hwidth f hf, (accepts_iff_agrees (hfs f hf)).mpr (hagrees f hf)⟩

theorem merge_eq_error {e : BitError} (hfs : ∀ f ∈ fs, f.Canonical) (hwidth : ∀ f ∈ fs, f.width = width)
    (he : merge fs = .error e) : e = .conflict := by
  cases fs with
  | nil => cases he
  | cons f rest =>
    apply foldlM_overlay_eq_error (f :: rest) (canonical_unknown f.width) _ he
    intro g hg
    refine ⟨hfs g hg, ?_⟩
    show g.width = f.width
    rw [hwidth g hg, hwidth f List.mem_cons_self]

/-- The same fields in another order, or some of them more than once, have the same overlay. -/
theorem merge_of_mem_iff (hne : fs ≠ []) (hfs : ∀ f ∈ fs, f.Canonical) (hmem : ∀ f, f ∈ gs ↔ f ∈ fs)
    (e : merge fs = .ok h) : merge gs = .ok h := by
  have hgs : ∀ g ∈ gs, g.Canonical := fun g hg => hfs g ((hmem g).mp hg)
  obtain ⟨f, hf⟩ := List.exists_mem_of_ne_nil fs hne
  obtain ⟨k, hk⟩ : ∃ k, merge gs = .ok k := by
    have hcommon := (merge_isOk_iff hfs).mp ⟨h, e⟩
    rw [merge_isOk_iff hgs]
    simpa only [hmem] using hcommon
  obtain ⟨ch, wh, ah⟩ := merge_spec hfs e
  obtain ⟨ck, wk, ak⟩ := merge_spec hgs hk
  rw [hk]
  congr 1
  apply eq_of_accepts ck ch
  · rw [← wk f ((hmem f).mpr hf), wh f hf]
  · intro w
    rw [ak, ah]
    simp only [hmem]

/-- Fields can be overlaid exactly if they have one width and some word of that width agrees with all of
them. The overlay has that width and accepts the words that all of them accept, so order and repetition do
not matter. Fields of one width that no word agrees with are in conflict, in every order. -/
theorem merge_intersects (fs : List BitField) (hne : fs ≠ []) (hfs : ∀ f ∈ fs, f.Canonical) :
    ((∃ h, merge fs = .ok h) ↔ ∃ width, (∀ f ∈ fs, f.width = width) ∧
      ∃ w : BitVec 64, w.toNat < 2 ^ width ∧ ∀ f ∈ fs, Agrees w f) ∧
    (∀ h, merge fs = .ok h → h.Canonical ∧ (∀ f ∈ fs, h.width = f.width) ∧
      ∀ w, h.accepts w = true ↔ ∀ f ∈ fs, f.accepts w = true) ∧
    (∀ gs, (∀ f, f ∈ gs ↔ f ∈ fs) → ∀ h, merge gs = .ok h ↔ merge fs = .ok h) ∧
    (∀ width, (∀ f ∈ fs, f.width = width) →
      (¬ ∃ w : BitVec 64, w.toNat < 2 ^ width ∧ ∀ f ∈ fs, Agrees w f) →
      ∀ gs, (∀ f, f ∈ gs ↔ f ∈ fs) → merge gs = .error .conflict) := by
  obtain ⟨f, hf⟩ := List.exists_mem_of_ne_nil fs hne
  refine ⟨merge_isOk_iff hfs, fun h e => ?_, fun gs hmem h => ?_, fun width hwidth hnone gs hmem => ?_⟩
  · obtain ⟨ch, wh, ah⟩ := merge_spec hfs e
    exact ⟨ch, fun g hg => (wh g hg).symm, ah⟩
  · constructor
    · have hne' : gs ≠ [] := List.ne_nil_of_mem ((hmem f).mpr hf)
      exact merge_of_mem_iff hne' (fun g hg => hfs g ((hmem g).mp hg)) fun g => (hmem g).symm
    · exact merge_of_mem_iff hne hfs hmem
  · have hgs : ∀ g ∈ gs, g.Canonical := fun g hg => hfs g ((hmem g).mp hg)
    have hwidth' : ∀ g ∈ gs, g.width = width := fun g hg => hwidth g ((hmem g).mp hg)
    cases hmerge : merge gs with
    | error e => rw [merge_eq_error hgs hwidth' hmerge]
    | ok h =>
      obtain ⟨width', hwidth'', w, hw, hagrees⟩ := (merge_isOk_iff hgs).mp ⟨h, hmerge⟩
      have hsame : width' = width := by rw [← hwidth'' f ((hmem f).mpr hf), hwidth f hf]
      exact absurd ⟨w, hsame ▸ hw, fun g hg => hagrees g ((hmem g).mpr hg)⟩ hnone

/-- Three fields that overlap, in two orders, and three of which the first and the last are in conflict at a
bit that the second leaves open. -/
theorem merge_intersects_overlapping : ∃ fs gs cs : List BitField, ∃ h : BitField,
    ["1XX0", "XX10", "1XXX"].mapM parse = .ok fs ∧ ["XX10", "1XXX", "1XX0", "XX10"].mapM parse = .ok gs ∧
    ["1X", "X0", "0X"].mapM parse = .ok cs ∧ parse "1X10" = .ok h ∧
    (∃ w : BitVec 64, w.toNat < 2 ^ 4 ∧ ∀ f ∈ fs, Agrees w f) ∧ merge gs = .ok h ∧
    (∀ w, h.accepts w = true ↔ ∀ f ∈ fs, f.accepts w = true) ∧
    (¬ ∃ h, merge cs = .ok h) ∧ merge cs.reverse = .error .conflict := by
  have hfs : ["1XX0", "XX10", "1XXX"].mapM parse =
      .ok [⟨4, 8#64, 9#64⟩, ⟨4, 2#64, 3#64⟩, ⟨4, 8#64, 8#64⟩] := by decide
  have hgs : ["XX10", "1XXX", "1XX0", "XX10"].mapM parse =
      .ok [⟨4, 2#64, 3#64⟩, ⟨4, 8#64, 8#64⟩, ⟨4, 8#64, 9#64⟩, ⟨4, 2#64, 3#64⟩] := by decide
  have hcs : ["1X", "X0", "0X"].mapM parse = .ok [⟨2, 2#64, 2#64⟩, ⟨2, 0#64, 1#64⟩, ⟨2, 0#64, 2#64⟩] := by
    decide
  have hcanonical : ∀ {texts : List String} {fs : List BitField}, texts.mapM parse = .ok fs →
      ∀ f ∈ fs, f.Canonical := by
    intro texts fs hparse f hf
    obtain ⟨text, -, htext⟩ := Traversal.mem_of_mapM hparse hf
    exact canonical_parse htext
  have hmerge : merge [⟨4, 8#64, 9#64⟩, ⟨4, 2#64, 3#64⟩, ⟨4, 8#64, 8#64⟩] = .ok ⟨4, 10#64, 11#64⟩ := by
    decide
  have hmem : ∀ a b c f : BitField, f ∈ [b, c, a, b] ↔ f ∈ [a, b, c] := by
    intro a b c f
    simp only [List.mem_cons, List.not_mem_nil, or_false]
    tauto
  have hnone : ¬ ∃ w : BitVec 64, w.toNat < 2 ^ 2 ∧
      ∀ f ∈ [(⟨2, 2#64, 2#64⟩ : BitField), ⟨2, 0#64, 1#64⟩, ⟨2, 0#64, 2#64⟩], Agrees w f := by
    rintro ⟨w, -, hw⟩
    have hone := (hw ⟨2, 2#64, 2#64⟩ (by decide) 1 (by decide)).2 (by decide)
    have hzero := (hw ⟨2, 0#64, 2#64⟩ (by decide) 1 (by decide)).1 (by decide)
    rw [hone] at hzero
    cases hzero
  obtain ⟨hiff, hspec, hany, -⟩ := merge_intersects _ (List.cons_ne_nil _ _) (hcanonical hfs)
  obtain ⟨hiff', -, -, hconflict⟩ := merge_intersects _ (List.cons_ne_nil _ _) (hcanonical hcs)
  refine ⟨_, _, _, ⟨4, 10#64, 11#64⟩, hfs, hgs, hcs, by decide, ?_, (hany _ (hmem _ _ _) _).mpr hmerge,
    (hspec _ hmerge).2.2, ?_, hconflict 2 (by decide) hnone _ fun f => List.mem_reverse⟩
  · obtain ⟨width, hwidth, hw⟩ := hiff.mp ⟨_, hmerge⟩
    rwa [← hwidth _ List.mem_cons_self] at hw
  · rw [hiff']
    rintro ⟨width, hwidth, hw⟩
    rw [← hwidth _ List.mem_cons_self] at hw
    exact hnone hw

end

end Microcomputer.BitField
