import Mathlib
import Microcomputer.Proofs.Complement
import Microcomputer.Proofs.Enumeration
import Microcomputer.Proofs.Writing

/-!
# Fields that can be made

A field is read, made of a word or a number, or made of fields that are there already. Each operation puts the
two words of its result together in its own way, and what compares fields looks at the words as they are. It may
do so: no sequence of calls leaves a value under an X, or a bit beyond the width.

* `Gives fs f` : a call that succeeds and what it gives, from the fields at hand; `Gives.canonical` : one call
  keeps the form;
* `Obtained fs` : the fields that a sequence of calls gives; `Obtained.canonical` : so does the sequence;
* `isConcrete_iff` : no bit is X exactly if no X is written;
* `obtained_in_one_form` : fields that were made are the same exactly if they are written alike.
-/

namespace Microcomputer.BitField

variable {f g h : BitField} {fs gs : List BitField}

/-! ## Sequences of calls -/

/-- A call that succeeds, and a field that it gives. It takes fields from those at hand; a width that it is given
is that of a word at most. -/
inductive Gives (fs : List BitField) : BitField → Prop
  | parse {text : String} {h : BitField} : parse text = .ok h → Gives fs h
  | unknown {width : Nat} : width ≤ 64 → Gives fs (unknown width)
  | ofWord (word : BitVec 64) {width : Nat} : width ≤ 64 → Gives fs (ofWord word width)
  | ofNumber {value width : Int} {h : BitField} : ofNumber value width = .ok h → Gives fs h
  | merge {gs : List BitField} {h : BitField} : gs ⊆ fs → merge gs = .ok h → Gives fs h
  | concat {gs : List BitField} {h : BitField} : gs ⊆ fs → concat gs = .ok h → Gives fs h
  | fill {f : BitField} (bit : Bool) : f ∈ fs → Gives fs (f.fill bit)
  | fillFrom {f g h : BitField} : f ∈ fs → g ∈ fs → f.fillFrom g = .ok h → Gives fs h
  | extract {f h : BitField} {high low : Int} : f ∈ fs → f.extract high low = .ok h → Gives fs h
  | collapse {f h : BitField} : f ∈ fs → h ∈ f.collapse → Gives fs h

/-- The fields that a sequence of calls gives, the last one first. -/
inductive Obtained : List BitField → Prop
  | start : Obtained []
  | call {fs : List BitField} {f : BitField} : Obtained fs → Gives fs f → Obtained (f :: fs)

/-! ## What calls keep -/

theorem width_parse {text : String} (e : parse text = .ok h) : h.width ≤ 64 := by
  obtain ⟨-, hlength, hrow⟩ := parseFrom_eq_ok (by decide) e
  have hwidth := congrArg List.length hrow
  rw [List.length_append, List.length_map, List.length_map, List.length_map, length_row, length_row] at hwidth
  omega

theorem width_merge (hfs : ∀ f ∈ fs, f.Canonical ∧ f.width ≤ 64) (e : merge fs = .ok h) : h.width ≤ 64 := by
  cases fs with
  | nil =>
    cases e
    decide
  | cons f rest =>
    obtain ⟨-, hwidth, -⟩ := merge_spec (fun g hg => (hfs g hg).1) e
    rw [← hwidth f List.mem_cons_self]
    exact (hfs f List.mem_cons_self).2

theorem Gives.canonical (hfs : ∀ f ∈ fs, f.Canonical ∧ f.width ≤ 64) (hgives : Gives fs h) :
    h.Canonical ∧ h.width ≤ 64 := by
  cases hgives with
  | parse e => exact ⟨canonical_parse e, width_parse e⟩
  | unknown hw => exact ⟨canonical_unknown _, hw⟩
  | ofWord word hw => exact ⟨canonical_ofWord _ _, hw⟩
  | ofNumber e =>
    obtain ⟨hcanonical, -, hwidth, -⟩ := toNumber_of_ofNumber e
    obtain ⟨⟨-, hle⟩, -⟩ := fits_iff.mp (ofNumber_eq_ok.mp e).1
    exact ⟨hcanonical, by omega⟩
  | merge hgs e =>
    have hall := fun g hg => hfs g (hgs hg)
    exact ⟨(merge_spec (fun g hg => (hall g hg).1) e).1, width_merge hall e⟩
  | concat hgs e => exact ⟨(row_concat (fun g hg => (hfs g (hgs hg)).1) e).1, (width_concat e).2⟩
  | fill bit hf => exact ⟨(hfs _ hf).1.fill bit, (hfs _ hf).2⟩
  | fillFrom hf hg e =>
    refine ⟨(hfs _ hf).1.fillFrom (hfs _ hg).1 e, ?_⟩
    obtain ⟨-, rfl⟩ := fillFrom_eq_ok.mp e
    exact (hfs _ hf).2
  | extract hf e =>
    obtain ⟨⟨hlow, hle, hhigh⟩, -⟩ := extract_eq_ok.mp e
    have hwidth := width_extract e
    have hbound := (hfs _ hf).2
    exact ⟨(hfs _ hf).1.extract e, by omega⟩
  | collapse hf hh =>
    obtain ⟨hcanonical, hwidth, -⟩ := concrete_of_mem_collapse (hfs _ hf).1 hh
    exact ⟨hcanonical, hwidth ▸ (hfs _ hf).2⟩

theorem Obtained.canonical (hobtained : Obtained fs) : ∀ f ∈ fs, f.Canonical ∧ f.width ≤ 64 := by
  induction hobtained with
  | start => exact fun f hf => nomatch hf
  | call _ hgives ih => exact List.forall_mem_cons.mpr ⟨hgives.canonical ih, ih⟩

/-! ## What may be read off the words -/

theorem isConcrete_iff (hf : f.Canonical) (hw : f.width ≤ 64) : f.isConcrete = true ↔ 'X' ∉ f.text.toList := by
  rw [← List.count_eq_zero, count_text hw, unknowns, List.length_eq_zero_iff, List.eq_nil_iff_forall_not_mem,
    isConcrete, beq_iff_eq]
  simp only [mem_unknownPositions, not_and, Bool.not_eq_false]
  constructor
  · intro hcare n hn hword
    rw [hcare, getLsbD_mask]
    simp [hn, hword]
  · intro hknown
    apply BitVec.eq_of_getLsbD_eq
    intro n hword
    rw [Bool.eq_iff_iff, getLsbD_mask, Bool.and_eq_true, decide_eq_true_eq, decide_eq_true_eq]
    exact ⟨fun hcare => ⟨hword, hf.care_width n hcare⟩, fun h => hknown n h.2 hword⟩

/-- Whatever calls a field comes from, a bit has a value only if it is not X, and only bits below the width are
not X. So fields are the same, word by word, exactly if they are written alike, and the words tell that there is
no X exactly if none is written. -/
theorem obtained_in_one_form (hfs : Obtained fs) (hgs : Obtained gs) (hf : f ∈ fs) (hg : g ∈ gs) :
    (∀ n, f.value.getLsbD n = true → f.care.getLsbD n = true) ∧
    (∀ n, f.care.getLsbD n = true → n < f.width) ∧
    (f = g ↔ f.text = g.text) ∧
    (f.isConcrete = true ↔ 'X' ∉ f.text.toList) := by
  obtain ⟨cf, hw⟩ := hfs.canonical f hf
  obtain ⟨cg, -⟩ := hgs.canonical g hg
  exact ⟨cf.value_care, cf.care_width, ⟨congrArg text, eq_of_text cf cg⟩, isConcrete_iff cf hw⟩

/-- A row of ones made of a word is the one made of 64 X bits. It has no X; the field that it was filled from is
another one, and has. -/
theorem obtained_in_one_form_filled :
    (unknown 64).fill true = ofWord (BitVec.allOnes 64) 64 ∧ ((unknown 64).fill true).isConcrete = true ∧
    unknown 64 ≠ (unknown 64).fill true ∧ (unknown 64).isConcrete = false := by
  have hunknown : Obtained [unknown 64] := .call .start (.unknown (by decide))
  have hfilled : Obtained [(unknown 64).fill true, unknown 64] := .call hunknown (.fill true List.mem_cons_self)
  have hword : Obtained [ofWord (BitVec.allOnes 64) 64] := .call .start (.ofWord _ (by decide))
  obtain ⟨-, -, hsame, hconcrete⟩ :=
    obtained_in_one_form hfilled hword List.mem_cons_self List.mem_cons_self
  obtain ⟨-, -, hother, hopen⟩ :=
    obtained_in_one_form hunknown hfilled List.mem_cons_self List.mem_cons_self
  refine ⟨hsame.mpr (by decide +kernel), hconcrete.mpr (by decide +kernel), ?_, ?_⟩
  · rw [ne_eq, hother]
    decide +kernel
  · rw [Bool.eq_false_iff, ne_eq, hopen]
    decide +kernel

end Microcomputer.BitField
