import Mathlib
import Microcomputer.Proofs.Literals
import Microcomputer.Proofs.Matching

/-!
# A word has one class

A word is put to four tests: it is a register or a constant, or its square brackets hold one. Each test has a
grammar of its own, and so has the byte of a constant, which is looked for after the brackets are gone and in
another order. They agree on every word.

* `Literal.value?_eq_none` : how no literal starts;
* `Argument.Test`, `Argument.Test.class?` : the tests, and the class of a word that passes one;
* `Argument.shape_iff` : the words that pass; `Argument.test_of_class?` : a class tells the test;
* `Argument.classify_exclusive` : no word passes two tests, and a constant that passed is a constant to its byte.
-/

namespace Microcomputer

/-! ## What is no literal -/

/-- Apart from what is passed over in front of it, a literal starts with a sign or a digit. -/
theorem Literal.value?_eq_none {c : Char} (hcloser : c ∉ closers) (hsign : c ≠ '-' ∧ c ≠ '+')
    (hdigit : ¬ digitValue c < 10) (text : List Char) : value? (c :: text) = none := by
  have hmagnitude : magnitude? (c :: text) = none := by
    rw [Option.eq_none_iff_forall_ne_some]
    intro m hm
    obtain ⟨d, hd, hlt⟩ := head_of_magnitude? hm
    cases hd
    exact hdigit hlt
  rw [value?, skip_of_faces (.character hcloser)]
  split
  · rename_i heq
    cases heq
    exact absurd rfl hsign.1
  · rename_i heq
    cases heq
    exact absurd rfl hsign.2
  · rename_i heq
    cases heq
    rw [hmagnitude]
    rfl
  · rfl

/-- No literal starts with a square bracket or a letter, whatever the alphabet. -/
theorem Literal.value?_of_bracket_or_letter {c : Char} (hc : c = '[' ∨ c.isAlpha = true ∨ 128 ≤ c.toNat)
    (text : List Char) : value? (c :: text) = none := by
  have hall : c ∉ closers ∧ (c ≠ '-' ∧ c ≠ '+') ∧ ¬ digitValue c < 10 := by
    induction c using ascii_cases with
    | small k hk =>
      have hsmall : ∀ k < 128, (Char.ofNat k = '[' ∨ (Char.ofNat k).isAlpha = true ∨ 128 ≤ (Char.ofNat k).toNat) →
          Char.ofNat k ∉ closers ∧ (Char.ofNat k ≠ '-' ∧ Char.ofNat k ≠ '+') ∧
            ¬ digitValue (Char.ofNat k) < 10 := by
        decide +kernel
      exact hsmall k hk hc
    | large c hlarge =>
      have hascii : ∀ d ∈ '-' :: '+' :: closers, d.toNat < 128 := by simp [closers]
      have hne : ∀ d ∈ '-' :: '+' :: closers, c ≠ d := by
        rintro d hd rfl
        exact absurd (hascii c hd) (Nat.not_lt.mpr hlarge)
      exact ⟨fun h => hne c (by simp [h]) rfl, ⟨hne _ (by decide), hne _ (by decide)⟩,
        by simp [digitValue_of_large hlarge]⟩
  exact value?_eq_none hall.1 hall.2.1 hall.2.2 text

namespace Argument

/-! ## Tests -/

inductive Test where
  | register
  | indexRegister
  | constant
  | indexConstant
deriving DecidableEq, Repr

/-- The tests in the order in which they are made. -/
def Test.all : List Test := [.register, .indexRegister, .constant, .indexConstant]

/-- The class of a word that passes a test. -/
def Test.class? (word : String) : Test → Option Argument
  | register => (Register.ofName? word).map (Argument.register · false)
  | indexRegister => ((Word.memoryOperand? word).bind Register.ofName?).map (Argument.register · true)
  | constant => if Word.isConstant word then some (.constant false) else none
  | indexConstant => if (Word.memoryOperand? word).any Word.isConstant then some (.constant true) else none

variable {word : String} {c d : Argument} {s t : Test}

theorem Test.mem_all (t : Test) : t ∈ all := by cases t <;> decide

theorem classes_eq_filterMap (word : String) : classes word = Test.all.filterMap (Test.class? word) := by
  have hsome : ∀ (b : Bool) (c : Argument), (if b then some c else none).toList = if b then [c] else [] := by
    rintro (- | -) c <;> rfl
  simp [List.filterMap_eq_flatMap_toList, Test.all, Test.class?, classes, hsome]

/-- A word passes a test exactly if it is written as the test's class. -/
theorem shape_iff : Shape word c ↔ ∃ t : Test, t.class? word = some c := by
  have hmem : c ∈ classes word ↔ ∃ t : Test, t.class? word = some c := by
    rw [classes_eq_filterMap, List.mem_filterMap]
    exact exists_congr fun t => and_iff_right t.mem_all
  rw [← hmem]
  refine ⟨fun h => ?_, shape_of_mem⟩
  rw [h.classes_eq]
  exact List.mem_singleton_self c

theorem Shape.unique (hc : Shape word c) (hd : Shape word d) : c = d :=
  List.singleton_inj.mp (hc.classes_eq.symm.trans hd.classes_eq)

def test (c : Argument) : Test :=
  match c.isConstant, c.inMemory with
  | false, false => .register
  | false, true => .indexRegister
  | true, false => .constant
  | true, true => .indexConstant

theorem test_of_class? (h : t.class? word = some c) : c.test = t := by
  cases t with
  | register | indexRegister =>
    obtain ⟨r, -, rfl⟩ := Option.map_eq_some_iff.mp h
    rfl
  | constant | indexConstant =>
    cases (Option.ite_none_right_eq_some.mp h).2
    rfl

/-! ## One class -/

/-- The byte of a constant does not depend on its brackets. -/
theorem ofArgument_stripped (h : Word.isConstant (Word.stripped word) = true) :
    CodeByte.ofArgument (Word.stripped word) = CodeByte.ofArgument word := by
  unfold CodeByte.ofArgument
  rw [Word.memoryOperand?_of_isConstant h]
  rfl

/-- No word passes two tests. So it has the class of the test that it passes, and is refused, as a word of no
class and never as one of several, if it passes none. A word that has the class of a constant holds a label, a
variable or a number, which its byte is made of, with brackets or without them; only the size of the number can
keep it from being made. What no literal may start with, the reader of literals refuses. -/
theorem classify_exclusive (word : String) :
    (∀ s t : Test, (s.class? word).isSome = true → (t.class? word).isSome = true → s = t) ∧
    (∀ c, classify word = .ok c ↔ ∃ t : Test, t.class? word = some c) ∧
    (∀ e, classify word = .error e ↔
      (∀ t : Test, t.class? word = none) ∧ e = .explained .signatureNone (.argumentUnknown word)) ∧
    (∀ other, classify word ≠ .error (.argumentAmbiguous other)) ∧
    (∀ c, classify word = .ok c → c.isConstant = true →
      (Word.isLabel (Word.stripped word) = true ∨ Word.isVariable (Word.stripped word) = true ∨
        ∃ n, Word.number? (Word.stripped word) = some n) ∧
      CodeByte.ofArgument (Word.stripped word) = CodeByte.ofArgument word ∧
      (∀ byte, CodeByte.ofArgument word = .ok byte ↔ CodeByte.IsConstant (Word.stripped word) byte) ∧
      (∀ e, CodeByte.ofArgument word = .error e ↔ ∃ n, Word.number? (Word.stripped word) = some n ∧
        ¬ (-128 ≤ n ∧ n ≤ 255) ∧ e = .bits (.numberRange n 8))) ∧
    (∀ first : Char, first = '[' ∨ first.isAlpha = true ∨ 128 ≤ first.toNat →
      ∀ rest, Literal.value? (first :: rest) = none) := by
  have herror : ∀ e, classify word = .error e ↔
      (∀ t : Test, t.class? word = none) ∧ e = .explained .signatureNone (.argumentUnknown word) := by
    intro e
    simp only [classify_eq_error_iff, shape_iff, not_exists]
    rw [forall_comm]
    simp only [Option.eq_none_iff_forall_ne_some]
  refine ⟨?_, fun c => classify_eq_ok_iff.trans shape_iff, herror, ?_, ?_,
    fun first => Literal.value?_of_bracket_or_letter⟩
  · intro s t hs ht
    obtain ⟨c, hc⟩ := Option.isSome_iff_exists.mp hs
    obtain ⟨d, hd⟩ := Option.isSome_iff_exists.mp ht
    have hsame : c = d := (shape_iff.mpr ⟨s, hc⟩).unique (shape_iff.mpr ⟨t, hd⟩)
    rw [← test_of_class? hc, ← test_of_class? hd, hsame]
  · intro other h
    obtain ⟨-, hcause⟩ := (herror _).mp h
    cases hcause
  · intro c hc hconstant
    have hinner := (classify_eq_ok_iff.mp hc).isConstant_stripped hconstant
    refine ⟨?_, ofArgument_stripped hinner, fun byte => CodeByte.ofArgument_eq_ok_iff,
      fun e => CodeByte.ofArgument_eq_error_iff hinner⟩
    rwa [Word.isConstant, Bool.or_eq_true, Bool.or_eq_true, Word.isNumber, Option.isSome_iff_exists, or_assoc]
      at hinner

/-- A number in brackets is a constant, too large for a byte here; a register in brackets passes another test,
and what is in brackets twice passes none. -/
theorem classify_exclusive_brackets :
    classify "[300]" = .ok (.constant true) ∧
    CodeByte.ofArgument "[300]" = .error (.bits (.numberRange 300 8)) ∧
    Test.class? "[ACC]" .constant = none ∧
    classify "[[1]]" = .error (.explained .signatureNone (.argumentUnknown "[[1]]")) := by
  obtain ⟨-, hok, -, -, hconstant, -⟩ := classify_exclusive "[300]"
  obtain ⟨hone, -⟩ := classify_exclusive "[ACC]"
  obtain ⟨-, -, herror, -⟩ := classify_exclusive "[[1]]"
  have hclass : classify "[300]" = .ok (.constant true) := (hok _).mpr ⟨.indexConstant, by decide +kernel⟩
  obtain ⟨-, -, -, hrange⟩ := hconstant _ hclass rfl
  refine ⟨hclass, (hrange _).mpr ⟨300, by decide +kernel, by decide, rfl⟩, ?_, ?_⟩
  · rw [← Option.not_isSome_iff_eq_none]
    intro hsome
    exact absurd (hone .constant .indexRegister hsome (by decide +kernel)) (by decide)
  · refine (herror _).mpr ⟨fun t => ?_, rfl⟩
    cases t <;> decide +kernel

end Argument

end Microcomputer
