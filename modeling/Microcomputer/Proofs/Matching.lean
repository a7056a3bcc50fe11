import Mathlib
import Microcomputer.Proofs.Statement

/-!
# Matching a line with an operation

* `Argument.Shape word c` : a word of class `c` by how it is written; `Argument.classify_eq_ok_iff`,
  `Argument.classify_eq_error_iff` : a word has at most one class, and no class if it is refused;
* `CodeByte.ofArgument_eq_error_iff` : the only thing wrong with a constant is its size;
* `Encoding.Refuses sigs args cause` : why arguments go with none of the signatures `sigs`;
  `Encoding.bytes_eq_ok_iff`, `Encoding.bytes_eq_error_iff` : what arguments come to;
* `Instruction.AssemblesTo i args bytes` : the machine code of an instruction before its constants are
  resolved;
* `Operation.parseLine_outcome` : what an operation of the instruction set makes of any line.
-/

namespace Microcomputer

open Traversal

/-! ## Classes of arguments -/

namespace Argument

/-- How a word of a class is written. -/
inductive Shape : String → Argument → Prop
  | plainRegister (r : Register) : Shape r.name (.register r false)
  | indexRegister (r : Register) : Shape ("[" ++ (r.name ++ "]")) (.register r true)
  | plainConstant {word : String} : Word.isConstant word = true → Shape word (.constant false)
  | indexConstant {word : String} : Word.isConstant word = true →
      Shape ("[" ++ (word ++ "]")) (.constant true)

theorem Shape.classes_eq {word : String} {c : Argument} (h : Shape word c) : classes word = [c] := by
  have hwritten : Written (fun _ => 0) 0 word c := by
    cases h with
    | plainRegister r => exact .plainRegister r
    | indexRegister r => exact .indexRegister r
    | plainConstant hword => exact .plainConstant hword rfl
    | indexConstant hword => exact .indexConstant hword rfl
  exact classes_of_written hwritten

theorem shape_of_mem {word : String} {c : Argument} (h : c ∈ classes word) : Shape word c := by
  obtain ⟨r, rfl, rfl⟩ | ⟨r, rfl, rfl⟩ | ⟨hword, rfl⟩ | ⟨inner, hinner, rfl, rfl⟩ := mem_classes h
  · exact .plainRegister r
  · exact .indexRegister r
  · exact .plainConstant hword
  · exact .indexConstant hinner

theorem classify_eq_ok_iff {word : String} {c : Argument} : classify word = .ok c ↔ Shape word c := by
  rw [classify_eq_ok]
  refine ⟨fun h => shape_of_mem ?_, Shape.classes_eq⟩
  rw [h]
  exact List.mem_singleton_self c

/-- A word that cannot be classified has no class; it never has several. -/
theorem classify_eq_error_iff {word : String} {e : Error} : classify word = .error e ↔
    (∀ c, ¬ Shape word c) ∧ e = .explained .signatureNone (.argumentUnknown word) := by
  constructor
  · intro h
    have hnone : ∀ c, ¬ Shape word c := by
      intro c hc
      rw [classify_eq_ok_iff.mpr hc] at h
      cases h
    have hclasses : classes word = [] :=
      List.eq_nil_iff_forall_not_mem.mpr fun c hc => hnone c (shape_of_mem hc)
    rw [classify, hclasses] at h
    cases h
    exact ⟨hnone, rfl⟩
  · rintro ⟨hnone, rfl⟩
    cases h : classify word with
    | ok c => exact absurd (classify_eq_ok_iff.mp h) (hnone c)
    | error e =>
      have hclasses : classes word = [] :=
        List.eq_nil_iff_forall_not_mem.mpr fun c hc => hnone c (shape_of_mem hc)
      rw [classify, hclasses] at h
      exact h.symm

theorem Shape.isConstant_stripped {word : String} {c : Argument} (h : Shape word c)
    (hc : c.isConstant = true) : Word.isConstant (Word.stripped word) = true := by
  cases h with
  | plainConstant hword => rwa [Word.stripped_of_isConstant hword]
  | indexConstant hword => rwa [Word.stripped_bracket hword]
  | _ => cases hc

end Argument

/-! ## Bytes of constants -/

/-- A word that is no number, or a number that fits a byte. -/
def Word.FitsByte (word : String) : Prop := ∀ n, number? word = some n → -128 ≤ n ∧ n ≤ 255

namespace CodeByte

theorem not_sigiled_of_number? {word : String} {n : Int} (h : Word.number? word = some n) :
    Word.isLabel word = false ∧ Word.isVariable word = false := by
  have hsigiled : ∀ sigil ∈ ['[', '@', '$'], Word.isSigiled sigil word.toList = false := by
    intro sigil hsigil
    by_contra hcon
    rw [Word.number?_of_isSigiled hsigil (Bool.not_eq_false _ ▸ hcon)] at h
    cases h
  exact ⟨hsigiled '@' (by decide), hsigiled '$' (by decide)⟩

theorem ofArgument_eq_ok_iff {arg : String} {byte : CodeByte} :
    ofArgument arg = .ok byte ↔ IsConstant (Word.stripped arg) byte := by
  refine ⟨isConstant_ofArgument, fun h => ?_⟩
  unfold ofArgument
  change IsConstant ((Word.memoryOperand? arg).getD arg) byte at h
  generalize (Word.memoryOperand? arg).getD arg = word at h
  cases h with
  | ofLabel hlabel => simp [hlabel]
  | ofVariable hvariable => simp [Word.isLabel_of_isVariable hvariable, hvariable]
  | @ofNumber n hn hfits =>
    obtain ⟨hlabel, hvariable⟩ := not_sigiled_of_number? hn
    simp [hlabel, hvariable, hn, (BitField.fits_byte n).mpr hfits]

/-- The only thing that can be wrong with a constant is that it does not fit a byte. -/
theorem ofArgument_eq_error_iff {arg : String} (h : Word.isConstant (Word.stripped arg) = true)
    {e : Error} : ofArgument arg = .error e ↔ ∃ n, Word.number? (Word.stripped arg) = some n ∧
      ¬ (-128 ≤ n ∧ n ≤ 255) ∧ e = .bits (.numberRange n 8) := by
  have hfits : ∀ n : Int, BitField.fits n Layout.instructionWidth = true ↔ -128 ≤ n ∧ n ≤ 255 := by
    intro n
    rw [BitField.fits_byte]
    omega
  unfold ofArgument
  change Word.isConstant ((Word.memoryOperand? arg).getD arg) = true at h
  change _ ↔ ∃ n, Word.number? ((Word.memoryOperand? arg).getD arg) = some n ∧ _
  generalize (Word.memoryOperand? arg).getD arg = word at h
  constructor
  · intro herror
    dsimp only at herror
    split at herror
    · cases herror
    · rename_i hlabel
      split at herror
      · cases herror
      · rename_i hvariable
        split at herror
        · rename_i hnone
          simp [Word.isConstant, hlabel, hvariable, Word.isNumber, hnone] at h
        · rename_i n hn
          split at herror
          · cases herror
          · rename_i hrange
            cases herror
            exact ⟨n, hn, fun hcon => hrange ((hfits n).mpr hcon), rfl⟩
  · rintro ⟨n, hn, hrange, rfl⟩
    obtain ⟨hlabel, hvariable⟩ := not_sigiled_of_number? hn
    have hfits' : BitField.fits n Layout.instructionWidth = false :=
      Bool.eq_false_iff.mpr fun hcon => hrange ((hfits n).mp hcon)
    simp only [hlabel, hvariable, hn, hfits', Bool.false_eq_true, if_false]
    rfl

theorem exists_ofArgument_iff {arg : String} (h : Word.isConstant (Word.stripped arg) = true) :
    (∃ byte, ofArgument arg = .ok byte) ↔ Word.FitsByte (Word.stripped arg) := by
  constructor
  · rintro ⟨byte, hbyte⟩ n hn
    by_contra hrange
    rw [(ofArgument_eq_error_iff h).mpr ⟨n, hn, hrange, rfl⟩] at hbyte
    cases hbyte
  · intro hfits
    cases hbyte : ofArgument arg with
    | ok byte => exact ⟨byte, rfl⟩
    | error e =>
      obtain ⟨n, hn, hrange, -⟩ := (ofArgument_eq_error_iff h).mp hbyte
      exact absurd (hfits n hn) hrange

theorem IsConstant.isResolved_eq {word : String} {byte : CodeByte} (h : IsConstant word byte) :
    byte.isResolved = false := by
  cases h <;> rfl

end CodeByte

/-! ## Arguments and signatures -/

namespace Encoding

/-- Why arguments go with none of the signatures `sigs`: the first word that has no class, classes that
are those of no signature, or the first constant that does not fit a byte. -/
inductive Refuses (sigs : List Signature) (args : List String) : Error → Prop
  | unknownArgument {before after : List String} {arg : String} : args = before ++ arg :: after →
      (∀ word ∈ before, ∃ c, Argument.Shape word c) → (∀ c, ¬ Argument.Shape arg c) →
      Refuses sigs args (.explained .signatureNone (.argumentUnknown arg))
  | noSignature : (∀ word ∈ args, ∃ c, Argument.Shape word c) →
      (∀ sig ∈ sigs, ¬ List.Forall₂ Argument.Shape args sig) → Refuses sigs args .signatureNone
  | outOfRange {sig : Signature} {before after : List String} {arg : String} {n : Int} : sig ∈ sigs →
      List.Forall₂ Argument.Shape args sig → constantArguments sig args = before ++ arg :: after →
      (∀ word ∈ before, Word.FitsByte (Word.stripped word)) →
      Word.number? (Word.stripped arg) = some n → ¬ (-128 ≤ n ∧ n ≤ 255) →
      Refuses sigs args (.bits (.numberRange n 8))

theorem Refuses.not_stemsFrom {sigs : List Signature} {args : List String} {cause : Error}
    (h : Refuses sigs args cause) : cause.stemsFrom .signatureAmbiguous = false ∧
      ∀ word, cause.stemsFrom (.argumentAmbiguous word) = false ∧ cause.stemsFrom (.number word) = false := by
  cases h <;> simp [Error.stemsFrom]

theorem classes_eq_ok_iff {args : List String} {classes : List Argument} :
    args.mapM Argument.classify = .ok classes ↔ List.Forall₂ Argument.Shape args classes := by
  rw [mapM_eq_ok]
  simp only [Argument.classify_eq_ok_iff]

theorem isConstant_stripped {sig : Signature} {args : List String}
    (h : List.Forall₂ Argument.Shape args sig) {arg : String} (harg : arg ∈ constantArguments sig args) :
    Word.isConstant (Word.stripped arg) = true := by
  obtain ⟨c, hmem, hconstant⟩ := Instruction.mem_constantArguments.mp harg
  exact ((List.forall₂_iff_zip.mp h.flip).2 hmem).isConstant_stripped hconstant

section

variable {encodings : List Encoding} (hnodup : (encodings.map signature).Nodup) {args : List String}

include hnodup

theorem select_eq_ok_iff {e : Encoding} : select encodings args = .ok e ↔
    e ∈ encodings ∧ List.Forall₂ Argument.Shape args e.signature := by
  unfold select
  rw [bind_eq_ok]
  constructor
  · rintro ⟨classes, hclasses, h⟩
    split at h
    case h_2 e' hfilter =>
      cases h
      have hmem : e ∈ encodings.filter (·.signature == classes) := by
        rw [hfilter]
        exact List.mem_singleton_self e
      rw [List.mem_filter, beq_iff_eq] at hmem
      obtain ⟨he, rfl⟩ := hmem
      exact ⟨he, classes_eq_ok_iff.mp hclasses⟩
    all_goals cases h
  · rintro ⟨he, hshapes⟩
    have hfilter : encodings.filter (·.signature == e.signature) = [e] := by
      rw [← List.perm_singleton, List.perm_ext_iff_of_nodup (hnodup.of_map.filter _) (List.nodup_singleton e)]
      intro e'
      rw [List.mem_filter, beq_iff_eq, List.mem_singleton]
      constructor
      · rintro ⟨he', hsame⟩
        exact List.inj_on_of_nodup_map hnodup he' he hsame
      · rintro rfl
        exact ⟨he, rfl⟩
    refine ⟨e.signature, classes_eq_ok_iff.mpr hshapes, ?_⟩
    rw [hfilter]

/-- No two encodings go with the same arguments, so the selection fails only for want of one. -/
theorem select_eq_error {cause : Error} (h : select encodings args = .error cause) :
    (∃ before arg after, args = before ++ arg :: after ∧ (∀ word ∈ before, ∃ c, Argument.Shape word c) ∧
      (∀ c, ¬ Argument.Shape arg c) ∧ cause = .explained .signatureNone (.argumentUnknown arg)) ∨
    ((∀ word ∈ args, ∃ c, Argument.Shape word c) ∧
      (∀ sig ∈ encodings.map signature, ¬ List.Forall₂ Argument.Shape args sig) ∧
      cause = .signatureNone) := by
  have hnone : ∀ sig ∈ encodings.map signature, ¬ List.Forall₂ Argument.Shape args sig := by
    rw [List.forall_mem_map]
    intro e he hshapes
    rw [(select_eq_ok_iff hnodup).mpr ⟨he, hshapes⟩] at h
    cases h
  unfold select at h
  rcases bind_eq_error.mp h with h | ⟨classes, hclasses, h⟩
  · obtain ⟨before, arg, after, hargs, hbefore, harg⟩ := mapM_eq_error_iff.mp h
    obtain ⟨hunknown, rfl⟩ := Argument.classify_eq_error_iff.mp harg
    refine .inl ⟨before, arg, after, hargs, fun word hword => ?_, hunknown, rfl⟩
    obtain ⟨c, hc⟩ := hbefore word hword
    exact ⟨c, Argument.classify_eq_ok_iff.mp hc⟩
  · have hshapes := classes_eq_ok_iff.mp hclasses
    have hclassified : ∀ word ∈ args, ∃ c, Argument.Shape word c := by
      intro word hword
      obtain ⟨c, -, hc⟩ := exists_of_mem_left hshapes hword
      exact ⟨c, hc⟩
    have hfilter : encodings.filter (·.signature == classes) = [] := by
      rw [List.filter_eq_nil_iff]
      intro e he hsame
      rw [beq_iff_eq] at hsame
      exact hnone e.signature (List.mem_map_of_mem he) (hsame ▸ hshapes)
    rw [hfilter] at h
    cases h
    exact .inr ⟨hclassified, hnone, rfl⟩

/-- The bytes of a line: the instruction byte of the encoding with its arguments, then the bytes of the
constants among them. -/
theorem bytes_eq_ok_iff {out : List CodeByte} : bytes encodings args = .ok out ↔
    ∃ e ∈ encodings, List.Forall₂ Argument.Shape args e.signature ∧
      ∃ constants, List.Forall₂ (fun arg byte => CodeByte.IsConstant (Word.stripped arg) byte)
        (constantArguments e.signature args) constants ∧ out = .instruction e.instruction :: constants := by
  unfold bytes
  simp only [bind_eq_ok, select_eq_ok_iff hnodup, mapM_eq_ok, CodeByte.ofArgument_eq_ok_iff]
  constructor
  · rintro ⟨e, ⟨he, hshapes⟩, constants, hconstants, h⟩
    cases h
    exact ⟨e, he, hshapes, constants, hconstants, rfl⟩
  · rintro ⟨e, he, hshapes, constants, hconstants, rfl⟩
    exact ⟨e, ⟨he, hshapes⟩, constants, hconstants, rfl⟩

theorem exists_bytes_iff : (∃ out, bytes encodings args = .ok out) ↔
    ∃ sig ∈ encodings.map signature, List.Forall₂ Argument.Shape args sig ∧
      ∀ arg ∈ constantArguments sig args, Word.FitsByte (Word.stripped arg) := by
  constructor
  · rintro ⟨out, hout⟩
    obtain ⟨e, he, hshapes, constants, hconstants, -⟩ := (bytes_eq_ok_iff hnodup).mp hout
    refine ⟨e.signature, List.mem_map_of_mem he, hshapes, fun arg harg => ?_⟩
    obtain ⟨byte, -, hbyte⟩ := exists_of_mem_left hconstants harg
    exact (CodeByte.exists_ofArgument_iff (isConstant_stripped hshapes harg)).mp
      ⟨byte, CodeByte.ofArgument_eq_ok_iff.mpr hbyte⟩
  · rintro ⟨sig, hsig, hshapes, hfits⟩
    obtain ⟨e, he, rfl⟩ := List.mem_map.mp hsig
    obtain ⟨constants, hconstants⟩ := mapM_isOk fun arg harg =>
      (CodeByte.exists_ofArgument_iff (isConstant_stripped hshapes harg)).mpr (hfits arg harg)
    exact ⟨_, bind_eq_ok.mpr ⟨e, (select_eq_ok_iff hnodup).mpr ⟨he, hshapes⟩,
      bind_eq_ok.mpr ⟨constants, hconstants, rfl⟩⟩⟩

theorem refuses_of_bytes {cause : Error} (h : bytes encodings args = .error cause) :
    Refuses (encodings.map signature) args cause := by
  unfold bytes at h
  rcases bind_eq_error.mp h with h | ⟨e, he, h⟩
  · obtain ⟨before, arg, after, hargs, hbefore, hunknown, rfl⟩ | ⟨hclassified, hnone, rfl⟩ :=
      select_eq_error hnodup h
    · exact .unknownArgument hargs hbefore hunknown
    · exact .noSignature hclassified hnone
  · obtain ⟨he, hshapes⟩ := (select_eq_ok_iff hnodup).mp he
    rcases bind_eq_error.mp h with h | ⟨constants, -, h⟩
    · obtain ⟨before, arg, after, hsplit, hbefore, harg⟩ := mapM_eq_error_iff.mp h
      have hconstant : ∀ word ∈ before ++ arg :: after, Word.isConstant (Word.stripped word) = true :=
        fun word hword => isConstant_stripped hshapes (hsplit ▸ hword)
      obtain ⟨n, hn, hrange, rfl⟩ :=
        (CodeByte.ofArgument_eq_error_iff (hconstant arg (by simp))).mp harg
      refine .outOfRange (List.mem_map_of_mem he) hshapes hsplit (fun word hword => ?_) hn hrange
      exact (CodeByte.exists_ofArgument_iff (hconstant word (by simp [hword]))).mp (hbefore word hword)
    · cases h

theorem bytes_of_refuses {cause : Error} (h : Refuses (encodings.map signature) args cause) :
    bytes encodings args = .error cause := by
  cases h with
  | @unknownArgument before after arg hargs hbefore hunknown =>
    have hclasses : args.mapM Argument.classify =
        .error (.explained .signatureNone (.argumentUnknown arg)) := by
      refine mapM_eq_error_iff.mpr ⟨before, arg, after, hargs, fun word hword => ?_,
        Argument.classify_eq_error_iff.mpr ⟨hunknown, rfl⟩⟩
      obtain ⟨c, hc⟩ := hbefore word hword
      exact ⟨c, Argument.classify_eq_ok_iff.mpr hc⟩
    exact bind_eq_error.mpr (.inl (bind_eq_error.mpr (.inl hclasses)))
  | noSignature hclassified hnone =>
    cases hselect : select encodings args with
    | ok e =>
      obtain ⟨he, hshapes⟩ := (select_eq_ok_iff hnodup).mp hselect
      exact absurd hshapes (hnone e.signature (List.mem_map_of_mem he))
    | error cause =>
      obtain ⟨before, arg, after, hargs, -, hunknown, -⟩ | ⟨-, -, rfl⟩ := select_eq_error hnodup hselect
      · obtain ⟨c, hc⟩ := hclassified arg (by simp [hargs])
        exact absurd hc (hunknown c)
      · exact bind_eq_error.mpr (.inl hselect)
  | @outOfRange sig before after arg n hsig hshapes hsplit hbefore hn hrange =>
    obtain ⟨e, he, rfl⟩ := List.mem_map.mp hsig
    have hconstant : ∀ word ∈ before ++ arg :: after, Word.isConstant (Word.stripped word) = true :=
      fun word hword => isConstant_stripped hshapes (hsplit ▸ hword)
    have hconstants : (constantArguments e.signature args).mapM CodeByte.ofArgument =
        .error (.bits (.numberRange n 8)) := by
      refine mapM_eq_error_iff.mpr ⟨before, arg, after, hsplit, fun word hword => ?_, ?_⟩
      · exact (CodeByte.exists_ofArgument_iff (hconstant word (by simp [hword]))).mpr (hbefore word hword)
      · exact (CodeByte.ofArgument_eq_error_iff (hconstant arg (by simp))).mpr ⟨n, hn, hrange, rfl⟩
    exact bind_eq_error.mpr (.inr ⟨e, (select_eq_ok_iff hnodup).mpr ⟨he, hshapes⟩,
      bind_eq_error.mpr (.inl hconstants)⟩)

/-- Arguments come to no bytes exactly for the first reason that speaks against them. -/
theorem bytes_eq_error_iff {cause : Error} : bytes encodings args = .error cause ↔
    Refuses (encodings.map signature) args cause :=
  ⟨refuses_of_bytes hnodup, bytes_of_refuses hnodup⟩

end

end Encoding

/-! ## Instruction bytes -/

def ArgumentValue.code : ArgumentValue → Nat
  | .register r => r.code
  | .constant => Operand.constant.code

namespace Instruction

def fields : Instruction → InstructionSet.Group × Nat × Nat
  | .noop => (.copy, Register.acc.code, Register.acc.code)
  | .halt => (.copy, Register.a.code, Register.a.code)
  | .copy source dest => (.copy, source.code, dest.code)
  | .set dest => (.copy, Operand.constant.code, dest.code)
  | .load index dest => (.load, index.code, dest.code)
  | .store source index => (.store, source.code, index.code)
  | .push source => (.store, source.code, Operand.stack.code)
  | .pop dest => (.load, Operand.stack.code, dest.code)
  | .combine f x => (.alu, f.function.code, x.code)
  | .count f r => (.alu, f.function.code, r.code)
  | .not => (.alu, AluFunction.not.code, InstructionSet.Flow.not.code)
  | .jump => (.alu, AluFunction.not.code, InstructionSet.Flow.jump.code)
  | .jumpIf flag => (.alu, AluFunction.not.code, (InstructionSet.Flow.jumpIf flag).code)

def overlaid (i : Instruction) : Except BitError BitField :=
  BitField.merge [Layout.groupBits i.fields.1.code, Layout.sourceBits i.fields.2.1,
    Layout.destBits i.fields.2.2]

/-- The machine code of an instruction with arguments: the instruction byte, which has its bits, and a
byte without bits for each constant, in the order of the arguments. -/
structure AssemblesTo (i : Instruction) (args : List String) (bytes : List CodeByte) : Prop where
  shapes : List.Forall₂ Argument.Shape args i.signature
  bytes : ∃ bits constants, bytes = .instruction bits :: constants ∧ i.overlaid = .ok bits ∧
    (CodeByte.instruction bits).isResolved = true ∧
    List.Forall₂ (fun arg byte => CodeByte.IsConstant (Word.stripped arg) byte ∧ byte.isResolved = false)
      (Encoding.constantArguments i.signature args) constants

end Instruction

namespace InstructionSet

theorem nodup_signatures : ∀ entry ∈ table, (entry.2.map Encoding.signature).Nodup := by decide +kernel

theorem exists_overlaid : ∀ entry ∈ table, ∀ e ∈ entry.2, ∃ i : Instruction, i.mnemonic = entry.1 ∧
    i.signature = e.signature ∧ i.overlaid = .ok e.instruction ∧
    (CodeByte.instruction e.instruction).isResolved = true := by
  have hall : ∀ entry ∈ table, ∀ e ∈ entry.2, (Instruction.ofText? entry.1 e.signature).any (fun i =>
      i.mnemonic == entry.1 && i.signature == e.signature &&
        i.overlaid.toOption.any (· == e.instruction) &&
        (CodeByte.instruction e.instruction).isResolved) = true := by decide +kernel
  intro entry hentry e he
  obtain ⟨i, -, hi⟩ := (Option.any_eq_true _ _).mp (hall entry hentry e he)
  simp only [Bool.and_eq_true, beq_iff_eq] at hi
  obtain ⟨⟨⟨hmnemonic, hsignature⟩, hoverlaid⟩, hresolved⟩ := hi
  obtain ⟨bits, hbits, heq⟩ := exists_ok_of_any hoverlaid
  rw [beq_iff_eq] at heq
  exact ⟨i, hmnemonic, hsignature, heq ▸ hbits, hresolved⟩

theorem bytes_eq_ok_iff {entry : String × List Encoding} (hentry : entry ∈ table) {args : List String}
    {out : List CodeByte} : Encoding.bytes entry.2 args = .ok out ↔
      ∃ i : Instruction, i.mnemonic = entry.1 ∧ i.signature ∈ entry.2.map Encoding.signature ∧
        i.AssemblesTo args out := by
  rw [Encoding.bytes_eq_ok_iff (nodup_signatures entry hentry)]
  constructor
  · rintro ⟨e, he, hshapes, constants, hconstants, rfl⟩
    obtain ⟨i, hmnemonic, hsignature, hoverlaid, hresolved⟩ := exists_overlaid entry hentry e he
    rw [← hsignature] at hshapes hconstants
    refine ⟨i, hmnemonic, hsignature ▸ List.mem_map_of_mem he, hshapes, e.instruction, constants, rfl,
      hoverlaid, hresolved, ?_⟩
    exact hconstants.imp fun arg byte h => ⟨h, h.isResolved_eq⟩
  · rintro ⟨i, hmnemonic, hsignature, hshapes, bits, constants, rfl, hoverlaid, -, hconstants⟩
    obtain ⟨e, he, hsame⟩ := List.mem_map.mp hsignature
    obtain ⟨j, hmnemonic', hsignature', hoverlaid', -⟩ := exists_overlaid entry hentry e he
    obtain rfl := Instruction.eq_of_text (hmnemonic'.trans hmnemonic.symm) (hsignature'.trans hsame)
    rw [hoverlaid] at hoverlaid'
    cases hoverlaid'
    rw [← hsame] at hshapes hconstants
    exact ⟨e, he, hshapes, constants, hconstants.imp fun arg byte h => h.1, rfl⟩

end InstructionSet

/-! ## Lines -/

namespace Operation

theorem parseLine_of_words {entry : String × List Encoding} {line : String} {args : List String}
    (hwords : Text.words line = entry.1 :: args) : (ofEncodings entry.1 entry.2).parseLine line =
      ((parseWith entry.1 entry.2 args).map some).mapError .error := by
  simp [ofEncodings, hwords]

theorem parseLine_eq_none_iff {op : Operation} (hop : op ∈ all) {line : String} :
    op.parseLine line = .ok none ↔ (Text.words line).head? ≠ some op.mnemonic := by
  refine ⟨?_, parseLine_of_ne hop⟩
  intro hnone hhead
  obtain ⟨entry, -, rfl⟩ := List.mem_map.mp hop
  obtain ⟨args, hwords⟩ := List.head?_eq_some_iff.mp hhead
  rw [parseLine_of_words hwords, mapError_eq_ok, map_eq_ok] at hnone
  obtain ⟨bytes, -, hsome⟩ := hnone
  cases hsome

/-- What an operation of the instruction set makes of a line. It has nothing to do with a line that starts
with another word. It accepts the others if their arguments have one of its signatures and their numbers
fit a byte, as the machine code of the instruction with this signature. All other lines are refused with
the mnemonic, the arguments, the signatures and the reason, which is no defect of the tables. -/
theorem parseLine_outcome {op : Operation} (hop : op ∈ all) (line : String) :
    (op.parseLine line = .ok none ↔ (Text.words line).head? ≠ some op.mnemonic) ∧
    ∀ args, Text.words line = op.mnemonic :: args → ∃ sigs, op.signatures = .ok sigs ∧
      ((∃ bytes, op.parseLine line = .ok (some bytes)) ↔
        ∃ sig ∈ sigs, List.Forall₂ Argument.Shape args sig ∧
          ∀ arg ∈ Encoding.constantArguments sig args, Word.FitsByte (Word.stripped arg)) ∧
      (∀ bytes, op.parseLine line = .ok (some bytes) ↔
        ∃ i : Instruction, i.mnemonic = op.mnemonic ∧ i.signature ∈ sigs ∧ i.AssemblesTo args bytes) ∧
      (∀ failure, op.parseLine line = .error failure ↔ ∃ cause,
        failure = .error (.arguments op.mnemonic args sigs cause) ∧ Encoding.Refuses sigs args cause) ∧
      ∀ e, op.parseLine line = .error (.error e) → e.stemsFrom .signatureAmbiguous = false ∧
        ∀ word, e.stemsFrom (.argumentAmbiguous word) = false ∧ e.stemsFrom (.number word) = false := by
  refine ⟨parseLine_eq_none_iff hop, fun args hwords => ?_⟩
  obtain ⟨entry, hentry, rfl⟩ := List.mem_map.mp hop
  have hnodup := InstructionSet.nodup_signatures entry hentry
  have hok : ∀ bytes, (ofEncodings entry.1 entry.2).parseLine line = .ok (some bytes) ↔
      Encoding.bytes entry.2 args = .ok bytes := by
    intro bytes
    rw [parseLine_of_words hwords, mapError_eq_ok, map_eq_ok]
    simp [parseWith, mapError_eq_ok]
  have herror : ∀ failure, (ofEncodings entry.1 entry.2).parseLine line = .error failure ↔ ∃ cause,
      failure = .error (.arguments entry.1 args (entry.2.map Encoding.signature) cause) ∧
        Encoding.Refuses (entry.2.map Encoding.signature) args cause := by
    intro failure
    rw [parseLine_of_words hwords, mapError_eq_error]
    simp only [map_eq_error, parseWith, mapError_eq_error, Encoding.bytes_eq_error_iff hnodup]
    constructor
    · rintro ⟨e, ⟨cause, hcause, rfl⟩, rfl⟩
      exact ⟨cause, rfl, hcause⟩
    · rintro ⟨cause, rfl, hcause⟩
      exact ⟨_, ⟨cause, hcause, rfl⟩, rfl⟩
  refine ⟨entry.2.map Encoding.signature, rfl, ?_, ?_, herror, ?_⟩
  · simp only [hok]
    exact Encoding.exists_bytes_iff hnodup
  · intro bytes
    rw [hok, InstructionSet.bytes_eq_ok_iff hentry]
    rfl
  · intro e he
    obtain ⟨cause, hcause, hrefuses⟩ := (herror _).mp he
    cases hcause
    simpa [Error.stemsFrom] using hrefuses.not_stemsFrom

/-- A memory operand that is a number above 255 is refused, whatever the operation could do with it. -/
theorem parseLine_outcome_store : ∃ sigs,
    (ofEncodings "STORE" InstructionSet.store).parseLine "STORE A [300]" =
      .error (.error (.arguments "STORE" ["A", "[300]"] sigs (.bits (.numberRange 300 8)))) := by
  have hop : ofEncodings "STORE" InstructionSet.store ∈ all :=
    List.mem_map.mpr ⟨("STORE", InstructionSet.store), by simp [InstructionSet.table], rfl⟩
  obtain ⟨-, houtcome⟩ := parseLine_outcome hop "STORE A [300]"
  obtain ⟨sigs, hsigs, -, -, herror, -⟩ := houtcome ["A", "[300]"] (by decide +kernel)
  have hinner : Argument.Shape ("[" ++ ("300" ++ "]")) (.constant true) := .indexConstant (by decide +kernel)
  have hshapes : List.Forall₂ Argument.Shape ["A", "[300]"] [.register .a false, .constant true] :=
    .cons (.plainRegister .a) (.cons hinner .nil)
  have hsplit : Encoding.constantArguments [.register .a false, .constant true] ["A", "[300]"] =
      [] ++ "[300]" :: [] := rfl
  refine ⟨sigs, (herror _).mpr ⟨_, rfl, ?_⟩⟩
  cases hsigs
  exact .outOfRange (by decide +kernel) hshapes hsplit (by simp) (by decide +kernel) (by decide)

end Operation

end Microcomputer
