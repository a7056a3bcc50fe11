import Mathlib
import Microcomputer.Proofs.Execution
import Microcomputer.Proofs.Reading

/-!
# Instructions as they are written

* `Argument.Written value k arg c` : how an argument is written, where `value` gives the byte of every
  constant and `k` is the byte that stands behind the instruction;
* `Argument.written_iff` : arguments are classified as they are written;
* `Instruction.WrittenIn value raw i k` : a line of source that holds the instruction `i` with the
  constant `k`;
* `Instruction.eq_of_text` : mnemonic and signature determine the instruction;
* `Instruction.pc_execute` : PC after an instruction that does not jump.
-/

namespace Microcomputer

open Traversal

/-! ## Words in brackets -/

namespace Word

def stripped (word : String) : String := (memoryOperand? word).getD word

theorem toList_bracket (rest : String) : ("[" ++ rest).toList = '[' :: rest.toList := by
  rw [String.toList_append]
  rfl

/-- No number starts with a bracket or a sigil. -/
theorem number?_eq_none {word : String} {c : Char} {text : List Char} (h : word.toList = c :: text)
    (hc : c ∈ ['[', '@', '$']) : number? word = none := by
  have hskip : Literal.skip true false (c :: text) = .character (c :: text) := by
    fin_cases hc <;> simp [Literal.skip]
  have hdigits : Literal.digits? (c :: text) = none := by
    fin_cases hc <;> simp [Literal.digits?, Literal.decimal?, Literal.numeral?, Literal.digitValue]
  have hvalue : Literal.value? (c :: text) = none := by
    fin_cases hc <;> simp [Literal.value?, hskip, Literal.magnitude?, hdigits]
  rw [number?, h]
  fin_cases hc <;> simp [dropMark, hvalue]

theorem number?_of_isSigiled {word : String} {sigil : Char} (hsigil : sigil ∈ ['[', '@', '$'])
    (h : isSigiled sigil word.toList = true) : number? word = none := by
  cases htext : word.toList with
  | nil =>
    rw [htext] at h
    cases h
  | cons c text =>
    refine number?_eq_none htext ?_
    rw [htext] at h
    cases text with
    | nil => cases h
    | cons d rest =>
      simp only [isSigiled, Bool.and_eq_true, beq_iff_eq] at h
      rwa [h.1.1]

theorem isConstant_bracket (rest : String) : isConstant ("[" ++ rest) = false := by
  have hsigiled : ∀ sigil text, sigil ≠ '[' → isSigiled sigil ('[' :: text) = false := by
    intro sigil text hsigil
    cases text with
    | nil => rfl
    | cons c cs => simp [isSigiled, hsigil.symm]
  rw [isConstant, isLabel, isVariable, isNumber, number?_eq_none (toList_bracket rest) (by decide), toList_bracket,
    hsigiled _ _ (by decide), hsigiled _ _ (by decide)]
  rfl

theorem memoryOperand?_eq_some {word inner : String} :
    memoryOperand? word = some inner ↔ inner ≠ "" ∧ word = "[" ++ (inner ++ "]") := by
  have htext : ("[" ++ (inner ++ "]")).toList = '[' :: (inner.toList ++ [']']) := by
    rw [toList_bracket, String.toList_append]
    rfl
  unfold memoryOperand?
  constructor
  · intro h
    split at h
    case h_1 c rest hword =>
      split at h
      case isTrue hlast =>
        cases h
        refine ⟨by simp, ?_⟩
        rw [← String.toList_inj, htext, hword, String.toList_ofList, List.cons_append]
        obtain ⟨init, rfl⟩ := List.getLast?_eq_some_iff.mp hlast
        rw [List.dropLast_concat]
      case isFalse => cases h
    case h_2 => cases h
  · rintro ⟨hne, rfl⟩
    rw [htext]
    cases hinner : inner.toList with
    | nil => exact absurd (String.toList_eq_nil_iff.mp hinner) hne
    | cons c cs =>
      rw [List.cons_append]
      simp only [List.getLast?_concat, if_true, List.dropLast_concat]
      rw [← hinner, String.ofList_toList]

theorem memoryOperand?_of_isConstant {word : String} (h : isConstant word = true) :
    memoryOperand? word = none := by
  cases hinner : memoryOperand? word with
  | none => rfl
  | some inner =>
    obtain ⟨-, rfl⟩ := memoryOperand?_eq_some.mp hinner
    rw [isConstant_bracket] at h
    cases h

theorem stripped_of_isConstant {word : String} (h : isConstant word = true) :
    stripped word = word := by
  rw [stripped, memoryOperand?_of_isConstant h]
  rfl

theorem memoryOperand?_bracket {word : String} (h : isConstant word = true) :
    memoryOperand? ("[" ++ (word ++ "]")) = some word := by
  refine memoryOperand?_eq_some.mpr ⟨?_, rfl⟩
  rintro rfl
  exact absurd h (by decide)

theorem stripped_bracket {word : String} (h : isConstant word = true) :
    stripped ("[" ++ (word ++ "]")) = word := by
  rw [stripped, memoryOperand?_bracket h]
  rfl

end Word

/-! ## Arguments -/

theorem Register.ofName?_eq_some {name : String} {r : Register} :
    ofName? name = some r ↔ name = r.name := by
  constructor
  · intro h
    have hname := List.find?_some h
    rw [beq_iff_eq] at hname
    exact hname.symm
  · rintro rfl
    cases r <;> rfl

theorem Register.ofName?_of_isConstant {word : String} (h : Word.isConstant word = true) :
    ofName? word = none := by
  have hname : ∀ r : Register, Word.isConstant r.name = false := by
    intro r
    cases r <;> rfl
  cases hword : ofName? word with
  | none => rfl
  | some r =>
    rw [ofName?_eq_some.mp hword, hname r] at h
    cases h

namespace Argument

/-- How an argument is written. `value` gives the byte of every constant, and `k` is the byte of the
constant of the line. -/
inductive Written (value : String → UInt8) (k : UInt8) : String → Argument → Prop
  | plainRegister (r : Register) : Written value k r.name (.register r false)
  | indexRegister (r : Register) : Written value k ("[" ++ (r.name ++ "]")) (.register r true)
  | plainConstant {word : String} : Word.isConstant word = true → value word = k →
      Written value k word (.constant false)
  | indexConstant {word : String} : Word.isConstant word = true → value word = k →
      Written value k ("[" ++ (word ++ "]")) (.constant true)

theorem classify_eq_ok {arg : String} {c : Argument} : classify arg = .ok c ↔ classes arg = [c] := by
  unfold classify
  split
  case h_1 h => simp [h]
  case h_2 d h => simp [h]
  case h_3 h h' =>
    constructor
    · intro hcon
      cases hcon
    · intro hcon
      exact absurd hcon (h' c)

theorem mem_classes {arg : String} {c : Argument} (h : c ∈ classes arg) :
    (∃ r : Register, arg = r.name ∧ c = .register r false) ∨
    (∃ r : Register, arg = "[" ++ (r.name ++ "]") ∧ c = .register r true) ∨
    (Word.isConstant arg = true ∧ c = .constant false) ∨
    ∃ word, Word.isConstant word = true ∧ arg = "[" ++ (word ++ "]") ∧ c = .constant true := by
  simp only [classes, List.mem_append, Option.mem_toList, Option.map_eq_some_iff,
    Option.bind_eq_some_iff] at h
  rcases h with ((⟨r, hr, rfl⟩ | ⟨r, ⟨word, hword, hr⟩, rfl⟩) | h) | h
  · exact .inl ⟨r, Register.ofName?_eq_some.mp hr, rfl⟩
  · rw [Register.ofName?_eq_some.mp hr] at hword
    exact .inr (.inl ⟨r, (Word.memoryOperand?_eq_some.mp hword).2, rfl⟩)
  · split at h
    · exact .inr (.inr (.inl ⟨‹_›, List.mem_singleton.mp h⟩))
    · cases h
  · split at h
    case isTrue hany =>
      obtain ⟨word, hword, hconstant⟩ := (Option.any_eq_true _ _).mp hany
      exact .inr (.inr (.inr ⟨word, hconstant, (Word.memoryOperand?_eq_some.mp hword).2,
        List.mem_singleton.mp h⟩))
    case isFalse => cases h

theorem classes_of_written {value : String → UInt8} {k : UInt8} {arg : String} {c : Argument}
    (h : Written value k arg c) : classes arg = [c] := by
  cases h with
  | plainRegister r => cases r <;> rfl
  | indexRegister r => cases r <;> rfl
  | plainConstant hword =>
    simp [classes, Register.ofName?_of_isConstant hword, Word.memoryOperand?_of_isConstant hword, hword]
  | @indexConstant word hword =>
    have hregister : Register.ofName? ("[" ++ (word ++ "]")) = none := by
      cases hname : Register.ofName? ("[" ++ (word ++ "]")) with
      | none => rfl
      | some r =>
        have htext := congrArg String.toList (Register.ofName?_eq_some.mp hname)
        rw [Word.toList_bracket] at htext
        cases r <;> cases htext
    simp [classes, hregister, Word.memoryOperand?_bracket hword, Register.ofName?_of_isConstant hword,
      Word.isConstant_bracket, hword]

theorem written_iff {value : String → UInt8} {k : UInt8} {arg : String} {c : Argument} :
    Written value k arg c ↔
      classify arg = .ok c ∧ (c.isConstant = true → value (Word.stripped arg) = k) := by
  constructor
  · intro h
    refine ⟨classify_eq_ok.mpr (classes_of_written h), ?_⟩
    cases h with
    | plainConstant hword hvalue =>
      rw [Word.stripped_of_isConstant hword]
      exact fun _ => hvalue
    | indexConstant hword hvalue =>
      rw [Word.stripped_bracket hword]
      exact fun _ => hvalue
    | _ => exact fun h => (nomatch h)
  · rintro ⟨hclassify, hvalue⟩
    have hmem : c ∈ classes arg := by
      rw [classify_eq_ok.mp hclassify]
      exact List.mem_singleton_self c
    obtain ⟨r, rfl, rfl⟩ | ⟨r, rfl, rfl⟩ | ⟨hword, rfl⟩ | ⟨word, hword, rfl, rfl⟩ := mem_classes hmem
    · exact .plainRegister r
    · exact .indexRegister r
    · rw [Word.stripped_of_isConstant hword] at hvalue
      exact .plainConstant hword (hvalue rfl)
    · rw [Word.stripped_bracket hword] at hvalue
      exact .indexConstant hword (hvalue rfl)

end Argument

/-! ## Instructions -/

namespace Instruction

def ofText? : String → Signature → Option Instruction
  | "NOOP", [] => some .noop
  | "HALT", [] => some .halt
  | "COPY", [⟨.register source, _⟩, ⟨.register dest, _⟩] => some (.copy source dest)
  | "SET", [⟨.register dest, _⟩, _] => some (.set dest)
  | "LOAD", [⟨index, _⟩, ⟨.register dest, _⟩] => some (.load index dest)
  | "STORE", [⟨.register source, _⟩, ⟨index, _⟩] => some (.store source index)
  | "PUSH", [⟨.register source, _⟩] => some (.push source)
  | "POP", [⟨.register dest, _⟩] => some (.pop dest)
  | "ADD", [⟨x, _⟩] => some (.combine .add x)
  | "SUB", [⟨x, _⟩] => some (.combine .sub x)
  | "AND", [⟨x, _⟩] => some (.combine .and x)
  | "OR", [⟨x, _⟩] => some (.combine .or x)
  | "XOR", [⟨x, _⟩] => some (.combine .xor x)
  | "INCR", [⟨.register r, _⟩] => some (.count .incr r)
  | "DECR", [⟨.register r, _⟩] => some (.count .decr r)
  | "NOT", [] => some .not
  | "JUMP", [_] => some .jump
  | "JUMP_IF_ZERO_FLAG", [_] => some (.jumpIf .zero)
  | "JUMP_IF_CARRY_FLAG", [_] => some (.jumpIf .carry)
  | "JUMP_IF_NEGATIVE_FLAG", [_] => some (.jumpIf .negative)
  | "JUMP_IF_OVERFLOW_FLAG", [_] => some (.jumpIf .overflow)
  | _, _ => none

theorem ofText?_text (i : Instruction) : ofText? i.mnemonic i.signature = some i := by
  cases i with
  | combine f x => cases f <;> rfl
  | count f r => cases f <;> rfl
  | jumpIf flag => cases flag <;> rfl
  | _ => rfl

theorem eq_of_text {i j : Instruction} (hmnemonic : i.mnemonic = j.mnemonic)
    (hsignature : i.signature = j.signature) : i = j := by
  have hi := ofText?_text i
  rw [hmnemonic, hsignature, ofText?_text j] at hi
  exact (Option.some.inj hi).symm

def constants (i : Instruction) : Nat := i.signature.countP Argument.isConstant

theorem constants_le_one (i : Instruction) : i.constants ≤ 1 := by
  cases i with
  | load index dest => cases index <;> exact Nat.le_of_ble_eq_true rfl
  | store source index => cases index <;> exact Nat.le_of_ble_eq_true rfl
  | combine f x => cases x <;> exact Nat.le_of_ble_eq_true rfl
  | _ => exact Nat.le_of_ble_eq_true rfl

/-- What is no constant of an instruction does not matter to it. -/
theorem execute_congr {i : Instruction} {k l : UInt8} (h : i.constants ≠ 0 → k = l) (s : State) :
    i.execute k s = i.execute l s := by
  cases i with
  | set dest => rw [h Nat.one_ne_zero]
  | load index dest =>
    cases index with
    | register r => rfl
    | constant => rw [h Nat.one_ne_zero]
  | store source index =>
    cases index with
    | register r => rfl
    | constant => rw [h Nat.one_ne_zero]
  | combine f x =>
    cases x with
    | register r => rfl
    | constant => rw [h Nat.one_ne_zero]
  | jump => rw [h Nat.one_ne_zero]
  | jumpIf flag => rw [h Nat.one_ne_zero]
  | _ => rfl

/-- Whether an instruction leaves the order of the program: a copy into PC, a jump, or a jump on a
flag that is set. -/
def jumps (i : Instruction) (s : State) : Bool :=
  match i with
  | .copy _ dest => dest == .pc
  | .jump => true
  | .jumpIf flag => flag.isSet s.flags
  | _ => false

/-- The register that an instruction puts its result in. -/
def target? : Instruction → Option Register
  | .copy _ dest | .set dest | .load _ dest | .pop dest => some dest
  | .count _ r => some r
  | .combine _ _ | .not => some .acc
  | _ => none

/-- Of the instructions that have a byte only copies put their result in PC. -/
theorem target?_of_decode {byte : UInt8} {i : Instruction} (h : decode byte = some i)
    (hcopy : ∀ source dest, i ≠ .copy source dest) : i.target? ≠ some .pc := by
  have hall : InstructionSet.decodable.all (fun byte => (decode byte).any fun i =>
      match i with
      | .copy _ _ => true
      | i => i.target? != some .pc) = true := by decide +kernel
  have hmem := (InstructionSet.mem_decodable byte).mpr (by rw [h]; rfl)
  have hi := List.all_eq_true.mp hall byte hmem
  rw [h, Option.any_some] at hi
  split at hi
  · exact absurd rfl (hcopy _ _)
  · exact bne_iff_ne.mp hi

theorem pc_put {r : Register} (hr : some r ≠ some .pc) (s : State) (value : UInt8) :
    (s.put r value).pc = s.pc := by
  cases r with
  | pc => exact absurd rfl hr
  | _ => rfl

theorem pc_operand (s : State) (k : UInt8) (c : Argument) :
    (s.operand k c.value).2.pc = s.pc + .ofNat ([c].countP Argument.isConstant) := by
  obtain ⟨x, inMemory⟩ := c
  cases x with
  | register r => exact (UInt8.add_zero s.pc).symm
  | constant => rfl

/-- PC after an instruction that does not jump is behind the instruction and its constants. -/
theorem pc_perform {i : Instruction} {s : State} (htarget : i.target? ≠ some .pc)
    (hjumps : i.jumps s = false) (k : UInt8) : (i.perform k s).pc = s.pc + .ofNat i.constants := by
  have hstays : s.pc = s.pc + .ofNat 0 := (UInt8.add_zero s.pc).symm
  cases i with
  | copy source dest => rwa [perform, pc_put htarget]
  | set dest =>
    rw [perform, pc_put htarget]
    rfl
  | load index dest =>
    rw [perform, pc_put htarget]
    exact pc_operand s k ⟨index, true⟩
  | store source index => exact pc_operand s k ⟨index, true⟩
  | pop dest => rwa [perform, pc_put htarget]
  | combine f x => exact pc_operand s k ⟨x, false⟩
  | count f r => rwa [perform, State.combine, pc_put htarget]
  | jump => cases hjumps
  | jumpIf flag =>
    rw [jumps] at hjumps
    rw [perform, hjumps]
    rfl
  | _ => exact hstays

theorem pc_execute {byte : UInt8} {i : Instruction} (h : decode byte = some i) {s : State}
    (hjumps : i.jumps s = false) (k : UInt8) :
    (i.execute k s).pc = s.pc + 1 + .ofNat i.constants := by
  have htarget : i.target? ≠ some .pc := by
    intro htarget
    refine target?_of_decode h ?_ htarget
    rintro source dest rfl
    rw [Option.some.inj htarget] at hjumps
    cases hjumps
  have hjumps' : i.jumps { s with pc := s.pc + 1 } = false := by
    cases i <;> exact hjumps
  exact pc_perform htarget hjumps' k

/-! ## Lines with an instruction -/

/-- A line of source that holds an instruction with the constant `k`. -/
def WrittenIn (value : String → UInt8) (raw : String) (i : Instruction) (k : UInt8) : Prop :=
  ∃ args, Text.words (Line.cleanText raw) = i.mnemonic :: args ∧
    List.Forall₂ (Argument.Written value k) args i.signature

theorem mem_constantArguments {sig : Signature} {args : List String} {arg : String} :
    arg ∈ Encoding.constantArguments sig args ↔
      ∃ c, (c, arg) ∈ sig.zip args ∧ c.isConstant = true := by
  simp [Encoding.constantArguments]

theorem length_constantArguments {sig : Signature} {args : List String}
    (h : args.length = sig.length) :
    (Encoding.constantArguments sig args).length = sig.countP Argument.isConstant := by
  have hfst : (sig.zip args).map Prod.fst = sig := List.map_fst_zip (Nat.le_of_eq h.symm)
  rw [Encoding.constantArguments, List.length_map, ← List.countP_eq_length_filter]
  conv_rhs => rw [← hfst, List.countP_map]
  rfl

/-- A line whose arguments have the signature of an instruction holds this instruction and no other
one, with the value of its constant. -/
theorem writtenIn_iff {value : String → UInt8} {raw : String} {i j : Instruction} {k : UInt8}
    {args : List String} (hwords : Text.words (Line.cleanText raw) = i.mnemonic :: args)
    (hclasses : List.Forall₂ (fun arg c => Argument.classify arg = .ok c) args i.signature) :
    WrittenIn value raw j k ↔ j = i ∧
      ∀ arg ∈ Encoding.constantArguments i.signature args, value (Word.stripped arg) = k := by
  constructor
  · rintro ⟨args', hwords', hwritten⟩
    rw [hwords, List.cons_eq_cons] at hwords'
    obtain ⟨hmnemonic, rfl⟩ := hwords'
    have hsignature : j.signature = i.signature := by
      have hj := mapM_eq_ok.mpr (hwritten.imp fun _ _ h => (Argument.written_iff.mp h).1)
      rw [mapM_eq_ok.mpr hclasses] at hj
      exact (Except.ok.inj hj).symm
    obtain rfl := eq_of_text hmnemonic.symm hsignature
    refine ⟨rfl, fun arg harg => ?_⟩
    obtain ⟨c, hmem, hconstant⟩ := mem_constantArguments.mp harg
    have hc := (List.forall₂_iff_zip.mp hwritten.flip).2 hmem
    exact (Argument.written_iff.mp hc).2 hconstant
  · rintro ⟨rfl, hvalue⟩
    obtain ⟨hlength, hzip⟩ := List.forall₂_iff_zip.mp hclasses.flip
    have hwritten : List.Forall₂ (flip (Argument.Written value k)) j.signature args := by
      refine List.forall₂_iff_zip.mpr ⟨hlength, fun {c arg} hmem => ?_⟩
      refine Argument.written_iff.mpr ⟨hzip hmem, fun hconstant => ?_⟩
      exact hvalue arg (mem_constantArguments.mpr ⟨c, hmem, hconstant⟩)
    exact ⟨args, hwords, hwritten.flip⟩

end Instruction

end Microcomputer
