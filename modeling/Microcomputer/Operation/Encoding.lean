import Microcomputer.Error

/-!
# Machine code, encodings and microcode templates

An encoding binds one signature of an operation to its instruction byte and its microprograms. Each
step of a microprogram becomes a template: a pattern of microcode addresses and the control word
they share.

* `CodeByte` : one byte of an assembled line; `ByteKind`, `ConstantKind` : what it is. Both can be
  given by number, so that a number without a meaning is a kind of its own;
* `Microprogram`, `Encoding` : the tables of an operation;
* `Encoding.templates` : the templates of an encoding.
-/

namespace Microcomputer

/-! ## Bytes of machine code -/

inductive ByteKind where
  | instruction
  | constant
  | other (code : Int)
deriving DecidableEq, Repr

namespace ByteKind

def ofCode (n : Int) : ByteKind :=
  if n = 0 then .instruction else if n = 1 then .constant else .other n

def name : ByteKind → String
  | .instruction => "instruction"
  | .constant => "constant"
  | .other n => Text.numbered "ByteType" n

end ByteKind

inductive ConstantKind where
  | none
  | label
  | variable
  | number
  | other (code : Int)
deriving DecidableEq, Repr

namespace ConstantKind

def ofCode (n : Int) : ConstantKind :=
  if n = 0 then .none
  else if n = 1 then .label
  else if n = 2 then .variable
  else if n = 3 then .number
  else .other n

def name : ConstantKind → String
  | .none => "none"
  | .label => "label"
  | .variable => "variable"
  | .number => "number"
  | .other n => Text.numbered "ConstantType" n

end ConstantKind

/-- One byte of machine code. An instruction byte has its bits from the start, a constant byte gets
them when its constant is resolved. -/
structure CodeByte where
  bits : BitField
  kind : ByteKind
  constantKind : ConstantKind
  /-- The constant as written. -/
  constant : String
  /-- The value of a number. -/
  number : Int
  /-- The position among all bytes of the program. -/
  index : Nat
deriving DecidableEq, Repr

namespace CodeByte

def instruction (bits : BitField) : CodeByte := ⟨bits, .instruction, .none, "", 0, 0⟩

/-- A constant byte that is not resolved yet. -/
def ofConstant (kind : ConstantKind) (constant : String) (number : Int) : CodeByte :=
  ⟨.empty, .constant, kind, constant, number, 0⟩

/-- Whether the byte is 8 bits without X. -/
def isResolved (byte : CodeByte) : Bool := byte.bits.width == 8 && byte.bits.isConcrete

end CodeByte

/-! ## Encodings -/

/-- A pattern of microcode addresses and their control word. An X bit of the word is inactive. -/
structure Template where
  address : BitField
  data : BitField
deriving DecidableEq, Repr

/-- The steps that an instruction takes after its fetch while some flags have given states. -/
structure Microprogram where
  conditions : List (Flag × Bool)
  steps : List (List Control)
deriving DecidableEq, Repr

/-- A signature with its instruction byte and its microprograms. -/
structure Encoding where
  signature : Signature
  instruction : BitField
  code : List Microprogram
deriving DecidableEq, Repr

namespace Microprogram

def always (steps : List (List Control)) : Microprogram := ⟨[], steps⟩

/-- The steps with their numbers. The last step also resets the step counter. -/
def numberedSteps : Nat → List (List Control) → List (Nat × List Control)
  | _, [] => []
  | n, [lines] => [(n, lines ++ [.stepReset])]
  | n, lines :: rest => (n, lines) :: numberedSteps (n + 1) rest

/-- The template of one step at the addresses of `base`. -/
def stepTemplate (base : BitField) (conditions : List (Flag × Bool)) (step : Nat × List Control) :
    Except BitError Template := do
  let flags := conditions.map fun condition => condition.1.bits condition.2
  let address ← BitField.merge (base :: Layout.stepBits step.1 :: flags)
  let data ← Control.wordOf step.2
  return ⟨address, data⟩

/-- The templates of a microprogram at the addresses of `base`. -/
def templates (base : BitField) (program : Microprogram) : Except Error (List Template) :=
  if program.steps.isEmpty || Layout.maxSteps < program.steps.length then .error .stepCount
  else
    ((numberedSteps Layout.fetchSteps program.steps).mapM
      (stepTemplate base program.conditions)).mapError .bits

end Microprogram

namespace Encoding

def templates (encoding : Encoding) : Except Error (List Template) := do
  let base ← (Layout.instructionAddress encoding.instruction).mapError .bits
  return (← encoding.code.mapM (Microprogram.templates base)).flatten

def allTemplates (encodings : List Encoding) : Except Error (List Template) :=
  (encodings.mapM templates).map List.flatten

end Encoding

end Microcomputer
