import Microcomputer.Assembly.Resolve
import Microcomputer.Operation.Standard

/-!
# The assembler

* `Assembler.process` : assembles lines of source;
* `Assembler.assemble` : assembles a text;
* `Assembler.transcript` : what the assembler logs on the way.
-/

namespace Microcomputer

/-- An instruction set, and the data address of the first variable. -/
structure Assembler where
  operations : List Operation := Operation.all
  variableStart : Int := 0

namespace Assembler

def startsInMemory (asm : Assembler) : Bool :=
  0 ≤ asm.variableStart && asm.variableStart ≤ maxDataAddress

def readChecked (asm : Assembler) (source : List String) : Except Failure (List Line) := do
  if !asm.startsInMemory then .error (.error .variableOffset)
  let lines ← Line.readFrom asm.operations 1 source
  match Check.first? asm.variableStart lines with
  | some e => .error (.error e)
  | none => .ok lines

/-- The lines with numbered bytes and bound labels. -/
def bind (lines : List Line) : List Line := Line.bindLabels none (Line.indexFrom 0 lines)

/-- Gives every constant its bits: labels first, then numbers, then variables. -/
def resolve (asm : Assembler) (lines : List Line) : Except Error (List Line) := do
  let lines ← resolveLabels lines
  let lines ← resolveNumbers lines
  resolveVariables asm.variableStart lines

def process (asm : Assembler) (source : List String) : Except Failure (List Line) := do
  let lines ← asm.readChecked source
  (asm.resolve (bind lines)).mapError .error

def assemble (asm : Assembler) (text : String) : Except Failure Program :=
  match Text.lines? text with
  | none => .error (.error .lineTooLong)
  | some source => (asm.process source).map Program.mk

/-! ## The log -/

/-- The lines of source up to the first one that cannot be read, numbered from `number`. -/
def sourceLog (ops : List Operation) (number : Nat) : List String → List String
  | [] => []
  | raw :: rest =>
    (toString number ++ ": " ++ raw) ::
      match Line.read ops number raw with
      | .ok _ => sourceLog ops (number + 1) rest
      | .error _ => []

/-- The addresses of the labels, in order of their lines of text. -/
def labelLog (lines : List Line) : List String :=
  ((labelAddresses lines).map fun label => "label " ++ label.1 ++ ": " ++ toString label.2).mergeSort

def variableLog (asm : Assembler) (lines : List Line) : List String :=
  (variableAddresses asm.variableStart lines).map fun found =>
    "variable " ++ found.1 ++ ": " ++ toString found.2

/-- What is logged while lines of source are assembled, up to the first error. -/
def transcript (asm : Assembler) (source : List String) : List String :=
  if !asm.startsInMemory then []
  else
    sourceLog asm.operations 1 source ++
      match asm.readChecked source with
      | .error _ => []
      | .ok lines =>
        labelLog (bind lines) ++
          match (resolveLabels (bind lines)).bind resolveNumbers with
          | .error _ => []
          | .ok resolved => asm.variableLog resolved

def textTranscript (asm : Assembler) (text : String) : List String :=
  match Text.lines? text with
  | none => []
  | some source => asm.transcript source

end Assembler

end Microcomputer
