import Microcomputer.Operation.Catalog

/-!
# Lines and programs

A line is blank, defines a label, defines a variable or is an operation.

* `Line` : a line of source with what was read from it;
* `Line.cleanText` : the text of a line without its comment and surplus blanks;
* `Content.read` : what a cleaned line holds, `Line.read` : reads a line of source;
* `Program` : the lines of an assembled program;
* `Program.codes`, `Program.machineCode`, `Program.binary` : its bytes;
* `Program.locate?` : the line of a byte.
-/

namespace Microcomputer

/-! ## Lines -/

inductive Content where
  | blank
  | label (name : String)
  | variable (name : String)
  | code (bytes : List CodeByte)
deriving DecidableEq, Repr

/-- A line of source and the machine code it stands for. -/
structure Line where
  /-- The position in the source, from 1. -/
  number : Nat
  /-- The text as read. -/
  raw : String
  /-- The text without comment and surplus blanks. -/
  clean : String
  content : Content
  /-- The label bound to this line. -/
  label : Option String
deriving DecidableEq, Repr

namespace Content

def labelName? : Content → Option String
  | .label name => some name
  | _ => none

def variableName? : Content → Option String
  | .variable name => some name
  | _ => none

def bytes : Content → List CodeByte
  | .code bytes => bytes
  | _ => []

/-- Whether a line is an operation; it may still have no bytes. -/
def isCode : Content → Bool
  | .code _ => true
  | _ => false

/-- The bytes of a line that must be exactly one operation. -/
def readCode (ops : List Operation) (clean : String) : Except Failure (List CodeByte) := do
  let readings ← (ops.mapM fun (op : Operation) => op.parseLine clean).mapError
    (.wrap (.line clean ""))
  match readings.filterMap id with
  | [] => .error (.error (.line clean (Operation.hint ops clean) .noOperation))
  | [bytes] => .ok bytes
  | _ => .error (.error (.line clean "" .multipleOperations))

def read (ops : List Operation) (clean : String) : Except Failure Content :=
  match Text.words clean with
  | [] => .ok .blank
  | [word] =>
    if Word.isLabel word then .ok (.label word)
    else if Word.isVariable word then .ok (.variable word)
    else (readCode ops clean).map .code
  | _ => (readCode ops clean).map .code

end Content

namespace Line

/-- The text before the first `//`. -/
def beforeComment : List Char → List Char
  | [] => []
  | '/' :: '/' :: _ => []
  | c :: cs => c :: beforeComment cs

/-- The words of a line before its comment, with one blank between them. -/
def cleanText (raw : String) : String :=
  String.intercalate " " (Text.words (String.ofList (beforeComment raw.toList)))

def read (ops : List Operation) (number : Nat) (raw : String) : Except Failure Line := do
  let clean := cleanText raw
  let content ← (Content.read ops clean).mapError (.wrap (.assembly .line number raw ""))
  return ⟨number, raw, clean, content, none⟩

/-- Reads the lines of source that start with line `number`. -/
def readFrom (ops : List Operation) (number : Nat) : List String → Except Failure (List Line)
  | [] => .ok []
  | raw :: rest => do
    let line ← read ops number raw
    return line :: (← readFrom ops (number + 1) rest)

def definedLabel? (line : Line) : Option String := line.content.labelName?

def definedVariable? (line : Line) : Option String := line.content.variableName?

def bytes (line : Line) : List CodeByte := line.content.bytes

/-- The line with other machine code, if it has any. -/
def withBytes (line : Line) (bytes : List CodeByte) : Line :=
  match line.content with
  | .code _ => { line with content := .code bytes }
  | _ => line

/-- The variables that appear in a line, defined or used. -/
def variableNames (line : Line) : List String :=
  line.definedVariable?.toList ++
    (line.bytes.filter (·.constantKind == .variable)).map CodeByte.constant

def usedLabels (line : Line) : List String :=
  (line.bytes.filter (·.constantKind == .label)).map CodeByte.constant

end Line

/-! ## Programs -/

structure Program where
  lines : List Line
deriving DecidableEq, Repr

namespace Program

def empty : Program := ⟨[]⟩

/-- The bytes of the program in order. -/
def codes (program : Program) : List CodeByte := program.lines.flatMap Line.bytes

def machineCode (program : Program) : List BitField := program.codes.map CodeByte.bits

/-- The bytes to load at address 0. -/
def binary (program : Program) : List UInt8 :=
  program.machineCode.map fun bits => UInt8.ofNat bits.word.toNat

/-- The line whose machine code holds byte `index`, and the place of the byte in it. -/
def locate? (program : Program) (index : Int) : Option (Line × Int) :=
  program.lines.findSome? fun line =>
    match line.bytes with
    | [] => none
    | first :: rest =>
      if first.index ≤ index ∧ index < first.index + (first :: rest).length then
        some (line, index - first.index)
      else none

end Program

end Microcomputer
