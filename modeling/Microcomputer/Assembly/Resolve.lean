import Microcomputer.Assembly.Program
import Std.Data.TreeSet

/-!
# Checking and resolving a program

Each check finds the first line that is against one rule, with the label or variable at fault.

* `Check.all` : the checks in the order in which they report;
* `Check.first?` : the error of the first check that finds a line;
* `Line.indexFrom` : numbers the bytes of a program;
* `Line.bindLabels` : binds each label to the next line of machine code;
* `labelAddresses`, `variableAddresses` : the value of each label and variable;
* `resolveLabels`, `resolveNumbers`, `resolveVariables` : give the constants their bits.
-/

namespace Microcomputer

/-! ## Checks -/

def maxProgramBytes : Nat := 255

def maxVariables : Nat := 255

def maxDataAddress : Int := 255

/-- The variables of a program, each with the line where it appears first. `seen` appeared before. -/
def firstAppearances (seen : Std.TreeSet String) : List (Line × String) → List (Line × String)
  | [] => []
  | (line, name) :: rest =>
    if seen.contains name then firstAppearances seen rest
    else (line, name) :: firstAppearances (seen.insert name) rest

/-- The variables of a program in order of first appearance, defined or used, each with its line. -/
def variablesOf (lines : List Line) : List (Line × String) :=
  firstAppearances ∅ (lines.flatMap fun line => line.variableNames.map fun name => (line, name))

namespace Check

/-- The first line that defines again what `seen` or an earlier line defines. -/
def repeated (name? : Line → Option String) (seen : Std.TreeSet String) :
    List Line → Option (Line × String)
  | [] => none
  | line :: rest =>
    match name? line with
    | none => repeated name? seen rest
    | some name =>
      if seen.contains name then some (line, name) else repeated name? (seen.insert name) rest

/-- The first line that defines a label while another one waits for its machine code. -/
def doubled (pending : Bool) : List Line → Option (Line × String)
  | [] => none
  | line :: rest =>
    match line.content with
    | .label name => if pending then some (line, name) else doubled true rest
    | .code _ => doubled false rest
    | _ => doubled pending rest

def undefinedLabel (lines : List Line) : Option (Line × String) :=
  let defined := Std.TreeSet.ofList (lines.filterMap Line.definedLabel?)
  lines.findSome? fun line =>
    (line.usedLabels.find? fun name => !defined.contains name).map fun name => (line, name)

/-- The first variable, of those after the first `count`, that has no place in data memory. -/
def overflowing (start : Int) (count : Nat) : List (Line × String) → Option (Line × String)
  | [] => none
  | found :: rest =>
    if maxVariables < count + 1 || maxDataAddress < start + count then some found
    else overflowing start (count + 1) rest

/-- The first line with which the program, `total` bytes before it, is too large. -/
def oversized (total : Nat) : List Line → Option (Line × String)
  | [] => none
  | line :: rest =>
    if maxProgramBytes < total + line.bytes.length then some (line, "")
    else oversized (total + line.bytes.length) rest

/-- The checks in order, each with the defect it finds. Variables are placed from `start` on. -/
def all (start : Int) : List (Defect × (List Line → Option (Line × String))) :=
  [(.labelDuplicate, repeated Line.definedLabel? ∅),
    (.labelDouble, doubled false),
    (.labelUndefined, undefinedLabel),
    (.variableDuplicate, repeated Line.definedVariable? ∅),
    (.variableCapacity, fun lines => overflowing start 0 (variablesOf lines)),
    (.programCapacity, oversized 0)]

def first? (start : Int) (lines : List Line) : Option Error :=
  (all start).findSome? fun check =>
    (check.2 lines).map fun found =>
      .assembly check.1 found.1.number found.1.raw found.2 .absent

end Check

/-! ## Indexes and labels of lines -/

namespace Line

def numberBytes (index : Nat) : List CodeByte → List CodeByte
  | [] => []
  | byte :: rest => { byte with index := index } :: numberBytes (index + 1) rest

/-- Numbers the bytes of lines from `index` on. -/
def indexFrom (index : Nat) : List Line → List Line
  | [] => []
  | line :: rest =>
    line.withBytes (numberBytes index line.bytes) :: indexFrom (index + line.bytes.length) rest

/-- Binds each label to the first line of machine code after its definition. `pending` is a label
defined before. -/
def bindLabels (pending : Option String) : List Line → List Line
  | [] => []
  | line :: rest =>
    match line.content, pending with
    | .label name, none => line :: bindLabels (some name) rest
    | .code _, some name => { line with label := some name } :: bindLabels none rest
    | _, _ => line :: bindLabels pending rest

/-- Gives the bits of the constants of one kind. -/
def resolve (kind : ConstantKind) (value : CodeByte → Except BitError BitField) (line : Line) :
    Except Error Line := do
  let bytes ← line.bytes.mapM fun byte =>
    if byte.kind == .constant && byte.constantKind == kind then
      match value byte with
      | .ok bits => .ok { byte with bits := bits }
      | .error e => .error (.assembly .line line.number line.raw byte.constant (.bits e))
    else .ok byte
  return line.withBytes bytes

end Line

/-! ## Labels -/

/-- The labels bound to lines, with the number of bytes before the line; `total` bytes come before
all of them. -/
def boundLabels (total : Nat) : List Line → List (String × Nat)
  | [] => []
  | line :: rest =>
    (line.label.map fun name => (name, total)).toList ++
      boundLabels (total + line.bytes.length) rest

def totalBytes (lines : List Line) : Nat := (lines.flatMap Line.bytes).length

/-- The address of every label. A label after the last machine code is one past the last byte. -/
def labelAddresses (lines : List Line) : List (String × Nat) :=
  let bound := boundLabels 0 lines
  let names := Std.TreeSet.ofList (bound.map Prod.fst)
  let trailing := (lines.filterMap Line.definedLabel?).filter fun name => !names.contains name
  bound ++ trailing.map fun name => (name, totalBytes lines)

def byteBits (value : Int) : Except BitError BitField :=
  BitField.ofNumber value Layout.instructionWidth

def resolveLabels (lines : List Line) : Except Error (List Line) :=
  let addresses := labelAddresses lines
  lines.mapM (Line.resolve .label fun byte => byteBits ((addresses.lookup byte.constant).getD 0))

/-! ## Numbers -/

def resolveNumbers (lines : List Line) : Except Error (List Line) :=
  lines.mapM (Line.resolve .number fun byte => byteBits byte.number)

/-! ## Variables -/

def addressesFrom (start : Int) : List String → List (String × Int)
  | [] => []
  | name :: rest => (name, start) :: addressesFrom (start + 1) rest

/-- The data address of every variable, in order of first appearance, from `start` on. -/
def variableAddresses (start : Int) (lines : List Line) : List (String × Int) :=
  addressesFrom start ((variablesOf lines).map Prod.snd)

def resolveVariables (start : Int) (lines : List Line) : Except Error (List Line) :=
  let addresses := variableAddresses start lines
  lines.mapM (Line.resolve .variable fun byte => byteBits ((addresses.lookup byte.constant).getD 0))

end Microcomputer
