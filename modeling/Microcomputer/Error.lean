import Microcomputer.Layout
import Microcomputer.Register

/-!
# Errors

An error is a cause, perhaps wrapped in where it happened.

* `Defect` : what can be wrong with a program as a whole;
* `Error` : the causes and the wrappings, `Error.message` : their wording;
* `Error.causes` : what an error wraps, `Error.stemsFrom` : whether a cause is somewhere inside;
* `Failure` : an error of the user or a fault of the caller.
-/

namespace Microcomputer

/-- What is wrong with a program that cannot be assembled. -/
inductive Defect where
  | line
  | labelDuplicate
  | labelDouble
  | labelUndefined
  | variableDuplicate
  | variableCapacity
  | programCapacity
  /-- A number that is no kind of defect. -/
  | other (code : Int)
deriving DecidableEq, Repr

namespace Defect

def ofCode (n : Int) : Defect :=
  if n = 0 then .line
  else if n = 1 then .labelDuplicate
  else if n = 2 then .labelDouble
  else if n = 3 then .labelUndefined
  else if n = 4 then .variableDuplicate
  else if n = 5 then .variableCapacity
  else if n = 6 then .programCapacity
  else .other n

def code : Defect → Int
  | .line => 0
  | .labelDuplicate => 1
  | .labelDouble => 2
  | .labelUndefined => 3
  | .variableDuplicate => 4
  | .variableCapacity => 5
  | .programCapacity => 6
  | .other n => n

def message : Defect → String
  | .line => "invalid line"
  | .labelDuplicate => "label defined more than once"
  | .labelDouble => "line labeled more than once"
  | .labelUndefined => "undefined label"
  | .variableDuplicate => "variable defined more than once"
  | .variableCapacity => "too many variables"
  | .programCapacity => "program too large"
  | .other n => Text.numbered "Kind" n

end Defect

/-- What the user did wrong. -/
inductive Error where
  /-- No cause was given. -/
  | absent
  | bits (cause : BitError)
  | lookup (cause : LookupError)
  | number (word : String)
  /-- An argument that is neither a register nor a constant. -/
  | argumentUnknown (word : String)
  | argumentAmbiguous (word : String)
  | signatureNone
  | signatureAmbiguous
  /-- A microprogram without steps or with too many. -/
  | stepCount
  /-- Two errors of which the second explains the first. -/
  | explained (first second : Error)
  /-- The arguments of a line do not fit its mnemonic. -/
  | arguments (mnemonic : String) (args : List String) (signatures : List Signature) (cause : Error)
  | noOperation
  | multipleOperations
  | variableOffset
  | lineTooLong
  /-- A line is not exactly one operation. -/
  | line (text hint : String) (cause : Error)
  | defect (kind : Defect)
  /-- A program cannot be assembled. -/
  | assembly (kind : Defect) (lineNo : Int) (raw symbol : String) (cause : Error)
  /-- Two microcode templates claim one address. -/
  | collision (address : BitField)
  | microcode
  | programSize
  | busContention
  | tickLimit
  /-- The machine stopped at a line. -/
  | runtime (lineNo : Int) (cause : Error)
deriving DecidableEq, Repr

namespace Error

def isAbsent : Error → Bool
  | .absent => true
  | _ => false

/-- The errors that an error wraps directly. -/
def causes : Error → List Error
  | .explained first second => [first, second].filter (!·.isAbsent)
  | .arguments _ _ _ cause => [cause].filter (!·.isAbsent)
  | .line _ _ cause => [cause].filter (!·.isAbsent)
  | .assembly kind _ _ _ cause => .defect kind :: [cause].filter (!·.isAbsent)
  | .runtime _ cause => [cause].filter (!·.isAbsent)
  | _ => []

/-- Whether an error is a given one or wraps it at any depth. -/
def stemsFrom (e target : Error) : Bool :=
  e == target ||
    match e with
    | .explained first second => first.stemsFrom target || second.stemsFrom target
    | .arguments _ _ _ cause => cause.stemsFrom target
    | .line _ _ cause => cause.stemsFrom target
    | .assembly kind _ _ _ cause => .defect kind == target || cause.stemsFrom target
    | .runtime _ cause => cause.stemsFrom target
    | _ => false

/-- A mnemonic with a signature, as it is shown to the user. -/
def legalForm (mnemonic : String) (sig : Signature) : String :=
  String.ofList (((mnemonic ++ " " ++ sig.text).toList.dropWhile Text.isBlank).reverse.dropWhile
    Text.isBlank).reverse

def message : Error → String
  | .absent => "<nil>"
  | .bits cause => cause.message
  | .lookup cause => cause.message
  | .number word => "'" ++ word ++ "' is not a number"
  | .argumentUnknown word => "'" ++ word ++ "' is not a module or constant"
  | .argumentAmbiguous word => "'" ++ word ++ "' matches more than one argument class"
  | .signatureNone => "arguments match no signature"
  | .signatureAmbiguous => "arguments match multiple signatures"
  | .stepCount => "step count out of range"
  | .explained first second => first.message ++ ": " ++ second.message
  | .arguments mnemonic args signatures cause =>
    let head := mnemonic ++ " " ++ String.intercalate " " args ++ ": " ++ cause.message
    if cause.stemsFrom .signatureNone && !signatures.isEmpty then
      head ++ "; legal forms: " ++ String.intercalate ", " (signatures.map (legalForm mnemonic))
    else head
  | .noOperation => "unable to match line to an operation"
  | .multipleOperations => "line matched multiple operations"
  | .variableOffset => "variable start offset out of range"
  | .lineTooLong => "bufio.Scanner: token too long"
  | .line text hint cause =>
    let head := "'" ++ text ++ "': " ++ cause.message
    if hint.isEmpty then head else head ++ " (did you mean " ++ hint ++ "?)"
  | .defect kind => kind.message
  | .assembly kind lineNo raw symbol cause =>
    let named := if symbol.isEmpty then kind.message else kind.message ++ " " ++ symbol
    let detail := if cause.isAbsent then named else named ++ ": " ++ cause.message
    "Error processing line " ++ Text.grouped lineNo ++ " (" ++ raw ++ "): " ++ detail
  | .collision address => "microcode address " ++ address.text ++ " claimed more than once"
  | .microcode => "microcode incomplete"
  | .programSize => "program larger than memory"
  | .busContention => "more than one output drives the bus"
  | .tickLimit => "tick limit exceeded"
  | .runtime lineNo cause => "line " ++ Text.grouped lineNo ++ " " ++ cause.message

end Error

/-- Why a computation has no result. -/
inductive Failure where
  /-- The user made an error. -/
  | error (e : Error)
  /-- The caller misused the library. -/
  | fault (f : Fault)
deriving DecidableEq, Repr

namespace Failure

/-- Wraps an error; a fault stays as it is. -/
def wrap (wrapping : Error → Error) : Failure → Failure
  | .error e => .error (wrapping e)
  | .fault f => .fault f

def message : Failure → String
  | .error e => e.message
  | .fault f => f.message

end Failure

def BitError.lift {α : Type} (result : Except BitError α) : Except Failure α :=
  result.mapError fun e => .error (.bits e)

def Fault.lift {α : Type} (result : Except Fault α) : Except Failure α := result.mapError .fault

/-- The overlay of the control words that assert the given bits. A word whose width overflows has a
width of its own: it goes only with its like, and their overlay cannot be written. -/
def Control.wordAt (positions : List Int) : Except Failure BitField := do
  let words ← Fault.lift (positions.mapM Control.placedAt)
  let bounded := words.filterMap id
  if bounded.length = words.length then BitError.lift (Control.overlayWords bounded)
  else if bounded.isEmpty then .error (.fault .negativeCount)
  else .error (.error (.bits .widthMismatch))

end Microcomputer
