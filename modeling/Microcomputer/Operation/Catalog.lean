import Microcomputer.Operation.Encoding
import Microcomputer.Word

/-!
# Operations

An operation is an instruction of the assembly language. It recognises the lines that start with its
mnemonic and brings the microcode of its instruction bytes.

* `Argument.classify` : the class of an argument of a line;
* `Encoding.select` : the encoding whose signature the arguments have;
* `CodeByte.ofArgument` : the byte of a constant argument;
* `Operation.ofEncodings` : the operation with given encodings;
* `Operation.find` : the operation that a mnemonic or its abbreviation names;
* `Operation.hint` : the mnemonic that a line with an unknown one may have meant.
-/

namespace Microcomputer

/-- An instruction of the assembly language. -/
structure Operation where
  /-- The first word of its lines. -/
  mnemonic : String
  /-- The legal combinations of arguments. -/
  signatures : Except Fault (List Signature)
  /-- The bytes of a line; none for a line that is not this operation. -/
  parseLine : String → Except Failure (Option (List CodeByte))
  /-- The microcode of all its instruction bytes. -/
  templates : Except Failure (List Template)

namespace Argument

def classes (word : String) : List Argument :=
  let plain :=
    ((Register.ofName? word).map fun r => register r false).toList
  let bracketed :=
    (((Word.memoryOperand? word).bind Register.ofName?).map fun r => register r true).toList
  let number := if Word.isConstant word then [constant false] else []
  let address := if (Word.memoryOperand? word).any Word.isConstant then [constant true] else []
  plain ++ bracketed ++ number ++ address

def classify (word : String) : Except Error Argument :=
  match classes word with
  | [] => .error (.explained .signatureNone (.argumentUnknown word))
  | [arg] => .ok arg
  | _ => .error (.argumentAmbiguous word)

end Argument

namespace Encoding

def select (encodings : List Encoding) (args : List String) : Except Error Encoding := do
  let classes ← args.mapM Argument.classify
  match encodings.filter (·.signature == classes) with
  | [] => .error .signatureNone
  | [encoding] => .ok encoding
  | _ => .error .signatureAmbiguous

end Encoding

namespace CodeByte

/-- The byte of a constant argument, square brackets taken off. A number has to fit a byte. -/
def ofArgument (arg : String) : Except Error CodeByte :=
  let word := (Word.memoryOperand? arg).getD arg
  if Word.isLabel word then .ok (ofConstant .label word 0)
  else if Word.isVariable word then .ok (ofConstant .variable word 0)
  else
    match Word.number? word with
    | none => .error (.number word)
    | some n =>
      if BitField.fits n Layout.instructionWidth then .ok (ofConstant .number word n)
      else .error (.bits (.numberRange n Layout.instructionWidth))

end CodeByte

namespace Encoding

/-- The arguments at the places where a signature takes a constant. -/
def constantArguments (sig : Signature) (args : List String) : List String :=
  ((sig.zip args).filter (·.1.isConstant)).map (·.2)

/-- The bytes of a line with the given arguments: the instruction byte, then one byte for each
constant. -/
def bytes (encodings : List Encoding) (args : List String) : Except Error (List CodeByte) := do
  let encoding ← select encodings args
  let constants ← (constantArguments encoding.signature args).mapM CodeByte.ofArgument
  return .instruction encoding.instruction :: constants

end Encoding

namespace Operation

def parseWith (mnemonic : String) (encodings : List Encoding) (args : List String) :
    Except Error (List CodeByte) :=
  (Encoding.bytes encodings args).mapError
    (.arguments mnemonic args (encodings.map Encoding.signature))

def ofEncodings (mnemonic : String) (encodings : List Encoding) : Operation where
  mnemonic := mnemonic
  signatures := .ok (encodings.map Encoding.signature)
  parseLine line :=
    match Text.words line with
    | [] => .ok none
    | word :: args =>
      if word = mnemonic then ((parseWith mnemonic encodings args).map some).mapError .error
      else .ok none
  templates := (Encoding.allTemplates encodings).mapError .error

/-- The operation with a mnemonic for which there are no encodings: whatever needs them is a fault. -/
def ofFault (mnemonic : String) (fault : Fault) : Operation where
  mnemonic := mnemonic
  signatures := .error fault
  parseLine line :=
    match Text.words line with
    | [] => .ok none
    | word :: _ => if word = mnemonic then .error (.fault fault) else .ok none
  templates := .error (.fault fault)

/-! ## Finding operations by name -/

def find (ops : List Operation) (name : String) : Except LookupError Nat :=
  Text.findKey (ops.map mnemonic) name

/-- The mnemonic that the first word of a line may have meant; empty if there is none. -/
def hint (ops : List Operation) (line : String) : String :=
  match Text.words line with
  | [] => ""
  | word :: _ =>
    match find ops (Text.upper word) with
    | .ok i => ((ops.map mnemonic)[i]?).getD ""
    | .error _ => ""

end Operation

end Microcomputer
