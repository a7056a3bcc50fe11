import Microcomputer.Alu
import Microcomputer.Bits.Number

/-!
# Faults

A fault is a misuse of the library by its caller: a width, a bit or an address that does not exist.
It ends the computation and, other than an error of the user, is never wrapped in another message.

* `Fault` : the misuses, `Fault.message` : their wording;
* `BitField.unknownOf`, `BitField.wordOf` : fields whose width is any integer.
-/

namespace Microcomputer

/-- The number of words in the microcode, one for each 15-bit address. -/
def microcodeSize : Nat := 32768

/-- A misuse of the library. -/
inductive Fault where
  /-- A bit or a width below zero where a word is shifted. -/
  | negativeShift
  /-- A text of less than no characters. -/
  | negativeCount
  /-- A text that no memory holds. -/
  | excessiveCount
  /-- A fixed table with a bit field that cannot be made. -/
  | bits (cause : BitError)
  /-- A conditional jump on a flag that does not exist. -/
  | noJump (flag : Int)
  /-- A clock cycle at an address outside of the microcode. -/
  | noWord (address : Int)
deriving DecidableEq, Repr

def Fault.message : Fault → String
  | .negativeShift => "runtime error: negative shift amount"
  | .negativeCount => "strings.Builder.Grow: negative count"
  | .excessiveCount => "runtime error: makeslice: len out of range"
  | .bits cause => cause.message
  | .noJump flag => "no jump for flag " ++ Flag.nameAt flag
  | .noWord address =>
    "runtime error: index out of range [" ++ toString address ++ "]" ++
      (if address < 0 then "" else " with length " ++ toString microcodeSize)

namespace BitField

/-- The most characters that a text can have. -/
def textLimit : Int := 281474976710656

/-- A field that has to be written. -/
def writable (f : BitField) : Except Fault BitField :=
  if textLimit < f.width then .error .excessiveCount else .ok f

def unknownOf (width : Int) : Except Fault BitField :=
  if width < 0 then .error .negativeCount else (unknown width.toNat).writable

def wordOf (word : BitVec 64) (width : Int) : Except Fault BitField :=
  if width < 0 then .error .negativeShift else (ofWord word width.toNat).writable

/-- Reads a field of a fixed table, which has to be well written. -/
def parseFixed (text : String) : Except Fault BitField := (parse text).mapError .bits

end BitField

/-- Whether bit `n` of a control word is set; no bit from 64 on is. -/
def Control.isActiveAt (n : Int) (word : BitVec 64) : Except Fault Bool :=
  if n < 0 then .error .negativeShift else .ok (word.getLsbD n.toNat)

end Microcomputer
