import Microcomputer.Text

/-!
# Bit fields with unknown bits

A bit field is a row of bits, each 0, 1 or X (unknown, or of no concern). It is kept as two 64-bit
words: `care` marks the bits that are not X, and `value` holds them. Bit 0 is the rightmost. A field
may be declared wider than a word; its bits from 64 on are then X.

A field of `w` bits, 1 to 63, holds a number as two's complement or as an unsigned number: -1 and
255 are the same 8 bits.

* `BitError` : what can go wrong with bit fields;
* `BitField.parse`, `BitField.text` : reading and writing, most significant bit first;
* `BitField.accepts` : whether a word agrees with all bits that are not X;
* `BitField.fits` : whether a width can hold a number;
* `BitField.ofNumber`, `BitField.toNumber` : writing and reading numbers.
-/

namespace Microcomputer

/-- Why there is no bit field to hand out. -/
inductive BitError where
  /-- Fields that must have one width have two. -/
  | widthMismatch
  /-- A bit is defined both as 0 and as 1. -/
  | conflict
  /-- A bit position or a total width outside of what a field can hold. -/
  | outOfRange
  /-- The text holds a character that writes no bit. -/
  | notBits (text : String)
  /-- The number needs more bits, or a width no number has. -/
  | numberRange (value width : Int)
deriving DecidableEq, Repr

def BitError.message : BitError → String
  | .widthMismatch => "bit width mismatch"
  | .conflict => "conflicting bit definitions"
  | .outOfRange => "bit index out of range"
  | .notBits text => "'" ++ text ++ "' is not a bit field"
  | .numberRange value width =>
    Text.grouped value ++ " does not fit in " ++ Text.grouped width ++ " bits"

inductive Bit where
  | zero
  | one
  | unknown
deriving DecidableEq, Repr

def Bit.char : Bit → Char
  | .zero => '0'
  | .one => '1'
  | .unknown => 'X'

def Bit.ofChar? : Char → Option Bit
  | '0' => some .zero
  | '1' => some .one
  | 'X' => some .unknown
  | 'x' => some .unknown
  | _ => none

/-- A row of `width` bits. A bit set in `care` has the value of the same bit of `value`; all other
bits are X. -/
structure BitField where
  width : Nat
  value : BitVec 64
  care : BitVec 64
deriving DecidableEq, Repr

namespace BitField

def maxWidth : Nat := 64

/-- The word whose lowest `width` bits are set. -/
def mask (width : Nat) : BitVec 64 :=
  if maxWidth ≤ width then BitVec.allOnes 64 else (1#64 <<< width) - 1#64

/-! ## Making fields -/

def empty : BitField := ⟨0, 0#64, 0#64⟩

def unknown (width : Nat) : BitField := ⟨width, 0#64, 0#64⟩

/-- The lowest `width` bits of a word. -/
def ofWord (word : BitVec 64) (width : Nat) : BitField := ⟨width, word &&& mask width, mask width⟩

/-- One more bit at the right end. -/
def push (f : BitField) : Bit → BitField
  | .zero => ⟨f.width + 1, f.value <<< 1, f.care <<< 1 ||| 1#64⟩
  | .one => ⟨f.width + 1, f.value <<< 1 ||| 1#64, f.care <<< 1 ||| 1#64⟩
  | .unknown => ⟨f.width + 1, f.value <<< 1, f.care <<< 1⟩

/-- Reads the remaining characters of `text` onto the right end of a field. -/
def parseFrom (text : String) (f : BitField) : List Char → Except BitError BitField
  | [] => .ok f
  | c :: cs =>
    if c = '_' then parseFrom text f cs
    else
      match Bit.ofChar? c with
      | none => .error (.notBits text)
      | some b => if f.width = maxWidth then .error .outOfRange else parseFrom text (f.push b) cs

/-- Reads a field written most significant bit first. Underscores only divide the digits. -/
def parse (text : String) : Except BitError BitField := parseFrom text empty text.toList

/-! ## Looking at fields -/

def isEmpty (f : BitField) : Bool := f.width == 0

def isConcrete (f : BitField) : Bool := f.care == mask f.width

/-- Bit `n`; X from bit 64 on. -/
def bitAt (f : BitField) (n : Nat) : Bit :=
  if f.care.getLsbD n then (if f.value.getLsbD n then .one else .zero) else .unknown

def bit? (f : BitField) (n : Int) : Option Bit :=
  if 0 ≤ n ∧ n < f.width then some (f.bitAt n.toNat) else none

/-- The field in writing, most significant bit first. -/
def text (f : BitField) : String :=
  String.ofList ((List.range f.width).reverse.map fun n => (f.bitAt n).char)

/-- The positions of the X bits within the first 64, from the right. -/
def unknownPositions (f : BitField) : List Nat :=
  (List.range (min f.width maxWidth)).filter fun n => !f.care.getLsbD n

def unknowns (f : BitField) : Nat := f.unknownPositions.length

/-- The field as a word, with X read as 0. -/
def word (f : BitField) : BitVec 64 := f.value &&& f.care

/-- Whether a word agrees with every bit that is not X. -/
def accepts (f : BitField) (w : BitVec 64) : Bool := (w ^^^ f.value) &&& f.care == 0#64

/-! ## Numbers -/

/-- Whether `width` bits hold `value`, signed or unsigned. -/
def fits (value width : Int) : Bool :=
  0 < width && width < maxWidth &&
    -((1 <<< (width - 1).toNat : Nat) : Int) ≤ value && value < ((1 <<< width.toNat : Nat) : Int)

def ofNumber (value width : Int) : Except BitError BitField :=
  if fits value width then .ok (ofWord (BitVec.ofInt 64 value) width.toNat)
  else .error (.numberRange value width)

/-- The unsigned number in a concrete field of less than 64 bits. -/
def toNumber (f : BitField) : Except BitError Nat :=
  if f.isConcrete && f.width < maxWidth then .ok f.word.toNat else .error .outOfRange

end BitField

end Microcomputer
