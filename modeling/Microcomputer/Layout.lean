import Microcomputer.Bits.Collapse
import Microcomputer.Fault

/-!
# Layout of instruction bytes, microcode addresses and control words

An instruction byte is a group (2 bits), a source code (3 bits) and a destination code (3 bits). A
microcode address is an instruction byte, the four flags and the step number (3 bits).

* `Layout.place` : a value at a position of a field whose other bits are X;
* `Layout.groupBits`, `Layout.sourceBits`, `Layout.destBits`, `Layout.instructionByte` : instruction bytes;
* `Layout.instructionAddress`, `Layout.stepBits`, `Flag.bits` : microcode addresses;
* `Control.bits`, `Control.wordOf` : control words;
* `Layout.placeAt`, `Flag.bitsAt`, `Control.bitsAt` : the same for positions that need not exist.
-/

namespace Microcomputer

namespace Layout

def instructionWidth : Nat := 8

def flagsWidth : Nat := 4

def stepWidth : Nat := 3

def addressWidth : Nat := instructionWidth + flagsWidth + stepWidth

def dataWidth : Nat := 26

/-- The steps that every instruction spends on its own fetch. -/
def fetchSteps : Nat := 2

/-- The most steps that an instruction has after its fetch. -/
def maxSteps : Nat := 1 <<< stepWidth - fetchSteps

/-- An integer as a 64-bit signed word. -/
def signedWord (n : Int) : Int := Int.bmod n 18446744073709551616

/-- The value at `position` of a field with `width` bits; all other bits are X. -/
def place (width position : Nat) (value : BitVec 64) (size : Nat) : BitField :=
  ⟨width, (value &&& BitField.mask size) <<< position, BitField.mask size <<< position⟩

/-- The value at any position. Outside of the field, the field grows to hold it. Positions and widths
are 64-bit signed words; there is no field where the width overflows. -/
def placeAt (width : Nat) (position : Int) (value : BitVec 64) (size : Nat) :
    Except Fault (Option BitField) :=
  let above := signedWord (width - position - size)
  if 0 < position ∧ signedWord (position + size) < 0 then .ok none
  else
    ((BitField.concat [.unknown above.toNat, .ofWord value size, .unknown position.toNat]).map
      some).mapError .bits

/-- A placed field, which must have a width to be written. -/
def written : Option BitField → Except Fault BitField
  | some field => .ok field
  | none => .error .negativeCount

/-! ## Instruction bytes -/

def groupBits (code : Int) : BitField := place instructionWidth 6 (BitVec.ofInt 64 code) 2

def sourceBits (code : Int) : BitField := place instructionWidth 3 (BitVec.ofInt 64 code) 3

def destBits (code : Int) : BitField := place instructionWidth 0 (BitVec.ofInt 64 code) 3

/-- The byte with a group, a source and a destination code, of each of which the low bits count. -/
def instructionByte (group source dest : Int) : BitField :=
  .ofWord ((groupBits group).value ||| (sourceBits source).value ||| (destBits dest).value)
    instructionWidth

/-! ## Microcode addresses -/

def anyAddress : BitField := .unknown addressWidth

def instructionAddress (instruction : BitField) : Except BitError BitField :=
  if instruction.width ≠ instructionWidth then .error .widthMismatch
  else BitField.concat [instruction, .unknown (flagsWidth + stepWidth)]

def stepBits (step : Int) : BitField := place addressWidth 0 (BitVec.ofInt 64 step) stepWidth

end Layout

def Flag.stateWord (state : Bool) : BitVec 64 := if state then 1#64 else 0#64

/-- The addresses with a flag in one state. -/
def Flag.bits (flag : Flag) (state : Bool) : BitField :=
  Layout.place Layout.addressWidth (Layout.stepWidth + flag.position) (Flag.stateWord state) 1

/-- The addresses with bit `n` of the flags in one state. -/
def Flag.bitsAt (n : Int) (state : Bool) : Except Fault BitField := do
  Layout.written (← Layout.placeAt Layout.addressWidth (Layout.signedWord (Layout.stepWidth + n))
    (Flag.stateWord state) 1)

namespace Control

/-- The control word that asserts a line and leaves the others X. -/
def bits (line : Control) : BitField := Layout.place Layout.dataWidth line.position 1#64 1

/-- The control word that asserts bit `n`, if its width does not overflow. -/
def placedAt (n : Int) : Except Fault (Option BitField) := Layout.placeAt Layout.dataWidth n 1#64 1

def bitsAt (n : Int) : Except Fault BitField := do Layout.written (← placedAt n)

/-- The overlay of control words; without any, the word with every line X. -/
def overlayWords : List BitField → Except BitError BitField
  | [] => .ok (.unknown Layout.dataWidth)
  | words => BitField.merge words

/-- The control word that asserts the given lines and leaves the others X. -/
def wordOf (lines : List Control) : Except BitError BitField := overlayWords (lines.map bits)

/-- The control word with every line inactive. -/
def idleWord : BitField := .ofWord 0#64 Layout.dataWidth

end Control

end Microcomputer
