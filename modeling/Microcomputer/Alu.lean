import Microcomputer.Control

/-!
# The ALU and its flags

* `AluFunction` : the eight functions and their 3-bit codes, `AluFunction.selectLines` : the control
  lines that select a function;
* `Flag` : the four flags, `Flag.position` : the bit of a flag in the flags register,
  `Flag.nameAt` : the name of any bit number;
* `AluFunction.compute` : result and flags of a function.
-/

namespace Microcomputer

/-! ## Flags -/

inductive Flag where
  | overflow
  | negative
  | carry
  | zero
deriving DecidableEq, Repr

namespace Flag

/-- The flags as they are listed, highest bit first. -/
def all : List Flag := [.zero, .carry, .negative, .overflow]

def position : Flag → Nat
  | .overflow => 0
  | .negative => 1
  | .carry => 2
  | .zero => 3

def name : Flag → String
  | .overflow => "OVERFLOW"
  | .negative => "NEGATIVE"
  | .carry => "CARRY"
  | .zero => "ZERO"

/-- The letter that shows a set flag in a register dump. -/
def letter : Flag → String
  | .overflow => "O"
  | .negative => "N"
  | .carry => "C"
  | .zero => "Z"

def ofPosition? (n : Int) : Option Flag := all.find? fun flag => (flag.position : Int) == n

/-- The name of the flag of bit `n`; a number in brackets where there is no flag. -/
def nameAt (n : Int) : String :=
  match ofPosition? n with
  | some flag => flag.name
  | none => Text.numbered "Flag" n

end Flag

/-! ## Functions -/

/-- A function of the ALU, on the accumulator and the bus or on the bus alone. -/
inductive AluFunction where
  | add
  | sub
  | and
  | or
  | xor
  | incr
  | decr
  | not
deriving DecidableEq, Repr

namespace AluFunction

def all : List AluFunction := [.add, .sub, .and, .or, .xor, .incr, .decr, .not]

def code : AluFunction → Nat
  | .add => 0
  | .sub => 1
  | .and => 2
  | .or => 3
  | .xor => 4
  | .incr => 5
  | .decr => 6
  | .not => 7

/-- The function that the lowest three bits of a number select. -/
def ofCode (n : Int) : AluFunction :=
  match (n % 8).toNat with
  | 0 => .add
  | 1 => .sub
  | 2 => .and
  | 3 => .or
  | 4 => .xor
  | 5 => .incr
  | 6 => .decr
  | _ => .not

def mnemonic : AluFunction → String
  | .add => "ADD"
  | .sub => "SUB"
  | .and => "AND"
  | .or => "OR"
  | .xor => "XOR"
  | .incr => "INCR"
  | .decr => "DECR"
  | .not => "NOT"

/-- The select lines of a function: line `n` where its code has bit `n`. -/
def selectLines (f : AluFunction) : List Control :=
  (if f.code.testBit 0 then [.aluSelect0] else []) ++
    (if f.code.testBit 1 then [.aluSelect1] else []) ++
    (if f.code.testBit 2 then [.aluSelect2] else [])

end AluFunction

/-! ## Results -/

/-- The flags register with the given flags. -/
def Flag.pack (zero carry negative overflow : Bool) : UInt8 :=
  (if zero then 8 else 0) ||| (if carry then 4 else 0) ||| (if negative then 2 else 0) |||
    (if overflow then 1 else 0)

def Flag.isSet (flag : Flag) (flags : UInt8) : Bool := flags.toNat.testBit flag.position

def signBit (byte : UInt8) : Bool := byte &&& 0x80 != 0

namespace AluFunction

/-- The result of a function on the accumulator and the bus, with carry and overflow. -/
def evaluate (f : AluFunction) (acc bus : UInt8) : UInt8 × Bool × Bool :=
  match f with
  | .add =>
    let sum := acc + bus
    (sum, 255 < acc.toNat + bus.toNat, signBit ((acc ^^^ sum) &&& (bus ^^^ sum)))
  | .sub =>
    let difference := acc - bus
    (difference, acc < bus, signBit ((acc ^^^ bus) &&& (acc ^^^ difference)))
  | .and => (acc &&& bus, false, false)
  | .or => (acc ||| bus, false, false)
  | .xor => (acc ^^^ bus, false, false)
  | .incr => (bus + 1, bus == 0xFF, bus == 0x7F)
  | .decr => (bus - 1, bus == 0, bus == 0x80)
  | .not => (~~~bus, false, false)

def compute (f : AluFunction) (acc bus : UInt8) : UInt8 × UInt8 :=
  let (result, carry, overflow) := f.evaluate acc bus
  (result, Flag.pack (result == 0) carry (signBit result) overflow)

end AluFunction

end Microcomputer
