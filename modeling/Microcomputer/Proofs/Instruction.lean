import Mathlib
import Microcomputer.Machine.Cpu
import Microcomputer.Operation.Standard

/-!
# The instruction set at the level of instructions

What each instruction does with the registers and memories that a program sees, in one step and
without microcode.

* `AluFunction.result`, `AluFunction.status` : the result and the flags of a function in terms of
  exact integers; `AluFunction.compute_eq` : the ALU computes them;
* `State` : the part of the CPU that a program sees;
* `Instruction` : the instructions, `Instruction.execute` : their effect;
* `Instruction.mnemonic`, `Instruction.signature` : how they are written;
* `Instruction.decode` : the instruction of a byte.
-/

namespace Microcomputer

/-! ## Arithmetic -/

namespace AluFunction

/-- The byte that a function gives, all arithmetic modulo 256. -/
def result (f : AluFunction) (acc x : UInt8) : UInt8 :=
  match f with
  | .add => acc + x
  | .sub => acc - x
  | .and => acc &&& x
  | .or => acc ||| x
  | .xor => acc ^^^ x
  | .incr => x + 1
  | .decr => x - 1
  | .not => ~~~x

def exactResult? (f : AluFunction) (acc x : Int) : Option Int :=
  match f with
  | .add => some (acc + x)
  | .sub => some (acc - x)
  | .incr => some (x + 1)
  | .decr => some (x - 1)
  | _ => none

def outside (least greatest n : Int) : Bool := n < least || greatest < n

theorem eq_outside {b : Bool} {least greatest n : Int} (h : b = true ↔ n < least ∨ greatest < n) :
    b = outside least greatest n := by
  rw [Bool.eq_iff_iff, h, outside, Bool.or_eq_true, decide_eq_true_eq, decide_eq_true_eq]

/-- The flags after a function. Carry and overflow say that the exact result of the operands as
unsigned and as signed bytes is out of range. -/
def status (f : AluFunction) (acc x : UInt8) : UInt8 :=
  Flag.pack (f.result acc x == 0)
    ((f.exactResult? acc.toNat x.toNat).any (outside 0 255))
    ((f.result acc x).toInt8 < 0)
    ((f.exactResult? acc.toInt8.toInt x.toInt8.toInt).any (outside (-128) 127))

theorem signBit_eq_msb (x : UInt8) : signBit x = x.toBitVec.msb := by
  have h : ∀ v : BitVec 8, (v &&& 128#8 != 0#8) = v.msb := by decide
  rw [← h, signBit, Bool.eq_iff_iff, bne_iff_ne, Ne, UInt8.eq_iff_toBitVec_eq, bne_iff_ne]
  rfl

theorem signBit_eq_negative (x : UInt8) : signBit x = decide (x.toInt8 < 0) := by
  rw [signBit_eq_msb, BitVec.msb_eq_toInt, decide_eq_decide, Int8.lt_iff_toInt_lt]
  rfl

theorem signBit_add (x y : UInt8) : signBit ((x ^^^ (x + y)) &&& (y ^^^ (x + y))) =
    outside (-128) 127 (x.toInt8.toInt + y.toInt8.toInt) := by
  have hsum := BitVec.saddOverflow_eq x.toBitVec y.toBitVec
  have hmsb : signBit ((x ^^^ (x + y)) &&& (y ^^^ (x + y))) =
      (x.toBitVec.msb == y.toBitVec.msb && !((x.toBitVec + y.toBitVec).msb == x.toBitVec.msb)) := by
    rw [signBit_eq_msb]
    simp only [UInt8.toBitVec_and, UInt8.toBitVec_xor, UInt8.toBitVec_add, BitVec.msb_and, BitVec.msb_xor]
    cases x.toBitVec.msb <;> cases y.toBitVec.msb <;> cases (x.toBitVec + y.toBitVec).msb <;> rfl
  rw [hmsb, ← hsum, BitVec.saddOverflow]
  apply eq_outside
  rw [Bool.or_eq_true, decide_eq_true_eq, decide_eq_true_eq]
  show _ ↔ x.toBitVec.toInt + y.toBitVec.toInt < -128 ∨ 127 < x.toBitVec.toInt + y.toBitVec.toInt
  omega

theorem signBit_sub (x y : UInt8) : signBit ((x ^^^ y) &&& (x ^^^ (x - y))) =
    outside (-128) 127 (x.toInt8.toInt - y.toInt8.toInt) := by
  have hdifference := BitVec.ssubOverflow_eq x.toBitVec y.toBitVec
  have hmsb : signBit ((x ^^^ y) &&& (x ^^^ (x - y))) =
      ((!x.toBitVec.msb && y.toBitVec.msb && (x.toBitVec - y.toBitVec).msb) ||
        (x.toBitVec.msb && !y.toBitVec.msb && !(x.toBitVec - y.toBitVec).msb)) := by
    rw [signBit_eq_msb]
    simp only [UInt8.toBitVec_and, UInt8.toBitVec_xor, UInt8.toBitVec_sub, BitVec.msb_and, BitVec.msb_xor]
    cases x.toBitVec.msb <;> cases y.toBitVec.msb <;> cases (x.toBitVec - y.toBitVec).msb <;> rfl
  rw [hmsb, ← hdifference, BitVec.ssubOverflow]
  apply eq_outside
  rw [Bool.or_eq_true, decide_eq_true_eq, decide_eq_true_eq]
  show _ ↔ x.toBitVec.toInt - y.toBitVec.toInt < -128 ∨ 127 < x.toBitVec.toInt - y.toBitVec.toInt
  omega

/-- The ALU computes the result and the flags of every function. -/
theorem compute_eq (f : AluFunction) (acc x : UInt8) :
    f.compute acc x = (f.result acc x, f.status acc x) := by
  have hx : x.toInt8.toInt = if 2 * x.toNat < 256 then (x.toNat : Int) else x.toNat - 256 :=
    BitVec.toInt_eq_toNat_cond x.toBitVec
  have hbyte := x.toNat_lt
  have hacc := acc.toNat_lt
  unfold compute status
  rw [← signBit_eq_negative]
  cases f with
  | add =>
    have hcarry : decide (255 < acc.toNat + x.toNat) = outside 0 255 (acc.toNat + x.toNat) :=
      eq_outside (by rw [decide_eq_true_eq]; omega)
    simp only [evaluate, result, exactResult?, Option.any_some, hcarry, signBit_add]
  | sub =>
    have hcarry : decide (acc < x) = outside 0 255 (acc.toNat - x.toNat) :=
      eq_outside (by rw [decide_eq_true_eq, UInt8.lt_iff_toNat_lt]; omega)
    simp only [evaluate, result, exactResult?, Option.any_some, hcarry, signBit_sub]
  | incr =>
    have hcarry : (x == 0xFF) = outside 0 255 (x.toNat + 1) :=
      eq_outside (by simp only [beq_iff_eq, ← UInt8.toNat_inj, UInt8.reduceToNat]; omega)
    have hoverflow : (x == 0x7F) = outside (-128) 127 (x.toInt8.toInt + 1) :=
      eq_outside (by simp only [beq_iff_eq, ← UInt8.toNat_inj, UInt8.reduceToNat, hx]; omega)
    simp only [evaluate, result, exactResult?, Option.any_some, hcarry, hoverflow]
  | decr =>
    have hcarry : (x == 0) = outside 0 255 (x.toNat - 1) :=
      eq_outside (by simp only [beq_iff_eq, ← UInt8.toNat_inj, UInt8.reduceToNat]; omega)
    have hoverflow : (x == 0x80) = outside (-128) 127 (x.toInt8.toInt - 1) :=
      eq_outside (by simp only [beq_iff_eq, ← UInt8.toNat_inj, UInt8.reduceToNat, hx]; omega)
    simp only [evaluate, result, exactResult?, Option.any_some, hcarry, hoverflow]
  | _ => rfl

end AluFunction

/-! ## The state that a program sees -/

structure State where
  acc : UInt8
  a : UInt8
  b : UInt8
  c : UInt8
  sp : UInt8
  pc : UInt8
  flags : UInt8
  program : Memory
  data : Memory
  halted : Bool
deriving DecidableEq

namespace State

def get (s : State) : Register → UInt8
  | .acc => s.acc
  | .a => s.a
  | .b => s.b
  | .c => s.c
  | .sp => s.sp
  | .pc => s.pc

def put (s : State) (r : Register) (value : UInt8) : State :=
  match r with
  | .acc => { s with acc := value }
  | .a => { s with a := value }
  | .b => { s with b := value }
  | .c => { s with c := value }
  | .sp => { s with sp := value }
  | .pc => { s with pc := value }

/-- The value of an operand where the constant is `k`. Taking the constant moves PC behind it. -/
def operand (s : State) (k : UInt8) : ArgumentValue → UInt8 × State
  | .register r => (s.get r, s)
  | .constant => (k, { s with pc := s.pc + 1 })

/-- The state after a function of the ALU with its result in a register. -/
def combine (s : State) (f : AluFunction) (x : UInt8) (dest : Register) : State :=
  { s with flags := f.status s.acc x }.put dest (f.result s.acc x)

end State

/-- What a program sees of the CPU. -/
def Cpu.state (cpu : Cpu) : State where
  acc := cpu.acc
  a := cpu.a
  b := cpu.b
  c := cpu.c
  sp := cpu.sp
  pc := cpu.pc
  flags := cpu.flags
  program := cpu.program
  data := cpu.data
  halted := cpu.halted

/-! ## Instructions -/

/-- A function of ACC and an operand. -/
inductive Combination where
  | add
  | sub
  | and
  | or
  | xor
deriving DecidableEq, Repr

def Combination.function : Combination → AluFunction
  | .add => .add
  | .sub => .sub
  | .and => .and
  | .or => .or
  | .xor => .xor

inductive Counting where
  | incr
  | decr
deriving DecidableEq, Repr

def Counting.function : Counting → AluFunction
  | .incr => .incr
  | .decr => .decr

/-- An instruction with its registers. A constant stands in the program behind the instruction. -/
inductive Instruction where
  | noop
  | halt
  | copy (source dest : Register)
  | set (dest : Register)
  | load (index : ArgumentValue) (dest : Register)
  | store (source : Register) (index : ArgumentValue)
  | push (source : Register)
  | pop (dest : Register)
  | combine (f : Combination) (x : ArgumentValue)
  | count (f : Counting) (r : Register)
  | not
  | jump
  | jumpIf (flag : Flag)
deriving DecidableEq, Repr

namespace Instruction

/-- The effect of an instruction with constant `k` once PC points behind its byte. -/
def perform (k : UInt8) (s : State) : Instruction → State
  | .noop => s
  | .halt => { s with halted := true }
  | .copy source dest => s.put dest (s.get source)
  | .set dest =>
    let (value, s) := s.operand k .constant
    s.put dest value
  | .load index dest =>
    let (address, s) := s.operand k index
    s.put dest (s.data.read address)
  | .store source index =>
    let (address, s) := s.operand k index
    { s with data := s.data.write address (s.get source) }
  | .push source =>
    let s := { s with sp := s.sp - 1 }
    { s with data := s.data.write s.sp (s.get source) }
  | .pop dest =>
    let s := s.put dest (s.data.read s.sp)
    { s with sp := s.sp + 1 }
  | .combine f x =>
    let (value, s) := s.operand k x
    s.combine f.function value .acc
  | .count f r => s.combine f.function (s.get r) r
  | .not => s.combine .not s.acc .acc
  | .jump => { s with pc := k }
  | .jumpIf flag => if flag.isSet s.flags then { s with pc := k } else { s with pc := s.pc + 1 }

/-- One step of the machine with an instruction at PC and constant `k`. -/
def execute (i : Instruction) (k : UInt8) (s : State) : State := i.perform k { s with pc := s.pc + 1 }

def mnemonic : Instruction → String
  | .noop => "NOOP"
  | .halt => "HALT"
  | .copy _ _ => "COPY"
  | .set _ => "SET"
  | .load _ _ => "LOAD"
  | .store _ _ => "STORE"
  | .push _ => "PUSH"
  | .pop _ => "POP"
  | .combine f _ => f.function.mnemonic
  | .count f _ => f.function.mnemonic
  | .not => "NOT"
  | .jump => "JUMP"
  | .jumpIf flag => InstructionSet.jumpIfMnemonic flag.name

/-- The arguments of a line with the instruction. Places in data memory stand in brackets. -/
def signature : Instruction → Signature
  | .noop | .halt | .not => []
  | .copy source dest => [.register source false, .register dest false]
  | .set dest => [.register dest false, .constant false]
  | .load index dest => [⟨index, true⟩, .register dest false]
  | .store source index => [.register source false, ⟨index, true⟩]
  | .push r | .pop r | .count _ r => [.register r false]
  | .combine _ x => [⟨x, false⟩]
  | .jump | .jumpIf _ => [.constant false]

/-! ## Decoding -/

/-- The instruction with the copy group and two registers. A copy of ACC or of A to itself stands
for `NOOP` and `HALT`. -/
def decodeCopy (source dest : Register) : Option Instruction :=
  if source ≠ dest then some (.copy source dest)
  else if source = .acc then some .noop
  else if source = .a then some .halt
  else none

def decodeCount (f : Counting) : Operand → Option Instruction
  | .register r => if r ∈ InstructionSet.setRegisters then some (.count f r) else none
  | _ => none

def decodeCombine (f : Combination) : Operand → Option Instruction
  | .register r => if r ∈ InstructionSet.dataRegisters then some (.combine f (.register r)) else none
  | .constant => some (.combine f .constant)
  | .stack => none

/-- The instruction with a function and an operand. The complement needs none, so its operand tells
it from the jumps. -/
def decodeAlu : AluFunction → Operand → Option Instruction
  | .add, operand => decodeCombine .add operand
  | .sub, operand => decodeCombine .sub operand
  | .and, operand => decodeCombine .and operand
  | .or, operand => decodeCombine .or operand
  | .xor, operand => decodeCombine .xor operand
  | .incr, operand => decodeCount .incr operand
  | .decr, operand => decodeCount .decr operand
  | .not, .register .acc => some .jump
  | .not, .register .a => some (.jumpIf .zero)
  | .not, .register .b => some (.jumpIf .carry)
  | .not, .register .c => some (.jumpIf .negative)
  | .not, .register .sp => some (.jumpIf .overflow)
  | .not, .constant => some .not
  | .not, _ => none

def decodeFields (group : InstructionSet.Group) (source dest : Operand) : Option Instruction :=
  match group, source, dest with
  | .copy, .register r, .register d => decodeCopy r d
  | .copy, .constant, .register d => if d ∈ InstructionSet.setRegisters then some (.set d) else none
  | .load, source, .register d =>
    if d ∈ InstructionSet.dataRegisters then
      match source with
      | .register r => some (.load (.register r) d)
      | .constant => some (.load .constant d)
      | .stack => some (.pop d)
    else none
  | .store, .register r, dest =>
    if r ∈ InstructionSet.dataRegisters then
      match dest with
      | .register d => if d = .pc then none else some (.store r (.register d))
      | .constant => some (.store r .constant)
      | .stack => some (.push r)
    else none
  | _, _, _ => none

/-- The instruction of a byte: a group in its two high bits, a source or function in the next three,
a destination or operand in the low three. -/
def decode (byte : UInt8) : Option Instruction := do
  let source := byte.toNat / 8 % 8
  let dest ← Operand.ofCode? (byte.toNat % 8 : Nat)
  match [InstructionSet.Group.copy, .load, .store][byte.toNat / 64]? with
  | some group => decodeFields group (← Operand.ofCode? source) dest
  | none => decodeAlu (.ofCode source) dest

end Instruction

end Microcomputer
