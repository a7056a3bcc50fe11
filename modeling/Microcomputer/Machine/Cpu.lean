import Microcomputer.Alu
import Microcomputer.Rom.Chip

/-!
# The CPU, clock cycle by clock cycle

In each cycle the CPU obeys the control word at the microcode address made of the instruction
register, the flags and the step counter. At most one output drives the bus; all inputs latch it at
the end of the cycle.

* `Memory` : 256 bytes;
* `Microcode` : a control word for each 15-bit address, `Microcode.ofRom` : that of a ROM,
  `Microcode.standard` : that of the instruction set;
* `Cpu` : the registers, memories and counters;
* `Cpu.address` : the microcode address of a state;
* `Cpu.bus` : the value on the bus;
* `Cpu.latch` : the state after a cycle;
* `Cpu.tick` : one clock cycle;
* `Cpu.logLine?` : what a cycle logs, `Cpu.text` : the register dump.
-/

namespace Microcomputer

/-! ## Memories -/

def memorySize : Nat := 256

abbrev Memory := Vector UInt8 memorySize

namespace Memory

def zero : Memory := Vector.replicate memorySize 0

def read (memory : Memory) (address : UInt8) : UInt8 :=
  memory.get ⟨address.toNat, address.toNat_lt_size⟩

def write (memory : Memory) (address byte : UInt8) : Memory :=
  memory.set address.toNat byte address.toNat_lt_size

/-- The bytes of a list from address 0 on, then zeros. -/
def ofBytes (bytes : List UInt8) : Memory := Vector.ofFn fun address => bytes[address.val]?.getD 0

/-- The addresses whose byte is not zero, with their bytes. -/
def nonzero (memory : Memory) : List (Nat × UInt8) :=
  ((List.range memorySize).zip memory.toList).filter fun cell => cell.2 != 0

end Memory

/-! ## Microcode -/

/-- A control word for each microcode address. -/
abbrev Microcode := Vector (BitVec 64) microcodeSize

namespace Microcode

/-- Whether an entry has a full address and a full control word. -/
def isUsable (entry : Entry) : Bool :=
  entry.address.width == Layout.addressWidth && entry.address.isConcrete &&
    entry.data.width == Layout.dataWidth && entry.data.isConcrete

/-- The microcode of a ROM, which has as many entries as there are addresses. -/
def ofRom (rom : List Entry) : Except Error Microcode :=
  if rom.length == microcodeSize && rom.all isUsable then
    .ok (rom.foldl
      (fun words entry => words.setIfInBounds entry.address.word.toNat entry.data.word)
      (Vector.replicate microcodeSize 0#64))
  else .error .microcode

def word? (microcode : Microcode) (address : Int) : Option (BitVec 64) :=
  if 0 ≤ address then microcode[address.toNat]? else none

def standard : Except Failure Microcode := do
  let rom ← Rom.build Operation.all
  (ofRom rom).mapError .error

end Microcode

/-! ## The CPU -/

structure Cpu where
  a : UInt8 := 0
  b : UInt8 := 0
  c : UInt8 := 0
  /-- The accumulator, first operand of the ALU. -/
  acc : UInt8 := 0
  sp : UInt8 := 0
  pc : UInt8 := 0
  /-- The memory address register. -/
  mar : UInt8 := 0
  /-- The instruction register. -/
  ir : UInt8 := 0
  /-- The last stored result of the ALU. -/
  alu : UInt8 := 0
  flags : UInt8 := 0
  /-- The step counter. It counts modulo 8, but can be set to anything. -/
  step : Int := 0
  /-- The address of the instruction that executes. -/
  ip : UInt8 := 0
  halted : Bool := false
  program : Memory := .zero
  data : Memory := .zero
  /-- The clock cycles since the last reset, a 64-bit count. -/
  ticks : Int64 := 0
  /-- Whether each cycle is logged. -/
  verbose : Bool := false
deriving DecidableEq

namespace Cpu

/-- Clears everything except the program. -/
def reset (cpu : Cpu) : Cpu := { program := cpu.program, verbose := cpu.verbose }

/-- A natural number in the bits of a negative one. -/
def orInt (n : Nat) : Int → Int
  | .ofNat m => ((n ||| m : Nat) : Int)
  | .negSucc m => .negSucc (m - (m &&& n))

def address (cpu : Cpu) : Int := orInt (cpu.ir.toNat <<< 7 ||| cpu.flags.toNat <<< 3) cpu.step

/-- The state in which a cycle finds its control word: at step 0 another instruction starts. -/
def startStep (cpu : Cpu) : Cpu := if cpu.step = 0 then { cpu with ip := cpu.pc } else cpu

def memory (cpu : Cpu) (word : BitVec 64) : Memory :=
  if Control.ramSelectProgram.isActive word then cpu.program else cpu.data

/-- What could drive the bus, with the line for it. -/
def outputs (cpu : Cpu) (word : BitVec 64) : List (Control × UInt8) :=
  [(.aOut, cpu.a), (.bOut, cpu.b), (.cOut, cpu.c), (.accOut, cpu.acc), (.spOut, cpu.sp),
    (.pcOut, cpu.pc), (.ramOut, (cpu.memory word).read cpu.mar), (.aluOut, cpu.alu)]

/-- The value on the bus; 0 if nothing drives it. -/
def bus (cpu : Cpu) (word : BitVec 64) : Except Error UInt8 :=
  match (cpu.outputs word).filter (·.1.isActive word) with
  | [] => .ok 0
  | [output] => .ok output.2
  | _ => .error .busContention

/-- The function that the select lines of a control word choose. -/
def selected (word : BitVec 64) : AluFunction :=
  .ofCode ((if Control.aluSelect0.isActive word then 1 else 0) +
    (if Control.aluSelect1.isActive word then 2 else 0) +
    (if Control.aluSelect2.isActive word then 4 else 0))

/-- The state after a cycle with a value on the bus. Everything is computed from the state before. -/
def latch (cpu : Cpu) (word : BitVec 64) (value : UInt8) : Cpu :=
  let computed := (selected word).compute cpu.acc value
  let taken (line : Control) (new old : UInt8) : UInt8 := if line.isActive word then new else old
  let stores := Control.ramIn.isActive word
  let onProgram := Control.ramSelectProgram.isActive word
  { cpu with
    a := taken .aIn value cpu.a
    b := taken .bIn value cpu.b
    c := taken .cIn value cpu.c
    acc := taken .accIn value cpu.acc
    sp := taken .spIn value cpu.sp
    pc := taken .pcIn value cpu.pc + (if Control.pcCount.isActive word then 1 else 0)
    ir := taken .irIn value cpu.ir
    mar := taken .marIn value cpu.mar
    alu := taken .aluStoreResult computed.1 cpu.alu
    flags := taken .aluStoreFlags computed.2 cpu.flags
    program := if stores && onProgram then cpu.program.write cpu.mar value else cpu.program
    data := if stores && !onProgram then cpu.data.write cpu.mar value else cpu.data
    halted := cpu.halted || Control.halt.isActive word
    step := if Control.stepReset.isActive word then 0 else (cpu.step + 1).tmod 8
    ticks := cpu.ticks + 1 }

/-- One clock cycle: the next state, and what stopped the cycle. A halted CPU stays as it is. -/
def tick (microcode : Microcode) (cpu : Cpu) : Cpu × Option Failure :=
  if cpu.halted then (cpu, none)
  else
    let cpu := cpu.startStep
    match microcode.word? cpu.address with
    | none => (cpu, some (.fault (.noWord cpu.address)))
    | some word =>
      match cpu.bus word with
      | .error e => (cpu, some (.error e))
      | .ok value => (cpu.latch word value, none)

/-! ## Writing -/

def logLine? (microcode : Microcode) (cpu : Cpu) : Option String :=
  if cpu.halted || !cpu.verbose then none
  else
    let cpu := cpu.startStep
    (microcode.word? cpu.address).map fun word =>
      Text.hexLower cpu.ip ++ "." ++ toString cpu.step ++ ": " ++ Control.activeNames word

/-- The flags as letters, a dash for each clear one. -/
def flagLetters (flags : UInt8) : String :=
  String.join (Flag.all.map fun flag => if flag.isSet flags then flag.letter else "-")

def text (cpu : Cpu) : String :=
  let registers : List (String × UInt8) :=
    [("acc", cpu.acc), ("a", cpu.a), ("b", cpu.b), ("c", cpu.c), ("sp", cpu.sp), ("pc", cpu.pc),
      ("mar", cpu.mar), ("ir", cpu.ir)]
  String.join (registers.map fun register => register.1 ++ ":" ++ Text.hexUpper register.2 ++ " ") ++
    "flags:" ++ flagLetters cpu.flags

end Cpu

end Microcomputer
