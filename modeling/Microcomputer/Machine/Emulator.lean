import Microcomputer.Assembly.Program
import Microcomputer.Machine.Cpu

/-!
# The emulator

An emulator is a CPU with its microcode and the program it runs.

* `Emulator.load`, `Emulator.reset` : start a program;
* `Emulator.tick`, `Emulator.next`, `Emulator.run` : one cycle, one instruction, to the end;
* `Emulator.lineNo` : the line of source that executes;
* `Emulator.tickLog`, `Emulator.nextLog`, `Emulator.runLog` : what these log.
-/

namespace Microcomputer

structure Emulator where
  microcode : Microcode
  cpu : Cpu := {}
  program : Program := .empty
  /-- Whether each cycle is logged. The CPU is told at each cycle and at each reset. -/
  verbose : Bool := false
  /-- The clock cycles that a run may have; 0 stands for the default. -/
  tickLimit : Int := 0

namespace Emulator

def defaultTickLimit : Int := 1048576

/-- Clears everything except the program. -/
def reset (emu : Emulator) : Emulator :=
  { emu with cpu := { emu.cpu.reset with verbose := emu.verbose } }

/-- Puts a program into program memory and resets. A program that is too large changes nothing. -/
def load (emu : Emulator) (program : Program) : Except Error Emulator :=
  let binary := program.binary
  if memorySize < binary.length then .error .programSize
  else
    .ok (reset { emu with program := program, cpu := { emu.cpu with program := .ofBytes binary } })

/-- The line of the instruction that executes, or between two instructions of the next one; 0 if no
line holds it. -/
def lineNo (emu : Emulator) : Nat :=
  let address := if emu.cpu.step = 0 then emu.cpu.pc else emu.cpu.ip
  match emu.program.locate? address.toNat with
  | some (line, _) => line.number
  | none => 0

/-- The emulator as a cycle finds it. -/
def ready (emu : Emulator) : Emulator := { emu with cpu := { emu.cpu with verbose := emu.verbose } }

/-- One clock cycle. An error tells the line. -/
def tick (emu : Emulator) : Emulator × Option Failure :=
  let (cpu, failure) := emu.ready.cpu.tick emu.microcode
  let after := { emu with cpu := cpu }
  (after, failure.map (.wrap (.runtime after.lineNo)))

/-- Clock cycles up to the end of the instruction, at most `n`. -/
def nextWithin (n : Nat) (emu : Emulator) : Emulator × Option Failure :=
  match n with
  | 0 => (emu, none)
  | n + 1 =>
    match emu.tick with
    | (after, some failure) => (after, some failure)
    | (after, none) =>
      if after.cpu.halted || after.cpu.step == 0 then (after, none) else nextWithin n after

/-- One more than the number of steps that the counter knows: within so many cycles it is back at 0,
wherever it was set. -/
def instructionCycles : Nat := 9

/-- Clock cycles up to the end of the instruction. -/
def next (emu : Emulator) : Emulator × Option Failure := nextWithin instructionCycles emu

/-- Clock cycles until the CPU halts, at most `n`. -/
def runWithin (n : Nat) (emu : Emulator) : Emulator × Option Failure :=
  if emu.cpu.halted then (emu, none)
  else
    match n with
    | 0 => (emu, some (.error (.runtime emu.lineNo .tickLimit)))
    | n + 1 =>
      match emu.tick with
      | (after, some failure) => (after, some failure)
      | (after, none) => runWithin n after

def ticksLeft (emu : Emulator) : Nat :=
  let limit := if emu.tickLimit = 0 then defaultTickLimit else emu.tickLimit
  (limit - emu.cpu.ticks.toInt).toNat

/-- Clock cycles until the CPU halts or the limit is reached. -/
def run (emu : Emulator) : Emulator × Option Failure := runWithin emu.ticksLeft emu

/-! ## The log -/

def tickLog (emu : Emulator) : List String := (emu.ready.cpu.logLine? emu.microcode).toList

def nextLogWithin (n : Nat) (emu : Emulator) : List String :=
  match n with
  | 0 => []
  | n + 1 =>
    emu.tickLog ++
      match emu.tick with
      | (_, some _) => []
      | (after, none) =>
        if after.cpu.halted || after.cpu.step == 0 then [] else nextLogWithin n after

def nextLog (emu : Emulator) : List String := nextLogWithin instructionCycles emu

def runLogWithin (n : Nat) (emu : Emulator) : List String :=
  if emu.cpu.halted then []
  else
    match n with
    | 0 => []
    | n + 1 =>
      emu.tickLog ++
        match emu.tick with
        | (_, some _) => []
        | (after, none) => runLogWithin n after

def runLog (emu : Emulator) : List String := runLogWithin emu.ticksLeft emu

end Emulator

end Microcomputer
