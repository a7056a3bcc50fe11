import Mathlib
import Microcomputer.Machine.Cpu
import Microcomputer.Operation.Standard
import Microcomputer.Proofs.Microcode

/-!
# What a clock cycle does with given control lines

* `Cpu.get`, `Cpu.put` : the registers by name, `Cpu.clocked` : the counters of the clock;
* `Control.AssertsUpToReset` : the lines that a control word asserts, a reset of the step counter
  aside; `Control.drives`, `Control.latches`, `Control.selects` : the lines that put a value on the
  bus, those that take one and those that choose the function of the ALU, and
  `Control.AssertsUpToReset.isActive_eq` : which lines of such a kind are asserted;
* `Cpu.bus_*` : the value on the bus, by the one line that drives it;
* `Cpu.latch_*` : the state after the cycle, by the lines that latch;
* `Cpu.Effect lines cpu after` : a cycle with these lines turns `cpu` into `after`, counters aside;
  one lemma for each kind of step that the instruction set has.
-/

namespace Microcomputer

namespace Control

/-- A control word asserts the given lines, and perhaps the reset of the step counter. -/
def AssertsUpToReset (word : BitVec 64) (lines : List Control) : Prop :=
  ∀ line : Control, line ≠ .stepReset → line.isActive word = decide (line ∈ lines)

def drives : Control → Bool
  | .aOut | .bOut | .cOut | .accOut | .spOut | .pcOut | .ramOut | .aluOut => true
  | _ => false

/-- Whether a line changes a register, a memory or a counter at the end of a cycle. -/
def latches : Control → Bool
  | .aIn | .bIn | .cIn | .accIn | .spIn | .pcIn | .pcCount | .marIn | .ramIn | .irIn
  | .aluStoreResult | .aluStoreFlags | .halt => true
  | _ => false

def selects : Control → Bool
  | .aluSelect0 | .aluSelect1 | .aluSelect2 => true
  | _ => false

/-- Of the lines of a kind, a control word asserts those that are given. -/
theorem AssertsUpToReset.isActive_eq {word : BitVec 64} {lines kept : List Control}
    (h : AssertsUpToReset word lines) {kind : Control → Bool} (hkept : lines.filter kind = kept)
    (hreset : kind .stepReset = false) (line : Control) (hline : kind line = true) :
    line.isActive word = decide (line ∈ kept) := by
  have hne : line ≠ .stepReset := by
    rintro rfl
    cases hline.symm.trans hreset
  rw [h line hne, ← hkept]
  simp [hline]

end Control

namespace Register

@[simp] theorem drives_output (r : Register) : r.output.drives = true := by cases r <;> rfl

@[simp] theorem drives_input (r : Register) : r.input.drives = false := by cases r <;> rfl

@[simp] theorem latches_output (r : Register) : r.output.latches = false := by cases r <;> rfl

@[simp] theorem latches_input (r : Register) : r.input.latches = true := by cases r <;> rfl

end Register

namespace Cpu

def get (cpu : Cpu) : Register → UInt8
  | .acc => cpu.acc
  | .a => cpu.a
  | .b => cpu.b
  | .c => cpu.c
  | .sp => cpu.sp
  | .pc => cpu.pc

def put (cpu : Cpu) (r : Register) (value : UInt8) : Cpu :=
  match r with
  | .acc => { cpu with acc := value }
  | .a => { cpu with a := value }
  | .b => { cpu with b := value }
  | .c => { cpu with c := value }
  | .sp => { cpu with sp := value }
  | .pc => { cpu with pc := value }

def clocked (cpu : Cpu) (step : Int) (ticks : Int64) : Cpu := { cpu with step := step, ticks := ticks }

/-- The CPU with its counters as they are after a cycle. -/
def counted (cpu before : Cpu) (word : BitVec 64) : Cpu :=
  cpu.clocked (if Control.stepReset.isActive word then 0 else (before.step + 1).tmod 8)
    (before.ticks + 1)

section

variable {word : BitVec 64} {lines : List Control} (h : Control.AssertsUpToReset word lines)
  (cpu : Cpu)

include h

/-! ## The bus -/

theorem filter_outputs {outs : List Control} (hd : lines.filter Control.drives = outs) :
    (cpu.outputs word).filter (·.1.isActive word) =
      (cpu.outputs word).filter fun output => decide (output.1 ∈ outs) := by
  have hdrives : ∀ output ∈ cpu.outputs word, output.1.drives = true := by
    simp [outputs, Control.drives]
  exact List.filter_congr fun output ho => h.isActive_eq hd rfl output.1 (hdrives output ho)

theorem bus_none (hd : lines.filter Control.drives = []) : cpu.bus word = .ok 0 := by
  rw [bus, filter_outputs h cpu hd]
  simp

theorem bus_register (r : Register) (hd : lines.filter Control.drives = [r.output]) :
    cpu.bus word = .ok (cpu.get r) := by
  rw [bus, filter_outputs h cpu hd]
  cases r <;> rfl

theorem bus_data (hd : lines.filter Control.drives = [.ramOut])
    (hsel : Control.ramSelectProgram ∉ lines) : cpu.bus word = .ok (cpu.data.read cpu.mar) := by
  have hmemory : cpu.memory word = cpu.data := by simp [memory, h .ramSelectProgram, hsel]
  rw [bus, filter_outputs h cpu hd, outputs, hmemory]
  rfl

theorem bus_program (hd : lines.filter Control.drives = [.ramOut])
    (hsel : Control.ramSelectProgram ∈ lines) : cpu.bus word = .ok (cpu.program.read cpu.mar) := by
  have hmemory : cpu.memory word = cpu.program := by simp [memory, h .ramSelectProgram, hsel]
  rw [bus, filter_outputs h cpu hd, outputs, hmemory]
  rfl

theorem bus_alu (hd : lines.filter Control.drives = [.aluOut]) : cpu.bus word = .ok cpu.alu := by
  rw [bus, filter_outputs h cpu hd]
  rfl

/-! ## The latches -/

variable (value : UInt8)

/-- The state after a cycle by the lines that latch: each of them takes its value, all else stays. -/
theorem latch_eq {ins : List Control} (hl : lines.filter Control.latches = ins) :
    cpu.latch word value = { cpu with
      a := if Control.aIn ∈ ins then value else cpu.a
      b := if Control.bIn ∈ ins then value else cpu.b
      c := if Control.cIn ∈ ins then value else cpu.c
      acc := if Control.accIn ∈ ins then value else cpu.acc
      sp := if Control.spIn ∈ ins then value else cpu.sp
      pc := (if Control.pcIn ∈ ins then value else cpu.pc) + if Control.pcCount ∈ ins then 1 else 0
      ir := if Control.irIn ∈ ins then value else cpu.ir
      mar := if Control.marIn ∈ ins then value else cpu.mar
      alu := if Control.aluStoreResult ∈ ins then ((selected word).compute cpu.acc value).1
        else cpu.alu
      flags := if Control.aluStoreFlags ∈ ins then ((selected word).compute cpu.acc value).2
        else cpu.flags
      program := if Control.ramIn ∈ ins ∧ Control.ramSelectProgram ∈ lines then cpu.program.write cpu.mar value
        else cpu.program
      data := if Control.ramIn ∈ ins ∧ Control.ramSelectProgram ∉ lines then cpu.data.write cpu.mar value
        else cpu.data
      halted := cpu.halted || decide (Control.halt ∈ ins) }.counted cpu word := by
  have hin := h.isActive_eq hl rfl
  simp only [latch, hin .aIn rfl, hin .bIn rfl, hin .cIn rfl, hin .accIn rfl, hin .spIn rfl, hin .pcIn rfl,
    hin .pcCount rfl, hin .irIn rfl, hin .marIn rfl, hin .aluStoreResult rfl,
    hin .aluStoreFlags rfl, hin .ramIn rfl, hin .halt rfl, h .ramSelectProgram (by decide)]
  simp [counted, clocked]

theorem latch_none (hl : lines.filter Control.latches = []) :
    cpu.latch word value = cpu.counted cpu word := by
  rw [latch_eq h cpu value hl]
  simp

theorem latch_halt (hl : lines.filter Control.latches = [.halt]) :
    cpu.latch word value = { cpu with halted := true }.counted cpu word := by
  rw [latch_eq h cpu value hl]
  simp

theorem latch_pcCount (hl : lines.filter Control.latches = [.pcCount]) :
    cpu.latch word value = { cpu with pc := cpu.pc + 1 }.counted cpu word := by
  rw [latch_eq h cpu value hl]
  simp

theorem latch_input (d : Register) (hl : lines.filter Control.latches = [d.input]) :
    cpu.latch word value = (cpu.put d value).counted cpu word := by
  rw [latch_eq h cpu value hl]
  cases d <;> simp [Register.input, put]

theorem latch_mar (hl : lines.filter Control.latches = [.marIn]) :
    cpu.latch word value = { cpu with mar := value }.counted cpu word := by
  rw [latch_eq h cpu value hl]
  simp

theorem latch_data (hl : lines.filter Control.latches = [.ramIn])
    (hsel : Control.ramSelectProgram ∉ lines) :
    cpu.latch word value = { cpu with data := cpu.data.write cpu.mar value }.counted cpu word := by
  rw [latch_eq h cpu value hl]
  simp [hsel]

theorem latch_spMar (hl : lines.filter Control.latches = [.spIn, .marIn]) :
    cpu.latch word value = { cpu with sp := value, mar := value }.counted cpu word := by
  rw [latch_eq h cpu value hl]
  simp

theorem latch_fetch (hl : lines.filter Control.latches = [.irIn, .pcCount]) :
    cpu.latch word value = { cpu with ir := value, pc := cpu.pc + 1 }.counted cpu word := by
  rw [latch_eq h cpu value hl]
  simp

theorem latch_countMar (hl : lines.filter Control.latches = [.pcCount, .marIn]) :
    cpu.latch word value = { cpu with mar := value, pc := cpu.pc + 1 }.counted cpu word := by
  rw [latch_eq h cpu value hl]
  simp

theorem latch_countInput (d : Register) (hpc : d ≠ .pc)
    (hl : lines.filter Control.latches = [.pcCount, d.input]) :
    cpu.latch word value = ({ cpu with pc := cpu.pc + 1 }.put d value).counted cpu word := by
  rw [latch_eq h cpu value hl]
  cases d with
  | pc => exact absurd rfl hpc
  | _ => simp [Register.input, put]

/-! ## The ALU -/

theorem selected_eq (f : AluFunction) (hs : lines.filter Control.selects = f.selectLines) :
    selected word = f := by
  have hactive := h.isActive_eq hs rfl
  unfold selected
  rw [hactive .aluSelect0 rfl, hactive .aluSelect1 rfl, hactive .aluSelect2 rfl]
  cases f <;> rfl

theorem latch_compute (f : AluFunction) (hs : selected word = f)
    (hl : lines.filter Control.latches = [.aluStoreResult, .aluStoreFlags]) :
    cpu.latch word value = { cpu with
      alu := (f.compute cpu.acc value).1
      flags := (f.compute cpu.acc value).2 }.counted cpu word := by
  rw [latch_eq h cpu value hl, hs]
  simp

theorem latch_countCompute (f : AluFunction) (hs : selected word = f)
    (hl : lines.filter Control.latches = [.pcCount, .aluStoreResult, .aluStoreFlags]) :
    cpu.latch word value = { cpu with
      alu := (f.compute cpu.acc value).1
      flags := (f.compute cpu.acc value).2
      pc := cpu.pc + 1 }.counted cpu word := by
  rw [latch_eq h cpu value hl, hs]
  simp

theorem latch_result (f : AluFunction) (hs : selected word = f)
    (hl : lines.filter Control.latches = [.aluStoreResult]) :
    cpu.latch word value = { cpu with alu := (f.compute cpu.acc value).1 }.counted cpu word := by
  rw [latch_eq h cpu value hl, hs]
  simp

end

/-! ## The effect of a step -/

/-- A cycle with the given lines turns `cpu` into `after`, the counters of the clock aside. -/
def Effect (lines : List Control) (cpu after : Cpu) : Prop :=
  ∀ word, Control.AssertsUpToReset word lines →
    ∃ value, cpu.bus word = .ok value ∧ cpu.latch word value = after.counted cpu word

theorem effect_none (cpu : Cpu) : Effect [] cpu cpu :=
  fun _ h => ⟨0, bus_none h cpu rfl, latch_none h cpu 0 rfl⟩

theorem effect_halt (cpu : Cpu) : Effect [.halt] cpu { cpu with halted := true } :=
  fun _ h => ⟨0, bus_none h cpu rfl, latch_halt h cpu 0 rfl⟩

theorem effect_skip (cpu : Cpu) : Effect [.pcCount] cpu { cpu with pc := cpu.pc + 1 } :=
  fun _ h => ⟨0, bus_none h cpu rfl, latch_pcCount h cpu 0 rfl⟩

theorem effect_move (cpu : Cpu) (r d : Register) :
    Effect [r.output, d.input] cpu (cpu.put d (cpu.get r)) := by
  intro word h
  exact ⟨cpu.get r, bus_register h cpu r (by simp), latch_input h cpu _ d (by simp)⟩

/-! ### Memory -/

theorem effect_point (cpu : Cpu) (r : Register) :
    Effect [r.output, .marIn] cpu { cpu with mar := cpu.get r } := by
  intro word h
  refine ⟨cpu.get r, bus_register h cpu r ?_, latch_mar h cpu _ ?_⟩
  · cases r <;> rfl
  · cases r <;> rfl

theorem effect_read (cpu : Cpu) (d : Register) :
    Effect [.ramOut, d.input] cpu (cpu.put d (cpu.data.read cpu.mar)) := by
  intro word h
  refine ⟨cpu.data.read cpu.mar, bus_data h cpu ?_ ?_, latch_input h cpu _ d ?_⟩
  · cases d <;> rfl
  · cases d <;> decide
  · cases d <;> rfl

theorem effect_write (cpu : Cpu) (r : Register) :
    Effect [r.output, .ramIn] cpu { cpu with data := cpu.data.write cpu.mar (cpu.get r) } := by
  intro word h
  refine ⟨cpu.get r, bus_register h cpu r ?_, latch_data h cpu _ ?_ ?_⟩
  · cases r <;> rfl
  · cases r <;> rfl
  · cases r <;> decide

/-! ### The program byte that MAR points to -/

theorem effect_fetch (cpu : Cpu) :
    Effect [.ramSelectProgram, .ramOut, .irIn, .pcCount] cpu
      { cpu with ir := cpu.program.read cpu.mar, pc := cpu.pc + 1 } := by
  intro word h
  exact ⟨_, bus_program h cpu rfl (by decide), latch_fetch h cpu _ rfl⟩

theorem effect_constant (cpu : Cpu) {d : Register} (hd : d ≠ .pc) :
    Effect ([.ramSelectProgram, .ramOut, .pcCount] ++ [d.input]) cpu
      ({ cpu with pc := cpu.pc + 1 }.put d (cpu.program.read cpu.mar)) := by
  intro word h
  refine ⟨_, bus_program h cpu ?_ (by simp), latch_countInput h cpu _ d hd ?_⟩
  · cases d <;> rfl
  · cases d <;> rfl

theorem effect_constantPoint (cpu : Cpu) :
    Effect ([.ramSelectProgram, .ramOut, .pcCount] ++ [.marIn]) cpu
      { cpu with mar := cpu.program.read cpu.mar, pc := cpu.pc + 1 } := by
  intro word h
  exact ⟨_, bus_program h cpu rfl (by decide), latch_countMar h cpu _ rfl⟩

theorem effect_jump (cpu : Cpu) :
    Effect [.ramSelectProgram, .ramOut, .pcIn] cpu { cpu with pc := cpu.program.read cpu.mar } := by
  intro word h
  exact ⟨_, bus_program h cpu rfl (by decide), latch_input h cpu _ .pc rfl⟩

/-! ### The ALU -/

theorem effect_compute (cpu : Cpu) (f : AluFunction) (r : Register) :
    Effect (InstructionSet.compute f [r.output]) cpu { cpu with
      alu := (f.compute cpu.acc (cpu.get r)).1
      flags := (f.compute cpu.acc (cpu.get r)).2 } := by
  intro word h
  refine ⟨cpu.get r, bus_register h cpu r ?_, latch_compute h cpu _ f (selected_eq h f ?_) ?_⟩
  · cases r <;> cases f <;> rfl
  · cases r <;> cases f <;> rfl
  · cases r <;> cases f <;> rfl

theorem effect_constantCompute (cpu : Cpu) (f : AluFunction) :
    Effect ([.ramSelectProgram, .ramOut, .pcCount] ++ InstructionSet.compute f []) cpu { cpu with
      alu := (f.compute cpu.acc (cpu.program.read cpu.mar)).1
      flags := (f.compute cpu.acc (cpu.program.read cpu.mar)).2
      pc := cpu.pc + 1 } := by
  intro word h
  refine ⟨_, bus_program h cpu ?_ (by simp), latch_countCompute h cpu _ f (selected_eq h f ?_) ?_⟩
  · cases f <;> rfl
  · cases f <;> rfl
  · cases f <;> rfl

theorem effect_countStack (cpu : Cpu) (f : AluFunction) :
    Effect (InstructionSet.countStack f) cpu { cpu with alu := (f.compute cpu.acc cpu.sp).1 } := by
  intro word h
  refine ⟨cpu.sp, bus_register h cpu .sp ?_, latch_result h cpu _ f (selected_eq h f ?_) ?_⟩
  · cases f <;> rfl
  · cases f <;> rfl
  · cases f <;> rfl

theorem effect_keep (cpu : Cpu) (d : Register) :
    Effect [.aluOut, d.input] cpu (cpu.put d cpu.alu) := by
  intro word h
  refine ⟨cpu.alu, bus_alu h cpu ?_, latch_input h cpu _ d ?_⟩
  · cases d <;> rfl
  · cases d <;> rfl

theorem effect_keepStack (cpu : Cpu) :
    Effect [.aluOut, .spIn, .marIn] cpu { cpu with sp := cpu.alu, mar := cpu.alu } :=
  fun _ h => ⟨cpu.alu, bus_alu h cpu rfl, latch_spMar h cpu _ rfl⟩

end Cpu

end Microcomputer
