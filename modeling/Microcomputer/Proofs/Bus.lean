import Mathlib
import Microcomputer.Proofs.Sequencer

/-!
# The bus and the cycles of a state in range

What a cycle does is a matter of its drivers: two of them stop it, with one at most the value on the bus
is latched. Either way step counter and flags stay in range, so that there is a control word again.

* `Control.drivers` : the lines that drive the bus, `Cpu.Carries` : the value on it, `Cpu.bus_carries` :
  with one driver at most there is one;
* `Cpu.InRange` : step counter and flags in range, `InRange.address` : the number of the control word,
  `InRange.latch` : a cycle keeps it;
* `Cpu.tick_contended`, `Cpu.tick_latched` : a cycle by the number of its drivers;
* `Microcode.tabulate` : microcode by its words, `Cpu.tick_tabulate` : a cycle at one of them.
-/

namespace Microcomputer

/-! ## Microcode by its words -/

namespace Microcode

def tabulate (word : Nat → BitVec 64) : Microcode := Vector.ofFn fun n => word n.val

theorem word?_natCast (microcode : Microcode) {n : Nat} (hn : n < microcodeSize) :
    microcode.word? n = some (microcode.get ⟨n, hn⟩) := by
  unfold word?
  rw [if_pos (Int.natCast_nonneg n), Int.toNat_natCast, Vector.getElem?_eq_getElem hn]
  rfl

theorem word?_tabulate (word : Nat → BitVec 64) {n : Nat} (hn : n < microcodeSize) :
    (tabulate word).word? n = some (word n) := by
  rw [word?_natCast _ hn, tabulate, Vector.get_eq_getElem, Vector.getElem_ofFn]

end Microcode

/-! ## The value on the bus -/

namespace Control

def drivers (word : BitVec 64) : List Control :=
  all.filter fun line => line.drives && line.isActive word

theorem length_drivers_le {word : BitVec 64} {lines : List Control} (h : Asserts word lines) :
    (drivers word).length ≤ (lines.filter drives).length := by
  have hnodup : (drivers word).Nodup := List.Nodup.filter _ (by decide)
  have hsubset : drivers word ⊆ lines.filter drives := by
    intro line hline
    have hdriver := (List.mem_filter.mp hline).2
    rw [h line, Bool.and_eq_true, decide_eq_true_eq] at hdriver
    exact List.mem_filter.mpr ⟨hdriver.2, hdriver.1⟩
  exact (hnodup.subperm hsubset).length_le

end Control

namespace Cpu

variable {microcode : Microcode} {word : BitVec 64} {cpu : Cpu}

def shown (cpu : Cpu) (word : BitVec 64) : Control → UInt8
  | .aOut => cpu.a
  | .bOut => cpu.b
  | .cOut => cpu.c
  | .accOut => cpu.acc
  | .spOut => cpu.sp
  | .pcOut => cpu.pc
  | .ramOut => (cpu.memory word).read cpu.mar
  | .aluOut => cpu.alu
  | _ => 0

/-- The value on the bus: what the line that drives it shows, 0 if there is none. -/
inductive Carries (cpu : Cpu) (word : BitVec 64) : UInt8 → Prop
  | driven {line : Control} : line ∈ Control.drivers word → Carries cpu word (cpu.shown word line)
  | idle : Control.drivers word = [] → Carries cpu word 0

theorem filter_outputs_eq (cpu : Cpu) (word : BitVec 64) :
    (cpu.outputs word).filter (·.1.isActive word) =
      (Control.drivers word).map fun line => (line, cpu.shown word line) := by
  have houtputs : cpu.outputs word =
      (Control.all.filter Control.drives).map fun line => (line, cpu.shown word line) := rfl
  rw [houtputs, List.filter_map, List.filter_filter]
  unfold Control.drivers
  congr 2
  funext line
  exact Bool.and_comm ..

theorem bus_contended (cpu : Cpu) (h : 2 ≤ (Control.drivers word).length) :
    cpu.bus word = .error .busContention := by
  unfold bus
  rw [filter_outputs_eq]
  rcases hd : Control.drivers word with _ | ⟨line, _ | ⟨other, rest⟩⟩
  · rw [hd] at h
    exact absurd h (by decide)
  · rw [hd] at h
    exact absurd h (by decide : ¬ 2 ≤ 1)
  · rfl

/-- With one driver at most, there is one value on the bus. -/
theorem bus_carries (cpu : Cpu) (h : (Control.drivers word).length ≤ 1) :
    ∃ value, cpu.bus word = .ok value ∧ ∀ other, cpu.Carries word other ↔ other = value := by
  unfold bus
  rw [filter_outputs_eq]
  rcases hd : Control.drivers word with _ | ⟨line, _ | ⟨second, rest⟩⟩
  · refine ⟨0, rfl, fun other => ⟨?_, ?_⟩⟩
    · rintro (hmem | -)
      · rw [hd] at hmem
        cases hmem
      · rfl
    · rintro rfl
      exact .idle hd
  · refine ⟨cpu.shown word line, rfl, fun other => ⟨?_, ?_⟩⟩
    · rintro (hmem | hnil)
      · rw [hd, List.mem_singleton] at hmem
        rw [hmem]
      · rw [hd] at hnil
        cases hnil
    · rintro rfl
      exact .driven (by rw [hd]; exact List.mem_singleton_self line)
  · rw [hd, List.length_cons, List.length_cons] at h
    omega

/-! ## States in range -/

theorem startStep_eq (cpu : Cpu) :
    cpu.startStep = { cpu with ip := if cpu.step = 0 then cpu.pc else cpu.ip } := by
  unfold startStep
  split <;> rfl

theorem address_startStep (cpu : Cpu) : cpu.startStep.address = cpu.address := by
  rw [startStep_eq]
  rfl

theorem bus_startStep (cpu : Cpu) (word : BitVec 64) : cpu.startStep.bus word = cpu.bus word := by
  rw [startStep_eq]
  rfl

/-- A state whose step counter and flags are in range. -/
structure InRange (cpu : Cpu) : Prop where
  step_nonneg : 0 ≤ cpu.step
  step_le : cpu.step ≤ 7
  flags_lt : cpu.flags.toNat < 16

namespace InRange

theorem of_cleared (hstep : cpu.step = 0) (hflags : cpu.flags = 0) : cpu.InRange := by
  refine ⟨hstep.ge, ?_, ?_⟩
  · rw [hstep]
    decide
  · rw [hflags]
    decide

theorem startStep (h : cpu.InRange) : cpu.startStep.InRange := by
  rw [startStep_eq]
  exact ⟨h.step_nonneg, h.step_le, h.flags_lt⟩

theorem address (h : cpu.InRange) : ∃ n < microcodeSize, cpu.address = (n : Int) := by
  have hle := h.step_le
  obtain ⟨n, hn⟩ := Int.eq_ofNat_of_zero_le h.step_nonneg
  have hlt : n < 8 := by omega
  exact ⟨_, address_lt cpu hlt h.flags_lt, address_eq hn hlt h.flags_lt⟩

theorem exists_word (h : cpu.InRange) (microcode : Microcode) :
    ∃ word, microcode.word? cpu.address = some word := by
  obtain ⟨n, hn, haddress⟩ := h.address
  rw [haddress, Microcode.word?_natCast microcode hn]
  exact ⟨_, rfl⟩

theorem step_tmod (h : cpu.InRange) : (cpu.step + 1).tmod 8 = (cpu.step + 1) % 8 := by
  have hnonneg := h.step_nonneg
  exact Int.tmod_eq_emod_of_nonneg (by omega)

theorem latch (h : cpu.InRange) (word : BitVec 64) (value : UInt8) : (cpu.latch word value).InRange := by
  have hstep : (cpu.latch word value).step =
      if Control.stepReset.isActive word then 0 else (cpu.step + 1).tmod 8 := rfl
  have hflags : (cpu.latch word value).flags = if Control.aluStoreFlags.isActive word then
      ((selected word).compute cpu.acc value).2 else cpu.flags := rfl
  refine ⟨?_, ?_, ?_⟩
  · rw [hstep, h.step_tmod]
    split <;> omega
  · rw [hstep, h.step_tmod]
    split <;> omega
  · rw [hflags]
    split
    · exact Flag.pack_lt ..
    · exact h.flags_lt

end InRange

/-! ## A cycle by its drivers -/

theorem tick_of_halted (hhalted : cpu.halted = true) : cpu.tick microcode = (cpu, none) := by
  rw [tick, if_pos hhalted]

/-- With two drivers nothing is latched. -/
theorem tick_contended (hhalted : cpu.halted = false) (hword : microcode.word? cpu.address = some word)
    (h : 2 ≤ (Control.drivers word).length) :
    cpu.tick microcode = (cpu.startStep, some (.error .busContention)) := by
  have hbus : cpu.startStep.bus word = .error .busContention := bus_contended _ h
  simp [tick, hhalted, address_startStep, hword, hbus]

theorem tick_of_bus {value : UInt8} {after : Cpu} (hhalted : cpu.halted = false)
    (hword : microcode.word? cpu.address = some word) (hbus : cpu.bus word = .ok value)
    (hlatch : cpu.startStep.latch word value = after) : cpu.tick microcode = (after, none) := by
  rw [← bus_startStep] at hbus
  simp [tick, hhalted, address_startStep, hword, hbus, hlatch]

theorem tick_latched (hhalted : cpu.halted = false) (hword : microcode.word? cpu.address = some word)
    (h : (Control.drivers word).length ≤ 1) :
    ∃ value, (∀ other, cpu.Carries word other ↔ other = value) ∧
      cpu.tick microcode = (cpu.startStep.latch word value, none) := by
  obtain ⟨value, hbus, hcarries⟩ := bus_carries cpu h
  exact ⟨value, hcarries, tick_of_bus hhalted hword hbus rfl⟩

/-- A cycle under tabulated microcode: the state tells the place of the word, and the table the word. -/
theorem tick_tabulate {table : Nat → BitVec 64} (hmicrocode : microcode = .tabulate table) {n : Nat}
    (haddress : cpu.address = (n : Int)) (hn : n < microcodeSize) (hhalted : cpu.halted = false)
    {value : UInt8} (hbus : cpu.bus (table n) = .ok value) :
    cpu.tick microcode = (cpu.startStep.latch (table n) value, none) := by
  have hword : microcode.word? cpu.address = some (table n) := by
    rw [haddress, hmicrocode, Microcode.word?_tabulate table hn]
  exact tick_of_bus hhalted hword hbus rfl

end Cpu

end Microcomputer
