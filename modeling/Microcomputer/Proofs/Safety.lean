import Mathlib
import Microcomputer.Proofs.Bus
import Microcomputer.Proofs.Simulation

/-!
# Safety of every run

Whatever bytes the machine runs, its control words let at most one output drive the bus and never
store into program memory. So every cycle succeeds and keeps the step counter, the flags and the
program in order, and so does every sequence of calls of the emulator.

* `Control.Harmless` : lines of one output at most, and without a store into program memory;
  `Microcode.harmless_standard` : every control word of the instruction set asserts such lines;
* `Cpu.Sound` : the invariant of the CPU, in range with its program, `Cpu.tick_sound` : a cycle keeps it;
* `Emulator.Call`, `Emulator.perform`, `Emulator.performAll` : calls of the emulator;
* `Emulator.perform_sound` : a call keeps the invariant, and at most reports the limit of cycles;
* `Emulator.runs_safely` : what holds after every sequence of calls.
-/

namespace Microcomputer

/-! ## Control words -/

/-- Lines of which at most one drives the bus and that do not store into program memory. -/
def Control.Harmless (lines : List Control) : Prop :=
  (lines.filter Control.drives).length ≤ 1 ∧ ¬ (.ramIn ∈ lines ∧ .ramSelectProgram ∈ lines)

instance (lines : List Control) : Decidable (Control.Harmless lines) := by
  unfold Control.Harmless
  infer_instance

theorem InstructionSet.harmless_encodings : ∀ e ∈ encodings, ∀ p ∈ e.code,
    ∀ step ∈ Microprogram.numberedSteps 2 p.steps, Control.Harmless step.2 := by
  decide +kernel

namespace Microcode

def Harmless (microcode : Microcode) : Prop :=
  ∀ n < microcodeSize, ∃ word lines, microcode.word? n = some word ∧ Control.Asserts word lines ∧
    Control.Harmless lines

/-- Every control word of the instruction set is that of the fetch, of a step or of nothing. -/
theorem harmless_standard : ∃ microcode, standard = .ok microcode ∧ Harmless microcode := by
  obtain ⟨microcode, t₀, t₁, ts, hstandard, h₀, h₁, hts, word, idle⟩ := exists_standard_words
  refine ⟨microcode, hstandard, ?_⟩
  intro n hn
  cases hfind : ([t₀, t₁] ++ ts).find? (·.covers n) with
  | none => exact ⟨_, _, idle n hn hfind, asserts_nil, by decide⟩
  | some t =>
    have ht := List.mem_of_find?_eq_some hfind
    have hcovers : t.covers n = true := by simpa using List.find?_some hfind
    have hword := word t ht n hn hcovers
    simp only [List.cons_append, List.nil_append, List.mem_cons] at ht
    rcases ht with rfl | rfl | ht
    · exact ⟨_, _, hword, h₀.asserts, by decide⟩
    · exact ⟨_, _, hword, h₁.asserts, by decide⟩
    · obtain ⟨e, he, p, hp, step, hstep, hs⟩ := hts.sound t ht
      exact ⟨_, _, hword, hs.asserts, InstructionSet.harmless_encodings e he p hp step hstep⟩

end Microcode

/-! ## One cycle -/

namespace Cpu

/-- The state of a machine with the given program memory: step counter and flags are in range. -/
structure Sound (program : Memory) (cpu : Cpu) : Prop extends InRange cpu where
  program_eq : cpu.program = program

variable {program : Memory} {cpu : Cpu}

theorem Sound.startStep (h : cpu.Sound program) : cpu.startStep.Sound program := by
  refine ⟨h.toInRange.startStep, ?_⟩
  rw [startStep_eq]
  exact h.program_eq

theorem Sound.latch (h : cpu.Sound program) {word : BitVec 64} {lines : List Control}
    (ha : Control.Asserts word lines) (hl : Control.Harmless lines) (value : UInt8) :
    (cpu.latch word value).Sound program := by
  refine ⟨h.toInRange.latch word value, ?_⟩
  -- the only write to program memory needs both lines
  have hstore : (Control.ramIn.isActive word && Control.ramSelectProgram.isActive word) = false := by
    rw [ha, ha, ← Bool.decide_and]
    exact decide_eq_false hl.2
  show (if _ then _ else cpu.program) = program
  rw [hstore]
  exact h.program_eq

theorem tick_sound {microcode : Microcode} (hm : microcode.Harmless) (h : cpu.Sound program) :
    ∃ after, cpu.tick microcode = (after, none) ∧ after.Sound program := by
  cases hhalted : cpu.halted with
  | true => exact ⟨cpu, tick_of_halted hhalted, h⟩
  | false =>
    obtain ⟨n, hn, haddress⟩ := h.address
    obtain ⟨word, lines, hword, ha, hl⟩ := hm n hn
    rw [← haddress] at hword
    have hdrivers : (Control.drivers word).length ≤ 1 := (Control.length_drivers_le ha).trans hl.1
    obtain ⟨value, -, htick⟩ := tick_latched hhalted hword hdrivers
    exact ⟨_, htick, h.startStep.latch ha hl value⟩

end Cpu

/-! ## Calls of the emulator -/

namespace Emulator

/-- What can be asked of an emulator that has its program. -/
inductive Call where
  | tick
  | next
  /-- A run with a limit of cycles; 0 stands for the default. -/
  | run (limit : Int)
  | reset

/-- The emulator after a call, and what the call reports. -/
def perform (emu : Emulator) : Call → Emulator × Option Failure
  | .tick => emu.tick
  | .next => emu.next
  | .run limit => { emu with tickLimit := limit }.run
  | .reset => (emu.reset, none)

/-- The emulator after calls, one after the other, whatever they report. -/
def performAll (emu : Emulator) (calls : List Call) : Emulator :=
  calls.foldl (fun emu call => (emu.perform call).1) emu

structure Sound (program : Memory) (emu : Emulator) : Prop where
  harmless : emu.microcode.Harmless
  cpu : emu.cpu.Sound program

variable {program : Memory} {emu : Emulator}

theorem reset_sound (hm : emu.microcode.Harmless) (hprogram : emu.cpu.program = program) :
    emu.reset.Sound program :=
  ⟨hm, .of_cleared rfl rfl, hprogram⟩

theorem ready_inRange (h : emu.cpu.InRange) : emu.ready.cpu.InRange :=
  ⟨h.step_nonneg, h.step_le, h.flags_lt⟩

theorem tick_sound (h : emu.Sound program) :
    ∃ after, emu.tick = (after, none) ∧ after.Sound program := by
  have hready : emu.ready.cpu.Sound program := ⟨ready_inRange h.cpu.toInRange, h.cpu.program_eq⟩
  obtain ⟨cpu, htick, hcpu⟩ := Cpu.tick_sound h.harmless hready
  exact ⟨_, tick_eq htick, h.harmless, hcpu⟩

theorem nextWithin_sound (n : Nat) (h : emu.Sound program) :
    ∃ after, emu.nextWithin n = (after, none) ∧ after.Sound program := by
  induction n generalizing emu with
  | zero => exact ⟨emu, rfl, h⟩
  | succ n ih =>
    obtain ⟨after, htick, hafter⟩ := tick_sound h
    unfold nextWithin
    rw [htick]
    dsimp only
    split
    · exact ⟨after, rfl, hafter⟩
    · exact ih hafter

theorem runWithin_sound (n : Nat) (h : emu.Sound program) :
    ∃ after failure, emu.runWithin n = (after, failure) ∧ after.Sound program ∧
      (failure = none ∨ ∃ line, failure = some (.error (.runtime line .tickLimit))) := by
  induction n generalizing emu with
  | zero =>
    unfold runWithin
    split
    · exact ⟨emu, _, rfl, h, Or.inl rfl⟩
    · exact ⟨emu, _, rfl, h, Or.inr ⟨_, rfl⟩⟩
  | succ n ih =>
    obtain ⟨after, htick, hafter⟩ := tick_sound h
    unfold runWithin
    split
    · exact ⟨emu, _, rfl, h, Or.inl rfl⟩
    · rw [htick]
      exact ih hafter

/-- A call keeps the invariant, and reports nothing but the limit of a run. -/
theorem perform_sound (h : emu.Sound program) (call : Call) :
    (emu.perform call).1.Sound program ∧ ((emu.perform call).2 = none ∨ ∃ limit line,
      call = .run limit ∧ (emu.perform call).2 = some (.error (.runtime line .tickLimit))) := by
  cases call with
  | tick =>
    obtain ⟨after, htick, hafter⟩ := tick_sound h
    have hperform : emu.perform .tick = (after, none) := htick
    rw [hperform]
    exact ⟨hafter, Or.inl rfl⟩
  | next =>
    obtain ⟨after, hnext, hafter⟩ := nextWithin_sound instructionCycles h
    have hperform : emu.perform .next = (after, none) := hnext
    rw [hperform]
    exact ⟨hafter, Or.inl rfl⟩
  | run limit =>
    have hlimit : ({ emu with tickLimit := limit } : Emulator).Sound program := ⟨h.harmless, h.cpu⟩
    obtain ⟨after, failure, hrun, hafter, hfailure⟩ :=
      runWithin_sound ({ emu with tickLimit := limit } : Emulator).ticksLeft hlimit
    have hperform : emu.perform (.run limit) = (after, failure) := hrun
    rw [hperform]
    refine ⟨hafter, hfailure.imp_right ?_⟩
    rintro ⟨line, hline⟩
    exact ⟨limit, line, rfl, hline⟩
  | reset => exact ⟨reset_sound h.harmless h.cpu.program_eq, Or.inl rfl⟩

theorem performAll_sound (calls : List Call) (h : emu.Sound program) :
    (emu.performAll calls).Sound program := by
  induction calls generalizing emu with
  | nil => exact h
  | cons call calls ih => exact ih (perform_sound h call).1

theorem load_sound {code : Program} {loaded : Emulator} (hm : emu.microcode.Harmless)
    (hload : emu.load code = .ok loaded) : loaded.Sound (.ofBytes code.binary) := by
  unfold load at hload
  dsimp only at hload
  split at hload
  · cases hload
  · cases hload
    exact reset_sound hm rfl

/-- A machine that can go on: its counters and flags are in range, its next control word exists, and
program memory holds the given bytes, then zeros. -/
structure Guarded (bytes : List UInt8) (emu : Emulator) : Prop where
  step_mem : 0 ≤ emu.cpu.step ∧ emu.cpu.step ≤ 7
  flags_lt : emu.cpu.flags.toNat < 16
  address_mem : 0 ≤ emu.cpu.address ∧ emu.cpu.address < 2 ^ 15
  word : ∃ word, emu.microcode.word? emu.cpu.address = some word
  program_eq : ∀ address : UInt8, emu.cpu.program.read address = bytes[address.toNat]?.getD 0

theorem Sound.guarded {bytes : List UInt8} (h : emu.Sound (.ofBytes bytes)) :
    emu.Guarded bytes := by
  obtain ⟨n, hn, haddress⟩ := h.cpu.address
  obtain ⟨word, -, hword, -⟩ := h.harmless n hn
  refine ⟨⟨h.cpu.step_nonneg, h.cpu.step_le⟩, h.cpu.flags_lt, ?_, ⟨word, by rw [haddress, hword]⟩, ?_⟩
  · rw [haddress]
    exact ⟨Int.natCast_nonneg n, by exact_mod_cast hn⟩
  · intro address
    rw [h.cpu.program_eq, Memory.read_ofBytes]

/-- The microcode of the instruction set can be built, and a machine that runs it is safe whatever
program it has: after every sequence of calls it can go on with its program unchanged, and no call
reports anything but the limit of a run. -/
theorem runs_safely : ∃ microcode, Microcode.standard = .ok microcode ∧
    ∀ (emu loaded : Emulator) (code : Program), emu.microcode = microcode →
      emu.load code = .ok loaded → ∀ calls : List Call,
        Guarded code.binary (loaded.performAll calls) ∧
        ∀ call, ((loaded.performAll calls).perform call).2 = none ∨ ∃ limit line,
          call = .run limit ∧ ((loaded.performAll calls).perform call).2 =
            some (.error (.runtime line .tickLimit)) := by
  obtain ⟨microcode, hstandard, hharmless⟩ := Microcode.harmless_standard
  refine ⟨microcode, hstandard, ?_⟩
  rintro emu loaded code rfl hload calls
  have h := performAll_sound calls (load_sound hharmless hload)
  exact ⟨h.guarded, fun call => (perform_sound h call).2⟩

/-- A jump into its own operand, at address 6 the byte 6, which no operation has. -/
theorem runs_jump_safely : ∃ final microcode loaded,
    (Assembler.standard 0).process (List.replicate 5 "NOOP" ++ ["JUMP 6"]) = .ok final ∧
      Microcode.standard = .ok microcode ∧
      ({ microcode := microcode } : Emulator).load ⟨final⟩ = .ok loaded ∧
      Guarded (Program.mk final).binary (loaded.performAll [.run 45, .next, .tick, .run 90]) ∧
      ((loaded.performAll [.run 45, .next, .tick, .run 90]).perform .next).2 = none := by
  have hcheck : ((Assembler.standard 0).process
      (List.replicate 5 "NOOP" ++ ["JUMP 6"])).toOption.any (fun final =>
        (Program.mk final).binary.length ≤ memorySize) = true := by decide +kernel
  obtain ⟨final, hfinal, hlength⟩ := Traversal.exists_ok_of_any hcheck
  rw [decide_eq_true_eq] at hlength
  obtain ⟨microcode, hstandard, hsafe⟩ := runs_safely
  obtain ⟨loaded, hload⟩ : ∃ loaded, ({ microcode := microcode } : Emulator).load ⟨final⟩ =
      .ok loaded := ⟨_, if_neg (Nat.not_lt.mpr hlength)⟩
  obtain ⟨hguarded, hreports⟩ :=
    hsafe _ loaded ⟨final⟩ rfl hload [.run 45, .next, .tick, .run 90]
  refine ⟨final, microcode, loaded, hfinal, hstandard, hload, hguarded, ?_⟩
  rcases hreports .next with h | ⟨limit, line, hcall, -⟩
  · exact h
  · cases hcall

end Emulator

end Microcomputer
