import Mathlib
import Microcomputer.Proofs.Latching
import Microcomputer.Proofs.Safety

/-!
# From one instruction boundary to the next

The cycles of an instruction go on until one fails, the CPU halts or the step counter is back at 0. They
have no count of their own: whatever words the microcode holds, each cycle resets the step counter or
moves it up, so a counter that stands at `step` needs `8 - step` cycles at most.

* `Cpu.Updates.step_cases` : what a cycle does to the step counter;
* `Emulator.Cycled` : the outcomes of a cycle, `Emulator.tick_cycled` : there are no others;
* `Emulator.Stepping n emu result` : `n` cycles lead to the end of the instruction;
* `Emulator.next_of_stepping` : `Emulator.next` is that loop;
* `Emulator.next_reaches_boundary` : the loop ends in time, and at a boundary.
-/

namespace Microcomputer

namespace Cpu

variable {word : BitVec 64} {value : UInt8} {before after : Cpu}

/-- The step counter is back at 0 or one further. -/
theorem Updates.step_cases (h : Updates word value before after) (hrange : before.InRange) :
    after.step = 0 ∨ after.step = before.step + 1 := by
  have hnonneg := hrange.step_nonneg
  have hle := hrange.step_le
  rw [h.step]
  split <;> omega

end Cpu

namespace Emulator

variable {emu : Emulator} {result : Emulator × Option Failure} {n : Nat}

/-! ## The outcomes of a cycle -/

/-- The emulator when a cycle stops before anything is latched. -/
def stuck (emu : Emulator) : Emulator := { emu with cpu := emu.ready.cpu.startStep }

theorem stuck_eq (emu : Emulator) : emu.stuck = { emu with
    cpu := { emu.cpu with
      ip := if emu.cpu.step = 0 then emu.cpu.pc else emu.cpu.ip
      verbose := emu.verbose } } := by
  unfold stuck
  rw [Cpu.startStep_eq]
  rfl

theorem lineNo_stuck (emu : Emulator) : emu.stuck.lineNo = emu.lineNo := by
  unfold lineNo
  rw [stuck_eq]
  by_cases hstep : emu.cpu.step = 0
  · simp only [hstep, if_true]
  · simp only [hstep, if_false]

/-- What a cycle can do: nothing once the CPU has halted, stop where two outputs meet on the bus, or
latch. -/
inductive Cycled (emu : Emulator) : Emulator × Option Failure → Prop
  | halted : emu.cpu.halted = true → Cycled emu (emu.ready, none)
  | contended {word : BitVec 64} : emu.cpu.halted = false →
      emu.microcode.word? emu.cpu.address = some word → 2 ≤ (Control.drivers word).length →
      Cycled emu (emu.stuck, some (.error (.runtime emu.lineNo .busContention)))
  | latched {word : BitVec 64} {value : UInt8} {after : Cpu} : emu.cpu.halted = false →
      emu.microcode.word? emu.cpu.address = some word → Cpu.Updates word value emu.ready.cpu after →
      Cycled emu ({ emu with cpu := after }, none)

theorem tick_of_contended {word : BitVec 64} (hhalted : emu.cpu.halted = false)
    (hword : emu.microcode.word? emu.cpu.address = some word)
    (hdrivers : 2 ≤ (Control.drivers word).length) :
    emu.tick = (emu.stuck, some (.error (.runtime emu.lineNo .busContention))) := by
  have hcpu : emu.ready.cpu.tick emu.microcode = (emu.ready.cpu.startStep, some (.error .busContention)) :=
    Cpu.tick_contended hhalted hword hdrivers
  unfold tick
  rw [hcpu, ← lineNo_stuck]
  rfl

/-- With one output on the bus at most, a cycle latches. -/
theorem tick_of_undisputed {word : BitVec 64} (h : emu.cpu.InRange) (hhalted : emu.cpu.halted = false)
    (hword : emu.microcode.word? emu.cpu.address = some word)
    (hdrivers : (Control.drivers word).length ≤ 1) :
    ∃ value after, Cpu.Updates word value emu.ready.cpu after ∧
      emu.tick = ({ emu with cpu := after }, none) := by
  have hhalted' : emu.ready.cpu.halted = false := hhalted
  obtain ⟨value, -, hcpu⟩ := Cpu.tick_latched hhalted' hword hdrivers
  refine ⟨value, _, Cpu.updates_latch (ready_inRange h) hhalted word value, ?_⟩
  rw [tick_eq hcpu]

theorem tick_cycled (h : emu.cpu.InRange) : emu.Cycled emu.tick := by
  cases hhalted : emu.cpu.halted with
  | true =>
    have hcpu : emu.ready.cpu.tick emu.microcode = (emu.ready.cpu, none) := Cpu.tick_of_halted hhalted
    rw [tick_eq hcpu]
    exact .halted hhalted
  | false =>
    obtain ⟨word, hword⟩ := h.exists_word emu.microcode
    rcases Nat.lt_or_ge (Control.drivers word).length 2 with hone | htwo
    · obtain ⟨value, after, hupdates, htick⟩ := tick_of_undisputed h hhalted hword (Nat.le_of_lt_succ hone)
      rw [htick]
      exact .latched hhalted hword hupdates
    · rw [tick_of_contended hhalted hword htwo]
      exact .contended hhalted hword htwo

theorem Cycled.inRange (h : emu.Cycled result) (hrange : emu.cpu.InRange) : result.1.cpu.InRange := by
  cases h with
  | halted => exact ready_inRange hrange
  | contended =>
    rw [stuck_eq]
    exact ⟨hrange.step_nonneg, hrange.step_le, hrange.flags_lt⟩
  | latched hhalted _ hupdates =>
    have hready := ready_inRange hrange
    rw [(Cpu.updates_iff hready hhalted _ _).mp hupdates]
    exact hready.startStep.latch _ _

/-! ## The loop -/

/-- Cycles one after the other, `n` of them: the last one fails, halts the CPU or takes the step counter
back to 0, and those before do none of it. -/
inductive Stepping : Nat → Emulator → Emulator × Option Failure → Prop
  | fails {emu after : Emulator} {failure : Failure} : emu.tick = (after, some failure) →
      Stepping 1 emu (after, some failure)
  | ends {emu after : Emulator} : emu.tick = (after, none) →
      after.cpu.halted = true ∨ after.cpu.step = 0 → Stepping 1 emu (after, none)
  | goesOn {n : Nat} {emu mid : Emulator} {result : Emulator × Option Failure} :
      emu.tick = (mid, none) → mid.cpu.halted = false → mid.cpu.step ≠ 0 → Stepping n mid result →
      Stepping (n + 1) emu result

theorem Stepping.unique {m : Nat} {other : Emulator × Option Failure} (h : Stepping n emu result)
    (h' : Stepping m emu other) : m = n ∧ other = result := by
  induction h generalizing m with
  | fails htick =>
    cases h' with
    | fails htick' => exact ⟨rfl, htick'.symm.trans htick⟩
    | ends htick' => cases htick.symm.trans htick'
    | goesOn htick' => cases htick.symm.trans htick'
  | ends htick hend =>
    cases h' with
    | fails htick' => cases htick.symm.trans htick'
    | ends htick' => exact ⟨rfl, htick'.symm.trans htick⟩
    | goesOn htick' hhalted hstep =>
      cases htick.symm.trans htick'
      rcases hend with hend | hend
      · cases hhalted.symm.trans hend
      · exact absurd hend hstep
  | goesOn htick hhalted hstep _ ih =>
    cases h' with
    | fails htick' => cases htick.symm.trans htick'
    | ends htick' hend =>
      cases htick.symm.trans htick'
      rcases hend with hend | hend
      · cases hhalted.symm.trans hend
      · exact absurd hend hstep
    | goesOn htick' _ _ hrest =>
      cases htick.symm.trans htick'
      obtain ⟨rfl, rfl⟩ := ih hrest
      exact ⟨rfl, rfl⟩

theorem nextWithin_of_stepping (h : Stepping n emu result) {k : Nat} (hk : n ≤ k) :
    emu.nextWithin k = result := by
  induction h generalizing k with
  | fails htick =>
    obtain ⟨k, rfl⟩ := Nat.exists_eq_add_of_le' hk
    rw [nextWithin, htick]
  | @ends emu after htick hend =>
    obtain ⟨k, rfl⟩ := Nat.exists_eq_add_of_le' hk
    have hend' : (after.cpu.halted || after.cpu.step == 0) = true := by
      rw [Bool.or_eq_true, beq_iff_eq]
      exact hend
    rw [nextWithin, htick]
    exact if_pos hend'
  | @goesOn n emu mid result htick hhalted hstep _ ih =>
    obtain ⟨k, rfl⟩ : ∃ k', k = k' + 1 := ⟨k - 1, by omega⟩
    have hend : ¬ (mid.cpu.halted || mid.cpu.step == 0) = true := by
      rw [Bool.or_eq_true, beq_iff_eq, hhalted]
      rintro (hcon | hcon)
      · cases hcon
      · exact hstep hcon
    rw [nextWithin, htick]
    dsimp only
    rw [if_neg hend]
    exact ih (by omega)

/-- The counter moves up by one in each cycle that goes on, so it runs out of steps. -/
theorem exists_stepping (hrange : emu.cpu.InRange) {left : Nat} (hleft : emu.cpu.step + left = 8) :
    ∃ n ≤ left, ∃ result, Stepping n emu result := by
  induction left generalizing emu with
  | zero =>
    have hle := hrange.step_le
    omega
  | succ left ih =>
    have hcycled := tick_cycled hrange
    have hone : 1 ≤ left + 1 := by omega
    rcases htick : emu.tick with ⟨after, _ | failure⟩
    · rw [htick] at hcycled
      by_cases hend : after.cpu.halted = true ∨ after.cpu.step = 0
      · exact ⟨1, hone, _, .ends htick hend⟩
      · have hhalted : after.cpu.halted = false := by
          rw [← Bool.not_eq_true]
          exact fun hcon => hend (.inl hcon)
        have hstep : after.cpu.step ≠ 0 := fun hcon => hend (.inr hcon)
        have hnext : after.cpu.step + left = 8 := by
          cases hcycled with
          | halted hcon => cases hhalted.symm.trans hcon
          | @latched word value cpu _ _ hupdates =>
            rcases hupdates.step_cases (ready_inRange hrange) with hzero | hsucc
            · exact absurd hzero hstep
            · have hbefore : emu.ready.cpu.step = emu.cpu.step := rfl
              show cpu.step + left = 8
              omega
        obtain ⟨n, hn, result, hrest⟩ := ih (hcycled.inRange hrange) hnext
        exact ⟨n + 1, by omega, result, .goesOn htick hhalted hstep hrest⟩
    · exact ⟨1, hone, _, .fails htick⟩

/-- In range, cycles fail for two outputs on the bus alone, and otherwise they end at a boundary. -/
theorem Stepping.outcome (h : Stepping n emu result) (hrange : emu.cpu.InRange) :
    result.1.cpu.InRange ∧
      ((∃ line : Nat, result.2 = some (.error (.runtime line .busContention))) ∨
        result.2 = none ∧ (result.1.cpu.halted = true ∨ result.1.cpu.step = 0)) := by
  induction h with
  | @fails emu after failure htick =>
    have hcycled := tick_cycled hrange
    rw [htick] at hcycled
    refine ⟨hcycled.inRange hrange, .inl ?_⟩
    cases hcycled with
    | contended => exact ⟨_, rfl⟩
  | @ends emu after htick hend =>
    have hcycled := tick_cycled hrange
    rw [htick] at hcycled
    exact ⟨hcycled.inRange hrange, .inr ⟨rfl, hend⟩⟩
  | goesOn htick _ _ _ ih =>
    have hcycled := tick_cycled hrange
    rw [htick] at hcycled
    exact ih (hcycled.inRange hrange)

theorem next_of_stepping (h : Stepping n emu result) (hn : n ≤ 8) : emu.next = result :=
  nextWithin_of_stepping h (Nat.le_succ_of_le hn)

theorem exists_next_stepping (hrange : emu.cpu.InRange) :
    ∃ n : Nat, (n : Int) ≤ 8 - emu.cpu.step ∧ Stepping n emu emu.next := by
  have hnonneg := hrange.step_nonneg
  have hle := hrange.step_le
  obtain ⟨left, hleft⟩ : ∃ left : Nat, emu.cpu.step + left = 8 := ⟨(8 - emu.cpu.step).toNat, by omega⟩
  obtain ⟨n, hn, result, hstepping⟩ := exists_stepping hrange hleft
  obtain rfl : emu.next = result := next_of_stepping hstepping (by omega)
  exact ⟨n, by omega, hstepping⟩

/-- Whatever the microcode holds, the cycles of an instruction are `8 - step` at most, the loop ends in
one way, and it ends with two outputs on the bus, with a halted CPU or with the step counter at 0. -/
theorem next_reaches_boundary (emu : Emulator) (hrange : emu.cpu.InRange) :
    ∃ n : Nat, (n : Int) ≤ 8 - emu.cpu.step ∧ Stepping n emu emu.next ∧
      (∀ m result, Stepping m emu result → m = n ∧ result = emu.next) ∧
      ((∃ line : Nat, emu.next.2 = some (.error (.runtime line .busContention))) ∨
        emu.next.2 = none ∧ (emu.next.1.cpu.halted = true ∨ emu.next.1.cpu.step = 0)) := by
  obtain ⟨n, hn, hstepping⟩ := exists_next_stepping hrange
  exact ⟨n, hn, hstepping, fun m result h => hstepping.unique h, (hstepping.outcome hrange).2⟩

/-- Without a single reset, from step 3 on: five cycles at most, and no failure. -/
theorem next_reaches_boundary_wrapping : ∃ (microcode : Microcode) (emu : Emulator) (n : Nat),
    microcode = .tabulate (fun _ => 0#64) ∧ emu = { microcode := microcode, cpu := { step := 3 } } ∧
      n ≤ 5 ∧ Stepping n emu emu.next ∧ emu.next.2 = none ∧
      (emu.next.1.cpu.halted = true ∨ emu.next.1.cpu.step = 0) := by
  obtain ⟨microcode, hmicrocode⟩ : ∃ microcode : Microcode, microcode = .tabulate fun _ => 0#64 := ⟨_, rfl⟩
  have hharmless : microcode.Harmless := by
    intro n hn
    rw [hmicrocode]
    exact ⟨0#64, [], Microcode.word?_tabulate _ hn, Microcode.asserts_nil, by decide⟩
  have hrange : ({ step := 3 } : Cpu).InRange := ⟨by decide, by decide, by decide⟩
  have hsound : Sound .zero { microcode := microcode, cpu := { step := 3 } } :=
    ⟨hharmless, hrange, rfl⟩
  obtain ⟨after, hnext, -⟩ := nextWithin_sound instructionCycles hsound
  have hnone : (next { microcode := microcode, cpu := { step := 3 } }).2 = none :=
    congrArg Prod.snd hnext
  obtain ⟨n, hn, hstepping, -, hend⟩ :=
    next_reaches_boundary { microcode := microcode, cpu := { step := 3 } } hrange
  have hle : (n : Int) ≤ 8 - 3 := hn
  refine ⟨microcode, _, n, hmicrocode, rfl, by omega, hstepping, hnone, ?_⟩
  rcases hend with ⟨line, hline⟩ | ⟨-, hend⟩
  · rw [hnone] at hline
    cases hline
  · exact hend

end Emulator

end Microcomputer
