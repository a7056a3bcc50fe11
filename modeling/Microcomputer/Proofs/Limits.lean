import Mathlib
import Microcomputer.Proofs.Boundary

/-!
# The limit of a run

A run goes on until the CPU halts, a cycle fails, or the count of cycles, which no call but a reset sets
back, has reached the limit. So a run that stopped at its limit can be taken up with a larger one, and it
goes where the instructions one by one go.

* `Emulator.limited`, `Emulator.bound` : an emulator with a limit of cycles, and what the limit stands for;
* `Emulator.Runs limit n emu result` : the loop ends with a result after `n` cycles, `Emulator.run_runs` :
  `Emulator.run` is that loop;
* `Emulator.Spans n emu after` : `n` cycles without a halt or a failure;
* `Emulator.HaltsIn` : the CPU halts within the limit, `Emulator.ObeysLimit` : what a run makes of its limit;
* `Runs.resume` : a run that is taken up again, `StepsTo.spans` : instructions up to a halt;
* `Emulator.run_resumes_within_limit` : the limit, resumption, and the two ways to the end.
-/

namespace Microcomputer

theorem Cpu.ticks_of_tick {microcode : Microcode} {cpu after : Cpu} (hhalted : cpu.halted = false)
    (h : cpu.tick microcode = (after, none)) : after.ticks = cpu.ticks + 1 := by
  have hstart : cpu.startStep.ticks = cpu.ticks := by rw [startStep_eq]
  rw [tick, hhalted, if_neg Bool.false_ne_true] at h
  dsimp only at h
  split at h
  · cases h
  · split at h
    · cases h
    · cases h
      rw [← hstart]
      rfl

namespace Emulator

variable {emu mid after : Emulator} {result : Emulator × Option Failure} {limit : Int} {n m : Nat}

def limited (emu : Emulator) (limit : Int64) : Emulator := { emu with tickLimit := limit.toInt }

/-- The count of cycles at which a run with a limit stops; 0 stands for the default. -/
def bound (limit : Int64) : Int := if limit = 0 then defaultTickLimit else limit.toInt

theorem bound_le (limit : Int64) : bound limit ≤ Int64.maxValue.toInt := by
  unfold bound
  split
  · decide
  · exact Int64.le_iff_toInt_le.mp (Int64.le_maxValue limit)

def cycles (emu : Emulator) : Nat → Emulator
  | 0 => emu
  | n + 1 => emu.tick.1.cycles n

/-! ## The loop -/

inductive Stops (limit : Int) (emu : Emulator) : Emulator × Option Failure → Prop
  | halted : emu.cpu.halted = true → Stops limit emu (emu, none)
  | exhausted : emu.cpu.halted = false → limit ≤ emu.cpu.ticks.toInt →
      Stops limit emu (emu, some (.error (.runtime emu.lineNo .tickLimit)))
  | fails {after : Emulator} {failure : Failure} : emu.cpu.halted = false →
      emu.cpu.ticks.toInt < limit → emu.tick = (after, some failure) →
      Stops limit emu (after, some failure)

/-- A run: `n` cycles, each of an emulator that is not halted and below the limit, up to a stop. -/
inductive Runs (limit : Int) : Nat → Emulator → Emulator × Option Failure → Prop
  | stops {emu : Emulator} {result : Emulator × Option Failure} : Stops limit emu result →
      Runs limit 0 emu result
  | goesOn {n : Nat} {emu mid : Emulator} {result : Emulator × Option Failure} :
      emu.cpu.halted = false → emu.cpu.ticks.toInt < limit → emu.tick = (mid, none) →
      Runs limit n mid result → Runs limit (n + 1) emu result

theorem ticks_of_tick (hhalted : emu.cpu.halted = false) (h : emu.tick = (after, none)) :
    after.cpu.ticks = emu.cpu.ticks + 1 := by
  rcases hcpu : emu.ready.cpu.tick emu.microcode with ⟨cpu, _ | failure⟩
  · rw [tick_eq hcpu] at h
    cases h
    have hhalted' : emu.ready.cpu.halted = false := hhalted
    have hticks := Cpu.ticks_of_tick hhalted' hcpu
    exact hticks
  · rw [tick, hcpu] at h
    cases h

/-- Below the largest count, the next count is one more. -/
theorem toInt_ticks_of_tick (hhalted : emu.cpu.halted = false) (h : emu.tick = (after, none))
    (hlt : emu.cpu.ticks.toInt < Int64.maxValue.toInt) :
    after.cpu.ticks.toInt = emu.cpu.ticks.toInt + 1 := by
  have hmin := Int64.le_toInt emu.cpu.ticks
  have hmax : Int64.maxValue.toInt = 9223372036854775807 := rfl
  have hone : (1 : Int64).toInt = 1 := rfl
  rw [ticks_of_tick hhalted h, Int64.toInt_add, hone, Int.bmod_eq_of_le]
  · omega
  · omega

theorem runWithin_runs (hmax : limit ≤ Int64.maxValue.toInt) (hn : (limit - emu.cpu.ticks.toInt).toNat = n) :
    ∃ k, Runs limit k emu (emu.runWithin n) := by
  induction n generalizing emu with
  | zero =>
    unfold runWithin
    cases hhalted : emu.cpu.halted with
    | true => exact ⟨0, .stops (.halted hhalted)⟩
    | false => exact ⟨0, .stops (.exhausted hhalted (by omega))⟩
  | succ n ih =>
    have hlt : emu.cpu.ticks.toInt < limit := by omega
    unfold runWithin
    cases hhalted : emu.cpu.halted with
    | true => exact ⟨0, .stops (.halted hhalted)⟩
    | false =>
      rw [if_neg Bool.false_ne_true]
      rcases htick : emu.tick with ⟨mid, _ | failure⟩
      · have hticks := toInt_ticks_of_tick hhalted htick (by omega)
        have hleft : (limit - mid.cpu.ticks.toInt).toNat = n := by omega
        obtain ⟨k, hruns⟩ := ih hleft
        exact ⟨k + 1, .goesOn hhalted hlt htick hruns⟩
      · exact ⟨0, .stops (.fails hhalted hlt htick)⟩

theorem run_runs (emu : Emulator) (limit : Int64) :
    ∃ n, Runs (bound limit) n (emu.limited limit) (emu.limited limit).run := by
  apply runWithin_runs (bound_le limit)
  have hzero : limit.toInt = 0 ↔ limit = 0 := Int64.toInt_inj (y := 0)
  unfold ticksLeft bound limited
  simp only [hzero]

theorem Stops.unique {other : Emulator × Option Failure} (h : Stops limit emu result)
    (h' : Stops limit emu other) : other = result := by
  cases h with
  | halted hhalted =>
    cases h' with
    | halted => rfl
    | exhausted hhalted' => cases hhalted.symm.trans hhalted'
    | fails hhalted' => cases hhalted.symm.trans hhalted'
  | exhausted hhalted hle =>
    cases h' with
    | halted hhalted' => cases hhalted.symm.trans hhalted'
    | exhausted => rfl
    | fails _ hlt => omega
  | fails hhalted hlt htick =>
    cases h' with
    | halted hhalted' => cases hhalted.symm.trans hhalted'
    | exhausted => omega
    | fails _ _ htick' => exact htick'.symm.trans htick

theorem Stops.not_goesOn (h : Stops limit emu result) (hhalted : emu.cpu.halted = false)
    (hlt : emu.cpu.ticks.toInt < limit) : emu.tick ≠ (mid, none) := by
  intro htick
  cases h with
  | halted hhalted' => cases hhalted.symm.trans hhalted'
  | exhausted => omega
  | fails _ _ htick' => cases htick.symm.trans htick'

theorem Runs.unique {other : Emulator × Option Failure} (h : Runs limit n emu result)
    (h' : Runs limit m emu other) : m = n ∧ other = result := by
  induction h generalizing m with
  | stops hstops =>
    cases h' with
    | stops hstops' => exact ⟨rfl, hstops.unique hstops'⟩
    | goesOn hhalted hlt htick => exact absurd htick (hstops.not_goesOn hhalted hlt)
  | goesOn hhalted hlt htick _ ih =>
    cases h' with
    | stops hstops => exact absurd htick (hstops.not_goesOn hhalted hlt)
    | goesOn _ _ htick' hrest =>
      cases htick.symm.trans htick'
      obtain ⟨rfl, rfl⟩ := ih hrest
      exact ⟨rfl, rfl⟩

theorem Runs.run_eq {limit : Int64} (h : Runs (bound limit) n (emu.limited limit) result) :
    (emu.limited limit).run = result := by
  obtain ⟨m, hruns⟩ := run_runs emu limit
  exact (h.unique hruns).2

/-- In range, a run ends halted, at its limit or with two outputs on the bus. -/
theorem Runs.outcome (h : Runs limit n emu result) (hrange : emu.cpu.InRange) :
    result.2 = none ∨ (∃ line : Nat, result.2 = some (.error (.runtime line .tickLimit))) ∨
      ∃ line : Nat, result.2 = some (.error (.runtime line .busContention)) := by
  induction h with
  | @stops emu result hstops =>
    cases hstops with
    | halted => exact .inl rfl
    | exhausted => exact .inr (.inl ⟨_, rfl⟩)
    | fails _ _ htick =>
      have hcycled := tick_cycled hrange
      rw [htick] at hcycled
      cases hcycled with
      | contended => exact .inr (.inr ⟨_, rfl⟩)
  | goesOn _ _ htick _ ih =>
    have hcycled := tick_cycled hrange
    rw [htick] at hcycled
    exact ih (hcycled.inRange hrange)

/-! ## Cycles between two states -/

/-- Cycles, `n` of them, that succeed and do not find the CPU halted. -/
inductive Spans : Nat → Emulator → Emulator → Prop
  | zero (emu : Emulator) : Spans 0 emu emu
  | succ {n : Nat} {emu mid after : Emulator} : emu.cpu.halted = false → emu.tick = (mid, none) →
      Spans n mid after → Spans (n + 1) emu after

theorem Spans.append (h : Spans n emu mid) (h' : Spans m mid after) : Spans (n + m) emu after := by
  induction h with
  | zero =>
    rw [Nat.zero_add]
    exact h'
  | succ hhalted htick _ ih =>
    rw [Nat.succ_add]
    exact .succ hhalted htick (ih h')

theorem Spans.cycles_eq (h : Spans n emu after) : emu.cycles n = after := by
  induction h with
  | zero => rfl
  | succ _ htick _ ih =>
    rw [cycles, htick]
    exact ih

theorem Spans.not_halted (h : Spans n emu after) {k : Nat} (hk : k < n) :
    (emu.cycles k).cpu.halted = false := by
  induction h generalizing k with
  | zero => omega
  | succ hhalted htick _ ih =>
    cases k with
    | zero => exact hhalted
    | succ k =>
      rw [cycles, htick]
      exact ih (by omega)

theorem Spans.ticks_eq (h : Spans n emu after)
    (hmax : emu.cpu.ticks.toInt + n ≤ Int64.maxValue.toInt) :
    after.cpu.ticks.toInt = emu.cpu.ticks.toInt + n := by
  induction h with
  | zero => omega
  | @succ n emu mid after hhalted htick _ ih =>
    have hticks := toInt_ticks_of_tick hhalted htick (by omega)
    have := ih (by omega)
    omega

/-- A cycle leaves the emulator as the next one finds it. -/
theorem ready_of_tick (h : emu.tick = (after, none)) : after.ready = after := by
  have hverbose := Cpu.verbose_tick emu.microcode emu.ready.cpu
  rcases hcpu : emu.ready.cpu.tick emu.microcode with ⟨cpu, _ | failure⟩
  · rw [hcpu] at hverbose
    rw [tick_eq hcpu] at h
    cases h
    have hcopy : emu.ready.cpu.verbose = emu.verbose := rfl
    unfold ready
    dsimp only
    rw [← hcopy, ← hverbose]
  · rw [tick, hcpu] at h
    cases h

theorem Spans.ready_eq (h : Spans n emu after) (hn : n ≠ 0) : after.ready = after := by
  induction h with
  | zero => exact absurd rfl hn
  | @succ n emu mid after _ htick hrest ih =>
    by_cases hzero : n = 0
    · subst hzero
      cases hrest
      exact ready_of_tick htick
    · exact ih hzero

theorem Stepping.spans (h : Stepping n emu (after, none)) (hhalted : emu.cpu.halted = false) :
    Spans n emu after := by
  generalize hresult : (after, (none : Option Failure)) = result at h
  induction h with
  | fails => cases hresult
  | ends htick =>
    cases hresult
    exact .succ hhalted htick (.zero _)
  | goesOn htick hmid _ _ ih => exact .succ hhalted htick (ih hmid hresult)

/-! ## Runs by the cycles they have -/

theorem Runs.spans (h : Runs limit n emu result) : ∃ mid, Spans n emu mid ∧ Stops limit mid result := by
  induction h with
  | stops hstops => exact ⟨_, .zero _, hstops⟩
  | goesOn hhalted _ htick _ ih =>
    obtain ⟨mid, hspans, hstops⟩ := ih
    exact ⟨mid, .succ hhalted htick hspans, hstops⟩

theorem Runs.within (h : Runs limit n emu result) (hmax : limit ≤ Int64.maxValue.toInt) :
    n = 0 ∨ emu.cpu.ticks.toInt + n ≤ limit := by
  induction h with
  | stops => exact .inl rfl
  | goesOn hhalted hlt htick _ ih =>
    have hticks := toInt_ticks_of_tick hhalted htick (by omega)
    right
    rcases ih with hzero | hle <;> omega

theorem Spans.runs (h : Spans n emu mid) (hmax : limit ≤ Int64.maxValue.toInt)
    (hwithin : n = 0 ∨ emu.cpu.ticks.toInt + n ≤ limit) (hrest : Runs limit m mid result) :
    Runs limit (n + m) emu result := by
  induction h with
  | zero =>
    rw [Nat.zero_add]
    exact hrest
  | @succ n emu mid after hhalted htick _ ih =>
    have hlt : emu.cpu.ticks.toInt < limit := by omega
    have hticks := toInt_ticks_of_tick hhalted htick (by omega)
    rw [Nat.succ_add]
    exact .goesOn hhalted hlt htick (ih (by omega) hrest)

/-- The CPU is halted, or halts in `k` cycles that the limit allows. -/
structure HaltsIn (limit : Int) (emu : Emulator) (k : Nat) : Prop where
  within : k = 0 ∨ emu.cpu.ticks.toInt + k ≤ limit
  halted : (emu.cycles k).cpu.halted = true
  first : ∀ j < k, (emu.cycles j).cpu.halted = false

theorem HaltsIn.unique {k l : Nat} (h : HaltsIn limit emu k) (h' : HaltsIn limit emu l) : k = l := by
  rcases Nat.lt_trichotomy k l with hlt | heq | hlt
  · cases h.halted.symm.trans (h'.first k hlt)
  · exact heq
  · cases h'.halted.symm.trans (h.first l hlt)

def Undisturbed (limit : Int) (emu : Emulator) : Prop :=
  ∀ k : Nat, emu.cpu.ticks.toInt + k < limit → (emu.cycles k).tick.2 = none

/-- A run in which no cycle fails ends where the CPU halts or else, with all the cycles of its limit, at
the limit. -/
theorem Runs.undisturbed (h : Runs limit n emu result) (hmax : limit ≤ Int64.maxValue.toInt)
    (hcycles : Undisturbed limit emu) :
    (HaltsIn limit emu n ∧ result = (emu.cycles n, none)) ∨
      (n = (limit - emu.cpu.ticks.toInt).toNat ∧ (∀ j ≤ n, (emu.cycles j).cpu.halted = false) ∧
        result = (emu.cycles n, some (.error (.runtime (emu.cycles n).lineNo .tickLimit)))) := by
  have hwithin := h.within hmax
  obtain ⟨mid, hspans, hstops⟩ := h.spans
  obtain rfl := hspans.cycles_eq
  cases hstops with
  | halted hhalted => exact .inl ⟨⟨hwithin, hhalted, fun j hj => hspans.not_halted hj⟩, rfl⟩
  | exhausted hhalted hle =>
    refine .inr ⟨?_, ?_, rfl⟩
    · rcases hwithin with rfl | hwithin
      · have hstart : limit ≤ emu.cpu.ticks.toInt := hle
        omega
      · have hticks := hspans.ticks_eq (by omega)
        omega
    · intro j hj
      rcases Nat.lt_or_eq_of_le hj with hlt | rfl
      · exact hspans.not_halted hlt
      · exact hhalted
  | fails _ hlt htick =>
    have hticks : (emu.cycles n).cpu.ticks.toInt = emu.cpu.ticks.toInt + n := by
      rcases hwithin with rfl | hwithin
      · exact (add_zero _).symm
      · exact hspans.ticks_eq (by omega)
    have hnone := hcycles n (by omega)
    rw [htick] at hnone
    cases hnone

/-- What a limit makes of a run. -/
structure ObeysLimit (limit : Int) (emu : Emulator) (result : Emulator × Option Failure) : Prop where
  /-- The loop ends, and in one way. -/
  ends : ∃ n, ∀ m other, Runs limit m emu other ↔ m = n ∧ other = result
  failure : result.2 = none ∨ (∃ line : Nat, result.2 = some (.error (.runtime line .tickLimit))) ∨
    ∃ line : Nat, result.2 = some (.error (.runtime line .busContention))
  succeeds_iff : Undisturbed limit emu → (result.2 = none ↔ ∃ k, HaltsIn limit emu k)
  /-- A run that succeeds has the cycles up to the halt. -/
  halts : Undisturbed limit emu → ∀ k, HaltsIn limit emu k → result = (emu.cycles k, none)
  /-- A run that does not has all the cycles that are left of the limit. -/
  exhausts : Undisturbed limit emu → (¬ ∃ k, HaltsIn limit emu k) →
    ∃ last, last = emu.cycles (limit - emu.cpu.ticks.toInt).toNat ∧
      result = (last, some (.error (.runtime last.lineNo .tickLimit)))

theorem Runs.obeysLimit (h : Runs limit n emu result) (hmax : limit ≤ Int64.maxValue.toInt)
    (hrange : emu.cpu.InRange) : ObeysLimit limit emu result := by
  have hhalts : Undisturbed limit emu → ∀ k, HaltsIn limit emu k → result = (emu.cycles k, none) := by
    intro hcycles k hk
    rcases h.undisturbed hmax hcycles with ⟨hn, hresult⟩ | ⟨hn, hgoes, -⟩
    · rw [hresult, hn.unique hk]
    · -- with all its cycles behind it, the CPU would have halted
      have hlt : n < k := by
        by_contra hle
        cases hk.halted.symm.trans (hgoes k (by omega))
      rcases hk.within with hzero | hwithin <;> omega
  have hexhausts : Undisturbed limit emu → (¬ ∃ k, HaltsIn limit emu k) →
      ∃ last, last = emu.cycles (limit - emu.cpu.ticks.toInt).toNat ∧
        result = (last, some (.error (.runtime last.lineNo .tickLimit))) := by
    intro hcycles hnever
    rcases h.undisturbed hmax hcycles with ⟨hn, -⟩ | ⟨rfl, -, hresult⟩
    · exact absurd ⟨n, hn⟩ hnever
    · exact ⟨_, rfl, hresult⟩
  refine ⟨⟨n, fun m other => ⟨h.unique, ?_⟩⟩, h.outcome hrange, fun hcycles => ⟨?_, ?_⟩, hhalts, hexhausts⟩
  · rintro ⟨rfl, rfl⟩
    exact h
  · intro hnone
    by_contra hnever
    obtain ⟨last, -, hresult⟩ := hexhausts hcycles hnever
    rw [hresult] at hnone
    cases hnone
  · rintro ⟨k, hk⟩
    rw [hhalts hcycles k hk]

/-! ## Resumption -/

theorem Stops.limited (h : Stops limit emu result) (other : Int64) :
    Stops limit (emu.limited other) (result.1.limited other, result.2) := by
  cases h with
  | halted hhalted => exact .halted hhalted
  | exhausted hhalted hle => exact .exhausted hhalted hle
  | fails hhalted hlt htick =>
    have htick' : (emu.limited other).tick = (emu.tick.1.limited other, emu.tick.2) := rfl
    rw [htick] at htick'
    exact .fails hhalted hlt htick'

/-- The loop does not look at the limit that the emulator holds. -/
theorem Runs.limited (h : Runs limit n emu result) (other : Int64) :
    Runs limit n (emu.limited other) (result.1.limited other, result.2) := by
  induction h with
  | stops hstops => exact .stops (hstops.limited other)
  | @goesOn n emu mid result hhalted hlt htick _ ih =>
    have htick' : (emu.limited other).tick = (emu.tick.1.limited other, emu.tick.2) := rfl
    rw [htick] at htick'
    exact .goesOn hhalted hlt htick' ih

theorem Runs.resume {line : Int} {larger : Int}
    (h : Runs limit n emu (mid, some (.error (.runtime line .tickLimit)))) (hrange : emu.cpu.InRange)
    (hle : limit ≤ larger) (hrest : Runs larger m mid result) : Runs larger (n + m) emu result := by
  generalize hstopped : (mid, some (Failure.error (.runtime line .tickLimit))) = stopped at h
  induction h with
  | stops hstops =>
    rw [Nat.zero_add]
    cases hstops with
    | halted => cases hstopped
    | exhausted =>
      cases hstopped
      exact hrest
    | fails _ _ htick =>
      cases hstopped
      have hcycled := tick_cycled hrange
      rw [htick] at hcycled
      cases hcycled
  | @goesOn n emu next stopped hhalted hlt htick _ ih =>
    have hcycled := tick_cycled hrange
    rw [htick] at hcycled
    rw [Nat.succ_add]
    exact .goesOn hhalted (by omega) htick (ih (hcycled.inRange hrange) hstopped)

/-! ## Instruction by instruction -/

/-- Instructions one after the other, none of which fails, up to the first that leaves the CPU halted. -/
inductive StepsTo : Emulator → Emulator → Prop
  | done {emu after : Emulator} : emu.next = (after, none) → after.cpu.halted = true → StepsTo emu after
  | more {emu mid after : Emulator} : emu.next = (mid, none) → mid.cpu.halted = false →
      StepsTo mid after → StepsTo emu after

theorem StepsTo.spans (h : StepsTo emu after) (hrange : emu.cpu.InRange)
    (hhalted : emu.cpu.halted = false) : ∃ n, Spans n emu after ∧ after.cpu.halted = true := by
  induction h with
  | @done emu after hnext hend =>
    obtain ⟨n, -, hstepping⟩ := exists_next_stepping hrange
    rw [hnext] at hstepping
    exact ⟨n, hstepping.spans hhalted, hend⟩
  | @more emu mid after hnext hmid _ ih =>
    obtain ⟨n, -, hstepping⟩ := exists_next_stepping hrange
    rw [hnext] at hstepping
    obtain ⟨m, hspans, hend⟩ := ih (hstepping.outcome hrange).1 hmid
    exact ⟨n + m, (hstepping.spans hhalted).append hspans, hend⟩

theorem StepsTo.run (h : StepsTo emu after) (hrange : emu.cpu.InRange) :
    ∃ k : Nat, after = (emu.cycles k).ready ∧ after.cpu.halted = true ∧
      (∀ j < k, (emu.cycles j).cpu.halted = false) ∧
      (emu.cpu.ticks.toInt + k ≤ Int64.maxValue.toInt → ∀ limit : Int64,
        after.cpu.ticks.toInt ≤ bound limit →
        ∃ reached, (emu.limited limit).run = (reached, none) ∧ reached.ready = after.limited limit) := by
  cases hhalted : emu.cpu.halted with
  | true =>
    have hcycled := tick_cycled hrange
    have htick : emu.tick = (emu.ready, none) := by
      generalize emu.tick = result at hcycled
      cases hcycled with
      | halted => rfl
      | contended hrunning => cases hhalted.symm.trans hrunning
      | latched hrunning => cases hhalted.symm.trans hrunning
    have hnext : emu.next = (emu.ready, none) := next_of_stepping (.ends htick (.inl hhalted)) (by decide)
    have hafter : after = emu.ready := by
      cases h with
      | done hnext' => exact (Prod.mk.inj (hnext'.symm.trans hnext)).1
      | more hnext' hmid =>
        cases hnext'.symm.trans hnext
        cases hmid.symm.trans hhalted
    subst hafter
    refine ⟨0, rfl, hhalted, fun j hj => absurd hj (Nat.not_lt_zero j), fun _ limit _ => ?_⟩
    have hstop : Runs (bound limit) 0 (emu.limited limit) (emu.limited limit, none) :=
      .stops (.halted hhalted)
    exact ⟨emu.limited limit, hstop.run_eq, rfl⟩
  | false =>
    obtain ⟨k, hspans, hend⟩ := h.spans hrange hhalted
    have hk : k ≠ 0 := by
      rintro rfl
      cases hspans
      cases hhalted.symm.trans hend
    refine ⟨k, ?_, hend, fun j hj => hspans.not_halted hj, fun hmax limit hlimit => ?_⟩
    · rw [hspans.cycles_eq, hspans.ready_eq hk]
    · have hticks := hspans.ticks_eq hmax
      have hstop : Runs (bound limit) 0 after (after, none) := .stops (.halted hend)
      have hruns := (hspans.runs (bound_le limit) (.inr (by omega)) hstop).limited limit
      refine ⟨after.limited limit, hruns.run_eq, ?_⟩
      exact congrArg (·.limited limit) (hspans.ready_eq hk)

theorem run_resumed (hrange : emu.cpu.InRange) {first second : Int64} (hle : bound first ≤ bound second)
    {line : Int} (h : (emu.limited first).run.2 = some (.error (.runtime line .tickLimit))) :
    ((emu.limited first).run.1.limited second).run = (emu.limited second).run := by
  obtain ⟨n, hfirst⟩ := run_runs emu first
  obtain ⟨m, hrest⟩ := run_runs (emu.limited first).run.1 second
  have hstopped := hfirst.limited second
  rw [h] at hstopped
  exact (Runs.resume hstopped hrange hle hrest).run_eq.symm

/-- For every limit, a run ends as the limit has it; a run that stopped at its limit, taken up with one
that is not smaller, comes to the state and result of a single run with that one; and where instructions
one by one come to a halt, a run with a limit that is not below the count comes to the same state, unless
the count has wrapped on the way. -/
theorem run_resumes_within_limit (emu : Emulator) (hrange : emu.cpu.InRange) :
    (∀ limit : Int64, ObeysLimit (bound limit) (emu.limited limit) (emu.limited limit).run) ∧
    (∀ (first second : Int64) (line : Int), first ≠ 0 → second ≠ 0 → first ≤ second →
      (emu.limited first).run.2 = some (.error (.runtime line .tickLimit)) →
      ((emu.limited first).run.1.limited second).run = (emu.limited second).run) ∧
    ∀ after, StepsTo emu after → ∃ k : Nat, after = (emu.cycles k).ready ∧ after.cpu.halted = true ∧
      (∀ j < k, (emu.cycles j).cpu.halted = false) ∧
      (emu.cpu.ticks.toInt + k ≤ Int64.maxValue.toInt → ∀ limit : Int64,
        after.cpu.ticks.toInt ≤ bound limit →
        ∃ reached, (emu.limited limit).run = (reached, none) ∧ reached.ready = after.limited limit) := by
  refine ⟨fun limit => ?_, fun first second line hfirst hsecond hle h => ?_, fun after h => h.run hrange⟩
  · obtain ⟨n, hruns⟩ := run_runs emu limit
    exact hruns.obeysLimit (bound_le limit) hrange
  · refine run_resumed hrange ?_ h
    rw [bound, bound, if_neg hfirst, if_neg hsecond]
    exact Int64.le_iff_toInt_le.mp hle

/-- A halt in the second cycle: a limit of one cycle stops the run, a limit of two takes it to the halt,
whether it is taken up there or starts anew, and so does the instruction. -/
theorem run_resumes_to_halt : ∃ (microcode : Microcode) (emu mid after : Emulator),
    microcode = .tabulate (fun n => if n = 1 then 33554432#64 else 0#64) ∧
    emu = { microcode := microcode } ∧ mid = { emu with cpu := { step := 1, ticks := 1 } } ∧
    after = { emu with cpu := { step := 2, ticks := 2, halted := true } } ∧
    (emu.limited 1).run = (mid.limited 1, some (.error (.runtime 0 .tickLimit))) ∧
    ((emu.limited 1).run.1.limited 2).run = (emu.limited 2).run ∧ StepsTo emu after ∧
    ∃ reached, (emu.limited 2).run = (reached, none) ∧ reached.ready = after.limited 2 := by
  obtain ⟨microcode, hmicrocode⟩ :
    ∃ microcode : Microcode, microcode = .tabulate fun n => if n = 1 then 33554432#64 else 0#64 := ⟨_, rfl⟩
  have hfirst : ({} : Cpu).tick microcode = ({ step := 1, ticks := 1 }, none) :=
    Cpu.tick_tabulate hmicrocode (n := 0) rfl (by decide) rfl rfl
  have hsecond : ({ step := 1, ticks := 1 } : Cpu).tick microcode =
      ({ step := 2, ticks := 2, halted := true }, none) :=
    Cpu.tick_tabulate hmicrocode (n := 1) rfl (by decide) rfl rfl
  obtain ⟨emu, hemu⟩ : ∃ emu : Emulator, emu = { microcode := microcode } := ⟨_, rfl⟩
  obtain ⟨mid, hmid⟩ : ∃ mid, mid = { emu with cpu := { step := 1, ticks := 1 } } := ⟨_, rfl⟩
  obtain ⟨after, hafter⟩ : ∃ after, after = { emu with cpu := { step := 2, ticks := 2, halted := true } } :=
    ⟨_, rfl⟩
  have htick : emu.tick = (mid, none) := by
    rw [hmid, hemu]
    exact tick_eq hfirst
  have htick' : mid.tick = (after, none) := by
    rw [hafter, hmid, hemu]
    exact tick_eq hsecond
  have hcpu : emu.cpu = {} := by rw [hemu]
  have hcpu' : mid.cpu = { step := 1, ticks := 1 } := by rw [hmid]
  have hhalted : emu.cpu.halted = false := congrArg Cpu.halted hcpu
  have hhalted' : mid.cpu.halted = false := congrArg Cpu.halted hcpu'
  have hhalts : after.cpu.halted = true := by rw [hafter]
  have hspans : Spans 2 emu after := .succ hhalted htick (.succ hhalted' htick' (.zero after))
  have hsteps : StepsTo emu after := by
    have hstep : mid.cpu.step ≠ 0 := by
      rw [hcpu']
      decide
    exact .done (next_of_stepping (.goesOn htick hhalted' hstep (.ends htick' (.inl hhalts))) (by decide)) hhalts
  have hzero : emu.cpu.ticks.toInt = 0 := congrArg (·.ticks.toInt) hcpu
  -- the first limit is reached between the two cycles
  have hstopped : (emu.limited 1).run = (mid.limited 1, some (.error (.runtime 0 .tickLimit))) := by
    have hone : mid.cpu.ticks.toInt = 1 := congrArg (·.ticks.toInt) hcpu'
    have hbound : bound 1 = 1 := rfl
    have hline : mid.lineNo = 0 := by
      rw [hmid, hemu]
      rfl
    have hstop := Runs.goesOn hhalted (by omega) htick (.stops (.exhausted hhalted' (hbound.trans hone.symm).le))
    rw [(hstop.limited 1).run_eq, hline]
    rfl
  have hrange : emu.cpu.InRange := hcpu ▸ .of_cleared rfl rfl
  obtain ⟨-, hresumes, hsame⟩ := run_resumes_within_limit emu hrange
  obtain ⟨k, -, -, hgoes, hreaches⟩ := hsame after hsteps
  have hk : k ≤ 2 := by
    by_contra hlt
    have hrunning := hgoes 2 (by omega)
    rw [hspans.cycles_eq] at hrunning
    cases hrunning.symm.trans hhalts
  have hmax : emu.cpu.ticks.toInt + k ≤ Int64.maxValue.toInt := by
    have hlarge : 2 ≤ Int64.maxValue.toInt := by decide
    omega
  have hwithin : after.cpu.ticks.toInt ≤ bound 2 := by
    have htwo : after.cpu.ticks.toInt = 2 := congrArg (·.cpu.ticks.toInt) hafter
    exact htwo.le
  exact ⟨microcode, emu, mid, after, hmicrocode, hemu, hmid, hafter, hstopped,
    hresumes 1 2 0 (by decide) (by decide) (by decide) (congrArg Prod.snd hstopped), hsteps,
    hreaches hmax 2 hwithin⟩

/-- Where the count wraps, the instruction leads to a halt with a count below the limit, but the run has no
cycle left. -/
theorem run_stops_before_wrapping : ∃ (microcode : Microcode) (emu after : Emulator),
    microcode = .tabulate (fun _ => 33554432#64) ∧
    emu = { microcode := microcode, cpu := { ticks := Int64.maxValue } } ∧
    after = { emu with cpu := { step := 1, ticks := Int64.minValue, halted := true } } ∧
    emu.cpu.InRange ∧ StepsTo emu after ∧ after.cpu.ticks.toInt ≤ bound 100 ∧
    (emu.limited 100).run = (emu.limited 100, some (.error (.runtime 0 .tickLimit))) ∧
    (emu.limited 100).run.1.cpu ≠ after.cpu := by
  obtain ⟨microcode, hmicrocode⟩ :
    ∃ microcode : Microcode, microcode = .tabulate fun _ => 33554432#64 := ⟨_, rfl⟩
  have hcpu : ({ ticks := Int64.maxValue } : Cpu).tick microcode =
      ({ step := 1, ticks := Int64.minValue, halted := true }, none) :=
    Cpu.tick_tabulate hmicrocode (n := 0) rfl (by decide) rfl rfl
  have htick : tick { microcode := microcode, cpu := { ticks := Int64.maxValue } } =
      ({ microcode := microcode, cpu := { step := 1, ticks := Int64.minValue, halted := true } }, none) :=
    tick_eq hcpu
  have hsteps := StepsTo.done (next_of_stepping (.ends htick (.inl rfl)) (by decide)) rfl
  have hlimit : bound 100 ≤ Int64.maxValue.toInt := by decide
  have hstop : Runs (bound 100) 0
      (limited { microcode := microcode, cpu := { ticks := Int64.maxValue } } 100)
      (limited { microcode := microcode, cpu := { ticks := Int64.maxValue } } 100,
        some (.error (.runtime 0 .tickLimit))) := .stops (.exhausted rfl hlimit)
  have hrun := hstop.run_eq
  have hrange : ({ ticks := Int64.maxValue } : Cpu).InRange := ⟨by decide, by decide, by decide⟩
  have hbelow : Int64.minValue.toInt ≤ bound 100 := by decide
  refine ⟨microcode, _, _, hmicrocode, rfl, rfl, hrange, hsteps, hbelow, hrun, ?_⟩
  rw [hrun]
  intro hsame
  cases congrArg Cpu.halted hsame

end Emulator

end Microcomputer
