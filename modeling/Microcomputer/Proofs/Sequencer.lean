import Mathlib
import Microcomputer.Proofs.Cycle

/-!
# The cycles of an instruction

* `Cpu.Follows steps cpu after` : the steps of a microprogram, one after the other, turn `cpu` into
  `after`;
* `Cpu.Completes microcode n cpu after` : from `cpu` on, `n` cycles without an error reach the first
  state, `after`, that is at the start of an instruction or halted;
* `Microprogram.Steady` : a microprogram that keeps the instruction, the flags it depends on and,
  before its last step, the clock;
* `Cpu.completes_encoded`, `Cpu.completes_idle` : the cycles of an instruction byte with an encoding
  and of one without.
-/

namespace Microcomputer

open Microcode

namespace Control

theorem Asserts.upToReset {word : BitVec 64} {lines : List Control} (h : Asserts word lines) :
    AssertsUpToReset word lines := fun line _ => h line

theorem Asserts.upToReset_append {word : BitVec 64} {lines : List Control}
    (h : Asserts word (lines ++ [.stepReset])) : AssertsUpToReset word lines := by
  intro line hline
  rw [h line]
  simp [hline]

end Control

namespace Cpu

/-! ## One cycle -/

theorem address_eq {cpu : Cpu} {n : Nat} (hstep : cpu.step = n) (hn : n < 8)
    (hflags : cpu.flags.toNat < 16) :
    cpu.address = ((cpu.ir.toNat * 128 + cpu.flags.toNat * 8 + n : Nat) : Int) := by
  have hlow : cpu.flags.toNat <<< 3 < 2 ^ 7 := by rw [Nat.shiftLeft_eq]; omega
  have hhigh : cpu.ir.toNat <<< 7 ||| cpu.flags.toNat <<< 3 =
      (cpu.ir.toNat * 16 + cpu.flags.toNat) <<< 3 := by
    rw [← Nat.shiftLeft_add_eq_or_of_lt hlow, Nat.shiftLeft_eq, Nat.shiftLeft_eq, Nat.shiftLeft_eq]
    omega
  have hor : (cpu.ir.toNat * 16 + cpu.flags.toNat) <<< 3 ||| n =
      cpu.ir.toNat * 128 + cpu.flags.toNat * 8 + n := by
    rw [← Nat.shiftLeft_add_eq_or_of_lt (by omega), Nat.shiftLeft_eq]
    omega
  rw [address, hstep, hhigh, ← hor]
  rfl

theorem address_lt (cpu : Cpu) {n : Nat} (hn : n < 8) (hflags : cpu.flags.toNat < 16) :
    cpu.ir.toNat * 128 + cpu.flags.toNat * 8 + n < microcodeSize := by
  have := cpu.ir.toNat_lt
  rw [show microcodeSize = 32768 from rfl]
  omega

theorem Effect.clocked {lines : List Control} {cpu after : Cpu} (h : Effect lines cpu after)
    (step : Int) (ticks : Int64) : Effect lines (cpu.clocked step ticks) after := by
  intro word hword
  obtain ⟨value, hbus, hlatch⟩ := h word hword
  refine ⟨value, hbus, ?_⟩
  have : (cpu.clocked step ticks).latch word value =
      (cpu.latch word value).clocked
        (if Control.stepReset.isActive word then 0 else (step + 1).tmod 8) (ticks + 1) := rfl
  rw [this, hlatch]
  rfl

theorem tick_of_effect {microcode : Microcode} (cpu : Cpu) {after : Cpu} {word : BitVec 64}
    {lines : List Control} (hhalted : cpu.halted = false)
    (hword : microcode.word? cpu.startStep.address = some word)
    (ha : Control.AssertsUpToReset word lines) (he : Effect lines cpu.startStep after) :
    cpu.tick microcode = (after.counted cpu.startStep word, none) := by
  obtain ⟨value, hbus, hlatch⟩ := he word ha
  simp [tick, hhalted, hword, hbus, hlatch]

/-- A cycle that does not start an instruction. -/
theorem tick_clocked {microcode : Microcode} (cpu : Cpu) {after : Cpu} {word : BitVec 64}
    {lines : List Control} {n : Nat} (hn : 0 < n) {ticks : Int64} (hhalted : cpu.halted = false)
    (hword : microcode.word? (cpu.clocked n ticks).address = some word)
    (ha : Control.AssertsUpToReset word lines) (he : Effect lines cpu after) :
    (cpu.clocked n ticks).tick microcode =
      (after.clocked (if Control.stepReset.isActive word then 0 else ((n + 1) % 8 : Nat)) (ticks + 1),
        none) := by
  have hstart : (cpu.clocked n ticks).startStep = cpu.clocked n ticks :=
    if_neg (Int.natCast_ne_zero.mpr hn.ne')
  have heffect : Effect lines (cpu.clocked n ticks).startStep after := by
    rw [hstart]
    exact he.clocked n ticks
  rw [tick_of_effect (cpu.clocked n ticks) hhalted (by rwa [hstart]) ha heffect, hstart]
  rfl

/-! ## A microprogram -/

/-- The steps of a microprogram in turn. -/
inductive Follows : List (List Control) → Cpu → Cpu → Prop
  | nil (cpu : Cpu) : Follows [] cpu cpu
  | cons {lines : List Control} {rest : List (List Control)} {cpu mid after : Cpu} :
      Effect lines cpu mid → Follows rest mid after → Follows (lines :: rest) cpu after

/-- The cycles up to the end of an instruction: the first state at step 0 or halted. -/
inductive Completes (microcode : Microcode) : Nat → Cpu → Cpu → Prop
  | last {cpu after : Cpu} : cpu.tick microcode = (after, none) →
      after.step = 0 ∨ after.halted = true → Completes microcode 1 cpu after
  | more {n : Nat} {cpu mid after : Cpu} : cpu.tick microcode = (mid, none) → mid.step ≠ 0 →
      mid.halted = false → Completes microcode n mid after → Completes microcode (n + 1) cpu after

end Cpu

/-- A microprogram that leaves the instruction register alone, changes no flag that it depends on,
and stops the clock in its last step at most. -/
structure Microprogram.Steady (p : Microprogram) : Prop where
  nonempty : p.steps ≠ []
  length_le : p.steps.length ≤ 6
  instruction : ∀ lines ∈ p.steps, .irIn ∉ lines
  reset : ∀ lines ∈ p.steps, .stepReset ∉ lines
  flags : ∀ lines ∈ p.steps, .aluStoreFlags ∈ lines → p.conditions = []
  halt : ∀ lines ∈ p.steps.dropLast, .halt ∉ lines

theorem InstructionSet.steady_encodings : ∀ e ∈ encodings, ∀ p ∈ e.code, p.Steady := by
  have h : ∀ e ∈ encodings, ∀ p ∈ e.code, (p.steps ≠ [] ∧ p.steps.length ≤ 6) ∧
      (∀ lines ∈ p.steps, .irIn ∉ lines ∧ .stepReset ∉ lines ∧
        (.aluStoreFlags ∈ lines → p.conditions = [])) ∧
      ∀ lines ∈ p.steps.dropLast, .halt ∉ lines := by decide +kernel
  intro e he p hp
  obtain ⟨⟨hne, hlen⟩, hsteps, hhalt⟩ := h e he p hp
  exact ⟨hne, hlen, fun lines hl => (hsteps lines hl).1, fun lines hl => (hsteps lines hl).2.1,
    fun lines hl => (hsteps lines hl).2.2, hhalt⟩

theorem Flag.pack_lt : ∀ zero carry negative overflow, (pack zero carry negative overflow).toNat < 16 := by
  decide

namespace Cpu

structure Executing (e : Encoding) (p : Microprogram) (cpu : Cpu) : Prop where
  ir : cpu.ir = e.byte
  halted : cpu.halted = false
  flags_lt : cpu.flags.toNat < 16
  holds : Microprogram.Holds p.conditions cpu.flags.toNat

section

variable {encodings : List Encoding} {microcode : Microcode} {e : Encoding} {p : Microprogram}
  {cpu after : Cpu}

theorem Executing.step (h : Executing e p cpu) {word : BitVec 64} {lines : List Control}
    (ha : Control.AssertsUpToReset word lines) (he : Effect lines cpu after)
    (hir : .irIn ∉ lines) (hhalt : .halt ∉ lines)
    (hflags : .aluStoreFlags ∈ lines → p.conditions = []) : Executing e p after := by
  obtain ⟨value, -, hlatch⟩ := he word ha
  have hir' : cpu.ir = after.ir := by
    simpa [latch, ha .irIn, hir, counted, clocked] using congrArg Cpu.ir hlatch
  have hhalted' : cpu.halted = after.halted := by
    simpa [latch, ha .halt, hhalt, counted, clocked] using congrArg Cpu.halted hlatch
  have hflags' : (if .aluStoreFlags ∈ lines then ((selected word).compute cpu.acc value).2
      else cpu.flags) = after.flags := by
    simpa [latch, ha .aluStoreFlags, counted, clocked] using congrArg Cpu.flags hlatch
  refine ⟨hir' ▸ h.ir, hhalted' ▸ h.halted, ?_, ?_⟩
  · rw [← hflags']
    split
    · exact Flag.pack_lt ..
    · exact h.flags_lt
  · rw [← hflags']
    split
    case isTrue hstore =>
      rw [hflags hstore]
      intro c hc
      cases hc
    case isFalse => exact h.holds

theorem Executing.word (hruns : Runs encodings microcode) (he : e ∈ encodings) (hp : p ∈ e.code)
    (h : Executing e p cpu) {n : Nat} (hn : n < 8) {lines : List Control}
    (hstep : (n, lines) ∈ Microprogram.numberedSteps 2 p.steps) (ticks : Int64) :
    ∃ word, microcode.word? (cpu.clocked n ticks).address = some word ∧
      Control.Asserts word lines := by
  have haddress : (cpu.clocked n ticks).address =
      ((cpu.ir.toNat * 128 + cpu.flags.toNat * 8 + n : Nat) : Int) := address_eq rfl hn h.flags_lt
  have hflags := h.flags_lt
  have hholds : Microprogram.Holds p.conditions
      ((cpu.ir.toNat * 128 + cpu.flags.toNat * 8 + n) / 8 % 16) := by
    rw [show (cpu.ir.toNat * 128 + cpu.flags.toNat * 8 + n) / 8 % 16 = cpu.flags.toNat by omega]
    exact h.holds
  rw [haddress]
  refine hruns.step e he p hp _ hstep _ (address_lt cpu hn hflags) ?_ ?_ hholds
  · rw [← h.ir]
    omega
  · omega

theorem completes_of_follows (hruns : Runs encodings microcode) (he : e ∈ encodings)
    (hp : p ∈ e.code) (hsteady : p.Steady) {steps : List (List Control)} {n : Nat} (hn : 2 ≤ n)
    (hlen : n + steps.length ≤ 8) (hne : steps ≠ [])
    (hnumbered : ∀ step ∈ Microprogram.numberedSteps n steps,
      step ∈ Microprogram.numberedSteps 2 p.steps)
    (hsteps : ∀ lines ∈ steps, lines ∈ p.steps) (hhalt : ∀ lines ∈ steps.dropLast, .halt ∉ lines)
    (hx : Executing e p cpu) (hf : Follows steps cpu after) (ticks : Int64) :
    ∃ ticks', Completes microcode steps.length (cpu.clocked n ticks) (after.clocked 0 ticks') := by
  induction hf generalizing n ticks with
  | nil => exact absurd rfl hne
  | @cons lines rest cpu mid after heffect hrest ih =>
    rw [List.length_cons] at hlen
    cases rest with
    | nil =>
      cases hrest
      obtain ⟨word, hword, ha⟩ := hx.word hruns he hp (by omega)
        (hnumbered (n, lines ++ [.stepReset]) (List.mem_singleton.mpr rfl)) ticks
      have htick := tick_clocked cpu (by omega) hx.halted hword ha.upToReset_append heffect
      have hreset : Control.stepReset.isActive word = true := by rw [ha]; simp
      rw [hreset] at htick
      exact ⟨_, .last htick (.inl rfl)⟩
    | cons next rest =>
      have hkeep : lines ∈ p.steps := hsteps lines (List.mem_cons_self ..)
      obtain ⟨word, hword, ha⟩ := hx.word hruns he hp (by omega)
        (hnumbered (n, lines) (List.mem_cons_self ..)) ticks
      have htick := tick_clocked cpu (by omega) hx.halted hword ha.upToReset heffect
      have hreset : Control.stepReset.isActive word = false := by
        rw [ha]
        simpa using hsteady.reset lines hkeep
      have hmid : Executing e p mid := hx.step ha.upToReset heffect (hsteady.instruction lines hkeep)
        (hhalt lines (List.mem_cons_self ..)) (hsteady.flags lines hkeep)
      rw [List.length_cons] at hlen
      rw [hreset, Nat.mod_eq_of_lt (by omega)] at htick
      obtain ⟨ticks', hrun⟩ := ih (n := n + 1) (by omega) (by rw [List.length_cons]; omega)
        (List.cons_ne_nil _ _)
        (fun step h => hnumbered step (List.mem_cons_of_mem _ h))
        (fun l h => hsteps l (List.mem_cons_of_mem _ h))
        (fun l h => hhalt l (List.mem_cons_of_mem _ h)) hmid (ticks + 1)
      exact ⟨ticks', .more htick (Int.natCast_ne_zero.mpr (Nat.succ_ne_zero n)) hmid.halted hrun⟩

/-! ## The fetch -/

def pointed (cpu : Cpu) : Cpu := { cpu with ip := cpu.pc, mar := cpu.pc }

/-- The CPU with the instruction at PC in its instruction register. -/
def fetched (cpu : Cpu) : Cpu :=
  { cpu.pointed with ir := cpu.program.read cpu.pc, pc := cpu.pc + 1 }

theorem tick_point (hruns : Runs encodings microcode) (hhalted : cpu.halted = false)
    (hstep : cpu.step = 0) (hflags : cpu.flags.toNat < 16) :
    cpu.tick microcode = (cpu.pointed.clocked 1 (cpu.ticks + 1), none) := by
  have hstart : cpu.startStep = { cpu with ip := cpu.pc } := if_pos hstep
  have hzero : 0 < 8 := by decide
  have haddress : cpu.startStep.address =
      ((cpu.ir.toNat * 128 + cpu.flags.toNat * 8 + 0 : Nat) : Int) := by
    rw [hstart]
    exact address_eq hstep hzero hflags
  obtain ⟨word, hword, ha⟩ := hruns.fetch₀ _ (address_lt cpu hzero hflags) (by omega)
  have heffect : Effect [.pcOut, .marIn] cpu.startStep cpu.pointed := by
    rw [hstart]
    exact effect_point _ .pc
  have hreset : Control.stepReset.isActive word = false := by rw [ha]; rfl
  rw [tick_of_effect cpu hhalted (by rwa [haddress]) ha.upToReset heffect, counted, hreset, hstart]
  simp [hstep]

theorem tick_fetch (hruns : Runs encodings microcode) (hhalted : cpu.halted = false)
    (hflags : cpu.flags.toNat < 16) (ticks : Int64) :
    (cpu.pointed.clocked (1 : Nat) ticks).tick microcode =
      (cpu.fetched.clocked (2 : Nat) (ticks + 1), none) := by
  have hone : 1 < 8 := by decide
  have haddress : (cpu.pointed.clocked (1 : Nat) ticks).address =
      ((cpu.ir.toNat * 128 + cpu.flags.toNat * 8 + 1 : Nat) : Int) := address_eq rfl hone hflags
  obtain ⟨word, hword, ha⟩ := hruns.fetch₁ _ (address_lt cpu hone hflags) (by omega)
  have hreset : Control.stepReset.isActive word = false := by rw [ha]; rfl
  rw [tick_clocked cpu.pointed Nat.one_pos hhalted (by rwa [haddress]) ha.upToReset (effect_fetch _),
    hreset]
  rfl

theorem Completes.fetch (hruns : Runs encodings microcode) (hhalted : cpu.halted = false)
    (hstep : cpu.step = 0) (hflags : cpu.flags.toNat < 16) {n : Nat}
    (h : ∀ ticks, ∃ ticks', Completes microcode n (cpu.fetched.clocked (2 : Nat) ticks)
      (after.clocked 0 ticks')) :
    ∃ ticks', Completes microcode (n + 2) cpu (after.clocked 0 ticks') := by
  have hfirst := tick_point hruns hhalted hstep hflags
  have hsecond := tick_fetch hruns hhalted hflags (cpu.ticks + 1)
  obtain ⟨ticks', hrest⟩ := h (cpu.ticks + 1 + 1)
  exact ⟨ticks', .more hfirst one_ne_zero hhalted (.more hsecond two_ne_zero hhalted hrest)⟩

/-! ## A whole instruction -/

theorem completes_encoded (hruns : Runs encodings microcode) (hhalted : cpu.halted = false)
    (hstep : cpu.step = 0) (hflags : cpu.flags.toNat < 16) (he : e ∈ encodings)
    (hbyte : cpu.program.read cpu.pc = e.byte) (hp : p ∈ e.code) (hsteady : p.Steady)
    (hholds : Microprogram.Holds p.conditions cpu.flags.toNat)
    (hf : Follows p.steps cpu.fetched after) :
    ∃ n ≤ 8, ∃ ticks, Completes microcode n cpu (after.clocked 0 ticks) := by
  have hlen := hsteady.length_le
  refine ⟨p.steps.length + 2, by omega, Completes.fetch hruns hhalted hstep hflags fun ticks => ?_⟩
  have hx : Executing e p cpu.fetched := ⟨hbyte, hhalted, hflags, hholds⟩
  exact completes_of_follows hruns he hp hsteady (Nat.le_refl 2) (by omega) hsteady.nonempty
    (fun _ h => h) (fun _ h => h) hsteady.halt hx hf ticks

/-- From step `n` on, behind a byte without an encoding, cycles do nothing until the step counter
wraps. -/
theorem completes_wrap (hruns : Runs encodings microcode) (hhalted : cpu.halted = false)
    (hflags : cpu.flags.toNat < 16) (hbyte : ∀ e ∈ encodings, e.byte ≠ cpu.ir) {left n : Nat}
    (hleft : 0 < left) (hn : 2 ≤ n) (hsum : left + n = 8) (ticks : Int64) :
    ∃ ticks', Completes microcode left (cpu.clocked n ticks) (cpu.clocked 0 ticks') := by
  induction left generalizing n ticks with
  | zero => omega
  | succ left ih =>
    have haddress : (cpu.clocked n ticks).address =
        ((cpu.ir.toNat * 128 + cpu.flags.toNat * 8 + n : Nat) : Int) :=
      address_eq rfl (by omega) hflags
    have hidle : ∀ e ∈ encodings,
        e.byte.toNat ≠ (cpu.ir.toNat * 128 + cpu.flags.toNat * 8 + n) / 128 := by
      intro e he hcon
      exact hbyte e he (UInt8.toNat_inj.mp (by omega))
    obtain ⟨word, hword, ha⟩ :=
      hruns.idle _ (address_lt cpu (by omega) hflags) (by omega) hidle
    have htick := tick_clocked cpu (by omega) hhalted (haddress ▸ hword) ha.upToReset (effect_none cpu)
    have hreset : Control.stepReset.isActive word = false := by rw [ha]; rfl
    rw [hreset] at htick
    by_cases hlast : left = 0
    · subst hlast
      obtain rfl : n = 7 := by omega
      exact ⟨_, .last htick (.inl rfl)⟩
    · rw [Nat.mod_eq_of_lt (by omega)] at htick
      obtain ⟨ticks', hrun⟩ := ih (n := n + 1) (by omega) (by omega) (by omega) (ticks + 1)
      exact ⟨ticks', .more htick (Int.natCast_ne_zero.mpr (Nat.succ_ne_zero n)) hhalted hrun⟩

theorem completes_idle (hruns : Runs encodings microcode) (hhalted : cpu.halted = false)
    (hstep : cpu.step = 0) (hflags : cpu.flags.toNat < 16)
    (hbyte : ∀ e ∈ encodings, e.byte ≠ cpu.program.read cpu.pc) :
    ∃ ticks, Completes microcode 8 cpu (cpu.fetched.clocked 0 ticks) := by
  refine Completes.fetch hruns hhalted hstep hflags fun ticks => ?_
  have hhalted' : cpu.fetched.halted = false := hhalted
  exact completes_wrap hruns hhalted' hflags hbyte (by decide) (Nat.le_refl 2) rfl ticks

end

end Cpu

end Microcomputer
