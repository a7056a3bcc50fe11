import Mathlib
import Microcomputer.Proofs.Boundary
import Microcomputer.Proofs.Restart
import Microcomputer.Proofs.Views

/-!
# Two outputs on the bus

A cycle that finds two outputs on the bus stops before anything is latched. Whatever is loaded and asked
before, it tells the line of the instruction that executes, and since it leaves the machine as it is, so
does every later call that comes to a cycle.

* `Program.NumberAt` : the number of the line that holds a byte, 0 if there is none,
  `Program.Indexed.numberAt` : in an assembled program, the number of the line with the byte;
* `Emulator.Reachable` : what loads and calls lead to, `Reachable.holds` : the induction;
* `Emulator.Underway` : the address of the first byte of the instruction that executes;
* `Emulator.Contended` : two outputs on the bus, `perform_of_contended` : what a call makes of them;
* `Emulator.contention_persists` : the failure, its line, and every later call.
-/

namespace Microcomputer

/-! ## The line of a byte -/

/-- The bytes of a line, counted from the index of the first one, come to an index. -/
def Line.Covers (line : Line) (index : Int) : Prop :=
  ∃ first rest, line.bytes = first :: rest ∧ first.index ≤ index ∧
    index < first.index + (first :: rest).length

def Line.place? (line : Line) (index : Int) : Option (Line × Int) :=
  match line.bytes with
  | [] => none
  | first :: rest =>
    if first.index ≤ index ∧ index < first.index + (first :: rest).length then
      some (line, index - first.index)
    else none

namespace Line

variable {line : Line} {index : Int}

theorem place?_eq_none_iff : line.place? index = none ↔ ¬ line.Covers index := by
  unfold place? Covers
  cases line.bytes with
  | nil => simp
  | cons first rest => simp

theorem place?_eq_some {place : Line × Int} (h : line.place? index = some place) : place.1 = line := by
  unfold place? at h
  split at h
  · cases h
  · split at h
    · cases h
      rfl
    · cases h

end Line

namespace Program

variable {program : Program} {index : Int} {n : Nat}

/-- The number of the first line that comes to an index; 0 if no line does. -/
inductive NumberAt (program : Program) (index : Int) : Nat → Prop
  | held {before after : List Line} {line : Line} : program.lines = before ++ line :: after →
      (∀ earlier ∈ before, ¬ earlier.Covers index) → line.Covers index → NumberAt program index line.number
  | unheld : (∀ line ∈ program.lines, ¬ line.Covers index) → NumberAt program index 0

theorem locate?_eq : program.locate? index = program.lines.findSome? (·.place? index) := rfl

theorem numberAt_iff : NumberAt program index n ↔
    n = ((program.locate? index).map fun place => place.1.number).getD 0 := by
  constructor
  · intro h
    cases h with
    | @held before after line hlines hbefore hcovers =>
      obtain ⟨place, hplace⟩ : ∃ place, line.place? index = some place := by
        rw [← Option.ne_none_iff_exists']
        exact fun hnone => Line.place?_eq_none_iff.mp hnone hcovers
      have hlocate : program.locate? index = some place := by
        rw [locate?_eq, List.findSome?_eq_some_iff]
        exact ⟨before, line, after, hlines, hplace, fun earlier hmem =>
          Line.place?_eq_none_iff.mpr (hbefore earlier hmem)⟩
      rw [hlocate, Option.map_some, Option.getD_some, Line.place?_eq_some hplace]
    | unheld hall =>
      have hlocate : program.locate? index = none := by
        rw [locate?_eq, List.findSome?_eq_none_iff]
        exact fun line hmem => Line.place?_eq_none_iff.mpr (hall line hmem)
      rw [hlocate]
      rfl
  · rintro rfl
    cases hlocate : program.locate? index with
    | none =>
      rw [locate?_eq, List.findSome?_eq_none_iff] at hlocate
      exact .unheld fun line hmem => Line.place?_eq_none_iff.mp (hlocate line hmem)
    | some place =>
      rw [locate?_eq, List.findSome?_eq_some_iff] at hlocate
      obtain ⟨before, line, after, hlines, hplace, hbefore⟩ := hlocate
      rw [Option.map_some, Option.getD_some, Line.place?_eq_some hplace]
      refine .held hlines (fun earlier hmem => Line.place?_eq_none_iff.mp (hbefore earlier hmem)) ?_
      by_contra hcovers
      rw [Line.place?_eq_none_iff.mpr hcovers] at hplace
      cases hplace

/-- Where the bytes are numbered in order, it is the number of the line with the byte. -/
theorem Indexed.numberAt {lines : List Line} (h : Indexed lines) {i k : Nat} {line : Line}
    (hplaced : PlacedAt lines index i line k) : NumberAt ⟨lines⟩ index line.number := by
  obtain ⟨hline, byte, hbyte, rfl⟩ := hplaced
  rw [numberAt_iff, h.locate?_index hline hbyte]
  rfl

theorem Indexed.numberAt_zero {lines : List Line} (h : Indexed lines)
    (hnowhere : ∀ i line k, ¬ PlacedAt lines index i line k) : NumberAt ⟨lines⟩ index 0 := by
  have hlocate : (Program.mk lines).locate? index = none := by
    apply h.locate?_eq_none
    rintro ⟨hnonneg, hlt⟩
    obtain ⟨i, line, k, hplaced, -⟩ := h.exists_place index hnonneg hlt
    exact hnowhere i line k hplaced
  rw [numberAt_iff, hlocate]
  rfl

end Program

theorem Assembler.indexed_of_process {asm : Assembler} {source : List String} {lines : List Line}
    (h : asm.process source = .ok lines) : Program.Indexed lines := by
  obtain ⟨read, -, herased, hresolves⟩ := exists_of_process h
  exact Program.indexed_of_resolves herased hresolves

namespace Emulator

variable {emu other : Emulator} {start : UInt8}

theorem lineNo_eq (emu : Emulator) : emu.lineNo = ((emu.program.locate?
    (if emu.cpu.step = 0 then emu.cpu.pc else emu.cpu.ip).toNat).map fun place => place.1.number).getD 0 := by
  unfold lineNo
  dsimp only
  cases emu.program.locate? _ with
  | none => rfl
  | some place => rfl

/-! ## What loads and calls lead to -/

/-- What a fresh emulator is led to by loads and calls, and by being told whether to log. -/
inductive Reachable : Emulator → Prop
  | fresh (microcode : Microcode) (verbose : Bool) : Reachable (fresh microcode verbose)
  | served {emu : Emulator} (request : Request) : Reachable emu → Reachable (emu.serve request).1
  | told {emu : Emulator} (verbose : Bool) : Reachable emu → Reachable { emu with verbose := verbose }

/-- What holds between instructions and is kept by a cycle, a limit and a change of the log holds of
everything that can be reached. -/
theorem Reachable.holds {P : Emulator → Prop}
    (hstart : ∀ emu : Emulator, emu.cpu.step = 0 → P emu) (htick : ∀ emu, P emu → P emu.tick.1)
    (htold : ∀ (emu : Emulator) (verbose : Bool) (limit : Int), P emu →
      P { emu with verbose := verbose, tickLimit := limit }) (h : Reachable emu) : P emu := by
  induction h with
  | fresh microcode verbose => exact hstart _ rfl
  | @served emu request _ ih =>
    cases request with
    | load code =>
      rcases Nat.lt_or_ge memorySize code.binary.length with hlarge | hfits
      · rw [serve_load_of_large hlarge]
        exact ih
      · rw [serve_load_of_fits hfits]
        exact hstart _ rfl
    | call call =>
      exact perform_keeps htick (fun emu limit h => htold emu emu.verbose limit h)
        (fun emu _ => hstart _ rfl) call ih
  | @told emu verbose _ ih => exact htold emu verbose emu.tickLimit ih

/-! ## The instruction that executes -/

/-- The address of the first byte of the instruction that executes: PC where one starts, and the same
through its cycles. -/
inductive Underway (start : UInt8) : Emulator → Prop
  | starts {emu : Emulator} : emu.cpu.step = 0 → emu.cpu.pc = start → Underway start emu
  | cycle {emu : Emulator} : Underway start emu → emu.tick.1.cpu.step ≠ 0 → Underway start emu.tick.1
  | told {emu : Emulator} (verbose : Bool) (limit : Int) : Underway start emu →
      Underway start { emu with verbose := verbose, tickLimit := limit }

theorem ip_tick (h : emu.tick.1.cpu.step ≠ 0) :
    emu.tick.1.cpu.ip = if emu.cpu.step = 0 then emu.cpu.pc else emu.cpu.ip := by
  have hcpu : emu.tick.1.cpu = (emu.ready.cpu.tick emu.microcode).1 := rfl
  have hstart : emu.ready.cpu.startStep.ip = if emu.cpu.step = 0 then emu.cpu.pc else emu.cpu.ip := by
    rw [Cpu.startStep_eq]
    rfl
  rw [hcpu] at h ⊢
  cases hhalted : emu.ready.cpu.halted with
  | true =>
    -- nothing happens, so the counter stood within the instruction before
    rw [Cpu.tick_of_halted hhalted] at h ⊢
    exact (if_neg h).symm
  | false =>
    rw [Cpu.tick, hhalted, if_neg Bool.false_ne_true]
    dsimp only
    split
    · exact hstart
    · split <;> exact hstart

theorem Underway.start_eq (h : Underway start emu) :
    start = if emu.cpu.step = 0 then emu.cpu.pc else emu.cpu.ip := by
  induction h with
  | starts hstep hpc => rw [if_pos hstep, hpc]
  | cycle _ hstep ih => rw [if_neg hstep, ip_tick hstep, ih]
  | told _ _ _ ih => exact ih

theorem Reachable.underway (h : Reachable emu) : ∃ start, Underway start emu := by
  refine h.holds (P := fun emu => ∃ start, Underway start emu) ?_ ?_ ?_
  · intro emu hstep
    exact ⟨emu.cpu.pc, .starts hstep rfl⟩
  · rintro emu ⟨start, hstart⟩
    by_cases hstep : emu.tick.1.cpu.step = 0
    · exact ⟨_, .starts hstep rfl⟩
    · exact ⟨start, .cycle hstart hstep⟩
  · rintro emu verbose limit ⟨start, hstart⟩
    exact ⟨start, .told verbose limit hstart⟩

theorem Reachable.underway_iff (h : Reachable emu) : Underway start emu ↔
    start = if emu.cpu.step = 0 then emu.cpu.pc else emu.cpu.ip := by
  refine ⟨Underway.start_eq, ?_⟩
  rintro rfl
  obtain ⟨start, hstart⟩ := h.underway
  exact hstart.start_eq ▸ hstart

/-! ## Calls that come to a cycle -/

/-- The control word lets two outputs drive the bus. -/
def Contended (emu : Emulator) : Prop :=
  ∃ word, emu.microcode.word? emu.cpu.address = some word ∧ 2 ≤ (Control.drivers word).length

/-- A call that comes to a cycle at a count of cycles: a run does if the limit is above the count. -/
def Call.Cycles (ticks : Int64) : Call → Prop
  | .tick => True
  | .next => True
  | .run limit => ticks.toInt < if limit = 0 then defaultTickLimit else limit
  | .reset => False

theorem stuck_stuck (emu : Emulator) : emu.stuck.stuck = emu.stuck := by
  rw [stuck_eq emu.stuck, stuck_eq emu]
  by_cases hstep : emu.cpu.step = 0
  · simp only [hstep, if_true]
  · simp only [hstep, if_false]

theorem run_of_fails {after : Emulator} {failure : Failure} (hhalted : emu.cpu.halted = false)
    (hcycles : (Call.run emu.tickLimit).Cycles emu.cpu.ticks) (htick : emu.tick = (after, some failure)) :
    emu.run = (after, some failure) := by
  have hlt : emu.cpu.ticks.toInt < if emu.tickLimit = 0 then defaultTickLimit else emu.tickLimit := hcycles
  obtain ⟨n, hn⟩ : ∃ n, emu.ticksLeft = n + 1 := by
    refine ⟨emu.ticksLeft - 1, ?_⟩
    unfold ticksLeft
    dsimp only
    omega
  rw [run, hn, runWithin, hhalted, if_neg Bool.false_ne_true, htick]

/-- Every call that comes to a cycle tells of the two outputs and leaves the emulator where the cycle
stops. -/
theorem perform_of_contended (hhalted : emu.cpu.halted = false) (h : emu.Contended) {call : Call}
    (hcall : call.Cycles emu.cpu.ticks) :
    (emu.perform call).2 = some (.error (.runtime emu.lineNo .busContention)) ∧
      Twin emu.stuck (emu.perform call).1 := by
  obtain ⟨word, hword, hdrivers⟩ := h
  have htick := tick_of_contended hhalted hword hdrivers
  cases call with
  | tick =>
    have hperform : emu.perform .tick = _ := htick
    rw [hperform]
    exact ⟨rfl, emu.tickLimit, rfl⟩
  | next =>
    have hperform : emu.perform .next = _ := next_of_stepping (.fails htick) (by decide)
    rw [hperform]
    exact ⟨rfl, emu.tickLimit, rfl⟩
  | run limit =>
    -- the run sets its limit before the cycle
    have htick' : ({ emu with tickLimit := limit } : Emulator).tick =
        ({ emu.stuck with tickLimit := limit }, some (.error (.runtime emu.lineNo .busContention))) :=
      tick_of_contended hhalted hword hdrivers
    have hperform : emu.perform (.run limit) = _ := run_of_fails hhalted hcall htick'
    rw [hperform]
    exact ⟨rfl, limit, rfl⟩
  | reset => exact hcall.elim

/-- A cycle that stops leaves what decides over the next one: the count, the line and the control word. -/
theorem Twin.unmoved (h : Twin emu.stuck other.stuck) :
    other.cpu.halted = emu.cpu.halted ∧ other.cpu.ticks = emu.cpu.ticks ∧ other.lineNo = emu.lineNo ∧
      (emu.Contended → other.Contended) := by
  obtain ⟨limit, hstuck⟩ := h
  have hline : other.stuck.lineNo = emu.stuck.lineNo := by
    rw [hstuck]
    rfl
  rw [lineNo_stuck, lineNo_stuck] at hline
  rw [stuck_eq, stuck_eq] at hstuck
  have hhalted := congrArg (fun emu => emu.cpu.halted) hstuck
  have hticks := congrArg (fun emu => emu.cpu.ticks) hstuck
  have hword := congrArg (fun emu => emu.microcode.word? emu.cpu.address) hstuck
  refine ⟨hhalted, hticks, hline, ?_⟩
  rintro ⟨word, hemu, hdrivers⟩
  exact ⟨word, Eq.trans hword hemu, hdrivers⟩

theorem Twin.stuck (h : Twin emu.stuck other) : Twin emu.stuck other.stuck := by
  obtain ⟨limit, rfl⟩ := h
  refine ⟨limit, ?_⟩
  have hlimit : ({ emu.stuck with tickLimit := limit } : Emulator).stuck =
      { emu.stuck.stuck with tickLimit := limit } := rfl
  rw [hlimit, stuck_stuck]

/-- After such a call, every other one tells the same and leaves the emulator there. -/
theorem perform_again (hhalted : emu.cpu.halted = false) (h : emu.Contended)
    (hother : Twin emu.stuck other.stuck) {call : Call} (hcall : call.Cycles emu.cpu.ticks) :
    (other.perform call).2 = some (.error (.runtime emu.lineNo .busContention)) ∧
      Twin emu.stuck (other.perform call).1 := by
  obtain ⟨hhalted', hticks, hline, hcontended⟩ := hother.unmoved
  rw [← hticks] at hcall
  obtain ⟨hreport, limit, hafter⟩ := perform_of_contended (hhalted'.trans hhalted) (hcontended h) hcall
  rw [hline] at hreport
  obtain ⟨limit', hstuck⟩ := hother
  refine ⟨hreport, limit, ?_⟩
  rw [hafter, hstuck]

theorem performAll_again (hhalted : emu.cpu.halted = false) (h : emu.Contended) {calls : List Call}
    (hcalls : ∀ call ∈ calls, call.Cycles emu.cpu.ticks) (hother : Twin emu.stuck other.stuck) :
    Twin emu.stuck (other.performAll calls).stuck := by
  induction calls generalizing other with
  | nil => exact hother
  | cons call calls ih =>
    have hfirst := (perform_again hhalted h hother (hcalls call List.mem_cons_self)).2
    exact ih (fun call hmem => hcalls call (List.mem_cons_of_mem _ hmem)) hfirst.stuck

/-- In every state that can be reached and is not halted, two outputs on the bus stop the cycle with the
number of the line that holds the first byte of the instruction, and change IP at most, at the start of an
instruction; and after any calls that come to a cycle, every other such call tells the same and leaves the
emulator there. -/
theorem contention_persists (emu : Emulator) (hreachable : Reachable emu)
    (hhalted : emu.cpu.halted = false) (hcontended : emu.Contended) :
    ∃ (start : UInt8) (line : Nat) (after : Emulator),
      (∀ address, Underway address emu ↔ address = start) ∧
      (∀ number, Program.NumberAt emu.program start.toNat number ↔ number = line) ∧
      (Program.Indexed emu.program.lines →
        (∀ n held k, Program.PlacedAt emu.program.lines start.toNat n held k → line = held.number) ∧
        ((∀ n held k, ¬ Program.PlacedAt emu.program.lines start.toNat n held k) → line = 0)) ∧
      emu.tick = (after, some (.error (.runtime line .busContention))) ∧
      after = { emu with cpu := { emu.cpu with
        ip := if emu.cpu.step = 0 then emu.cpu.pc else emu.cpu.ip, verbose := emu.verbose } } ∧
      ∀ calls : List Call, (∀ call ∈ calls, call.Cycles emu.cpu.ticks) →
        ∀ call : Call, call.Cycles emu.cpu.ticks →
          ((emu.performAll calls).perform call).2 = some (.error (.runtime line .busContention)) ∧
          Twin after ((emu.performAll calls).perform call).1 := by
  have hnumber : ∀ number, Program.NumberAt emu.program
      (if emu.cpu.step = 0 then emu.cpu.pc else emu.cpu.ip).toNat number ↔ number = emu.lineNo := by
    intro number
    rw [Program.numberAt_iff, lineNo_eq]
  refine ⟨_, emu.lineNo, emu.stuck, fun address => hreachable.underway_iff, hnumber, fun hindexed => ⟨?_, ?_⟩,
    ?_, stuck_eq emu, fun calls hcalls call hcall => ?_⟩
  · intro n held k hplaced
    exact ((hnumber _).mp (hindexed.numberAt hplaced)).symm
  · intro hnowhere
    exact ((hnumber _).mp (hindexed.numberAt_zero hnowhere)).symm
  · obtain ⟨word, hword, hdrivers⟩ := hcontended
    exact tick_of_contended hhalted hword hdrivers
  · have hself : Twin emu.stuck emu.stuck := ⟨emu.tickLimit, rfl⟩
    exact perform_again hhalted hcontended (performAll_again hhalted hcontended hcalls hself) hcall

/-- The second cycle of the instruction on line 2 stops, and an instruction, a run and a cycle after it
tell the same. -/
theorem contention_persists_within_instruction : ∃ (microcode : Microcode) (lines : List Line)
    (emu after : Emulator), microcode = .tabulate (fun n => if n = 1 then 10#64 else 0#64) ∧
    (Assembler.standard 250).process ["", "NOOP"] = .ok lines ∧
    emu = (fresh microcode false).serveAll [.load ⟨lines⟩, .call .tick] ∧
    emu.cpu.step = 1 ∧ Underway 0 emu ∧
    emu.tick = (after, some (.error (.runtime 2 .busContention))) ∧
    ((emu.performAll [.tick, .next, .run 2]).perform .tick).2 =
      some (.error (.runtime 2 .busContention)) ∧
    Twin after ((emu.performAll [.tick, .next, .run 2]).perform .tick).1 := by
  have hsource : ((Assembler.standard 250).process ["", "NOOP"]).toOption.any (fun lines =>
      (Program.mk lines).binary.length ≤ memorySize ∧
        lines[1]?.any fun line : Line => line.bytes[0]?.any fun byte : CodeByte => byte.index = 0) = true := by
    decide +kernel
  obtain ⟨lines, hlines, hcheck⟩ := Traversal.exists_ok_of_any hsource
  obtain ⟨hfits, hsecond⟩ := of_decide_eq_true hcheck
  obtain ⟨line, hplaced⟩ := Program.exists_placedAt hsecond
  have hnumber : line.number = 2 := (Assembler.number_of_process hlines hplaced.1).2
  obtain ⟨microcode, hmicrocode⟩ :
    ∃ microcode : Microcode, microcode = .tabulate fun n => if n = 1 then 10#64 else 0#64 := ⟨_, rfl⟩
  have hfirst := tick_started (fresh microcode false) hmicrocode ⟨lines⟩
    (Cpu.bus_none Microcode.asserts_nil.upToReset _ rfl)
  obtain ⟨emu, hemu⟩ : ∃ emu : Emulator,
    emu = (fresh microcode false).serveAll [.load ⟨lines⟩, .call .tick] := ⟨_, rfl⟩
  have hserved : emu = { fresh microcode false with
      program := ⟨lines⟩
      cpu := { program := .ofBytes (Program.mk lines).binary, step := 1, ticks := 1 } } := by
    rw [hemu, serveAll, List.foldl_cons, serve_load_of_fits hfits, List.foldl_cons, serve, perform, hfirst]
    rfl
  have hreachable : Reachable emu := by
    rw [hemu]
    exact .served (.call .tick) (.served (.load ⟨lines⟩) (.fresh microcode false))
  have hstep : emu.cpu.step = 1 := congrArg (fun emu => emu.cpu.step) hserved
  have hcontended : emu.Contended := by
    have haddress : emu.cpu.address = ((1 : Nat) : Int) := by
      rw [hserved]
      exact Cpu.address_eq (n := 1) rfl (by decide) (Nat.zero_lt_succ _)
    have hsame : emu.microcode = microcode := congrArg Emulator.microcode hserved
    refine ⟨10#64, ?_, by decide⟩
    rw [haddress, hsame, hmicrocode, Microcode.word?_tabulate _ (by decide), if_pos rfl]
  have hunderway : Underway 0 emu := by
    rw [hreachable.underway_iff, hserved]
    rfl
  obtain ⟨start, number, after, hstart, -, hprogram, hstops, -, hlater⟩ :=
    contention_persists emu hreachable (congrArg (fun emu => emu.cpu.halted) hserved) hcontended
  obtain rfl : 0 = start := (hstart 0).mp hunderway
  obtain rfl : number = 2 := by
    have hlines' : emu.program.lines = lines := congrArg (fun emu => emu.program.lines) hserved
    rw [hlines'] at hprogram
    exact ((hprogram (Assembler.indexed_of_process hlines)).1 1 line 0 hplaced).trans hnumber
  have hcalls : ∀ call ∈ [Call.tick, .next, .run 2], call.Cycles emu.cpu.ticks := by
    have hticks : emu.cpu.ticks = 1 := congrArg (fun emu => emu.cpu.ticks) hserved
    have hlimit : (1 : Int64).toInt < if (2 : Int) = 0 then defaultTickLimit else 2 := by decide
    rw [hticks, List.forall_mem_cons, List.forall_mem_cons, List.forall_mem_singleton]
    exact ⟨trivial, trivial, hlimit⟩
  obtain ⟨hreport, htwin⟩ := hlater _ hcalls .tick trivial
  exact ⟨microcode, lines, emu, after, hmicrocode, hlines, hemu, hstep, hunderway, hstops, hreport, htwin⟩

/-- A halted CPU has no cycle, so it does not tell of the two outputs that its control word would let
drive the bus. -/
theorem halted_ignores_contention : ∃ (microcode : Microcode) (emu : Emulator),
    microcode = .tabulate (fun n => if n = 0 then 33554432#64 else 10#64) ∧
    emu = ((fresh microcode false).serve (.call .tick)).1 ∧
    Reachable emu ∧ emu.Contended ∧ emu.tick.2 = none := by
  obtain ⟨microcode, hmicrocode⟩ :
    ∃ microcode : Microcode, microcode = .tabulate fun n => if n = 0 then 33554432#64 else 10#64 := ⟨_, rfl⟩
  have hcpu : ({} : Cpu).tick microcode = ({ step := 1, ticks := 1, halted := true }, none) :=
    Cpu.tick_tabulate hmicrocode (n := 0) rfl (by decide) rfl rfl
  have hserve : (fresh microcode false).serve (.call .tick) =
      ({ microcode := microcode, cpu := { step := 1, ticks := 1, halted := true } }, none) := tick_eq hcpu
  refine ⟨microcode, _, hmicrocode, rfl, .served _ (.fresh microcode false), ?_, ?_⟩
  · rw [hserve]
    have haddress : ({ step := 1, ticks := 1, halted := true } : Cpu).address = ((1 : Nat) : Int) := rfl
    refine ⟨10#64, ?_, by decide⟩
    rw [haddress, hmicrocode, Microcode.word?_tabulate _ (by decide), if_neg (by decide)]
  · rw [hserve]
    rfl

end Emulator

end Microcomputer
