import Mathlib
import Microcomputer.Proofs.Contention
import Microcomputer.Proofs.Limits

/-!
# The line of the instruction that executes

PC moves on within an instruction: over the byte that is fetched, over an operand, or with a jump. The line
that is told does not: it is the one that holds the byte at which PC stood when the step counter was last 0.

* `Program.LineOf` : the number of the only line that holds the byte at an address, 0 if none does;
* `Emulator.instructionAddress` : the address of the instruction that executes, `instructionAddress_tick` :
  a cycle within the instruction keeps it;
* `Emulator.Begins` : when the instruction that executes began, `exists_begins`, `Begins.unique`;
* `Begins.address_eq` : since then its address has been the PC of that time;
* `Emulator.lineNo_follows_instruction` : the line that is told after any number of cycles.
-/

namespace Microcomputer

/-! ## The line of an address -/

/-- The number of the only line of a program that holds the byte at an address; 0 if no line does. -/
inductive Program.LineOf (lines : List Line) (address : Int) : Nat → Prop
  | held {n k : Nat} {line : Line} : PlacedAt lines address n line k →
      (∀ n' line' k', PlacedAt lines address n' line' k' → n' = n) → LineOf lines address (n + 1)
  | unheld : (∀ n line k, ¬ PlacedAt lines address n line k) → LineOf lines address 0

theorem Program.LineOf.eq_of_placed {lines : List Line} {address : Int} {number n k : Nat} {line : Line}
    (h : LineOf lines address number) (hplaced : PlacedAt lines address n line k) : number = n + 1 := by
  cases h with
  | held _ hunique => rw [hunique n line k hplaced]
  | unheld hnowhere => exact absurd hplaced (hnowhere n line k)

/-- Where bytes and lines are numbered in order, the line that is found is the only one that holds the
byte. -/
theorem Program.Indexed.lineOf {lines : List Line} (h : Indexed lines)
    (hnumbers : ∀ n line, lines[n]? = some line → line.number = n + 1) {address : Int} {number : Nat}
    (hnumber : NumberAt ⟨lines⟩ address number) : LineOf lines address number := by
  have unique : ∀ other, NumberAt ⟨lines⟩ address other → other = number := by
    intro other hother
    rw [numberAt_iff] at hother hnumber
    rw [hother, hnumber]
  by_cases hplaced : ∃ n line k, PlacedAt lines address n line k
  · obtain ⟨n, line, k, hplaced⟩ := hplaced
    have hline := unique _ (h.numberAt hplaced)
    rw [hnumbers n line hplaced.1] at hline
    rw [← hline]
    refine .held hplaced ?_
    rintro n' line' k' ⟨hline', byte', hbyte', hindex'⟩
    obtain ⟨hline, byte, hbyte, hindex⟩ := hplaced
    exact (h.place_unique hline' hbyte' hline hbyte (by omega)).1
  · have hnowhere : ∀ n line k, ¬ PlacedAt lines address n line k := by
      intro n line k hcon
      exact hplaced ⟨n, line, k, hcon⟩
    rw [← unique _ (h.numberAt_zero hnowhere)]
    exact .unheld hnowhere

theorem Assembler.load_of_process {asm : Assembler} {source : List String} {lines : List Line}
    (h : asm.process source = .ok lines) (emu : Emulator) :
    emu.load ⟨lines⟩ = .ok (emu.started ⟨lines⟩) := by
  obtain ⟨read, hread, herased, -⟩ := exists_of_process h
  obtain ⟨-, -, hvalid⟩ := readChecked_eq_ok.mp hread
  have hle := totalBytes_le hvalid
  rw [← totalBytes_congr herased] at hle
  apply Emulator.load_eq_ok.mpr
  refine ⟨?_, rfl⟩
  rw [Program.length_binary, memorySize]
  omega

namespace Emulator

variable {emu : Emulator} {m n : Nat}

/-! ## The instruction that executes -/

/-- The address of the instruction that executes, or between two instructions of the next one. -/
def instructionAddress (emu : Emulator) : UInt8 := if emu.cpu.step = 0 then emu.cpu.pc else emu.cpu.ip

theorem numberAt_lineNo (emu : Emulator) :
    Program.NumberAt emu.program emu.instructionAddress.toNat emu.lineNo := by
  rw [Program.numberAt_iff, lineNo_eq]
  rfl

theorem instructionAddress_tick (h : emu.tick.1.cpu.step ≠ 0) :
    emu.tick.1.instructionAddress = emu.instructionAddress := by
  unfold instructionAddress
  rw [if_neg h, ip_tick h]

theorem cycles_succ (emu : Emulator) (n : Nat) : emu.cycles (n + 1) = (emu.cycles n).tick.1 := by
  induction n generalizing emu with
  | zero => rfl
  | succ n ih => exact ih emu.tick.1

theorem program_cycles (emu : Emulator) (n : Nat) : (emu.cycles n).program = emu.program := by
  induction n with
  | zero => rfl
  | succ n ih =>
    rw [cycles_succ]
    exact ih

/-- The instruction that executes after `n` cycles began after `m`: the step counter was 0 then, and has not
been since. -/
structure Begins (emu : Emulator) (m n : Nat) : Prop where
  le : m ≤ n
  step_eq : (emu.cycles m).cpu.step = 0
  step_ne : ∀ i, m < i → i ≤ n → (emu.cycles i).cpu.step ≠ 0

theorem Begins.unique {k : Nat} (h : emu.Begins m n) (h' : emu.Begins k n) : k = m := by
  rcases Nat.lt_trichotomy k m with hlt | heq | hlt
  · exact absurd h.step_eq (h'.step_ne m hlt h.le)
  · exact heq
  · exact absurd h'.step_eq (h.step_ne k hlt h'.le)

/-- From the start of an instruction on, one executes at all times. -/
theorem exists_begins (hstep : emu.cpu.step = 0) (n : Nat) : ∃ m, emu.Begins m n := by
  induction n with
  | zero => exact ⟨0, le_rfl, hstep, fun i hi hle => absurd hle (by omega)⟩
  | succ n ih =>
    by_cases hnext : (emu.cycles (n + 1)).cpu.step = 0
    · exact ⟨n + 1, le_rfl, hnext, fun i hi hle => absurd hle (by omega)⟩
    · obtain ⟨m, hm⟩ := ih
      refine ⟨m, hm.le.trans (Nat.le_succ n), hm.step_eq, fun i hi hle => ?_⟩
      rcases Nat.le_succ_iff.mp hle with hle | rfl
      · exact hm.step_ne i hi hle
      · exact hnext

/-- Since an instruction began, its address has been the PC of that time. -/
theorem Begins.address_eq (h : emu.Begins m n) {i : Nat} (hmi : m ≤ i) (hin : i ≤ n) :
    (emu.cycles i).instructionAddress = (emu.cycles m).cpu.pc := by
  induction i, hmi using Nat.le_induction with
  | base => exact if_pos h.step_eq
  | succ i hmi ih =>
    have hwithin := h.step_ne (i + 1) (by omega) hin
    rw [cycles_succ] at hwithin ⊢
    rw [instructionAddress_tick hwithin, ih (by omega)]

/-- Whatever the microcode does, after every number of cycles of an assembled program that has been loaded
the line that is told is the only one of the source whose machine code holds the byte at which PC stood when
the step counter was last 0, and 0 if there is none; and it has been the same since then. -/
theorem lineNo_follows_instruction (asm : Assembler) (source : List String) (lines : List Line)
    (hprocess : asm.process source = .ok lines) (emu : Emulator) :
    (∀ (n : Nat) (line : Line), lines[n]? = some line → source[n]? = some line.raw) ∧
    ∃ loaded, emu.load ⟨lines⟩ = .ok loaded ∧ loaded.microcode = emu.microcode ∧
      ∀ n, ∃ m, (∀ k, loaded.Begins k n ↔ k = m) ∧
        Program.LineOf lines (loaded.cycles m).cpu.pc.toNat (loaded.cycles n).lineNo ∧
        ∀ i, m ≤ i → i ≤ n → (loaded.cycles i).lineNo = (loaded.cycles n).lineNo := by
  refine ⟨fun n line hline => (Assembler.number_of_process hprocess hline).1, _,
    Assembler.load_of_process hprocess emu, rfl, fun n => ?_⟩
  have hfirst : (emu.started ⟨lines⟩).cpu.step = 0 := rfl
  obtain ⟨m, hm⟩ := exists_begins hfirst n
  have hnumber : ∀ i, m ≤ i → i ≤ n → Program.NumberAt ⟨lines⟩
      ((emu.started ⟨lines⟩).cycles m).cpu.pc.toNat ((emu.started ⟨lines⟩).cycles i).lineNo := by
    intro i hmi hin
    have hat := numberAt_lineNo ((emu.started ⟨lines⟩).cycles i)
    rw [program_cycles, hm.address_eq hmi hin] at hat
    exact hat
  refine ⟨m, fun k => ⟨hm.unique, ?_⟩, ?_, fun i hmi hin => ?_⟩
  · rintro rfl
    exact hm
  · exact (Assembler.indexed_of_process hprocess).lineOf
      (fun n line hline => (Assembler.number_of_process hprocess hline).2) (hnumber n hm.le le_rfl)
  · have hi := hnumber i hmi hin
    have hn := hnumber n hm.le le_rfl
    rw [Program.numberAt_iff] at hi hn
    rw [hi, hn]

/-- The first cycle of the instruction on line 2 moves PC to the byte of line 3; the line that is told is
still 2. -/
theorem lineNo_follows_counting : ∃ (microcode : Microcode) (lines : List Line) (loaded : Emulator),
    microcode = .tabulate (fun _ => 4096#64) ∧
    (Assembler.standard 250).process ["", "NOOP", "HALT"] = .ok lines ∧
    (fresh microcode false).load ⟨lines⟩ = .ok loaded ∧ loaded.Begins 0 1 ∧
    (loaded.cycles 1).cpu.pc = 1 ∧ (∃ line, Program.PlacedAt lines 1 2 line 0) ∧
    (loaded.cycles 1).lineNo = 2 := by
  have hsource : ((Assembler.standard 250).process ["", "NOOP", "HALT"]).toOption.any (fun lines =>
      lines[1]?.any (fun line : Line => line.bytes[0]?.any fun byte : CodeByte => byte.index = 0) ∧
        lines[2]?.any (fun line : Line => line.bytes[0]?.any fun byte : CodeByte => byte.index = 1)) = true := by
    decide +kernel
  obtain ⟨lines, hlines, hcheck⟩ := Traversal.exists_ok_of_any hsource
  obtain ⟨hsecond, hthird⟩ := of_decide_eq_true hcheck
  obtain ⟨line, hplaced⟩ := Program.exists_placedAt hsecond
  obtain ⟨microcode, hmicrocode⟩ : ∃ microcode : Microcode, microcode = .tabulate fun _ => 4096#64 := ⟨_, rfl⟩
  have hasserts : Control.Asserts 4096#64 [.pcCount] := by
    intro line
    cases line <;> rfl
  have hfirst := tick_started (fresh microcode false) hmicrocode ⟨lines⟩
    (Cpu.bus_none hasserts.upToReset _ rfl)
  obtain ⟨-, loaded, hload, -, hall⟩ := lineNo_follows_instruction _ _ _ hlines (fresh microcode false)
  obtain ⟨-, hstarted⟩ := load_eq_ok.mp hload
  have hcycle : (loaded.cycles 1).cpu =
      { program := .ofBytes (Program.mk lines).binary, pc := 1, step := 1, ticks := 1 } := by
    rw [hstarted, cycles, cycles, hfirst]
    rfl
  have hbegins : loaded.Begins 0 1 := by
    have hfirst : (loaded.cycles 0).cpu.step = 0 := by
      rw [hstarted]
      rfl
    refine ⟨Nat.zero_le 1, hfirst, fun i hi hle => ?_⟩
    obtain rfl : i = 1 := by omega
    rw [hcycle]
    exact one_ne_zero
  obtain ⟨m, hm, hline, -⟩ := hall 1
  obtain rfl : 0 = m := (hm 0).mp hbegins
  refine ⟨microcode, lines, loaded, hmicrocode, hlines, hload, hbegins, by rw [hcycle],
    Program.exists_placedAt hthird, ?_⟩
  rw [hstarted] at hline ⊢
  exact hline.eq_of_placed hplaced

end Emulator

end Microcomputer
