import Mathlib
import Microcomputer.Proofs.Safety

/-!
# Loads and resets after a history

Whatever has been asked of an emulator, a load takes it where it takes a fresh one, and a reset takes it
back to its last load. A reset keeps program memory as it finds it, so the second rests on the control
words: none of them stores there.

* `Emulator.Request`, `Emulator.serve`, `Emulator.serveAll` : loads and calls, one after the other;
* `Emulator.load_eq_ok`, `Emulator.load_eq_error` : when a load succeeds, and where it leads;
* `Emulator.Steady` : what a history keeps, `serveAll_steady`;
* `Emulator.Twin` : emulators that differ in the limit of cycles at most, `Twin.indistinguishable`;
* `Emulator.lastLoaded?` : the emulator right after the last load, `reset_serveAll`;
* `Emulator.restarts_afresh` : loads and resets after every history.
-/

namespace Microcomputer.Emulator

variable {microcode : Microcode} {verbose : Bool} {emu loaded : Emulator} {code : Program}

/-! ## Requests -/

inductive Request where
  | load (code : Program)
  | call (call : Call)

def serve (emu : Emulator) : Request → Emulator × Option Failure
  | .load code =>
    match emu.load code with
    | .ok loaded => (loaded, none)
    | .error e => (emu, some (.error e))
  | .call call => emu.perform call

/-- The emulator after a history of requests, whatever they report. -/
def serveAll (emu : Emulator) (history : List Request) : Emulator :=
  history.foldl (fun emu request => (emu.serve request).1) emu

def fresh (microcode : Microcode) (verbose : Bool) : Emulator :=
  { microcode := microcode, verbose := verbose }

/-! ## Loads -/

/-- The emulator right after a program has been loaded: nothing of the CPU is left. -/
def started (emu : Emulator) (code : Program) : Emulator :=
  { emu with program := code, cpu := { program := .ofBytes code.binary, verbose := emu.verbose } }

/-- The first cycle of a program under tabulated microcode. -/
theorem tick_started (emu : Emulator) {table : Nat → BitVec 64} (hmicrocode : emu.microcode = .tabulate table)
    (code : Program) {value : UInt8} (hbus : (emu.started code).cpu.bus (table 0) = .ok value) :
    (emu.started code).tick =
      ({ emu.started code with cpu := (emu.started code).cpu.latch (table 0) value }, none) := by
  have haddress : (emu.started code).ready.cpu.address = ((0 : Nat) : Int) :=
    Cpu.address_eq (n := 0) rfl (Nat.zero_lt_succ _) (Nat.zero_lt_succ _)
  exact tick_eq (Cpu.tick_tabulate hmicrocode haddress (Nat.zero_lt_succ _) rfl hbus)

theorem load_eq_ok : emu.load code = .ok loaded ↔
    code.binary.length ≤ memorySize ∧ loaded = emu.started code := by
  unfold load
  dsimp only
  split
  · rename_i hlarge
    exact ⟨fun h => (nomatch h), fun h => absurd h.1 (Nat.not_le.mpr hlarge)⟩
  · rename_i hfits
    constructor
    · intro h
      cases h
      exact ⟨Nat.not_lt.mp hfits, rfl⟩
    · rintro ⟨-, rfl⟩
      rfl

theorem load_eq_error {e : Error} : emu.load code = .error e ↔
    memorySize < code.binary.length ∧ e = .programSize := by
  unfold load
  dsimp only
  split
  · rename_i hlarge
    exact ⟨fun h => ⟨hlarge, (Except.error.inj h).symm⟩, fun h => h.2 ▸ rfl⟩
  · rename_i hfits
    exact ⟨fun h => (nomatch h), fun h => absurd h.1 hfits⟩

theorem serve_load_of_fits (h : code.binary.length ≤ memorySize) (emu : Emulator) :
    emu.serve (.load code) = (emu.started code, none) := by
  rw [serve, load_eq_ok.mpr ⟨h, rfl⟩]

theorem serve_load_of_large (h : memorySize < code.binary.length) (emu : Emulator) :
    emu.serve (.load code) = (emu, some (.error .programSize)) := by
  rw [serve, load_eq_error.mpr ⟨h, rfl⟩]

/-! ## What a history keeps -/

section Invariant

variable {P : Emulator → Prop}

theorem nextWithin_keeps (htick : ∀ emu, P emu → P emu.tick.1) (n : Nat) (h : P emu) :
    P (emu.nextWithin n).1 := by
  induction n generalizing emu with
  | zero => exact h
  | succ n ih =>
    have hafter := htick emu h
    unfold nextWithin
    split
    · rename_i heq
      rwa [heq] at hafter
    · rename_i heq
      rw [heq] at hafter
      split
      · exact hafter
      · exact ih hafter

theorem runWithin_keeps (htick : ∀ emu, P emu → P emu.tick.1) (n : Nat) (h : P emu) :
    P (emu.runWithin n).1 := by
  induction n generalizing emu with
  | zero =>
    unfold runWithin
    split
    · exact h
    · exact h
  | succ n ih =>
    have hafter := htick emu h
    unfold runWithin
    split
    · exact h
    · dsimp only
      split
      · rename_i heq
        rwa [heq] at hafter
      · rename_i heq
        rw [heq] at hafter
        exact ih hafter

/-- What a cycle, a limit and a reset keep, every call keeps. -/
theorem perform_keeps (htick : ∀ emu, P emu → P emu.tick.1)
    (hlimit : ∀ (emu : Emulator) (limit : Int), P emu → P { emu with tickLimit := limit })
    (hreset : ∀ emu, P emu → P emu.reset) (call : Call) (h : P emu) : P (emu.perform call).1 := by
  cases call with
  | tick => exact htick emu h
  | next => exact nextWithin_keeps htick instructionCycles h
  | run limit => exact runWithin_keeps htick _ (hlimit emu limit h)
  | reset => exact hreset emu h

end Invariant

/-- An emulator with the given microcode, told whether to log, and in a sound state. -/
structure Steady (microcode : Microcode) (verbose : Bool) (emu : Emulator) : Prop where
  microcode_eq : emu.microcode = microcode
  verbose_eq : emu.verbose = verbose
  sound : emu.cpu.Sound emu.cpu.program

theorem fresh_steady (microcode : Microcode) (verbose : Bool) :
    (fresh microcode verbose).Steady microcode verbose :=
  ⟨rfl, rfl, .of_cleared rfl rfl, rfl⟩

theorem started_steady (h : emu.Steady microcode verbose) (code : Program) :
    (emu.started code).Steady microcode verbose :=
  ⟨h.microcode_eq, h.verbose_eq, .of_cleared rfl rfl, rfl⟩

theorem perform_steady (hm : microcode.Harmless) (h : emu.Steady microcode verbose) (call : Call) :
    (emu.perform call).1.Steady microcode verbose ∧
      (emu.perform call).1.cpu.program = emu.cpu.program := by
  have hframe : (emu.perform call).1.microcode = microcode ∧ (emu.perform call).1.verbose = verbose :=
    perform_keeps (P := fun emu => emu.microcode = microcode ∧ emu.verbose = verbose)
      (fun _ h => h) (fun _ _ h => h) (fun _ h => h) call ⟨h.microcode_eq, h.verbose_eq⟩
  have hsound : emu.Sound emu.cpu.program := ⟨h.microcode_eq ▸ hm, h.sound⟩
  have hcpu := (perform_sound hsound call).1.cpu
  exact ⟨⟨hframe.1, hframe.2, hcpu.program_eq ▸ hcpu⟩, hcpu.program_eq⟩

theorem serve_steady (hm : microcode.Harmless) (h : emu.Steady microcode verbose) (request : Request) :
    (emu.serve request).1.Steady microcode verbose := by
  cases request with
  | load code =>
    rcases Nat.lt_or_ge memorySize code.binary.length with hlarge | hfits
    · rw [serve_load_of_large hlarge]
      exact h
    · rw [serve_load_of_fits hfits]
      exact started_steady h code
  | call call => exact (perform_steady hm h call).1

theorem serveAll_steady (hm : microcode.Harmless) (h : emu.Steady microcode verbose)
    (history : List Request) : (emu.serveAll history).Steady microcode verbose := by
  induction history generalizing emu with
  | nil => exact h
  | cons request history ih => exact ih (serve_steady hm h request)

/-! ## Emulators that cannot be told apart -/

/-- Emulators that have the same CPU and go on to have the same, with the same reports, whatever is
asked of them. -/
structure Indistinguishable (a b : Emulator) : Prop where
  cpu : ∀ later, (a.serveAll later).cpu = (b.serveAll later).cpu
  reports : ∀ later request, ((a.serveAll later).serve request).2 = ((b.serveAll later).serve request).2

/-- Emulators that differ in the limit of cycles at most. -/
def Twin (a b : Emulator) : Prop := ∃ limit : Int, b = { a with tickLimit := limit }

/-- The limit has no part in an instruction. -/
theorem nextWithin_limit (n : Nat) (emu : Emulator) (limit : Int) :
    ({ emu with tickLimit := limit } : Emulator).nextWithin n =
      ({ (emu.nextWithin n).1 with tickLimit := limit }, (emu.nextWithin n).2) := by
  induction n generalizing emu with
  | zero => rfl
  | succ n ih =>
    have htick : ({ emu with tickLimit := limit } : Emulator).tick =
        ({ emu.tick.1 with tickLimit := limit }, emu.tick.2) := rfl
    unfold nextWithin
    rw [htick]
    rcases emu.tick with ⟨after, _ | failure⟩
    · dsimp only
      split
      · rfl
      · exact ih after
    · rfl

theorem Twin.serve {a b : Emulator} (h : Twin a b) (request : Request) :
    (a.serve request).2 = (b.serve request).2 ∧ Twin (a.serve request).1 (b.serve request).1 := by
  obtain ⟨limit, rfl⟩ := h
  cases request with
  | load code =>
    rcases Nat.lt_or_ge memorySize code.binary.length with hlarge | hfits
    · rw [serve_load_of_large hlarge, serve_load_of_large hlarge]
      exact ⟨rfl, limit, rfl⟩
    · rw [serve_load_of_fits hfits, serve_load_of_fits hfits]
      exact ⟨rfl, limit, rfl⟩
  | call call =>
    cases call with
    | tick => exact ⟨rfl, limit, rfl⟩
    | next =>
      have hnext := nextWithin_limit instructionCycles a limit
      exact ⟨(congrArg Prod.snd hnext).symm, limit, congrArg Prod.fst hnext⟩
    -- a run sets the limit
    | run other => exact ⟨rfl, _, rfl⟩
    | reset => exact ⟨rfl, limit, rfl⟩

theorem Twin.serveAll {a b : Emulator} (h : Twin a b) (later : List Request) :
    Twin (a.serveAll later) (b.serveAll later) := by
  induction later generalizing a b with
  | nil => exact h
  | cons request later ih => exact ih (h.serve request).2

theorem Twin.indistinguishable {a b : Emulator} (h : Twin a b) : Indistinguishable a b := by
  constructor
  · intro later
    obtain ⟨limit, hlimit⟩ := h.serveAll later
    rw [hlimit]
  · intro later request
    exact ((h.serveAll later).serve request).1

theorem Twin.run {a b : Emulator} (h : Twin a b) (limit : Int) :
    a.perform (.run limit) = b.perform (.run limit) := by
  obtain ⟨other, rfl⟩ := h
  rfl

/-! ## Resets -/

def loaded? (emu : Emulator) : Request → Option Emulator
  | .load code => (emu.load code).toOption
  | .call _ => none

/-- The emulator right after the last load of a history that succeeds. -/
def lastLoaded? (emu : Emulator) : List Request → Option Emulator
  | [] => none
  | request :: rest => ((emu.serve request).1.lastLoaded? rest).or (emu.loaded? request)

theorem reset_serve (hm : microcode.Harmless) (h : emu.Steady microcode verbose) (request : Request) :
    (emu.serve request).1.reset.cpu = ((emu.loaded? request).getD emu.reset).cpu := by
  cases request with
  | load code =>
    rcases Nat.lt_or_ge memorySize code.binary.length with hlarge | hfits
    · rw [serve_load_of_large hlarge, loaded?, load_eq_error.mpr ⟨hlarge, rfl⟩]
      rfl
    · rw [serve_load_of_fits hfits, loaded?, load_eq_ok.mpr ⟨hfits, rfl⟩]
      rfl
  | call call =>
    obtain ⟨hsteady, hprogram⟩ := perform_steady hm h call
    have hreset : ∀ emu : Emulator, emu.reset.cpu =
        { program := emu.cpu.program, verbose := emu.verbose } := fun _ => rfl
    rw [serve, loaded?, Option.getD_none, hreset, hreset, hprogram, hsteady.verbose_eq, h.verbose_eq]

theorem reset_serveAll (hm : microcode.Harmless) (h : emu.Steady microcode verbose)
    (history : List Request) :
    (emu.serveAll history).reset.cpu = ((emu.lastLoaded? history).getD emu.reset).cpu := by
  induction history generalizing emu with
  | nil => rfl
  | cons request history ih =>
    have hrest := ih (serve_steady hm h request)
    have hserve : emu.serveAll (request :: history) = (emu.serve request).1.serveAll history := rfl
    rw [hserve, hrest, lastLoaded?]
    cases (emu.serve request).1.lastLoaded? history with
    | some later => rfl
    | none => exact reset_serve hm h request

/-! ## Every history -/

/-- The microcode of the instruction set can be built, and after every history of an emulator that has
it: a load that succeeds leaves nothing of the CPU, so the emulator cannot be told from a fresh one with
the same load, and a run with the same limit is the same; a reset leads back to the CPU right after the
last load, or to that of the fresh emulator if there was none; and a load fails, and changes nothing, only
if the program is larger than the memory. -/
theorem restarts_afresh : ∃ microcode, Microcode.standard = .ok microcode ∧
    ∀ (verbose : Bool) (history : List Request) (emu : Emulator),
      emu = (fresh microcode verbose).serveAll history →
      (∀ code loaded, emu.load code = .ok loaded →
        loaded.cpu = { program := .ofBytes code.binary, verbose := verbose } ∧
        (∀ address : UInt8, loaded.cpu.program.read address = code.binary[address.toNat]?.getD 0) ∧
        ∃ first, (fresh microcode verbose).load code = .ok first ∧ loaded.cpu = first.cpu ∧
          (∀ limit, loaded.perform (.run limit) = first.perform (.run limit)) ∧
          Indistinguishable loaded first) ∧
      emu.reset.cpu =
        (((fresh microcode verbose).lastLoaded? history).getD (fresh microcode verbose).reset).cpu ∧
      ∀ code, (code.binary.length ≤ memorySize → ∃ loaded, emu.load code = .ok loaded) ∧
        ∀ e, emu.load code = .error e → memorySize < code.binary.length ∧
          emu.serve (.load code) = (emu, some (.error .programSize)) := by
  obtain ⟨microcode, hstandard, hm⟩ := Microcode.harmless_standard
  refine ⟨microcode, hstandard, ?_⟩
  rintro verbose history emu rfl
  have hfresh := fresh_steady microcode verbose
  have hsteady := serveAll_steady hm hfresh history
  refine ⟨fun code loaded hload => ?_, reset_serveAll hm hfresh history, fun code => ⟨?_, ?_⟩⟩
  · obtain ⟨hfits, rfl⟩ := load_eq_ok.mp hload
    have hcpu : (((fresh microcode verbose).serveAll history).started code).cpu =
        { program := .ofBytes code.binary, verbose := verbose } := by
      rw [started, hsteady.verbose_eq]
    have htwin : Twin (((fresh microcode verbose).serveAll history).started code)
        ((fresh microcode verbose).started code) := by
      refine ⟨0, ?_⟩
      rw [started, started, hsteady.microcode_eq, hsteady.verbose_eq]
      rfl
    refine ⟨hcpu, fun address => ?_, _, load_eq_ok.mpr ⟨hfits, rfl⟩, hcpu, htwin.run,
      htwin.indistinguishable⟩
    rw [hcpu, Memory.read_ofBytes]
  · exact fun hfits => ⟨_, load_eq_ok.mpr ⟨hfits, rfl⟩⟩
  · intro e he
    obtain ⟨hlarge, -⟩ := load_eq_error.mp he
    exact ⟨hlarge, serve_load_of_large hlarge _⟩

/-- A program of one byte is loaded over one of four that has run; a program of 260 bytes between the two
is refused, and the reset leads back to the one of four. -/
theorem restarts_after_longer : ∃ (microcode : Microcode) (long short : List Line)
    (history : List Request) (emu loaded first : Emulator),
    Microcode.standard = .ok microcode ∧
    (Assembler.standard 250).process ["STORE ACC [$x]", "@loop", "JUMP @loop"] = .ok long ∧
    (Assembler.standard 250).process ["HALT"] = .ok short ∧
    history = [.load ⟨long⟩, .call (.run 45), .load ⟨(List.replicate 65 long).flatten⟩, .call .next] ∧
    emu = (fresh microcode false).serveAll history ∧
    emu.load ⟨short⟩ = .ok loaded ∧ (fresh microcode false).load ⟨short⟩ = .ok first ∧
    loaded.cpu = { program := .ofBytes (Program.mk short).binary } ∧
    loaded.perform (.run 20) = first.perform (.run 20) ∧
    emu.reset.cpu = { program := .ofBytes (Program.mk long).binary } ∧
    emu.serve (.load ⟨(List.replicate 65 long).flatten⟩) = (emu, some (.error .programSize)) := by
  have hlong : ((Assembler.standard 250).process
      ["STORE ACC [$x]", "@loop", "JUMP @loop"]).toOption.any (fun long =>
        (Program.mk long).binary.length ≤ memorySize ∧
          memorySize < (Program.mk (List.replicate 65 long).flatten).binary.length) = true := by
    decide +kernel
  have hshort : ((Assembler.standard 250).process ["HALT"]).toOption.any (fun short =>
      (Program.mk short).binary.length ≤ memorySize) = true := by decide +kernel
  obtain ⟨long, hlong, hsizes⟩ := Traversal.exists_ok_of_any hlong
  obtain ⟨short, hshort, hsize⟩ := Traversal.exists_ok_of_any hshort
  obtain ⟨hfits, hlarge⟩ := of_decide_eq_true hsizes
  obtain ⟨microcode, hstandard, hall⟩ := restarts_afresh
  obtain ⟨hloads, hreset, hsizes⟩ := hall false
    [.load ⟨long⟩, .call (.run 45), .load ⟨(List.replicate 65 long).flatten⟩, .call .next] _ rfl
  obtain ⟨loaded, hload⟩ := (hsizes ⟨short⟩).1 (of_decide_eq_true hsize)
  obtain ⟨hcpu, -, first, hfirst, -, hrun, -⟩ := hloads ⟨short⟩ loaded hload
  obtain ⟨-, hrefused⟩ := (hsizes ⟨_⟩).2 _ (load_eq_error.mpr ⟨hlarge, rfl⟩)
  refine ⟨microcode, long, short, _, _, loaded, first, hstandard, hlong, hshort, rfl, rfl, hload, hfirst,
    hcpu, hrun 20, ?_, hrefused⟩
  rw [hreset]
  simp only [lastLoaded?, loaded?, load_eq_ok.mpr ⟨hfits, rfl⟩, load_eq_error.mpr ⟨hlarge, rfl⟩,
    Except.toOption, Option.or_none, Option.none_or, Option.getD_some]
  rfl

end Microcomputer.Emulator
