import Mathlib
import Microcomputer.Proofs.Rom

/-!
# The addresses and the control words of a step

A microcode address is an instruction byte, the flags and a step number. The template of a step
covers the addresses of its byte and its number whose flags meet the conditions of its microprogram,
and its control word asserts exactly the lines of the step.

* `Control.Asserts` : the lines that a control word asserts, `asserts_wordOf` : those of a step;
* `Microprogram.Holds` : whether flags meet the conditions of a microprogram;
* `Microprogram.linesAt` : the lines of a step, `Microprogram.numberedSteps_eq` : the steps with their numbers;
* `Microprogram.IsStep` : the template of a step, its addresses and its control word;
* `Encoding.Realizes` : templates that are those of the steps of encodings and share no address;
  `Encoding.realizes_allTemplates` : the templates of encodings whose bytes differ.
-/

namespace Microcomputer

open Traversal

/-! ## Control words -/

namespace Control

/-- A control word asserts exactly the given lines. -/
def Asserts (word : BitVec 64) (lines : List Control) : Prop :=
  ∀ line : Control, line.isActive word = decide (line ∈ lines)

theorem ofPosition?_position (line : Control) : ofPosition? line.position = some line := by
  cases line <;> rfl

theorem position_injective {line line' : Control} (h : line.position = line'.position) :
    line = line' := by
  have := ofPosition?_position line
  rw [h, ofPosition?_position] at this
  exact (Option.some.inj this).symm

theorem position_lt (line : Control) : line.position + 1 ≤ Layout.dataWidth := by
  cases line <;> decide

theorem canonical_bits (line : Control) : line.bits.Canonical :=
  BitField.canonical_place _ _ _ _ line.position_lt

theorem getLsbD_bits (line : Control) (n : Nat) :
    line.bits.value.getLsbD n = true ↔ line.position = n := by
  have hlt : line.position < 64 := lt_of_lt_of_le (line.position_lt) (by decide)
  have hand : 1#64 &&& BitField.mask 1 = 1#64 := by decide
  simp only [bits, Layout.place, hand, BitVec.getLsbD_shiftLeft, BitVec.getLsbD_one,
    Bool.and_eq_true, Bool.not_eq_true', decide_eq_true_eq, decide_eq_false_iff_not]
  omega

theorem asserts_wordOf {lines : List Control} {data : BitField} (e : wordOf lines = .ok data) :
    data.Canonical ∧ data.width = Layout.dataWidth ∧ Asserts data.word lines := by
  cases lines with
  | nil =>
    cases e
    refine ⟨BitField.canonical_unknown _, rfl, fun line => ?_⟩
    simp [isActive, BitField.word, BitField.unknown]
  | cons first rest =>
    have hcanonical : ∀ g ∈ (first :: rest).map bits, g.Canonical := by
      intro g hg
      obtain ⟨line, -, rfl⟩ := List.mem_map.mp hg
      exact line.canonical_bits
    obtain ⟨hc, hwidth, -⟩ := BitField.merge_spec hcanonical e
    refine ⟨hc, (hwidth first.bits (by simp)).symm, fun line => ?_⟩
    rw [Bool.eq_iff_iff, decide_eq_true_eq, isActive, BitField.word, BitVec.getLsbD_and,
      Bool.and_eq_true, and_iff_left_of_imp (hc.value_care _), BitField.merge_value hcanonical e]
    constructor
    · rintro ⟨g, hg, hbit⟩
      obtain ⟨line', hmem, rfl⟩ := List.mem_map.mp hg
      rw [getLsbD_bits] at hbit
      rwa [← position_injective hbit]
    · intro hmem
      exact ⟨line.bits, List.mem_map_of_mem hmem, (getLsbD_bits _ _).mpr rfl⟩

end Control

/-! ## Addresses -/

theorem testBit_ofNat {n i : Nat} (hi : i < 64) : (BitVec.ofNat 64 n).getLsbD i = n.testBit i := by
  rw [BitVec.getLsbD_ofNat, decide_eq_true hi, Bool.true_and]

theorem testBits_eq_iff (m n k : Nat) : (∀ i < k, m.testBit i = n.testBit i) ↔ m % 2 ^ k = n % 2 ^ k := by
  constructor
  · intro h
    apply Nat.eq_of_testBit_eq
    intro i
    rw [Nat.testBit_mod_two_pow, Nat.testBit_mod_two_pow]
    by_cases hi : i < k
    · simp [h i hi]
    · simp [hi]
  · intro h i hi
    have := congrArg (·.testBit i) h
    simpa [Nat.testBit_mod_two_pow, hi] using this

theorem accepts_stepBits {step n : Nat} (hstep : step < 8) :
    (Layout.stepBits step).accepts (BitVec.ofNat 64 n) = true ↔ n % 8 = step := by
  rw [Layout.stepBits, BitField.accepts_place _ _ _ _ (by decide)]
  have hword : BitVec.ofInt 64 (step : Int) = BitVec.ofNat 64 step := by simp
  have hbits : (∀ i < Layout.stepWidth, (BitVec.ofNat 64 n).getLsbD (0 + i) =
      (BitVec.ofNat 64 step).getLsbD i) ↔ ∀ i < 3, n.testBit i = step.testBit i := by
    refine forall₂_congr fun i hi => ?_
    have hi64 : i < 64 := lt_of_lt_of_le hi (by decide)
    rw [Nat.zero_add, testBit_ofNat hi64, testBit_ofNat hi64]
  rw [hword, hbits, testBits_eq_iff]
  omega

theorem Flag.position_lt (flag : Flag) : flag.position < 4 := by cases flag <;> decide

theorem Flag.position_injective {flag flag' : Flag} (h : flag.position = flag'.position) : flag = flag' := by
  cases flag <;> cases flag' <;> first | rfl | cases h

theorem accepts_flagBits (flag : Flag) (state : Bool) (n : Nat) :
    (flag.bits state).accepts (BitVec.ofNat 64 n) = true ↔ n.testBit (3 + flag.position) = state := by
  have hposition := flag.position_lt
  rw [Flag.bits, BitField.accepts_place _ _ _ _ (by simp only [Layout.stepWidth]; omega)]
  have hstate : (Flag.stateWord state).getLsbD 0 = state := by cases state <;> rfl
  simp only [Nat.lt_one_iff, forall_eq, Nat.add_zero, hstate, Layout.stepWidth]
  rw [testBit_ofNat (by omega)]

theorem accepts_instructionAddress {byte : Nat} {base : BitField} (hbyte : byte < 256)
    (e : Layout.instructionAddress (.ofWord (BitVec.ofNat 64 byte) 8) = .ok base) :
    base.Canonical ∧ base.width = Layout.addressWidth ∧
      ∀ n < microcodeSize, base.accepts (BitVec.ofNat 64 n) = true ↔ n / 128 = byte := by
  have hconcat : BitField.concat [.ofWord (BitVec.ofNat 64 byte) 8, .unknown 7] = .ok base := by
    rw [Layout.instructionAddress, if_neg (by simp [BitField.ofWord, Layout.instructionWidth])] at e
    exact e
  obtain ⟨hc, hwidth, haccepts⟩ := BitField.concat_unknown (BitField.canonical_ofWord _ _) hconcat
  refine ⟨hc, hwidth, fun n hn => ?_⟩
  have hbits : (∀ i < 8, (BitVec.ofNat 64 n >>> 7).getLsbD i = (BitVec.ofNat 64 byte).getLsbD i) ↔
      ∀ i < 8, (n / 128).testBit i = byte.testBit i := by
    refine forall₂_congr fun i hi => ?_
    rw [BitVec.getLsbD_ushiftRight, testBit_ofNat (by omega), testBit_ofNat (by omega),
      show n / 128 = n / 2 ^ 7 from rfl, Nat.testBit_div_two_pow, Nat.add_comm]
  rw [haccepts, BitField.accepts_ofWord _ _ _ (by decide), hbits, testBits_eq_iff]
  simp only [microcodeSize] at hn
  omega

/-! ## Steps -/

namespace Microprogram

def Holds (conditions : List (Flag × Bool)) (flags : Nat) : Prop :=
  ∀ c ∈ conditions, flags.testBit c.1.position = c.2

theorem holds_address (conditions : List (Flag × Bool)) (n : Nat) :
    (∀ c ∈ conditions, n.testBit (3 + c.1.position) = c.2) ↔ Holds conditions (n / 8 % 16) := by
  refine forall₂_congr fun c _ => ?_
  have hposition := c.1.position_lt
  rw [show n / 8 % 16 = n / 2 ^ 3 % 2 ^ 4 from rfl, Nat.testBit_mod_two_pow, Nat.testBit_div_two_pow]
  simp [hposition, Nat.add_comm]

/-- The lines of the step at a place: those of the table, and the reset of the step counter at the last place. -/
def linesAt (steps : List (List Control)) (n : Nat) : List Control :=
  steps[n]?.getD [] ++ if n + 1 = steps.length then [.stepReset] else []

theorem numberedSteps_eq (k : Nat) (steps : List (List Control)) :
    numberedSteps k steps = (List.range steps.length).map fun n => (k + n, linesAt steps n) := by
  fun_induction numberedSteps k steps with
  | case1 => rfl
  | case2 => rfl
  | case3 k lines rest hne ih =>
    have hfirst : linesAt (lines :: rest) 0 = lines := by simp [linesAt, show rest ≠ [] from hne]
    have hnext : ∀ n, linesAt (lines :: rest) (n + 1) = linesAt rest n := by simp [linesAt]
    rw [ih, List.length_cons, List.range_succ_eq_map, List.map_cons, List.map_map, hfirst]
    simp only [Function.comp_def, Nat.succ_eq_add_one, hnext, Nat.add_zero, Nat.add_assoc, Nat.add_comm 1]

theorem lt_of_mem_numberedSteps {steps : List (List Control)} {n : Nat} {step : Nat × List Control}
    (h : step ∈ numberedSteps n steps) : n ≤ step.1 ∧ step.1 < n + steps.length := by
  rw [numberedSteps_eq] at h
  obtain ⟨i, hi, rfl⟩ := List.mem_map.mp h
  exact ⟨Nat.le_add_right n i, Nat.add_lt_add_left (List.mem_range.mp hi) n⟩

theorem numberedSteps_pairwise (steps : List (List Control)) (n : Nat) :
    (numberedSteps n steps).Pairwise fun s t => s.1 ≠ t.1 := by
  rw [numberedSteps_eq, List.pairwise_map]
  exact List.pairwise_lt_range.imp fun hlt => (Nat.add_lt_add_left hlt n).ne

/-- What a template of a step is: the addresses of an instruction byte and a step number whose flags
meet conditions, and the control word that asserts the lines of the step. -/
structure IsStep (byte : Nat) (conditions : List (Flag × Bool)) (step : Nat × List Control)
    (t : Template) : Prop where
  wellFormed : t.WellFormed
  asserts : Control.Asserts t.data.word step.2
  covers_iff : ∀ n, t.covers n = true ↔ n < microcodeSize ∧ n / 128 = byte ∧ n % 8 = step.1 ∧
    Holds conditions (n / 8 % 16)

/-- The fields that are laid over each other to the address of a step. -/
theorem field_of_mem {base g : BitField} (hcanonical : base.Canonical) (hwidth : base.width = Layout.addressWidth)
    {step : Int} {conditions : List (Flag × Bool)}
    (hg : g ∈ base :: Layout.stepBits step :: conditions.map fun c => c.1.bits c.2) :
    g.Canonical ∧ g.width = Layout.addressWidth := by
  simp only [List.mem_cons, List.mem_map] at hg
  rcases hg with rfl | rfl | ⟨c, -, rfl⟩
  · exact ⟨hcanonical, hwidth⟩
  · exact ⟨BitField.canonical_place _ _ _ _ (by decide), rfl⟩
  · refine ⟨BitField.canonical_place _ _ _ _ ?_, rfl⟩
    cases c.1 <;> decide

theorem isStep_stepTemplate {byte : Nat} {base : BitField} {conditions : List (Flag × Bool)}
    {step : Nat × List Control} {t : Template} (hbyte : byte < 256)
    (hbase : Layout.instructionAddress (.ofWord (BitVec.ofNat 64 byte) 8) = .ok base)
    (hstep : step.1 < 8) (e : stepTemplate base conditions step = .ok t) :
    IsStep byte conditions step t := by
  obtain ⟨hbc, hbw, hba⟩ := accepts_instructionAddress hbyte hbase
  unfold stepTemplate at e
  obtain ⟨address, haddress, e⟩ := bind_eq_ok.mp e
  obtain ⟨data, hdata, e⟩ := bind_eq_ok.mp e
  cases e
  obtain ⟨hdc, hdw, hda⟩ := Control.asserts_wordOf hdata
  obtain ⟨hac, haw, haa⟩ := BitField.merge_spec (fun g hg => (field_of_mem hbc hbw hg).1) haddress
  refine ⟨⟨(haw base (by simp)).symm.trans hbw, hac, hdw, hdc⟩, hda, fun n => ?_⟩
  simp only [Template.covers, Bool.and_eq_true, decide_eq_true_eq, haa, List.forall_mem_cons,
    List.forall_mem_map, accepts_stepBits hstep, accepts_flagBits, holds_address]
  constructor
  · rintro ⟨hn, h₁, h₂⟩
    exact ⟨hn, (hba n hn).mp h₁, h₂⟩
  · rintro ⟨hn, h₁, h₂⟩
    exact ⟨hn, (hba n hn).mpr h₁, h₂⟩

/-- Two microprograms of which one needs a flag set and the other needs it clear. -/
def Excludes (p q : Microprogram) : Prop := ∃ c ∈ p.conditions, (c.1, !c.2) ∈ q.conditions

instance (p q : Microprogram) : Decidable (Excludes p q) := by unfold Excludes; infer_instance

theorem Excludes.not_holds {p q : Microprogram} (h : p.Excludes q) (flags : Nat) :
    ¬ (Holds p.conditions flags ∧ Holds q.conditions flags) := by
  rintro ⟨hp, hq⟩
  obtain ⟨c, hc, hc'⟩ := h
  have h₁ := hp c hc
  have h₂ := hq _ hc'
  simp only [h₁] at h₂
  cases h : c.2 <;> simp [h] at h₂

end Microprogram

/-! ## Encodings -/

namespace Encoding

def byte (e : Encoding) : UInt8 := UInt8.ofNat e.instruction.word.toNat

/-- An encoding whose instruction byte has no X bits and whose microprograms exclude each other. -/
structure Coherent (e : Encoding) : Prop where
  instruction_eq : e.instruction = .ofWord (BitVec.ofNat 64 e.byte.toNat) 8
  exclusive : e.code.Pairwise Microprogram.Excludes

/-- Templates that are exactly those of the steps of encodings, and share no address. -/
structure Realizes (encodings : List Encoding) (ts : List Template) : Prop where
  sound : ∀ t ∈ ts, ∃ e ∈ encodings, ∃ p ∈ e.code, ∃ step ∈ Microprogram.numberedSteps 2 p.steps,
    Microprogram.IsStep e.byte.toNat p.conditions step t
  complete : ∀ e ∈ encodings, ∀ p ∈ e.code, ∀ step ∈ Microprogram.numberedSteps 2 p.steps, ∃ t ∈ ts,
    Microprogram.IsStep e.byte.toNat p.conditions step t
  disjoint : ts.Pairwise Template.Disjoint

theorem templates_eq_ok {base : BitField} {p : Microprogram} {ts : List Template}
    (h : Microprogram.templates base p = .ok ts) :
    p.steps.length ≤ 6 ∧ (Microprogram.numberedSteps 2 p.steps).mapM
      (Microprogram.stepTemplate base p.conditions) = .ok ts := by
  unfold Microprogram.templates at h
  split at h
  · cases h
  · rename_i hlen
    have hmax : Layout.maxSteps = 6 := by decide
    simp only [hmax, Bool.or_eq_true, decide_eq_true_eq, not_or, not_lt] at hlen
    exact ⟨hlen.2, mapError_eq_ok.mp h⟩

theorem Coherent.realizes {e : Encoding} (hc : e.Coherent) {ts : List Template}
    (h : e.templates = .ok ts) : Realizes [e] ts := by
  unfold templates at h
  obtain ⟨base, hbase, h⟩ := bind_eq_ok.mp h
  obtain ⟨tss, htss, h⟩ := bind_eq_ok.mp h
  cases h
  rw [mapError_eq_ok, hc.instruction_eq] at hbase
  have isStep : ∀ p us, Microprogram.templates base p = .ok us →
      ∀ step ∈ Microprogram.numberedSteps 2 p.steps, ∀ t,
        Microprogram.stepTemplate base p.conditions step = .ok t →
          Microprogram.IsStep e.byte.toNat p.conditions step t := by
    intro p us hp step hstep t ht
    have := Microprogram.lt_of_mem_numberedSteps hstep
    have := (templates_eq_ok hp).1
    exact Microprogram.isStep_stepTemplate e.byte.toNat_lt hbase (by omega) ht
  refine ⟨fun t ht => ?_, fun e' he' p hp step hstep => ?_, List.pairwise_flatten.mpr ⟨?_, ?_⟩⟩
  · obtain ⟨us, hus, ht⟩ := List.mem_flatten.mp ht
    obtain ⟨p, hp, hpu⟩ := mem_of_mapM htss hus
    obtain ⟨step, hstep, e'⟩ := mem_of_mapM (templates_eq_ok hpu).2 ht
    exact ⟨e, by simp, p, hp, step, hstep, isStep p us hpu step hstep t e'⟩
  · rw [List.mem_singleton] at he'
    subst he'
    obtain ⟨us, hus, hpu⟩ := mapM_of_mem htss hp
    obtain ⟨t, ht, e'⟩ := mapM_of_mem (templates_eq_ok hpu).2 hstep
    exact ⟨t, List.mem_flatten.mpr ⟨us, hus, ht⟩, isStep p us hpu step hstep t e'⟩
  · -- within a microprogram the step numbers differ
    intro us hus
    obtain ⟨p, hp, hpu⟩ := mem_of_mapM htss hus
    have hsteps := (templates_eq_ok hpu).2
    have hnumbers : (Microprogram.numberedSteps 2 p.steps).Pairwise fun s t =>
        s ∈ Microprogram.numberedSteps 2 p.steps ∧ t ∈ Microprogram.numberedSteps 2 p.steps ∧
          s.1 ≠ t.1 :=
      (Microprogram.numberedSteps_pairwise p.steps 2).imp_of_mem fun hs ht hne => ⟨hs, ht, hne⟩
    refine pairwise_of_mapM hsteps hnumbers fun s s' t t' hR ht ht' n hn => hR.2.2 ?_
    have h₁ := ((isStep p us hpu s hR.1 t ht).covers_iff n).mp hn.1
    have h₂ := ((isStep p us hpu s' hR.2.1 t' ht').covers_iff n).mp hn.2
    rw [← h₁.2.2.1, h₂.2.2.1]
  · -- two microprograms never run under the same flags
    refine pairwise_of_mapM htss hc.exclusive fun p q us vs hR hpu hqv t ht u hu n hn => ?_
    obtain ⟨s, hs, hst⟩ := mem_of_mapM (templates_eq_ok hpu).2 ht
    obtain ⟨s', hs', hst'⟩ := mem_of_mapM (templates_eq_ok hqv).2 hu
    have h₁ := ((isStep p us hpu s hs t hst).covers_iff n).mp hn.1
    have h₂ := ((isStep q vs hqv s' hs' u hst').covers_iff n).mp hn.2
    exact hR.not_holds _ ⟨h₁.2.2.2, h₂.2.2.2⟩

namespace Realizes

theorem nil : Realizes [] [] := ⟨by simp, by simp, .nil⟩

/-- Encodings with other instruction bytes claim other addresses. -/
theorem append {es es' : List Encoding} {ts ts' : List Template} (h : Realizes es ts)
    (h' : Realizes es' ts') (hd : ∀ e ∈ es, ∀ e' ∈ es', e.byte ≠ e'.byte) :
    Realizes (es ++ es') (ts ++ ts') := by
  refine ⟨fun t ht => ?_, fun e he p hp step hstep => ?_, List.pairwise_append.mpr
    ⟨h.disjoint, h'.disjoint, fun t ht u hu n hn => ?_⟩⟩
  · rcases List.mem_append.mp ht with ht | ht
    · obtain ⟨e, he, rest⟩ := h.sound t ht
      exact ⟨e, by simp [he], rest⟩
    · obtain ⟨e, he, rest⟩ := h'.sound t ht
      exact ⟨e, by simp [he], rest⟩
  · rcases List.mem_append.mp he with he | he
    · obtain ⟨t, ht, rest⟩ := h.complete e he p hp step hstep
      exact ⟨t, by simp [ht], rest⟩
    · obtain ⟨t, ht, rest⟩ := h'.complete e he p hp step hstep
      exact ⟨t, by simp [ht], rest⟩
  · obtain ⟨e, he, p, -, step, -, hs⟩ := h.sound t ht
    obtain ⟨e', he', p', -, step', -, hs'⟩ := h'.sound u hu
    have h₁ := ((hs.covers_iff n).mp hn.1).2.1
    have h₂ := ((hs'.covers_iff n).mp hn.2).2.1
    exact hd e he e' he' (UInt8.toNat_inj.mp (h₁.symm.trans h₂))

theorem flatten {ess : List (List Encoding)} {tss : List (List Template)}
    (h : List.Forall₂ Realizes ess tss) (hd : (ess.flatten.map byte).Nodup) :
    Realizes ess.flatten tss.flatten := by
  induction h with
  | nil => exact nil
  | @cons es ts ess tss hes _ ih =>
    rw [List.flatten_cons, List.map_append, List.nodup_append] at hd
    refine append hes (ih hd.2.1) fun e he e' he' => ?_
    exact hd.2.2 _ (List.mem_map_of_mem he) _ (List.mem_map_of_mem he')

end Realizes

/-- The templates of encodings with different instruction bytes. -/
theorem realizes_allTemplates {es : List Encoding} (hc : ∀ e ∈ es, e.Coherent)
    (hd : (es.map byte).Nodup) {ts : List Template} (h : allTemplates es = .ok ts) :
    Realizes es ts := by
  obtain ⟨tss, htss, rfl⟩ := map_eq_ok.mp h
  have hsingle : (es.map fun e => [e]).flatten = es := by
    rw [← List.flatMap_def, List.flatMap_singleton']
  rw [← hsingle] at hd ⊢
  refine Realizes.flatten ?_ hd
  rw [List.forall₂_map_left_iff]
  have hboth := (List.forall₂_and_left ..).mpr ⟨hc, mapM_eq_ok.mp htss⟩
  exact hboth.imp fun e ts h => h.1.realizes h.2

end Encoding

end Microcomputer
