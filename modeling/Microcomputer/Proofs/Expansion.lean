import Mathlib
import Microcomputer.Operation.Catalog
import Microcomputer.Proofs.Complement
import Microcomputer.Proofs.Intersection
import Microcomputer.Proofs.Template

/-!
# The templates of an operation

The tables of an operation are expanded step by step. The address of a step is an overlay of its instruction byte,
its number and the flags, its data an overlay of its lines. These fields leave each other's bits open, or have
them in common, so no overlay goes wrong whatever the tables are, and a count of steps is all that can be refused.

* `Control.exists_wordOf`, `Control.bitAt_wordOf` : the control word of any lines;
* `Microprogram.exists_holds`, `Microprogram.exists_stepTemplate` : flags that meet conditions, and the template of
  any step;
* `Step.Expands` : the template of a step, bit by bit; `Encoding.steps` : the steps of an encoding in order;
* `Step.exists_expands` : it has one;
* `Expansion`, `Expansion.flatMap` : tables are refused for their counts only, and so are lists of tables;
* `Operation.templates_expand` : the templates of an operation with any tables.
-/

namespace Microcomputer

open Traversal

/-! ## Control words -/

namespace Control

variable {lines : List Control} {data : BitField}

theorem care_bits (line : Control) (n : Nat) : line.bits.care.getLsbD n = decide (line.position = n) := by
  have hlt := line.position_lt
  simp only [bits, Layout.place, BitField.getLsbD_mask_shiftLeft, Layout.dataWidth] at hlt ⊢
  rw [Bool.eq_iff_iff]
  simp only [Bool.and_eq_true, decide_eq_true_eq]
  omega

theorem accepts_bits (line : Control) : line.bits.accepts (BitVec.allOnes 64) = true := by
  rw [BitField.accepts_iff]
  intro n hknown
  have hn : n < 64 := BitVec.lt_of_getLsbD hknown
  rw [care_bits, decide_eq_true_eq] at hknown
  rw [(getLsbD_bits line n).mpr hknown, BitVec.getLsbD_allOnes, decide_eq_true_eq]
  exact hn

theorem exists_wordOf (lines : List Control) : ∃ data, wordOf lines = .ok data := by
  cases lines with
  | nil => exact ⟨_, rfl⟩
  | cons first rest =>
    have hcommon : ∀ f ∈ (first :: rest).map bits,
        f.Canonical ∧ f.width = Layout.dataWidth ∧ f.accepts (BitVec.allOnes 64) = true :=
      List.forall_mem_map.mpr fun line _ => ⟨line.canonical_bits, rfl, line.accepts_bits⟩
    exact BitField.exists_merge hcommon

/-- The control word of lines has a 1 for each of them, and X for every other line. -/
theorem bitAt_wordOf (e : wordOf lines = .ok data) (n : Nat) :
    data.bitAt n = if n ∈ lines.map position then .one else .unknown := by
  cases lines with
  | nil =>
    cases e
    simp [BitField.bitAt, BitField.unknown]
  | cons first rest =>
    have hcanonical : ∀ f ∈ (first :: rest).map bits, f.Canonical :=
      List.forall_mem_map.mpr fun line _ => line.canonical_bits
    have hcare : data.care.getLsbD n = false ↔ n ∉ (first :: rest).map position := by
      rw [BitField.care_merge hcanonical e, List.forall_mem_map]
      simp only [care_bits, decide_eq_false_iff_not, List.mem_map, not_exists, not_and]
    have hvalue : data.value.getLsbD n = true ↔ n ∈ (first :: rest).map position := by
      rw [BitField.merge_value hcanonical e]
      simp only [List.mem_map, exists_exists_and_eq_and, getLsbD_bits]
    unfold BitField.bitAt
    by_cases hmem : n ∈ (first :: rest).map position
    · have hknown : data.care.getLsbD n = true := by
        rw [← Bool.not_eq_false, hcare]
        exact not_not.mpr hmem
      rw [if_pos hknown, if_pos (hvalue.mpr hmem), if_pos hmem]
    · rw [hcare.mpr hmem, if_neg hmem]
      rfl

end Control

/-! ## Addresses -/

/-- An instruction byte without X is at the addresses of its word, whatever is kept beyond its bits. -/
theorem Layout.instructionAddress_eq {f : BitField} (hwidth : f.width = 8) (hconcrete : f.isConcrete = true) :
    instructionAddress f = instructionAddress (.ofWord (BitVec.ofNat 64 f.word.toNat) 8) := by
  obtain ⟨width, value, care⟩ := f
  obtain rfl : width = 8 := hwidth
  obtain rfl : care = BitField.mask 8 := eq_of_beq hconcrete
  rw [BitVec.ofNat_toNat, BitVec.setWidth_eq]
  simp [instructionAddress, BitField.ofWord, BitField.word, BitField.concat, BitField.append, BitVec.and_assoc]

theorem Layout.exists_instructionAddress (word : BitVec 64) :
    ∃ base, instructionAddress (.ofWord word 8) = .ok base :=
  ⟨_, rfl⟩

namespace Microprogram

variable {conditions : List (Flag × Bool)} {lines : List Control}

/-- Some flags meet conditions on different flags. -/
theorem exists_holds (hnodup : (conditions.map Prod.fst).Nodup) : ∃ flags < 16, Holds conditions flags := by
  let bit : Fin 4 → Bool := fun i => conditions.any fun c => c.1.position == i && c.2
  refine ⟨Nat.ofBits bit, Nat.ofBits_lt_two_pow bit, fun c hc => ?_⟩
  rw [Nat.testBit_ofBits_lt bit _ c.1.position_lt, Bool.eq_iff_iff, List.any_eq_true]
  simp only [Bool.and_eq_true, beq_iff_eq]
  constructor
  · rintro ⟨d, hd, hsame, hstate⟩
    rwa [List.inj_on_of_nodup_map hnodup hc hd (Flag.position_injective hsame.symm)]
  · intro hstate
    exact ⟨c, hc, rfl, hstate⟩

/-- The fields of the address of a step have an address in common. -/
theorem exists_stepTemplate {byte step : Nat} {base : BitField} (hbyte : byte < 256)
    (hbase : Layout.instructionAddress (.ofWord (BitVec.ofNat 64 byte) 8) = .ok base)
    (hnodup : (conditions.map Prod.fst).Nodup) (hstep : step < 8) (lines : List Control) :
    ∃ t, stepTemplate base conditions (step, lines) = .ok t := by
  obtain ⟨hcanonical, hwidth, haccepts⟩ := accepts_instructionAddress hbyte hbase
  obtain ⟨flags, hflags, hholds⟩ := exists_holds hnodup
  obtain ⟨data, hdata⟩ := Control.exists_wordOf lines
  have hlt : byte * 128 + flags * 8 + step < microcodeSize := by
    simp only [microcodeSize]
    omega
  obtain ⟨address, haddress⟩ : ∃ address, BitField.merge (base :: Layout.stepBits step ::
      conditions.map fun c => c.1.bits c.2) = .ok address := by
    have hall : ∀ f ∈ base :: Layout.stepBits step :: conditions.map fun c => c.1.bits c.2,
        f.accepts (BitVec.ofNat 64 (byte * 128 + flags * 8 + step)) = true := by
      simp only [List.forall_mem_cons, List.forall_mem_map, accepts_stepBits hstep, accepts_flagBits, holds_address,
        haccepts _ hlt]
      refine ⟨by omega, by omega, ?_⟩
      rwa [show (byte * 128 + flags * 8 + step) / 8 % 16 = flags by omega]
    exact BitField.exists_merge fun f hf =>
      ⟨(field_of_mem hcanonical hwidth hf).1, (field_of_mem hcanonical hwidth hf).2, hall f hf⟩
  exact ⟨⟨address, data⟩, bind_eq_ok.mpr ⟨address, haddress, bind_eq_ok.mpr ⟨data, hdata, rfl⟩⟩⟩

end Microprogram

/-! ## Steps -/

structure Step where
  byte : Nat
  conditions : List (Flag × Bool)
  number : Nat
  lines : List Control

/-- What a step is expanded to: the addresses with its byte, its number and flags that meet its conditions, and the
control word with a 1 for each of its lines and nothing but X elsewhere. -/
structure Step.Expands (s : Step) (t : Template) : Prop
    extends Microprogram.IsStep s.byte s.conditions (s.number, s.lines) t where
  bitAt_data : ∀ n, t.data.bitAt n = if n ∈ s.lines.map Control.position then .one else .unknown

theorem Step.exists_expands {byte number : Nat} {base : BitField} {conditions : List (Flag × Bool)} (hbyte : byte < 256)
    (hbase : Layout.instructionAddress (.ofWord (BitVec.ofNat 64 byte) 8) = .ok base)
    (hnodup : (conditions.map Prod.fst).Nodup) (hnumber : number < 8) (lines : List Control) :
    ∃ t, Microprogram.stepTemplate base conditions (number, lines) = .ok t ∧
      Expands ⟨byte, conditions, number, lines⟩ t := by
  obtain ⟨t, ht⟩ := Microprogram.exists_stepTemplate hbyte hbase hnodup hnumber lines
  refine ⟨t, ht, Microprogram.isStep_stepTemplate hbyte hbase hnumber ht, ?_⟩
  obtain ⟨address, -, ht⟩ := bind_eq_ok.mp ht
  obtain ⟨data, hdata, ht⟩ := bind_eq_ok.mp ht
  cases ht
  exact Control.bitAt_wordOf hdata

/-- The steps of a microprogram, which follow on the fetch of the instruction. -/
def Microprogram.stepsOf (byte : Nat) (p : Microprogram) : List Step :=
  (List.range p.steps.length).map fun n => ⟨byte, p.conditions, 2 + n, linesAt p.steps n⟩

def Encoding.steps (e : Encoding) : List Step :=
  e.code.flatMap (Microprogram.stepsOf e.instruction.word.toNat)

/-- Tables that are refused for their counts, if `refused` says so, and are expanded to the templates of `steps`
otherwise. -/
structure Expansion (refused : Prop) (steps : List Step) (result : Except Error (List Template)) : Prop where
  eq_error : refused → result = .error .stepCount
  eq_ok : ¬ refused → ∃ ts, result = .ok ts ∧ List.Forall₂ Step.Expands steps ts

theorem Expansion.eq_error_iff {refused : Prop} {steps : List Step} {result : Except Error (List Template)}
    (h : Expansion refused steps result) {cause : Error} :
    result = .error cause ↔ refused ∧ cause = .stepCount := by
  constructor
  · intro hcause
    by_cases hrefused : refused
    · rw [h.eq_error hrefused] at hcause
      cases hcause
      exact ⟨hrefused, rfl⟩
    · obtain ⟨ts, hts, -⟩ := h.eq_ok hrefused
      rw [hts] at hcause
      cases hcause
  · rintro ⟨hrefused, rfl⟩
    exact h.eq_error hrefused

/-- Tables in a row are refused if one of them is, and are expanded one after the other. -/
theorem Expansion.flatMap {α : Type} {refused : α → Prop} {steps : α → List Step}
    {expand : α → Except Error (List Template)} {xs : List α}
    (h : ∀ x ∈ xs, Expansion (refused x) (steps x) (expand x)) :
    Expansion (∃ x ∈ xs, refused x) (xs.flatMap steps) ((xs.mapM expand).map List.flatten) := by
  constructor
  · rintro ⟨x, hx, hrefused⟩
    rw [map_eq_error]
    refine mapM_eq_error_of_mem (fun y hy cause hcause => ?_) hx ((h x hx).eq_error hrefused)
    exact ((h y hy).eq_error_iff.mp hcause).2
  · intro hnone
    obtain ⟨tss, htss, hexpands⟩ := exists_mapM fun x hx =>
      (h x hx).eq_ok fun hrefused => hnone ⟨x, hx, hrefused⟩
    rw [← List.forall₂_map_left_iff] at hexpands
    exact ⟨_, map_eq_ok.mpr ⟨tss, htss, rfl⟩, List.rel_flatten hexpands⟩

/-! ## Tables -/

def Microprogram.Miscounted (p : Microprogram) : Prop := p.steps = [] ∨ 6 < p.steps.length

theorem Microprogram.expansion {byte : Nat} {base : BitField} (hbyte : byte < 256)
    (hbase : Layout.instructionAddress (.ofWord (BitVec.ofNat 64 byte) 8) = .ok base) {p : Microprogram}
    (hnodup : (p.conditions.map Prod.fst).Nodup) :
    Expansion p.Miscounted (p.stepsOf byte) (templates base p) := by
  have hcount : (p.steps.isEmpty || decide (Layout.maxSteps < p.steps.length)) = true ↔ p.Miscounted := by
    rw [Bool.or_eq_true, List.isEmpty_iff, decide_eq_true_eq]
    rfl
  unfold templates
  constructor
  · intro h
    rw [if_pos (hcount.mpr h)]
  · intro h
    have hlength : p.steps.length ≤ 6 := by
      by_contra hlong
      exact h (.inr (by omega))
    have hsteps : p.stepsOf byte =
        (numberedSteps Layout.fetchSteps p.steps).map fun step => ⟨byte, p.conditions, step.1, step.2⟩ := by
      rw [numberedSteps_eq, List.map_map]
      rfl
    obtain ⟨ts, hts, hexpands⟩ := exists_mapM fun step (hstep : step ∈ numberedSteps Layout.fetchSteps p.steps) =>
      have hnumber : step.1 < 2 + p.steps.length := (lt_of_mem_numberedSteps hstep).2
      Step.exists_expands hbyte hbase hnodup (show step.1 < 8 by omega) step.2
    rw [if_neg (mt hcount.mp h), hsteps]
    exact ⟨ts, mapError_eq_ok.mpr hts, List.forall₂_map_left_iff.mpr hexpands⟩

theorem Encoding.expansion {e : Encoding} (hwidth : e.instruction.width = 8)
    (hconcrete : e.instruction.isConcrete = true) (hnodup : ∀ p ∈ e.code, (p.conditions.map Prod.fst).Nodup) :
    Expansion (∃ p ∈ e.code, p.Miscounted) e.steps e.templates := by
  have hbyte : e.instruction.word.toNat < 256 := by
    have hlt := BitField.word_lt_of_isConcrete hconcrete
    rwa [hwidth] at hlt
  obtain ⟨base, hbase⟩ := Layout.exists_instructionAddress (BitVec.ofNat 64 e.instruction.word.toNat)
  have hcode := Expansion.flatMap fun p hp => Microprogram.expansion hbyte hbase (hnodup p hp)
  have htemplates : e.templates = (e.code.mapM (Microprogram.templates base)).map List.flatten := by
    unfold templates
    rw [Layout.instructionAddress_eq hwidth hconcrete, hbase]
    rfl
  rw [htemplates]
  exact hcode

/-- The templates of an operation with any tables in which the instruction bytes are 8 bits without X and the
conditions of a microprogram are on different flags. They are refused exactly if some microprogram has no steps or
more than six, and for no other reason. Otherwise there is one for each step, in the order of the tables. It is at the
addresses that have the instruction byte, the states of the flags and the number of the step, counted on from the 2
steps of the fetch. It has a 1 for each line of the step, to which the last step adds the reset of the step counter,
and X for all others. -/
theorem Operation.templates_expand (mnemonic : String) (encodings : List Encoding)
    (hbytes : ∀ e ∈ encodings, e.instruction.width = 8 ∧ e.instruction.isConcrete = true)
    (hflags : ∀ e ∈ encodings, ∀ p ∈ e.code, (p.conditions.map Prod.fst).Nodup) :
    ((ofEncodings mnemonic encodings).templates = .error (.error .stepCount) ↔
      ∃ e ∈ encodings, ∃ p ∈ e.code, p.steps = [] ∨ 6 < p.steps.length) ∧
    ((¬ ∃ e ∈ encodings, ∃ p ∈ e.code, p.steps = [] ∨ 6 < p.steps.length) →
      ∃ ts, (ofEncodings mnemonic encodings).templates = .ok ts ∧
        List.Forall₂ Step.Expands (encodings.flatMap Encoding.steps) ts) ∧
    ∀ failure, (ofEncodings mnemonic encodings).templates = .error failure → failure = .error .stepCount := by
  have hall : Expansion (∃ e ∈ encodings, ∃ p ∈ e.code, p.Miscounted) (encodings.flatMap Encoding.steps)
      (Encoding.allTemplates encodings) :=
    Expansion.flatMap fun e he => Encoding.expansion (hbytes e he).1 (hbytes e he).2 (hflags e he)
  have herror : ∀ failure, (ofEncodings mnemonic encodings).templates = .error failure ↔
      (∃ e ∈ encodings, ∃ p ∈ e.code, p.Miscounted) ∧ failure = .error .stepCount := by
    intro failure
    change (Encoding.allTemplates encodings).mapError .error = .error failure ↔ _
    simp only [mapError_eq_error, hall.eq_error_iff]
    constructor
    · rintro ⟨cause, ⟨hmiscounted, rfl⟩, rfl⟩
      exact ⟨hmiscounted, rfl⟩
    · rintro ⟨hmiscounted, rfl⟩
      exact ⟨_, ⟨hmiscounted, rfl⟩, rfl⟩
  refine ⟨(herror _).trans (and_iff_left rfl), fun hnone => ?_, fun failure hfailure => ((herror _).mp hfailure).2⟩
  obtain ⟨ts, hts, hexpands⟩ := hall.eq_ok hnone
  exact ⟨ts, mapError_eq_ok.mpr hts, hexpands⟩

/-- The jump on the zero flag has two steps if the flag is set and one if it is clear. If it waited for seven steps
before it went on, it would be refused. -/
theorem Operation.templates_expand_jump :
    (∃ ts, (ofEncodings "JUMP_IF_ZERO_FLAG" (InstructionSet.jumpIf .zero)).templates = .ok ts ∧
      List.Forall₂ Step.Expands
        [⟨249, [(.zero, true)], 2, [.pcOut, .marIn]⟩,
          ⟨249, [(.zero, true)], 3, [.ramSelectProgram, .ramOut, .pcIn, .stepReset]⟩,
          ⟨249, [(.zero, false)], 2, [.pcCount, .stepReset]⟩] ts) ∧
    (ofEncodings "JUMP_IF_ZERO_FLAG" [⟨[.constant false], InstructionSet.flowOpcode (.jumpIf .zero),
      [⟨[(.zero, true)], InstructionSet.jumpSteps⟩, ⟨[(.zero, false)], List.replicate 7 [.pcCount]⟩]⟩]).templates =
        .error (.error .stepCount) := by
  obtain ⟨-, hok, -⟩ := templates_expand "JUMP_IF_ZERO_FLAG" (InstructionSet.jumpIf .zero) (by decide +kernel)
    (by decide +kernel)
  obtain ⟨hiff, -, -⟩ := templates_expand "JUMP_IF_ZERO_FLAG" [⟨[.constant false],
    InstructionSet.flowOpcode (.jumpIf .zero), [⟨[(.zero, true)], InstructionSet.jumpSteps⟩,
      ⟨[(.zero, false)], List.replicate 7 [.pcCount]⟩]⟩] (by decide +kernel) (by decide +kernel)
  refine ⟨?_, hiff.mpr ⟨_, List.mem_cons_self, _, List.mem_cons_of_mem _ List.mem_cons_self, .inr (by decide)⟩⟩
  exact hok (by decide +kernel)

end Microcomputer
