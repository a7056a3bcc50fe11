import Mathlib
import Microcomputer.Proofs.Collision
import Microcomputer.Proofs.Reading

/-!
# The ROM of a part of the instruction set

Different operations have different instruction bytes, so their templates never share an address. An
operation that is listed twice claims its addresses twice.

* `Operation.Encodes` : the instruction bytes of an operation; `Operation.eq_of_encodes` : those of
  different operations differ;
* `Operation.Emits` : the templates of an operation;
* `Rom.build_of_nodup`, `Rom.build_of_not_nodup` : the ROM of operations that differ, and the failure
  if one is repeated;
* `Rom.Restricts` : a ROM that is another one at the addresses of some operations and idle elsewhere;
  `Rom.build_of_subset` : the ROM of any operations of the instruction set is the full one, restricted.
-/

namespace Microcomputer

open Traversal

namespace Operation

theorem nodup_all : all.Nodup := List.Nodup.of_map _ nodup_mnemonics

def encodings (op : Operation) : List Encoding := (InstructionSet.table.lookup op.mnemonic).getD []

def Encodes (op : Operation) (byte : Nat) : Prop := ∃ e ∈ op.encodings, e.byte.toNat = byte

theorem encodings_ofEncodings {entry : String × List Encoding} (h : entry ∈ InstructionSet.table) :
    (ofEncodings entry.1 entry.2).encodings = entry.2 := by
  have hnodup : (InstructionSet.table.map Prod.fst).Nodup := by
    have hmnemonics := nodup_mnemonics
    rw [all, List.map_map] at hmnemonics
    exact hmnemonics
  show (InstructionSet.table.lookup entry.1).getD [] = entry.2
  rw [lookup_of_mem hnodup h, Option.getD_some]

theorem eq_of_encodes {op op' : Operation} (hop : op ∈ all) (hop' : op' ∈ all) {byte : Nat}
    (h : op.Encodes byte) (h' : op'.Encodes byte) : op = op' := by
  have hnamed : ∀ o ∈ all, ∀ e ∈ o.encodings, (o.mnemonic, e) ∈ InstructionSet.named := by
    intro o ho e he
    obtain ⟨entry, hentry, rfl⟩ := List.mem_map.mp ho
    rw [encodings_ofEncodings hentry] at he
    exact InstructionSet.mem_named.mpr ⟨entry, hentry, rfl, he⟩
  obtain ⟨e, he, hbyte⟩ := h
  obtain ⟨e', he', hbyte'⟩ := h'
  have hsame := InstructionSet.eq_of_byte_eq (hnamed op hop e he) (hnamed op' hop' e' he')
    (UInt8.toNat_inj.mp (hbyte.trans hbyte'.symm))
  exact List.inj_on_of_nodup_map nodup_mnemonics hop hop' (Prod.mk.inj hsame).1

/-- The templates of an operation: those of the steps of its encodings. -/
structure Emits (op : Operation) (ts : List Template) : Prop where
  templates_eq : op.templates = .ok ts
  realizes : Encoding.Realizes op.encodings ts
  nonempty : ts ≠ []

theorem exists_emits (op : Operation) (h : op ∈ all) : ∃ ts, op.Emits ts := by
  obtain ⟨t₀, t₁, T, hT, -⟩ := Rom.templates_all
  obtain ⟨first, rest, -, hrest, -⟩ := Rom.templates_eq_ok.mp hT
  obtain ⟨ts, -, hts⟩ := exists_of_mem_left hrest h
  obtain ⟨entry, hentry, rfl⟩ := List.mem_map.mp h
  have hrealizes := InstructionSet.realizes_entry hentry (mapError_eq_ok.mp hts)
  refine ⟨ts, hts, by rwa [encodings_ofEncodings hentry], ?_⟩
  rintro rfl
  -- every operation has a step
  have hsteps : ∀ entry ∈ InstructionSet.table, ∃ e ∈ entry.2, ∃ p ∈ e.code,
      ∃ step ∈ Microprogram.numberedSteps 2 p.steps, True := by decide +kernel
  obtain ⟨e, he, p, hp, step, hstep, -⟩ := hsteps entry hentry
  obtain ⟨t, ht, -⟩ := hrealizes.complete e he p hp step hstep
  cases ht

theorem Emits.wellFormed {op : Operation} {ts : List Template} (h : op.Emits ts) :
    ∀ t ∈ ts, t.WellFormed := by
  intro t ht
  obtain ⟨e, -, p, -, step, -, hstep⟩ := h.realizes.sound t ht
  exact hstep.wellFormed

theorem Emits.encodes {op : Operation} {ts : List Template} (h : op.Emits ts) {t : Template}
    (ht : t ∈ ts) {n : Nat} (hn : t.covers n = true) : op.Encodes (n / 128) := by
  obtain ⟨e, he, p, -, step, -, hstep⟩ := h.realizes.sound t ht
  exact ⟨e, he, ((hstep.covers_iff n).mp hn).2.1.symm⟩

end Operation

namespace Rom

theorem exists_covers {t : Template} (ht : t.WellFormed) : ∃ n, t.covers n = true := by
  have hw : t.address.width < 64 := by rw [ht.address_width]; decide
  have hpos : 0 < t.address.variants := by
    rw [BitField.variants_eq hw]
    exact Nat.two_pow_pos _
  exact ⟨_, (covers_iff ht _).mpr ⟨0, hpos, rfl⟩⟩

/-! ## Operations that differ -/

section

variable {ts : Operation → List Template} (hts : ∀ op ∈ Operation.all, op.Emits (ts op))
  {ops : List Operation} (hops : ∀ op ∈ ops, op ∈ Operation.all)

include hts hops

theorem realizes_of_nodup (hnodup : ops.Nodup) :
    Encoding.Realizes (ops.flatMap Operation.encodings) (ops.flatMap ts) := by
  rw [List.flatMap_def, List.flatMap_def]
  refine Encoding.Realizes.flatten ?_ ?_
  · rw [List.forall₂_map_left_iff, List.forall₂_map_right_iff, List.forall₂_same]
    exact fun op hop => (hts op (hops op hop)).realizes
  · rw [← List.flatMap_def, List.map_flatMap, List.nodup_flatMap]
    refine ⟨?_, ?_⟩
    · intro op hop
      obtain ⟨entry, hentry, rfl⟩ := List.mem_map.mp (hops op hop)
      rw [Operation.encodings_ofEncodings hentry]
      exact InstructionSet.nodup_entry_bytes hentry
    · refine hnodup.imp_of_mem fun {op op'} hop hop' hne byte hbyte hbyte' => hne ?_
      obtain ⟨e, he, rfl⟩ := List.mem_map.mp hbyte
      obtain ⟨e', he', hsame⟩ := List.mem_map.mp hbyte'
      exact Operation.eq_of_encodes (hops op hop) (hops op' hop') ⟨e, he, rfl⟩ ⟨e', he', by rw [hsame]⟩

/-- An operation that is listed twice overlaps with itself. -/
theorem nodup_of_disjoint (h : (ops.flatMap ts).Pairwise Template.Disjoint) : ops.Nodup := by
  rw [List.flatMap_def, List.pairwise_flatten, List.pairwise_map] at h
  refine h.2.imp_of_mem fun {op op'} hop _ hdisjoint heq => ?_
  subst heq
  have hemits := hts op (hops op hop)
  obtain ⟨t, ht⟩ := List.exists_mem_of_ne_nil _ hemits.nonempty
  obtain ⟨n, hn⟩ := exists_covers (hemits.wellFormed t ht)
  exact hdisjoint t ht t ht n ⟨hn, hn⟩

end

/-- Two lists of templates make the same of an address if the same templates cover it. -/
theorem entryAt_congr {T T' : List Template} (hdisjoint : T'.Pairwise Template.Disjoint) {n : Nat}
    (h : ∀ t : Template, t.covers n = true → (t ∈ T ↔ t ∈ T')) : entryAt T n = entryAt T' n := by
  have hfind : T.find? (·.covers n) = T'.find? (·.covers n) := by
    cases hfound : T.find? (·.covers n) with
    | some t =>
      have hcovers : t.covers n = true := by simpa using List.find?_some hfound
      have hmem := (h t hcovers).mp (List.mem_of_find?_eq_some hfound)
      rw [Microcode.find?_of_disjoint hdisjoint hmem hcovers]
    | none =>
      refine (List.find?_eq_none.mpr fun t ht hcovers => ?_).symm
      exact List.find?_eq_none.mp hfound t ((h t hcovers).mpr ht) hcovers
  rw [entryAt, entryAt, hfind]

theorem entryAt_eq (T : List Template) (n : Nat) :
    ∃ word, entryAt T n = ⟨.ofWord (BitVec.ofNat 64 n) 15, word⟩ := by
  unfold entryAt
  split
  · exact ⟨_, rfl⟩
  · exact ⟨_, rfl⟩

/-! ## The ROM -/

/-- Whether an address is one of the fetch or of the instruction bytes of operations. -/
def Serves (ops : List Operation) (n : Nat) : Prop := n % 8 < 2 ∨ ∃ op ∈ ops, op.Encodes (n / 128)

/-- A ROM that has the words of the full one at the addresses of the fetch and of its operations, and is
idle at all other addresses. -/
structure Restricts (ops : List Operation) (full rom : List Entry) : Prop where
  length_eq : rom.length = 2 ^ 15
  kept : ∀ n < 2 ^ 15, Serves ops n → ∃ word,
    rom[n]? = some ⟨.ofWord (BitVec.ofNat 64 n) 15, word⟩ ∧
      full[n]? = some ⟨.ofWord (BitVec.ofNat 64 n) 15, word⟩
  idle : ∀ n < 2 ^ 15, ¬ Serves ops n →
    rom[n]? = some ⟨.ofWord (BitVec.ofNat 64 n) 15, .ofWord 0#64 26⟩

section

variable {t₀ t₁ : Template} {lines₀ lines₁ : List Control} {ts : Operation → List Template}
  {ops : List Operation} (h₀ : IsFetch 0 lines₀ t₀) (h₁ : IsFetch 1 lines₁ t₁)
  (hts : ∀ op ∈ Operation.all, op.Emits (ts op)) (hops : ∀ op ∈ ops, op ∈ Operation.all)

include hts hops in
theorem templates_of_emits (hfetch : fetch = .ok [t₀, t₁]) :
    templates ops = .ok ([t₀, t₁] ++ ops.flatMap ts) := by
  refine templates_eq_ok.mpr ⟨_, ops.map ts, hfetch, ?_, by rw [List.flatMap_def]⟩
  rw [List.forall₂_map_right_iff, List.forall₂_same]
  exact fun op hop => (hts op (hops op hop)).templates_eq

include h₀ h₁ hts hops

theorem wellFormed_of_emits : ∀ t ∈ [t₀, t₁] ++ ops.flatMap ts, t.WellFormed := by
  intro t ht
  rcases List.mem_append.mp ht with ht | ht
  · exact wellFormed_templates h₀ h₁ .nil t ht
  · obtain ⟨op, hop, ht⟩ := List.mem_flatMap.mp ht
    exact (hts op (hops op hop)).wellFormed t ht

theorem build_of_nodup (hfetch : fetch = .ok [t₀, t₁]) (hnodup : ops.Nodup) :
    build ops = .ok ((List.range microcodeSize).map (entryAt ([t₀, t₁] ++ ops.flatMap ts))) :=
  build_ok (templates_of_emits hts hops hfetch) (wellFormed_of_emits h₀ h₁ hts hops)
    (disjoint_templates h₀ h₁ (realizes_of_nodup hts hops hnodup))

theorem build_of_not_nodup (hfetch : fetch = .ok [t₀, t₁]) (hrepeated : ¬ ops.Nodup) :
    ∃ address, build ops = .error (.error (.collision address)) := by
  have hoverlap : Overlapping ([t₀, t₁] ++ ops.flatMap ts) := by
    by_contra hno
    have hdisjoint := (List.pairwise_append.mp (disjoint_iff.mpr hno)).2.1
    exact hrepeated (nodup_of_disjoint hts hops hdisjoint)
  obtain ⟨j, n, hj, hn⟩ := exists_first_reclaims hoverlap
  have hclaim := claimAll_error (wellFormed_of_emits h₀ h₁ hts hops) hj hn
  exact ⟨_, build_error (templates_of_emits hts hops hfetch) hclaim⟩

/-- Which templates cover an address of the fetch or of an operation does not depend on the other
operations. -/
theorem restricts_of_nodup (hnodup : ops.Nodup) :
    Restricts ops
      ((List.range microcodeSize).map (entryAt ([t₀, t₁] ++ Operation.all.flatMap ts)))
      ((List.range microcodeSize).map (entryAt ([t₀, t₁] ++ ops.flatMap ts))) := by
  have hrealizes := realizes_of_nodup hts hops hnodup
  have hall := realizes_of_nodup hts (fun _ => id) Operation.nodup_all
  refine ⟨by rw [List.length_map, List.length_range]; rfl, ?_, ?_⟩
  · intro n hn hserves
    obtain ⟨word, hword⟩ := entryAt_eq ([t₀, t₁] ++ Operation.all.flatMap ts) n
    refine ⟨word, ?_, by rw [getElem?_entries _ hn, hword]⟩
    rw [getElem?_entries _ hn, ← hword, Option.some.injEq]
    refine entryAt_congr (disjoint_templates h₀ h₁ hall) ?_
    intro t hcovers
    rw [List.mem_append, List.mem_append, List.mem_flatMap, List.mem_flatMap]
    refine or_congr_right ⟨fun ⟨op, hop, ht⟩ => ⟨op, hops op hop, ht⟩, ?_⟩
    rintro ⟨op, hop, ht⟩
    rcases hserves with hstep | ⟨op', hop', hencodes⟩
    · have := covers_step hall (List.mem_flatMap.mpr ⟨op, hop, ht⟩) hcovers
      omega
    · have heq := Operation.eq_of_encodes hop (hops op' hop') ((hts op hop).encodes ht hcovers) hencodes
      exact ⟨op', hop', heq ▸ ht⟩
  · intro n hn hserves
    unfold Serves at hserves
    push Not at hserves
    have hidle : ([t₀, t₁] ++ ops.flatMap ts).find? (·.covers n) = none := by
      refine find?_idle h₀ h₁ hrealizes hserves.1 fun e he hbyte => ?_
      obtain ⟨op, hop, he⟩ := List.mem_flatMap.mp he
      exact hserves.2 op hop ⟨e, he, hbyte⟩
    rw [getElem?_entries _ hn, entryAt, hidle]
    rfl

end

/-- The ROM of operations of the instruction set, in any order, can be built exactly if none is repeated.
It is then the full ROM at the addresses of the fetch and of the operations, and idle elsewhere. -/
theorem build_of_subset {ops : List Operation} (hops : ∀ op ∈ ops, op ∈ Operation.all) :
    ((∃ rom, build ops = .ok rom) ↔ ops.Nodup) ∧
    (¬ ops.Nodup → ∃ address, build ops = .error (.error (.collision address))) ∧
    ∃ full, build Operation.all = .ok full ∧ ∀ rom, build ops = .ok rom → Restricts ops full rom := by
  choose! ts hts using Operation.exists_emits
  obtain ⟨t₀, t₁, hfetch, h₀, h₁⟩ := exists_fetch
  have hrepeated := build_of_not_nodup h₀ h₁ hts hops hfetch
  have hnodup : ∀ rom, build ops = .ok rom → ops.Nodup := by
    intro rom hrom
    by_contra hcon
    obtain ⟨address, herror⟩ := hrepeated hcon
    rw [hrom] at herror
    cases herror
  refine ⟨⟨fun ⟨rom, hrom⟩ => hnodup rom hrom, fun h => ⟨_, build_of_nodup h₀ h₁ hts hops hfetch h⟩⟩,
    hrepeated, _, build_of_nodup h₀ h₁ hts (fun _ => id) hfetch Operation.nodup_all, ?_⟩
  intro rom hrom
  have hbuild := build_of_nodup h₀ h₁ hts hops hfetch (hnodup rom hrom)
  rw [hrom, Except.ok.injEq] at hbuild
  rw [hbuild]
  exact restricts_of_nodup h₀ h₁ hts hops (hnodup rom hrom)

/-- Two operations out of order, and one that is repeated behind another. -/
theorem build_of_halt_noop : ∃ halt ∈ Operation.all, ∃ noop ∈ Operation.all,
    halt.mnemonic = "HALT" ∧ noop.mnemonic = "NOOP" ∧
      (∃ rom full, build [halt, noop] = .ok rom ∧ build Operation.all = .ok full ∧
        Restricts [halt, noop] full rom) ∧
      ∃ address, build [noop, halt, noop] = .error (.error (.collision address)) := by
  have hhalt : Operation.ofEncodings "HALT" InstructionSet.halt ∈ Operation.all :=
    List.mem_map.mpr ⟨("HALT", InstructionSet.halt), by simp [InstructionSet.table], rfl⟩
  have hnoop : Operation.ofEncodings "NOOP" InstructionSet.noop ∈ Operation.all :=
    List.mem_map.mpr ⟨("NOOP", InstructionSet.noop), by simp [InstructionSet.table], rfl⟩
  refine ⟨_, hhalt, _, hnoop, rfl, rfl, ?_, ?_⟩
  · obtain ⟨hiff, -, full, hfull, hrestricts⟩ :=
      build_of_subset (List.forall_mem_cons.mpr ⟨hhalt, List.forall_mem_singleton.mpr hnoop⟩)
    obtain ⟨rom, hrom⟩ := hiff.mpr (List.Nodup.of_map Operation.mnemonic (by decide))
    exact ⟨rom, full, hrom, hfull, hrestricts rom hrom⟩
  · refine (build_of_subset ?_).2.1 (by simp)
    simp only [List.forall_mem_cons]
    exact ⟨hnoop, hhalt, hnoop, by simp⟩

end Rom

end Microcomputer
