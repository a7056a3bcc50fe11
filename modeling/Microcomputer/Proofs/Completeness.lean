import Mathlib
import Microcomputer.Proofs.Microcode

/-!
# Which ROMs are accepted as microcode

A ROM is accepted by its length and by the shape of each entry, and is then written into a table entry
by entry. An address that is given twice is not noticed, and neither is the address that is missing in
its place: of the accepted ROMs the complete ones are those whose addresses differ.

* `Entry.place`, `Entry.Usable` : the number of an entry's address, and the shape of an entry;
* `Rom.Complete` : a ROM that gives each of the 15-bit addresses exactly once,
  `Rom.complete_iff_perm` : its addresses are all numbers below `2 ^ 15`, in some order;
* `Microcode.word?_of_ofRom` : the last entry with an address gives its control word;
* `Microcode.ofRom_iff` : what is accepted, what of that is complete, and the control words;
* `Microcode.accepts_incomplete` : a ROM that misses an address and is accepted.
-/

namespace Microcomputer

/-! ## Entries -/

namespace Entry

def place (entry : Entry) : Nat := entry.address.word.toNat

/-- An entry whose address has 15 bits and whose control word has 26, none of them X. -/
structure Usable (entry : Entry) : Prop where
  address_width : entry.address.width = 15
  address_concrete : entry.address.isConcrete = true
  data_width : entry.data.width = 26
  data_concrete : entry.data.isConcrete = true

theorem isUsable_iff {entry : Entry} : Microcode.isUsable entry = true ↔ entry.Usable := by
  unfold Microcode.isUsable
  simp only [Bool.and_eq_true, beq_iff_eq]
  exact ⟨fun ⟨⟨⟨haddress, hconcrete⟩, hdata⟩, hconcrete'⟩ => ⟨haddress, hconcrete, hdata, hconcrete'⟩,
    fun h => ⟨⟨⟨h.1, h.2⟩, h.3⟩, h.4⟩⟩

theorem Usable.place_lt {entry : Entry} (h : entry.Usable) : entry.place < 2 ^ 15 := by
  have hcare : entry.address.care = BitField.mask 15 := by
    have hconcrete := h.address_concrete
    rw [BitField.isConcrete, beq_iff_eq, h.address_width] at hconcrete
    exact hconcrete
  have hmask : (BitField.mask 15).toNat = 2 ^ 15 - 1 := by decide
  rw [place, BitField.word, hcare, BitVec.toNat_and, hmask, Nat.and_two_pow_sub_one_eq_mod]
  exact Nat.mod_lt _ (by decide)

end Entry

/-! ## Complete ROMs -/

namespace Rom

/-- A ROM of usable entries in which each 15-bit address is that of exactly one entry. -/
structure Complete (rom : List Entry) : Prop where
  usable : ∀ entry ∈ rom, entry.Usable
  once : ∀ n < 2 ^ 15, (rom.map Entry.place).count n = 1

variable {rom rom' : List Entry}

theorem place_mem_range (h : ∀ entry ∈ rom, entry.Usable) :
    rom.map Entry.place ⊆ List.range (2 ^ 15) := by
  intro n hn
  obtain ⟨entry, hentry, rfl⟩ := List.mem_map.mp hn
  exact List.mem_range.mpr (h entry hentry).place_lt

theorem complete_iff_perm : Complete rom ↔
    (∀ entry ∈ rom, entry.Usable) ∧ (rom.map Entry.place).Perm (List.range (2 ^ 15)) := by
  constructor
  · rintro ⟨husable, honce⟩
    have hrange := place_mem_range husable
    have hnodup : (rom.map Entry.place).Nodup := by
      rw [List.nodup_iff_count_le_one]
      intro n
      by_cases hn : n ∈ rom.map Entry.place
      · exact (honce n (List.mem_range.mp (hrange hn))).le
      · rw [List.count_eq_zero.mpr hn]
        exact Nat.zero_le 1
    refine ⟨husable, (List.perm_ext_iff_of_nodup hnodup List.nodup_range).mpr fun n => ?_⟩
    refine ⟨fun hn => hrange hn, fun hn => ?_⟩
    rw [← List.count_pos_iff, honce n (List.mem_range.mp hn)]
    exact Nat.one_pos
  · rintro ⟨husable, hperm⟩
    refine ⟨husable, fun n hn => ?_⟩
    rw [hperm.count_eq]
    exact List.count_eq_one_of_mem List.nodup_range (List.mem_range.mpr hn)

theorem Complete.length_eq (h : Complete rom) : rom.length = 2 ^ 15 := by
  have hlength := (complete_iff_perm.mp h).2.length_eq
  rwa [List.length_map, List.length_range] at hlength

theorem Complete.nodup (h : Complete rom) : (rom.map Entry.place).Nodup :=
  (complete_iff_perm.mp h).2.nodup_iff.mpr List.nodup_range

theorem Complete.perm (h : Complete rom) (hperm : rom'.Perm rom) : Complete rom' := by
  obtain ⟨husable, hplaces⟩ := complete_iff_perm.mp h
  exact complete_iff_perm.mpr
    ⟨fun entry hentry => husable entry (hperm.mem_iff.mp hentry), (hperm.map _).trans hplaces⟩

theorem not_complete_of_missing {n : Nat} (hn : n < 2 ^ 15) (h : ∀ entry ∈ rom, entry.place ≠ n) :
    ¬ Complete rom := by
  intro hcomplete
  have hmem : n ∈ rom.map Entry.place :=
    List.count_pos_iff.mp (hcomplete.once n hn ▸ Nat.one_pos)
  obtain ⟨entry, hentry, hplace⟩ := List.mem_map.mp hmem
  exact h entry hentry hplace

/-- As many usable entries as there are addresses give all of them if no two give the same. -/
theorem complete_of_nodup (hlength : rom.length = 2 ^ 15) (husable : ∀ entry ∈ rom, entry.Usable)
    (hnodup : (rom.map Entry.place).Nodup) : Complete rom := by
  have hsub := hnodup.subperm (place_mem_range husable)
  refine complete_iff_perm.mpr ⟨husable, hsub.perm_of_length_le ?_⟩
  rw [List.length_map, List.length_range, hlength]

end Rom

/-! ## Filling the table -/

namespace Microcode

open Rom

variable {rom rom' : List Entry} {microcode : Microcode}

theorem getElem_foldl_place (rom : List Entry) (start : Microcode) {n : Nat} (hn : n < microcodeSize) :
    (rom.foldl (fun words entry => words.setIfInBounds entry.place entry.data.word) start)[n] =
      (rom.reverse.find? (·.place == n)).elim start[n] (·.data.word) := by
  induction rom generalizing start with
  | nil => rfl
  | cons entry rest ih =>
    rw [List.foldl_cons, ih, List.reverse_cons, List.find?_append]
    cases rest.reverse.find? (·.place == n) with
    | some later => rfl
    | none =>
      rw [Option.elim_none, Vector.getElem_setIfInBounds, Option.none_or, List.find?_cons]
      by_cases hplace : entry.place = n
      · rw [if_pos hplace, beq_iff_eq.mpr hplace]
        rfl
      · rw [if_neg hplace, beq_eq_false_iff_ne.mpr hplace]
        rfl

theorem ofRom_isOk_iff : (∃ microcode, ofRom rom = .ok microcode) ↔
    rom.length = 2 ^ 15 ∧ ∀ entry ∈ rom, entry.Usable := by
  have hcond : (rom.length == microcodeSize && rom.all isUsable) = true ↔
      rom.length = 2 ^ 15 ∧ ∀ entry ∈ rom, entry.Usable := by
    rw [Bool.and_eq_true, beq_iff_eq, List.all_eq_true]
    simp only [Entry.isUsable_iff]
    rfl
  unfold ofRom
  rw [← hcond]
  constructor
  · rintro ⟨microcode, h⟩
    by_contra hcon
    rw [if_neg hcon] at h
    cases h
  · intro h
    exact ⟨_, if_pos h⟩

theorem ofRom_eq_error (h : ∀ microcode, ofRom rom ≠ .ok microcode) : ofRom rom = .error .microcode := by
  unfold ofRom at h ⊢
  split
  · rename_i hcond
    rw [if_pos hcond] at h
    exact absurd rfl (h _)
  · rfl

/-- The last entry with an address gives its control word; an address without an entry is idle. -/
theorem word?_of_ofRom (h : ofRom rom = .ok microcode) {n : Nat} (hn : n < 2 ^ 15) :
    microcode.word? n = some ((rom.reverse.find? (·.place == n)).elim 0#64 (·.data.word)) := by
  have hsize : n < microcodeSize := hn
  unfold ofRom at h
  split at h
  · cases h
    have hfold := getElem_foldl_place rom (Vector.replicate microcodeSize 0#64) hsize
    rw [Vector.getElem_replicate] at hfold
    rw [word?, if_pos (Int.natCast_nonneg n), Int.toNat_natCast, Vector.getElem?_eq_getElem hsize]
    exact congrArg some hfold
  · cases h

theorem word?_of_missing (h : ofRom rom = .ok microcode) {n : Nat} (hn : n < 2 ^ 15)
    (hmissing : ∀ entry ∈ rom, entry.place ≠ n) : microcode.word? n = some 0#64 := by
  have hfind : rom.reverse.find? (·.place == n) = none := by
    rw [List.find?_eq_none]
    intro entry hentry
    simpa using hmissing entry (List.mem_reverse.mp hentry)
  rw [word?_of_ofRom h hn, hfind, Option.elim_none]

theorem word?_of_complete (hcomplete : Complete rom) (h : ofRom rom = .ok microcode) {entry : Entry}
    (hentry : entry ∈ rom) : microcode.word? entry.place = some entry.data.word := by
  have hfind : rom.reverse.find? (·.place == entry.place) = some entry := by
    cases hfound : rom.reverse.find? (·.place == entry.place) with
    | none =>
      have hnone := List.find?_eq_none.mp hfound entry (List.mem_reverse.mpr hentry)
      exact absurd (beq_self_eq_true _) hnone
    | some other =>
      have hplace : other.place = entry.place := by simpa using List.find?_some hfound
      have hother := List.mem_reverse.mp (List.mem_of_find?_eq_some hfound)
      rw [List.inj_on_of_nodup_map hcomplete.nodup hother hentry hplace]
  rw [word?_of_ofRom h (hcomplete.usable entry hentry).place_lt, hfind]
  rfl

theorem ofRom_perm (hcomplete : Complete rom) (hperm : rom'.Perm rom) (h : ofRom rom = .ok microcode) :
    ofRom rom' = .ok microcode := by
  have hcomplete' := hcomplete.perm hperm
  obtain ⟨microcode', h'⟩ := ofRom_isOk_iff.mpr ⟨hcomplete'.length_eq, hcomplete'.usable⟩
  have hwords : ∀ n : Nat, n < 2 ^ 15 → microcode'.word? n = microcode.word? n := by
    intro n hn
    have hmem := (complete_iff_perm.mp hcomplete).2.mem_iff.mpr (List.mem_range.mpr hn)
    obtain ⟨entry, hentry, rfl⟩ := List.mem_map.mp hmem
    rw [word?_of_complete hcomplete h hentry,
      word?_of_complete hcomplete' h' (hperm.mem_iff.mpr hentry)]
  rw [h']
  congr 1
  refine Vector.ext fun n hn => ?_
  have hword := hwords n hn
  simp only [word?, Int.natCast_nonneg, if_true, Int.toNat_natCast, Vector.getElem?_eq_getElem hn,
    Option.some.injEq] at hword
  exact hword

/-- What is accepted as microcode: as many usable entries as there are addresses; anything else is
reported as incomplete. Of these ROMs the complete ones are those in which no two entries have the same
address. The control word at an address is that of the last entry with it, and idle if there is none; in
a complete ROM it is that of the entry with the address, whatever the order. -/
theorem ofRom_iff (rom : List Entry) :
    ((∃ microcode, ofRom rom = .ok microcode) ↔
      rom.length = 2 ^ 15 ∧ ∀ entry ∈ rom, entry.Usable) ∧
    ((∀ microcode, ofRom rom ≠ .ok microcode) → ofRom rom = .error .microcode) ∧
    (Complete rom ↔ (∃ microcode, ofRom rom = .ok microcode) ∧ (rom.map Entry.place).Nodup) ∧
    (∀ microcode, ofRom rom = .ok microcode → ∀ n : Nat, n < 2 ^ 15 →
      microcode.word? n = some ((rom.reverse.find? (·.place == n)).elim 0#64 (·.data.word))) ∧
    (Complete rom → ∃ microcode, (∀ rom', rom'.Perm rom → ofRom rom' = .ok microcode) ∧
      ∀ entry ∈ rom, microcode.word? entry.place = some entry.data.word) := by
  refine ⟨ofRom_isOk_iff, ofRom_eq_error, ⟨fun h => ?_, ?_⟩, fun microcode h n hn => word?_of_ofRom h hn,
    fun h => ?_⟩
  · exact ⟨ofRom_isOk_iff.mpr ⟨h.length_eq, h.usable⟩, h.nodup⟩
  · rintro ⟨hok, hnodup⟩
    obtain ⟨hlength, husable⟩ := ofRom_isOk_iff.mp hok
    exact complete_of_nodup hlength husable hnodup
  · obtain ⟨microcode, hmicrocode⟩ := ofRom_isOk_iff.mpr ⟨h.length_eq, h.usable⟩
    exact ⟨microcode, fun rom' hperm => ofRom_perm h hperm hmicrocode,
      fun entry hentry => word?_of_complete h hmicrocode hentry⟩

/-! ## The ROM of the instruction set -/

theorem complete_entries (templates : List Template) :
    Complete ((List.range microcodeSize).map (entryAt templates)) := by
  refine complete_iff_perm.mpr ⟨?_, ?_⟩
  · rw [List.forall_mem_map]
    exact fun n _ => Entry.isUsable_iff.mp (isUsable_entryAt templates n)
  · have hplaces : ((List.range microcodeSize).map (entryAt templates)).map Entry.place =
        List.range microcodeSize := by
      rw [List.map_map]
      calc (List.range microcodeSize).map (Entry.place ∘ entryAt templates)
          = (List.range microcodeSize).map id := List.map_congr_left fun n hn =>
            address_entryAt templates (List.mem_range.mp hn)
        _ = List.range microcodeSize := List.map_id _
    rw [hplaces]
    exact List.Perm.refl _

theorem exists_build_all : ∃ templates,
    build Operation.all = .ok ((List.range microcodeSize).map (entryAt templates)) := by
  obtain ⟨t₀, t₁, ts, hT, h₀, h₁, hts⟩ := templates_all
  exact ⟨_, build_ok hT (wellFormed_templates h₀ h₁ hts) (disjoint_templates h₀ h₁ hts)⟩

/-- The ROM of the instruction set is complete, and from its last entry to the first it is the same
microcode. -/
theorem ofRom_reversed : ∃ rom microcode, build Operation.all = .ok rom ∧ Complete rom ∧
    ofRom rom = .ok microcode ∧ ofRom rom.reverse = .ok microcode ∧
    ∀ entry ∈ rom, microcode.word? entry.place = some entry.data.word := by
  obtain ⟨templates, hbuild⟩ := exists_build_all
  have hcomplete := complete_entries templates
  obtain ⟨-, -, -, -, horder⟩ := ofRom_iff ((List.range microcodeSize).map (entryAt templates))
  obtain ⟨microcode, hmicrocode, hwords⟩ := horder hcomplete
  exact ⟨_, microcode, hbuild, hcomplete, hmicrocode _ (List.Perm.refl _),
    hmicrocode _ (List.reverse_perm _), hwords⟩

/-- If the first entry of this ROM is given the address of the second, the ROM is still accepted. No
entry has address 0 then, and the machine is idle where it should fetch. -/
theorem accepts_incomplete : ∃ first rest microcode, build Operation.all = .ok (first :: rest) ∧
    ofRom (⟨.ofWord 1#64 15, first.data⟩ :: rest) = .ok microcode ∧
    ¬ Complete (⟨.ofWord 1#64 15, first.data⟩ :: rest) ∧ microcode.word? 0 = some 0#64 := by
  obtain ⟨templates, hbuild⟩ := exists_build_all
  have hlength := (complete_entries templates).length_eq
  have husable := (complete_entries templates).usable
  have hsize : microcodeSize = 32767 + 1 := rfl
  have hplace : ∀ n < microcodeSize, (entryAt templates n).place = n := fun n hn =>
    address_entryAt templates hn
  rw [hsize] at hbuild hlength husable hplace
  rw [List.range_succ_eq_map, List.map_cons, List.map_map] at hbuild hlength husable
  rw [List.forall_mem_cons] at husable
  obtain ⟨hconcrete, hone⟩ : (BitField.ofWord 1#64 15).isConcrete = true ∧
      (BitField.ofWord 1#64 15).word.toNat = 1 := by decide
  have hfirst : (⟨.ofWord 1#64 15, (entryAt templates 0).data⟩ : Entry).Usable :=
    ⟨rfl, hconcrete, husable.1.data_width, husable.1.data_concrete⟩
  obtain ⟨microcode, hmicrocode⟩ := ofRom_isOk_iff.mpr
    ⟨(List.length_cons ..).trans ((List.length_cons ..).symm.trans hlength),
      List.forall_mem_cons.mpr ⟨hfirst, husable.2⟩⟩
  have hmissing : ∀ entry ∈ (⟨.ofWord 1#64 15, (entryAt templates 0).data⟩ : Entry) ::
      (List.range 32767).map (entryAt templates ∘ Nat.succ), entry.place ≠ 0 := by
    rw [List.forall_mem_cons, List.forall_mem_map]
    refine ⟨ne_of_eq_of_ne hone Nat.one_ne_zero, fun n hn => ?_⟩
    rw [Function.comp_apply, hplace _ (Nat.succ_lt_succ (List.mem_range.mp hn))]
    exact Nat.succ_ne_zero n
  exact ⟨_, _, microcode, hbuild, hmicrocode, not_complete_of_missing (by decide) hmissing,
    word?_of_missing hmicrocode (by decide) hmissing⟩

end Microcode

end Microcomputer
