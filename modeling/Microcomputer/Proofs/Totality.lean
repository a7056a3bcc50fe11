import Mathlib
import Microcomputer.Proofs.Collision

/-!
# ROMs that are no microcode

The width of a control word is checked when a template is claimed, the width of an address is not:
an address is kept under its number, whatever its width. A ROM that could be built is microcode
exactly if all addresses that were claimed have 15 bits.

* `Rom.Total` : a ROM with one entry for each 15-bit address;
* `Rom.claimFrom_eq_ok`, `Rom.claim_eq_ok`, `Rom.foldlM_claim_eq_ok` : what was claimed stays in the
  table with its own width, and a template without addresses leaves no trace;
* `Rom.build_wideAddress` : a ROM with an entry too many;
* `Rom.total_iff_address_width` : when a ROM that could be built is total and microcode.
-/

namespace Microcomputer

open Traversal

namespace Rom

/-- A ROM with one entry for each 15-bit address, in order. -/
structure Total (rom : List Entry) : Prop where
  length_eq : rom.length = 2 ^ 15
  address_eq : ∀ n < 2 ^ 15, ∃ data, rom[n]? = some ⟨.ofWord (BitVec.ofNat 64 n) 15, data⟩

/-! ## What a table keeps -/

theorem claimFrom_eq_ok {pattern data : BitField} {positions : List Nat} {remaining count : Nat}
    {table after : Table} (h : claimFrom pattern data positions remaining count table = .ok after) :
    (∀ (n : Nat) (entry : Entry), table[n]? = some entry → after[n]? = some entry) ∧
      ∀ c, count ≤ c → c < count + remaining →
        ∃ n : Nat, after[n]? = some ⟨pattern.variantAt positions c, data⟩ := by
  induction remaining generalizing count table with
  | zero =>
    unfold claimFrom at h
    cases h
    exact ⟨fun n entry hn => hn, fun c h₁ h₂ => by omega⟩
  | succ remaining ih =>
    unfold claimFrom at h
    dsimp only at h
    split at h
    · cases h
    · rename_i hfree
      obtain ⟨hkept, hnew⟩ := ih h
      rw [Std.TreeMap.contains_iff_mem] at hfree
      constructor
      · intro n entry hn
        apply hkept
        rw [Std.TreeMap.getElem?_insert, if_neg]
        · exact hn
        · intro heq
          rw [Nat.compare_eq_eq.mp heq, Std.TreeMap.mem_iff_isSome_getElem?, hn] at hfree
          exact hfree rfl
      · intro c h₁ h₂
        rcases Nat.eq_or_lt_of_le h₁ with rfl | hlt
        · refine ⟨(pattern.variantAt positions count).word.toNat, hkept _ _ ?_⟩
          rw [Std.TreeMap.getElem?_insert_self]
        · exact hnew c hlt (by omega)

theorem fillFrom_width {f default filled : BitField} (h : f.fillFrom default = .ok filled) :
    f.width = default.width := by
  unfold BitField.fillFrom at h
  split at h
  · cases h
  · rename_i hw
    exact not_not.mp hw

theorem claim_eq_ok {table after : Table} {t : Template} (h : claim table t = .ok after) :
    t.data.width = Layout.dataWidth ∧
      (∀ (n : Nat) (entry : Entry), table[n]? = some entry → after[n]? = some entry) ∧
      (t.address.variants ≠ 0 → ∃ (n : Nat) (entry : Entry), after[n]? = some entry ∧
        entry.address.width = t.address.width) ∧
      (t.address.variants = 0 → after = table) := by
  unfold claim at h
  split at h
  · cases h
  · rename_i data hdata
    dsimp only at h
    obtain ⟨hkept, hnew⟩ := claimFrom_eq_ok h
    refine ⟨fillFrom_width hdata, hkept, fun hv => ?_, fun hv => ?_⟩
    · obtain ⟨n, hn⟩ := hnew 0 le_rfl (by omega)
      exact ⟨n, _, hn, rfl⟩
    · rw [hv] at h
      unfold claimFrom at h
      cases h
      rfl

/-- The addresses of templates that could be claimed are in the table with their widths, and the
table is that of the templates with addresses. -/
theorem foldlM_claim_eq_ok (templates : List Template) {table after : Table}
    (h : templates.foldlM claim table = .ok after) :
    (∀ t ∈ templates, t.data.width = Layout.dataWidth) ∧
      (∀ (n : Nat) (entry : Entry), table[n]? = some entry → after[n]? = some entry) ∧
      (∀ t ∈ templates, t.address.variants ≠ 0 → ∃ (n : Nat) (entry : Entry),
        after[n]? = some entry ∧ entry.address.width = t.address.width) ∧
      (templates.filter (·.address.variants ≠ 0)).foldlM claim table = .ok after := by
  induction templates generalizing table with
  | nil =>
    cases h
    exact ⟨by simp, fun n entry hn => hn, by simp, rfl⟩
  | cons t templates ih =>
    rw [List.foldlM_cons] at h
    obtain ⟨middle, hmiddle, h⟩ := bind_eq_ok.mp h
    obtain ⟨hwidth, hkept, hnew, hnone⟩ := claim_eq_ok hmiddle
    obtain ⟨hwidths, hkept', hnew', hrest⟩ := ih h
    refine ⟨?_, fun n entry hn => hkept' n entry (hkept n entry hn), ?_, ?_⟩
    · intro u hu
      rcases List.mem_cons.mp hu with rfl | hu
      · exact hwidth
      · exact hwidths u hu
    · intro u hu hv
      rcases List.mem_cons.mp hu with rfl | hu
      · obtain ⟨n, entry, hn, hw⟩ := hnew hv
        exact ⟨n, entry, hkept' n entry hn, hw⟩
      · exact hnew' u hu hv
    · by_cases hv : t.address.variants = 0
      · rw [List.filter_cons_of_neg (by simp [hv]), ← hnone hv]
        exact hrest
      · rw [List.filter_cons_of_pos (by simp [hv]), List.foldlM_cons, hmiddle]
        exact hrest

theorem mem_values {table : Table} {n : Nat} {entry : Entry} (h : table[n]? = some entry) :
    entry ∈ table.values := by
  rw [values_eq_map]
  exact List.mem_map.mpr ⟨(n, entry), Std.TreeMap.mem_toList_iff_getElem?_eq_some.mpr h, rfl⟩

theorem mem_rom {table : Table} {n : Nat} {entry : Entry} (h : table[n]? = some entry) :
    entry ∈ (complete table).values := by
  apply mem_values
  rw [complete, getElem?_foldl_insertIfNew, h]
  rfl

theorem total_entries (templates : List Template) :
    Total ((List.range microcodeSize).map (entryAt templates)) := by
  refine ⟨by rw [List.length_map, List.length_range]; rfl, ?_⟩
  intro n hn
  have haddress : (entryAt templates n).address = .ofWord (BitVec.ofNat 64 n) 15 := by
    unfold entryAt
    split <;> rfl
  refine ⟨(entryAt templates n).data, ?_⟩
  rw [getElem?_entries templates hn, ← haddress]

theorem isUsable_of_ofRom {rom : List Entry} {microcode : Microcode}
    (h : Microcode.ofRom rom = .ok microcode) : ∀ entry ∈ rom, Microcode.isUsable entry = true := by
  unfold Microcode.ofRom at h
  split at h
  · rename_i hrom
    rw [Bool.and_eq_true, List.all_eq_true] at hrom
    exact hrom.2
  · cases h

/-! ## An address of 16 bits -/

/-- A template with one address, of 16 bits. -/
def wideTemplate : Template := ⟨.ofWord 0x8000#64 16, .ofWord 0#64 26⟩

def wideAddress : Operation := ⟨"WIDE", .ok [], fun _ => .ok none, .ok [wideTemplate]⟩

theorem claim_wideTemplate {table : Table} (hfree : (2 ^ 15 : Nat) ∉ table) :
    claim table wideTemplate =
      .ok (table.insert (2 ^ 15) ⟨wideTemplate.address, wideTemplate.data⟩) := by
  have hvariants : wideTemplate.address.variants = 1 := by decide
  have hdata : wideTemplate.data.fillFrom Control.idleWord = .ok wideTemplate.data := by rfl
  unfold claim
  rw [hdata]
  dsimp only
  rw [hvariants]
  unfold claimFrom
  exact if_neg fun h => hfree (Std.TreeMap.contains_iff_mem.mp h)

theorem build_wideAddress : ∃ rom, build [wideAddress] = .ok rom ∧ rom.length = 2 ^ 15 + 1 := by
  obtain ⟨t₀, t₁, hfetch, h₀, h₁⟩ := exists_fetch
  obtain ⟨table, htable, hget⟩ := claimAll_ok [t₀, t₁] (wellFormed_templates h₀ h₁ .nil)
    (disjoint_templates h₀ h₁ .nil)
  have hfree : (2 ^ 15 : Nat) ∉ table := by
    rw [Std.TreeMap.mem_iff_isSome_getElem?, hget, Option.isSome_map, List.find?_isSome]
    rintro ⟨t, -, ht⟩
    exact absurd (Template.lt_of_covers ht) (lt_irrefl _)
  have hall : claimAll ([t₀, t₁] ++ [wideTemplate]) =
      .ok (table.insert (2 ^ 15) ⟨wideTemplate.address, wideTemplate.data⟩) := by
    unfold claimAll at htable ⊢
    rw [List.foldlM_append, htable]
    show List.foldlM claim table [_] = _
    rw [List.foldlM_cons, claim_wideTemplate hfree]
    rfl
  -- completing the table fills the numbers below, and leaves the entry behind them
  have view : ∀ n,
      (complete (table.insert (2 ^ 15) ⟨wideTemplate.address, wideTemplate.data⟩))[n]? =
        if n < 2 ^ 15 + 1 then
          some (if n = 2 ^ 15 then ⟨wideTemplate.address, wideTemplate.data⟩
            else entryAt [t₀, t₁] n)
        else none := by
    intro n
    have hcomplete := getElem?_complete hget n
    rw [complete, getElem?_foldl_insertIfNew] at hcomplete ⊢
    rw [Std.TreeMap.getElem?_insert]
    by_cases hn : n = 2 ^ 15
    · subst hn
      simp
    · have hcompare : ¬ compare (2 ^ 15) n = .eq := by
        rw [Nat.compare_eq_eq]
        omega
      have hsize : n < microcodeSize ↔ n < 2 ^ 15 + 1 := by
        show n < 2 ^ 15 ↔ n < 2 ^ 15 + 1
        omega
      rw [if_neg hcompare, hcomplete]
      simp only [hsize, hn, if_false]
  refine ⟨_, build_eq_ok.mpr ⟨_, _, ?_, hall, rfl⟩, ?_⟩
  · exact templates_eq_ok.mpr ⟨_, [[wideTemplate]], hfetch, .cons rfl .nil, rfl⟩
  · rw [values_eq_range _ _ _ view, List.length_map, List.length_range]

/-! ## Total ROMs -/

theorem total_values_iff {templates : List Template} {table : Table}
    (hcanonical : ∀ t ∈ templates, t.address.Canonical ∧ t.data.Canonical)
    (htable : claimAll templates = .ok table) :
    (Total (complete table).values ∧
        ∃ microcode, Microcode.ofRom (complete table).values = .ok microcode) ↔
      ∀ t ∈ templates, t.address.variants ≠ 0 → t.address.width = 15 := by
  obtain ⟨hdata, -, hkept, hfilter⟩ := foldlM_claim_eq_ok _ htable
  constructor
  · rintro ⟨-, microcode, hmicrocode⟩ t ht hv
    obtain ⟨n, entry, hn, hwidth⟩ := hkept t ht hv
    have husable := isUsable_of_ofRom hmicrocode entry (mem_rom hn)
    unfold Microcode.isUsable at husable
    simp only [Bool.and_eq_true, beq_iff_eq] at husable
    rw [← hwidth]
    exact husable.1.1.1
  · intro hwidth
    -- templates without addresses can be left out; the others are well-formed
    have wf : ∀ t ∈ templates.filter (·.address.variants ≠ 0), t.WellFormed := by
      intro t ht
      obtain ⟨ht, hv⟩ := List.mem_filter.mp ht
      exact ⟨hwidth t ht (by simpa using hv), (hcanonical t ht).1, hdata t ht, (hcanonical t ht).2⟩
    have disjoint := (claimAll_isOk_iff wf).mp ⟨table, hfilter⟩
    obtain ⟨table', htable', hget⟩ := claimAll_ok _ wf disjoint
    obtain rfl : table' = table := Except.ok.inj (htable'.symm.trans hfilter)
    obtain ⟨microcode, hmicrocode, -⟩ :=
      Microcode.ofRom_ok (templates.filter (·.address.variants ≠ 0))
    rw [values_complete hget]
    exact ⟨total_entries _, microcode, hmicrocode⟩

/-- A ROM that could be built is total and microcode exactly if every template of the operations that
has an address has addresses of 15 bits. -/
theorem total_iff_address_width {ops : List Operation} {rest : List (List Template)}
    {rom : List Entry}
    (hrest : List.Forall₂ (fun op ts => op.templates = .ok ts ∧
      ∀ t ∈ ts, t.address.Canonical ∧ t.data.Canonical) ops rest)
    (hrom : build ops = .ok rom) :
    (Total rom ∧ ∃ microcode, Microcode.ofRom rom = .ok microcode) ↔
      ∀ t ∈ rest.flatten, t.address.variants ≠ 0 → t.address.width = 15 := by
  obtain ⟨t₀, t₁, hfetch, h₀, h₁⟩ := exists_fetch
  have wf := wellFormed_templates h₀ h₁ .nil
  have hT : templates ops = .ok ([t₀, t₁] ++ rest.flatten) :=
    templates_eq_ok.mpr ⟨_, _, hfetch, hrest.imp fun _ _ h => h.1, rfl⟩
  obtain ⟨_, table, hT', htable, hvalues⟩ := build_eq_ok.mp hrom
  rw [hT] at hT'
  cases hT'
  have hcanonical : ∀ t ∈ [t₀, t₁] ++ rest.flatten, t.address.Canonical ∧ t.data.Canonical := by
    intro t ht
    rcases List.mem_append.mp ht with ht | ht
    · exact ⟨(wf t ht).address_canonical, (wf t ht).data_canonical⟩
    · obtain ⟨ts, hts, ht⟩ := List.mem_flatten.mp ht
      obtain ⟨op, -, hop⟩ := exists_of_mem_right hrest hts
      exact hop.2 t ht
  rw [hvalues, total_values_iff hcanonical htable, List.forall_mem_append]
  exact and_iff_right fun t ht _ => (wf t ht).address_width

/-- The width of its address is what keeps this ROM from being total. -/
theorem not_total_wideAddress : ∃ rom, build [wideAddress] = .ok rom ∧
    ¬ (Total rom ∧ ∃ microcode, Microcode.ofRom rom = .ok microcode) := by
  obtain ⟨rom, hrom, -⟩ := build_wideAddress
  refine ⟨rom, hrom, ?_⟩
  rw [@total_iff_address_width [wideAddress] [[wideTemplate]] rom (.cons ⟨rfl, ?_⟩ .nil) hrom]
  · intro h
    exact absurd (h wideTemplate (by simp) (by decide)) (by decide)
  · intro t ht
    rw [List.mem_singleton.mp ht]
    exact ⟨BitField.canonical_ofWord _ _, BitField.canonical_ofWord _ _⟩

/-- A ROM can be built of an address of 16 bits, but has an entry too many to be microcode. -/
theorem wideAddress_not_microcode : ∃ rom, build [wideAddress] = .ok rom ∧
    rom.length = 2 ^ 15 + 1 ∧ Microcode.ofRom rom = .error .microcode := by
  obtain ⟨rom, hrom, hlength⟩ := build_wideAddress
  refine ⟨rom, hrom, hlength, ?_⟩
  unfold Microcode.ofRom
  rw [hlength]
  rfl

end Rom

end Microcomputer
