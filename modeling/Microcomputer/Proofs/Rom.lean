import Mathlib
import Microcomputer.Machine.Cpu
import Microcomputer.Proofs.Bits
import Microcomputer.Proofs.Traversal

/-!
# What the microcode ROM holds

Templates that claim no address twice make a ROM with one entry for each of the 32768 addresses: the
control word of the template that covers it, or the idle word.

* `Template.covers` : the addresses of a template, `Template.Disjoint` : templates that share none;
* `Template.WellFormed` : the widths of the fields of a template;
* `claimFrom_ok`, `claim_ok`, `claimAll_ok` : what the table holds after one address, one template,
  all templates;
* `values_eq_range` : the completed table read in order of address;
* `build_eq_ok` : the parts of a ROM that could be built;
* `build_ok`, `ofRom_ok` : the ROM and its microcode, address by address.
-/

namespace Microcomputer

open Traversal

def Template.covers (t : Template) (n : Nat) : Bool :=
  decide (n < microcodeSize) && t.address.accepts (BitVec.ofNat 64 n)

theorem Template.lt_of_covers {t : Template} {n : Nat} (h : t.covers n = true) :
    n < microcodeSize := by
  unfold Template.covers at h
  rw [Bool.and_eq_true, decide_eq_true_eq] at h
  exact h.1

def Template.Disjoint (t u : Template) : Prop := ∀ n, ¬ (t.covers n = true ∧ u.covers n = true)

/-- A template for 15-bit addresses and 26-bit control words. -/
structure Template.WellFormed (t : Template) : Prop where
  address_width : t.address.width = Layout.addressWidth
  address_canonical : t.address.Canonical
  data_width : t.data.width = Layout.dataWidth
  data_canonical : t.data.Canonical

namespace Rom

def entryOf (t : Template) (n : Nat) : Entry :=
  ⟨.ofWord (BitVec.ofNat 64 n) Layout.addressWidth, .ofWord t.data.word Layout.dataWidth⟩

/-- The entry of an address: that of the template which covers it, or the idle one. -/
def entryAt (templates : List Template) (n : Nat) : Entry :=
  match templates.find? (·.covers n) with
  | some t => entryOf t n
  | none => idleEntry n

/-! ## Claiming addresses -/

/-- Claiming a run of addresses that nobody claimed before adds exactly these. -/
theorem claimFrom_ok {pattern : BitField} (hc : pattern.Canonical) (hw : pattern.width < 64)
    (data : BitField) (remaining count : Nat) (table : Table)
    (hle : count + remaining ≤ pattern.variants)
    (fresh : ∀ c, count ≤ c → c < count + remaining → (pattern.variant c).word.toNat ∉ table) :
    ∃ after, claimFrom pattern data pattern.unknownPositions remaining count table = .ok after ∧
      (∀ c, count ≤ c → c < count + remaining →
        after[(pattern.variant c).word.toNat]? = some ⟨pattern.variant c, data⟩) ∧
      ∀ n, (∀ c, count ≤ c → c < count + remaining → (pattern.variant c).word.toNat ≠ n) →
        after[n]? = table[n]? := by
  induction remaining generalizing count table with
  | zero => exact ⟨table, rfl, fun c h₁ h₂ => by omega, fun n _ => rfl⟩
  | succ remaining ih =>
    have hnew : (pattern.variant count).word.toNat ∉ table := fresh count le_rfl (by omega)
    -- the keys still to come differ from the one just claimed
    have hne : ∀ c, count + 1 ≤ c → c < count + 1 + remaining →
        (pattern.variant count).word.toNat ≠ (pattern.variant c).word.toNat := by
      intro c h₁ h₂ heq
      have := BitField.variant_word_inj hc hw (by omega) (by omega) (BitVec.eq_of_toNat_eq heq)
      omega
    obtain ⟨after, hafter, hclaimed, hkept⟩ := ih (count + 1)
      (table.insert (pattern.variant count).word.toNat ⟨pattern.variant count, data⟩) (by omega) (by
        intro c h₁ h₂
        rw [Std.TreeMap.mem_insert, not_or]
        exact ⟨by simpa using hne c h₁ h₂, fresh c (by omega) (by omega)⟩)
    refine ⟨after, ?_, fun c h₁ h₂ => ?_, fun n hn => ?_⟩
    · rw [claimFrom]
      simp only [show ∀ c, pattern.variantAt pattern.unknownPositions c = pattern.variant c from
        fun _ => rfl]
      rw [if_neg fun h => hnew (Std.TreeMap.contains_iff_mem.mp h)]
      exact hafter
    · rcases Nat.eq_or_lt_of_le h₁ with rfl | h₁
      · rw [hkept _ fun c h₁ h₂ => (hne c h₁ h₂).symm, Std.TreeMap.getElem?_insert]
        simp
      · exact hclaimed c h₁ (by omega)
    · rw [hkept n fun c h₁ h₂ => hn c (by omega) (by omega), Std.TreeMap.getElem?_insert,
        if_neg (by simpa using hn count le_rfl (by omega))]

theorem covers_iff {t : Template} (ht : t.WellFormed) (n : Nat) :
    t.covers n = true ↔ ∃ c < t.address.variants, (t.address.variant c).word.toNat = n := by
  have hw : t.address.width < 64 := by rw [ht.address_width]; decide
  have hcount := BitField.variants_eq hw
  have hsize : microcodeSize = 2 ^ t.address.width := by rw [ht.address_width]; rfl
  have hpow : (2 : Nat) ^ t.address.width < 2 ^ 64 := Nat.pow_lt_pow_right (by decide) hw
  simp only [Template.covers, hsize, Bool.and_eq_true, decide_eq_true_eq]
  constructor
  · rintro ⟨hn, hacc⟩
    have hmod : (BitVec.ofNat 64 n).toNat = n := by
      rw [BitVec.toNat_ofNat, Nat.mod_eq_of_lt (hn.trans hpow)]
    obtain ⟨c, hc, e⟩ := (BitField.exists_variant_iff ht.address_canonical hcount _).mpr
      ⟨hacc, (BitField.toNat_lt_iff _ _).mpr (by rwa [hmod])⟩
    exact ⟨c, hc, by rw [e, hmod]⟩
  · rintro ⟨c, hc, rfl⟩
    obtain ⟨hacc, hbits⟩ := (BitField.exists_variant_iff ht.address_canonical hcount _).mp ⟨c, hc, rfl⟩
    refine ⟨(BitField.toNat_lt_iff _ _).mp hbits, ?_⟩
    rwa [BitVec.ofNat_toNat, BitVec.setWidth_eq]

theorem word_and_mask {f : BitField} (hf : f.Canonical) :
    f.word &&& BitField.mask f.width = f.word := by
  apply BitVec.eq_of_getLsbD_eq
  intro n hn
  simp only [BitField.word, BitVec.getLsbD_and, BitField.getLsbD_mask]
  cases hcare : f.care.getLsbD n with
  | false => simp
  | true => simp [hn, hf.care_width n hcare]

/-- Lines that a control word leaves open are inactive. -/
theorem fillFrom_idle {f : BitField} (hf : f.Canonical) (hw : f.width = Layout.dataWidth) :
    f.fillFrom Control.idleWord = .ok (.ofWord f.word Layout.dataWidth) := by
  have hcare : f.care ||| BitField.mask Layout.dataWidth = BitField.mask Layout.dataWidth := by
    apply BitVec.eq_of_getLsbD_eq
    intro n hn
    rw [BitVec.getLsbD_or, BitField.getLsbD_mask]
    cases h : f.care.getLsbD n with
    | false => simp
    | true => simp [hn, ← hw, hf.care_width n h]
  have hword := word_and_mask hf
  rw [hw] at hword
  unfold BitField.fillFrom
  rw [if_neg (by simp [hw, Control.idleWord, BitField.ofWord])]
  simp only [Control.idleWord, BitField.ofWord, BitVec.zero_and, BitVec.or_zero, hcare, hw, hword]
  rfl

theorem claim_ok {t : Template} (ht : t.WellFormed) (table : Table)
    (fresh : ∀ n, t.covers n = true → table[n]? = none) :
    ∃ after, claim table t = .ok after ∧
      ∀ n, after[n]? = if t.covers n = true then some (entryOf t n) else table[n]? := by
  have hw : t.address.width < 64 := by rw [ht.address_width]; decide
  obtain ⟨after, hafter, hclaimed, hkept⟩ := claimFrom_ok ht.address_canonical hw
    (.ofWord t.data.word Layout.dataWidth) t.address.variants 0 table (by omega) (by
      intro c _ hc hmem
      rw [Std.TreeMap.mem_iff_isSome_getElem?,
        fresh _ ((covers_iff ht _).mpr ⟨c, by omega, rfl⟩)] at hmem
      cases hmem)
  refine ⟨after, ?_, fun n => ?_⟩
  · rw [claim, fillFrom_idle ht.data_canonical ht.data_width]
    exact hafter
  · by_cases hn : t.covers n = true
    · obtain ⟨c, hc, rfl⟩ := (covers_iff ht n).mp hn
      rw [if_pos hn, hclaimed c (Nat.zero_le c) (by omega), entryOf, ← ht.address_width,
        BitVec.ofNat_toNat, BitVec.setWidth_eq,
        ← BitField.variant_eq_ofWord ht.address_canonical]
    · rw [if_neg hn, hkept n]
      intro c _ hc e
      exact hn ((covers_iff ht n).mpr ⟨c, by omega, e⟩)

theorem foldlM_claim_ok (templates : List Template) (table : Table)
    (wf : ∀ t ∈ templates, t.WellFormed)
    (disjoint : templates.Pairwise Template.Disjoint)
    (fresh : ∀ t ∈ templates, ∀ n, t.covers n = true → table[n]? = none) :
    ∃ after, templates.foldlM claim table = .ok after ∧
      ∀ n, after[n]? = ((templates.find? (·.covers n)).map (entryOf · n)).or table[n]? := by
  induction templates generalizing table with
  | nil => exact ⟨table, rfl, fun n => by simp⟩
  | cons t templates ih =>
    rw [List.pairwise_cons] at disjoint
    obtain ⟨middle, hmiddle, hget⟩ := claim_ok (wf t (by simp)) table (fresh t (by simp))
    obtain ⟨after, hafter, hget'⟩ := ih middle (fun u hu => wf u (by simp [hu])) disjoint.2 (by
      intro u hu n hn
      rw [hget, if_neg (fun h => disjoint.1 u hu n ⟨h, hn⟩)]
      exact fresh u (by simp [hu]) n hn)
    refine ⟨after, ?_, fun n => ?_⟩
    · rw [List.foldlM_cons, hmiddle]
      exact hafter
    · rw [hget', hget, List.find?_cons]
      by_cases ht : t.covers n = true
      · have hnone : templates.find? (·.covers n) = none := by
          rw [List.find?_eq_none]
          intro u hu hn
          exact disjoint.1 u hu n ⟨ht, hn⟩
        simp [ht, hnone]
      · simp [ht]

theorem claimAll_ok (templates : List Template) (wf : ∀ t ∈ templates, t.WellFormed)
    (disjoint : templates.Pairwise Template.Disjoint) :
    ∃ table, claimAll templates = .ok table ∧
      ∀ n, table[n]? = (templates.find? (·.covers n)).map (entryOf · n) := by
  obtain ⟨table, htable, hget⟩ := foldlM_claim_ok templates ∅ wf disjoint (fun _ _ _ _ => by simp)
  exact ⟨table, htable, fun n => by rw [hget n]; simp⟩

/-! ## The completed table -/

theorem getElem?_foldl_insertIfNew (size : Nat) (table : Table) (n : Nat) :
    ((List.range size).foldl (fun table k => table.insertIfNew k (idleEntry k)) table)[n]? =
      table[n]?.or (if n < size then some (idleEntry n) else none) := by
  induction size with
  | zero => simp
  | succ size ih =>
    rw [List.range_succ, List.foldl_append, List.foldl_cons, List.foldl_nil,
      Std.TreeMap.getElem?_insertIfNew]
    have hmem : ∀ k, k ∉ (List.range size).foldl
        (fun table k => table.insertIfNew k (idleEntry k)) table → _ = none :=
      fun k hk => Std.TreeMap.getElem?_eq_none hk
    by_cases hn : size = n
    · subst hn
      by_cases hk : size ∈ (List.range size).foldl
          (fun table k => table.insertIfNew k (idleEntry k)) table
      · rw [if_neg (by simp [hk]), ih]
        rw [Std.TreeMap.mem_iff_isSome_getElem?, ih] at hk
        cases h : table[size]? with
        | none => simp [h] at hk
        | some e => simp
      · rw [if_pos ⟨by simp, hk⟩]
        have hnone := hmem size hk
        rw [ih] at hnone
        cases h : table[size]? with
        | none => simp
        | some e => simp [h] at hnone
    · rw [if_neg (by simp [hn]), ih]
      have hlt : n < size ↔ n < size + 1 := by omega
      simp [hlt]

theorem values_eq_map (table : Table) : table.values = table.toList.map Prod.snd := by
  have h : table.values = table.foldr (fun _ entry rest => entry :: rest) [] := rfl
  rw [h, Std.TreeMap.foldr_eq_foldr_toList]
  induction table.toList with
  | nil => rfl
  | cons p l ih => simp [ih]

/-- A table that holds exactly the numbers below `size`, read in order. -/
theorem values_eq_range (table : Table) (entry : Nat → Entry) (size : Nat)
    (h : ∀ n, table[n]? = if n < size then some (entry n) else none) :
    table.values = (List.range size).map entry := by
  have hlist : table.toList = (List.range size).map fun n => (n, entry n) := by
    have : Std.Antisymm fun a b : Nat × Entry => a.1 < b.1 := ⟨fun a b h h' => by omega⟩
    have : Std.Irrefl fun a b : Nat × Entry => a.1 < b.1 := ⟨fun a => by omega⟩
    refine List.Pairwise.eq_of_mem_iff (r := fun a b => a.1 < b.1) ?_ ?_ fun a => ?_
    · exact Std.TreeMap.ordered_keys_toList.imp fun hab => by
        simpa [Nat.compare_eq_lt] using hab
    · rw [List.pairwise_map]
      exact List.pairwise_lt_range
    · obtain ⟨n, e⟩ := a
      rw [Std.TreeMap.mem_toList_iff_getElem?_eq_some, h]
      simp only [List.mem_map, List.mem_range, Prod.mk.injEq]
      constructor
      · intro hn
        split at hn
        · exact ⟨n, ‹_›, rfl, by simpa using hn⟩
        · cases hn
      · rintro ⟨m, hm, rfl, rfl⟩
        rw [if_pos hm]
  rw [values_eq_map, hlist, List.map_map]
  rfl

theorem getElem?_complete {templates : List Template} {table : Table}
    (hget : ∀ n, table[n]? = (templates.find? (·.covers n)).map (entryOf · n)) (n : Nat) :
    (complete table)[n]? = if n < microcodeSize then some (entryAt templates n) else none := by
  rw [complete, getElem?_foldl_insertIfNew, hget, entryAt]
  cases hfind : templates.find? (·.covers n) with
  | none => simp
  | some t =>
    have hn : n < microcodeSize := Template.lt_of_covers (by simpa using List.find?_some hfind)
    simp [hn]

theorem values_complete {templates : List Template} {table : Table}
    (hget : ∀ n, table[n]? = (templates.find? (·.covers n)).map (entryOf · n)) :
    (complete table).values = (List.range microcodeSize).map (entryAt templates) :=
  values_eq_range _ _ _ (getElem?_complete hget)

theorem templates_eq_ok {ops : List Operation} {T : List Template} :
    templates ops = .ok T ↔ ∃ first rest, fetch = .ok first ∧
      List.Forall₂ (fun op ts => op.templates = .ok ts) ops rest ∧ T = first ++ rest.flatten := by
  unfold templates
  rw [bind_eq_ok]
  constructor
  · rintro ⟨first, hfirst, h⟩
    obtain ⟨rest, hrest, h⟩ := bind_eq_ok.mp h
    cases h
    exact ⟨first, rest, mapError_eq_ok.mp hfirst, mapM_eq_ok.mp hrest, rfl⟩
  · rintro ⟨first, rest, hfirst, hrest, rfl⟩
    exact ⟨first, mapError_eq_ok.mpr hfirst, bind_eq_ok.mpr ⟨rest, mapM_eq_ok.mpr hrest, rfl⟩⟩

theorem build_eq_ok {ops : List Operation} {rom : List Entry} :
    build ops = .ok rom ↔ ∃ T table, templates ops = .ok T ∧ claimAll T = .ok table ∧
      rom = (complete table).values := by
  unfold build
  rw [bind_eq_ok]
  constructor
  · rintro ⟨T, hT, h⟩
    obtain ⟨table, htable, h⟩ := bind_eq_ok.mp h
    simp only [pure, Except.pure, Except.ok.injEq] at h
    exact ⟨T, table, hT, mapError_eq_ok.mp htable, h.symm⟩
  · rintro ⟨T, table, hT, htable, hrom⟩
    exact ⟨T, hT, bind_eq_ok.mpr ⟨table, mapError_eq_ok.mpr htable, by rw [hrom]; rfl⟩⟩

/-- The ROM of templates that share no address. -/
theorem build_ok {ops : List Operation} {templates : List Template}
    (hT : Rom.templates ops = .ok templates) (wf : ∀ t ∈ templates, t.WellFormed)
    (disjoint : templates.Pairwise Template.Disjoint) :
    build ops = .ok ((List.range microcodeSize).map (entryAt templates)) := by
  obtain ⟨table, htable, hget⟩ := claimAll_ok templates wf disjoint
  exact build_eq_ok.mpr ⟨templates, table, hT, htable, (values_complete hget).symm⟩

end Rom

/-! ## The microcode of a ROM -/

namespace Microcode

theorem getElem_foldl_setIfInBounds (word : Nat → BitVec 64) (size : Nat) (start : Microcode) (n : Nat)
    (hn : n < microcodeSize) :
    ((List.range size).foldl (fun words k => words.setIfInBounds k (word k)) start).get ⟨n, hn⟩ =
      if n < size then word n else start.get ⟨n, hn⟩ := by
  induction size with
  | zero => simp
  | succ size ih =>
    rw [List.range_succ, List.foldl_append, List.foldl_cons, List.foldl_nil]
    simp only [Vector.get_eq_getElem] at ih ⊢
    rw [Vector.getElem_setIfInBounds, ih]
    by_cases h : size = n
    · simp [h]
    · have hlt : n < size ↔ n < size + 1 := by omega
      simp [h, hlt]

theorem isUsable_entryAt (templates : List Template) (n : Nat) :
    isUsable (Rom.entryAt templates n) = true := by
  unfold Rom.entryAt
  split <;> simp [isUsable, Rom.entryOf, Rom.idleEntry, BitField.ofWord, BitField.isConcrete,
    Control.idleWord]

theorem address_entryAt (templates : List Template) {n : Nat} (hn : n < microcodeSize) :
    (Rom.entryAt templates n).address.word.toNat = n := by
  have haddress : (Rom.entryAt templates n).address =
      .ofWord (BitVec.ofNat 64 n) Layout.addressWidth := by
    unfold Rom.entryAt
    split <;> rfl
  have hmask : (BitField.mask Layout.addressWidth).toNat = 2 ^ 15 - 1 := by decide
  rw [haddress, BitField.word, BitField.ofWord, BitVec.and_assoc, BitVec.and_self, BitVec.toNat_and,
    hmask, Nat.and_two_pow_sub_one_eq_mod, BitVec.toNat_ofNat]
  simp only [microcodeSize] at hn
  omega

theorem ofRom_ok (templates : List Template) :
    ∃ microcode, ofRom ((List.range microcodeSize).map (Rom.entryAt templates)) = .ok microcode ∧
      ∀ n < microcodeSize, microcode.word? n = some (Rom.entryAt templates n).data.word := by
  have husable : ((List.range microcodeSize).map (Rom.entryAt templates)).all isUsable = true := by
    simp [isUsable_entryAt]
  refine ⟨_, by rw [ofRom, if_pos (by simp [husable])], fun n hn => ?_⟩
  have hfold : ((List.range microcodeSize).map (Rom.entryAt templates)).foldl
      (fun (words : Microcode) entry => words.setIfInBounds entry.address.word.toNat entry.data.word)
      (Vector.replicate microcodeSize 0#64) =
      (List.range microcodeSize).foldl
        (fun words k => words.setIfInBounds k (Rom.entryAt templates k).data.word)
        (Vector.replicate microcodeSize 0#64) := by
    rw [List.foldl_map]
    refine List.foldl_ext _ _ _ fun words k hk => ?_
    rw [address_entryAt templates (List.mem_range.mp hk)]
  have hget := getElem_foldl_setIfInBounds (fun k => (Rom.entryAt templates k).data.word)
    microcodeSize (Vector.replicate microcodeSize 0#64) n hn
  rw [if_pos hn] at hget
  simp only [word?, Int.natCast_nonneg, if_true, Int.toNat_natCast, hfold]
  rw [Vector.getElem?_eq_getElem hn]
  exact congrArg some hget

end Microcode

end Microcomputer
