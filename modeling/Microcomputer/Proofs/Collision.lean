import Mathlib
import Microcomputer.Proofs.Microcode

/-!
# Templates that share an address

Templates are claimed in order, each from its lowest address up. The first template that shares an
address with one before it stops the construction, at the lowest address that they share. If there
is none, the ROM has one entry for each address.

* `Rom.Reclaims` : an address of the template at a position that belongs to a template before it;
* `Rom.claimFrom_error`, `Rom.claim_error`, `Rom.claimAll_error` : the address at which a run of
  addresses, a template and a list of templates stop;
* `Rom.Contains` : the ROM of templates, address by address;
* `Rom.build_of_templates` : when a ROM can be built, the address that is reported if it cannot, and
  what it holds if it can.
-/

namespace Microcomputer

open Traversal

namespace Rom

/-! ## Claiming an address that is taken -/

/-- Claiming a run of addresses stops at the first that is taken. -/
theorem claimFrom_error {pattern : BitField} (hc : pattern.Canonical) (hw : pattern.width < 64)
    (data : BitField) (remaining count : Nat) (table : Table) {c : Nat}
    (hle : count + remaining ≤ pattern.variants) (h₁ : count ≤ c) (h₂ : c < count + remaining)
    (taken : (pattern.variant c).word.toNat ∈ table)
    (free : ∀ d, count ≤ d → d < c → (pattern.variant d).word.toNat ∉ table) :
    claimFrom pattern data pattern.unknownPositions remaining count table =
      .error (.collision (pattern.variant c)) := by
  induction remaining generalizing count table with
  | zero => omega
  | succ remaining ih =>
    unfold claimFrom
    show (if table.contains (pattern.variant count).word.toNat then
      Except.error (Error.collision (pattern.variant count)) else _) = _
    rcases Nat.eq_or_lt_of_le h₁ with rfl | hlt
    · rw [if_pos (Std.TreeMap.contains_iff_mem.mpr taken)]
    · rw [if_neg fun h => free count le_rfl hlt (Std.TreeMap.contains_iff_mem.mp h)]
      apply ih (count + 1) _ (by omega) hlt (by omega)
      · exact Std.TreeMap.mem_insert.mpr (Or.inr taken)
      · -- the address just claimed is lower than all that follow
        intro d hd hdc hmem
        rcases Std.TreeMap.mem_insert.mp hmem with heq | hmem
        · have hbound : d < 2 ^ pattern.unknowns := by rw [← BitField.variants_eq hw]; omega
          have := BitField.variant_word_lt hc hbound (show count < d by omega)
          have heq : (pattern.variant count).word.toNat = (pattern.variant d).word.toNat :=
            Nat.compare_eq_eq.mp heq
          omega
        · exact free d (by omega) hdc hmem

/-- Claiming a template stops at its lowest address that is taken. -/
theorem claim_error {t : Template} (ht : t.WellFormed) {table : Table} {n : Nat}
    (hn : IsLeast {n | t.covers n = true ∧ n ∈ table} n) :
    claim table t = .error (.collision (.ofWord (BitVec.ofNat 64 n) Layout.addressWidth)) := by
  have hw : t.address.width < 64 := by rw [ht.address_width]; decide
  obtain ⟨c, hc, rfl⟩ := (covers_iff ht n).mp hn.1.1
  have haddress : BitField.ofWord (BitVec.ofNat 64 (t.address.variant c).word.toNat)
      Layout.addressWidth = t.address.variant c := by
    rw [BitVec.ofNat_toNat, BitVec.setWidth_eq, ← ht.address_width,
      ← BitField.variant_eq_ofWord ht.address_canonical]
  rw [claim, fillFrom_idle ht.data_canonical ht.data_width, haddress]
  apply claimFrom_error ht.address_canonical hw _ _ _ _ (by omega) (Nat.zero_le c) (by omega) hn.1.2
  intro d _ hd hmem
  have hbound : c < 2 ^ t.address.unknowns := by rw [← BitField.variants_eq hw]; exact hc
  have hlt := BitField.variant_word_lt ht.address_canonical hbound hd
  have hge := hn.2 ⟨(covers_iff ht _).mpr ⟨d, by omega, rfl⟩, hmem⟩
  omega

/-! ## The first template that shares an address -/

/-- Address `n` belongs to the template at position `j` and to one before it. -/
def Reclaims (templates : List Template) (j n : Nat) : Prop :=
  ∃ u, templates[j]? = some u ∧ u.covers n = true ∧
    ∃ i < j, ∃ t, templates[i]? = some t ∧ t.covers n = true

/-- Two templates at different positions cover a common address. -/
def Overlapping (templates : List Template) : Prop :=
  ∃ i j : Nat, i ≠ j ∧ ∃ t u, templates[i]? = some t ∧ templates[j]? = some u ∧
    ∃ n, t.covers n = true ∧ u.covers n = true

theorem overlapping_iff {templates : List Template} :
    Overlapping templates ↔ ∃ j n, Reclaims templates j n := by
  constructor
  · rintro ⟨i, j, hne, t, u, ht, hu, n, htn, hun⟩
    rcases Nat.lt_or_gt_of_ne hne with h | h
    · exact ⟨j, n, u, hu, hun, i, h, t, ht, htn⟩
    · exact ⟨i, n, t, ht, htn, j, h, u, hu, hun⟩
  · rintro ⟨j, n, u, hu, hun, i, hij, t, ht, htn⟩
    exact ⟨i, j, hij.ne, t, u, ht, hu, n, htn, hun⟩

theorem disjoint_iff {templates : List Template} :
    templates.Pairwise Template.Disjoint ↔ ¬ Overlapping templates := by
  rw [overlapping_iff, List.pairwise_iff_getElem]
  constructor
  · rintro h ⟨j, n, u, hu, hun, i, hij, t, ht, htn⟩
    obtain ⟨hj, rfl⟩ := List.getElem?_eq_some_iff.mp hu
    obtain ⟨hi, rfl⟩ := List.getElem?_eq_some_iff.mp ht
    exact h i j hi hj hij n ⟨htn, hun⟩
  · rintro h i j hi hj hij n ⟨htn, hun⟩
    exact h ⟨j, n, _, List.getElem?_eq_getElem hj, hun, i, hij, _, List.getElem?_eq_getElem hi, htn⟩

theorem exists_first_reclaims {templates : List Template} (h : Overlapping templates) :
    ∃ j n, IsLeast {j | ∃ n, Reclaims templates j n} j ∧ IsLeast {n | Reclaims templates j n} n := by
  have hj : {j | ∃ n, Reclaims templates j n}.Nonempty := overlapping_iff.mp h
  have hn : {n | Reclaims templates (sInf {j | ∃ n, Reclaims templates j n}) n}.Nonempty :=
    Nat.sInf_mem hj
  exact ⟨_, _, ⟨Nat.sInf_mem hj, fun _ => Nat.sInf_le⟩, ⟨Nat.sInf_mem hn, fun _ => Nat.sInf_le⟩⟩

/-- Up to the first template that shares an address, the table holds the addresses covered. -/
theorem claimAll_take {templates : List Template} (wf : ∀ t ∈ templates, t.WellFormed) {j : Nat}
    (hj : ∀ k m, Reclaims templates k m → j ≤ k) :
    ∃ table, claimAll (templates.take j) = .ok table ∧ ∀ m, m ∈ table ↔
      ∃ i < j, ∃ t, templates[i]? = some t ∧ t.covers m = true := by
  -- two templates before position `j` that overlap would be found before it
  have hdisjoint : (templates.take j).Pairwise Template.Disjoint := by
    rw [disjoint_iff, overlapping_iff]
    rintro ⟨k, m, u, hu, hum, i, hik, t, ht, htm⟩
    have hk := (List.getElem?_eq_some_iff.mp hu).1
    rw [List.length_take] at hk
    rw [List.getElem?_take_of_lt (by omega)] at hu ht
    have := hj k m ⟨u, hu, hum, i, hik, t, ht, htm⟩
    omega
  obtain ⟨table, htable, hget⟩ := claimAll_ok (templates.take j)
    (fun t ht => wf t (List.mem_of_mem_take ht)) hdisjoint
  refine ⟨table, htable, ?_⟩
  intro m
  rw [Std.TreeMap.mem_iff_isSome_getElem?, hget, Option.isSome_map, List.find?_isSome]
  simp only [List.mem_take_iff_getElem, List.getElem?_eq_some_iff]
  constructor
  · rintro ⟨t, ⟨i, hi, rfl⟩, hm⟩
    exact ⟨i, by omega, _, ⟨by omega, rfl⟩, hm⟩
  · rintro ⟨i, hi, t, ⟨hil, rfl⟩, hm⟩
    exact ⟨_, ⟨i, by omega, rfl⟩, hm⟩

theorem claimAll_error {templates : List Template} (wf : ∀ t ∈ templates, t.WellFormed) {j n : Nat}
    (hj : IsLeast {j | ∃ n, Reclaims templates j n} j)
    (hn : IsLeast {n | Reclaims templates j n} n) :
    claimAll templates =
      .error (.collision (.ofWord (BitVec.ofNat 64 n) Layout.addressWidth)) := by
  obtain ⟨u, hu, -⟩ := hn.1
  have hsplit : templates = templates.take j ++ u :: templates.drop (j + 1) := by
    obtain ⟨hjl, rfl⟩ := List.getElem?_eq_some_iff.mp hu
    rw [List.getElem_cons_drop, List.take_append_drop]
  obtain ⟨table, htable, hmem⟩ := claimAll_take wf fun k m h => hj.2 ⟨m, h⟩
  -- what the template at `j` shares with those before it is what it finds taken
  have hset : {m | Reclaims templates j m} = {m | u.covers m = true ∧ m ∈ table} := by
    ext m
    simp only [Reclaims, Set.mem_ofPred_eq, hmem, hu, Option.some.injEq, exists_eq_left']
  rw [hset] at hn
  unfold claimAll at htable ⊢
  rw [hsplit, List.foldlM_append, htable]
  show (u :: templates.drop (j + 1)).foldlM claim table = _
  rw [List.foldlM_cons, claim_error (wf u (List.mem_of_getElem? hu)) hn]
  rfl

theorem claimAll_isOk_iff {templates : List Template} (wf : ∀ t ∈ templates, t.WellFormed) :
    (∃ table, claimAll templates = .ok table) ↔ templates.Pairwise Template.Disjoint := by
  constructor
  · rintro ⟨table, htable⟩
    by_contra h
    obtain ⟨j, n, hj, hn⟩ := exists_first_reclaims (disjoint_iff.not_left.mp h)
    rw [claimAll_error wf hj hn] at htable
    cases htable
  · intro h
    obtain ⟨table, htable, -⟩ := claimAll_ok templates wf h
    exact ⟨table, htable⟩

/-! ## The ROM -/

theorem fill_false {f : BitField} (hf : f.Canonical) : f.fill false = .ofWord f.word f.width := by
  have h := word_and_mask hf
  unfold BitField.fill BitField.ofWord
  rw [h]
  rfl

/-- A ROM with one entry for each address, in order: the control word of the only template that
covers the address, its X bits read as 0, or the idle word if none does. -/
structure Contains (templates : List Template) (rom : List Entry) : Prop where
  length_eq : rom.length = 2 ^ 15
  claimed : ∀ (i : Nat) (t : Template), templates[i]? = some t → ∀ n, t.covers n = true →
    rom[n]? = some ⟨.ofWord (BitVec.ofNat 64 n) 15, t.data.fill false⟩ ∧
      ∀ (j : Nat) (u : Template), templates[j]? = some u → u.covers n = true → j = i
  idle : ∀ n < 2 ^ 15, (∀ t ∈ templates, t.covers n = false) →
    rom[n]? = some ⟨.ofWord (BitVec.ofNat 64 n) 15, .ofWord 0#64 26⟩

theorem getElem?_entries (templates : List Template) {n : Nat} (hn : n < microcodeSize) :
    ((List.range microcodeSize).map (entryAt templates))[n]? = some (entryAt templates n) := by
  rw [List.getElem?_map, List.getElem?_range hn]
  rfl

theorem contains_entries {templates : List Template} (wf : ∀ t ∈ templates, t.WellFormed)
    (disjoint : templates.Pairwise Template.Disjoint) :
    Contains templates ((List.range microcodeSize).map (entryAt templates)) := by
  refine ⟨by rw [List.length_map, List.length_range]; rfl, ?_, ?_⟩
  · intro i t ht n hn
    have hmem := List.mem_of_getElem? ht
    have hlt := Template.lt_of_covers hn
    constructor
    · rw [getElem?_entries _ hlt, entryAt, Microcode.find?_of_disjoint disjoint hmem hn,
        fill_false (wf t hmem).data_canonical, (wf t hmem).data_width]
      rfl
    · intro j u hu hun
      by_contra hne
      exact disjoint_iff.mp disjoint ⟨j, i, hne, u, t, hu, ht, n, hun, hn⟩
  · intro n hn hnone
    have hfind : templates.find? (·.covers n) = none := by
      rw [List.find?_eq_none]
      intro t ht
      rw [hnone t ht]
      decide
    rw [getElem?_entries _ hn, entryAt, hfind]
    rfl

theorem build_error {ops : List Operation} {T : List Template} {e : Error}
    (hT : templates ops = .ok T) (he : claimAll T = .error e) : build ops = .error (.error e) := by
  unfold build
  rw [hT]
  show ((claimAll T).mapError Failure.error >>= _) = _
  rw [he]
  rfl

theorem exists_fetch : ∃ t₀ t₁, fetch = .ok [t₀, t₁] ∧ IsFetch 0 [.pcOut, .marIn] t₀ ∧
    IsFetch 1 [.ramSelectProgram, .ramOut, .irIn, .pcCount] t₁ := by
  obtain ⟨t₀, t₁, ts, hT, -⟩ := templates_all
  obtain ⟨first, -, hfirst, -⟩ := templates_eq_ok.mp hT
  obtain ⟨t₀, t₁, rfl, h₀, h₁⟩ := fetch_spec hfirst
  exact ⟨t₀, t₁, hfirst, h₀, h₁⟩

/-- The ROM of operations whose templates have 15-bit addresses and 26-bit control words. Building it
fails exactly when two templates, those of the fetch included, cover a common address. The address
reported is then the lowest that the first template which shares one shares with a template before
it. Otherwise the ROM holds the templates, address by address. -/
theorem build_of_templates {ops : List Operation} {rest : List (List Template)}
    (hrest : List.Forall₂ (fun op ts => op.templates = .ok ts ∧ ∀ t ∈ ts, t.WellFormed) ops rest) :
    ∃ t₀ t₁ T, fetch = .ok [t₀, t₁] ∧ T = [t₀, t₁] ++ rest.flatten ∧
      ((∃ e, build ops = .error e) ↔ Overlapping T) ∧
      (Overlapping T → ∃ j n, IsLeast {j | ∃ n, Reclaims T j n} j ∧
        IsLeast {n | Reclaims T j n} n ∧
        build ops = .error (.error (.collision (.ofWord (BitVec.ofNat 64 n) 15)))) ∧
      (¬ Overlapping T → ∃ rom, build ops = .ok rom ∧ Contains T rom) := by
  obtain ⟨t₀, t₁, hfetch, h₀, h₁⟩ := exists_fetch
  refine ⟨t₀, t₁, _, hfetch, rfl, ?_⟩
  set T := [t₀, t₁] ++ rest.flatten
  have hT : templates ops = .ok T :=
    templates_eq_ok.mpr ⟨_, _, hfetch, hrest.imp fun _ _ h => h.1, rfl⟩
  have wf : ∀ t ∈ T, t.WellFormed := by
    intro t ht
    rcases List.mem_append.mp ht with ht | ht
    · exact wellFormed_templates h₀ h₁ .nil t ht
    · obtain ⟨ts, hts, ht⟩ := List.mem_flatten.mp ht
      obtain ⟨op, -, h⟩ := exists_of_mem_right hrest hts
      exact h.2 t ht
  by_cases hoverlap : Overlapping T
  · obtain ⟨j, n, hj, hn⟩ := exists_first_reclaims hoverlap
    have hbuild := build_error hT (claimAll_error wf hj hn)
    exact ⟨⟨fun _ => hoverlap, fun _ => ⟨_, hbuild⟩⟩, fun _ => ⟨j, n, hj, hn, hbuild⟩,
      fun h => absurd hoverlap h⟩
  · have disjoint := disjoint_iff.mpr hoverlap
    have hbuild := build_ok hT wf disjoint
    refine ⟨⟨?_, fun h => absurd h hoverlap⟩, fun h => absurd h hoverlap,
      fun _ => ⟨_, hbuild, contains_entries wf disjoint⟩⟩
    rintro ⟨e, he⟩
    rw [hbuild] at he
    cases he

/-- Two patterns with X bits that cross: the first address of both is that of byte 0, step 2 and the
flags 0110. -/
theorem build_of_crossing_templates : ∃ t u,
    BitField.parse "00000000_X1XX_010" = .ok t ∧ BitField.parse "0000000X_XX1X_010" = .ok u ∧
      build [⟨"CROSS", .ok [], fun _ => .ok none,
        .ok [⟨t, .unknown 26⟩, ⟨u, .unknown 26⟩]⟩] =
          .error (.error (.collision (.ofWord 50#64 15))) := by
  have ht : BitField.parse "00000000_X1XX_010" = .ok ⟨15, 34#64, 0x7FA7#64⟩ := by rfl
  have hu : BitField.parse "0000000X_XX1X_010" = .ok ⟨15, 18#64, 0x7F17#64⟩ := by rfl
  refine ⟨_, _, ht, hu, ?_⟩
  set t : Template := ⟨⟨15, 34#64, 0x7FA7#64⟩, .unknown 26⟩
  set u : Template := ⟨⟨15, 18#64, 0x7F17#64⟩, .unknown 26⟩
  have htw : t.WellFormed := ⟨rfl, BitField.canonical_parse ht, rfl, BitField.canonical_unknown 26⟩
  have huw : u.WellFormed := ⟨rfl, BitField.canonical_parse hu, rfl, BitField.canonical_unknown 26⟩
  obtain ⟨t₀, t₁, T, hfetch, rfl, -, herror, -⟩ :=
    @build_of_templates [⟨"CROSS", .ok [], fun _ => .ok none, .ok [t, u]⟩] [[t, u]]
      (.cons ⟨rfl, by simp [htw, huw]⟩ .nil)
  obtain ⟨_, _, heq, h₀, h₁⟩ := fetch_spec hfetch
  cases heq
  have hshared : Reclaims [t₀, t₁, t, u] 3 50 :=
    ⟨u, rfl, by decide, 2, by decide, t, rfl, by decide⟩
  obtain ⟨j, n, hj, hn, hbuild⟩ := herror (overlapping_iff.mpr ⟨3, 50, hshared⟩)
  -- bit 1 of the address keeps both templates apart from the fetch
  have bit : ∀ v ∈ [t, u], ∀ n, v.covers n = true → n / 2 % 2 = 1 := by
    intro v hv n h
    have hone : n.testBit 1 = true := by
      unfold Template.covers at h
      rw [Bool.and_eq_true, BitField.accepts_iff] at h
      rw [← testBit_ofNat (by decide)]
      simp only [List.mem_cons, List.not_mem_nil, or_false] at hv
      rcases hv with rfl | rfl
      · exact (h.2 1 (by decide)).trans (by decide)
      · exact (h.2 1 (by decide)).trans (by decide)
    rw [Nat.testBit_succ, Nat.testBit_zero, decide_eq_true_eq] at hone
    exact hone
  have fetch₀ : ∀ n, t₀.covers n = true → n % 8 = 0 := fun n h => ((h₀.covers_iff n).mp h).2
  have fetch₁ : ∀ n, t₁.covers n = true → n % 8 = 1 := fun n h => ((h₁.covers_iff n).mp h).2
  have only : ∀ k m, Reclaims [t₀, t₁, t, u] k m → k = 3 ∧ t.covers m = true ∧ u.covers m = true := by
    rintro k m ⟨v, hv, hvm, i, hik, w, hw, hwm⟩
    have hk : k < 4 := (List.getElem?_eq_some_iff.mp hv).1
    interval_cases k <;> interval_cases i <;> cases hv <;> cases hw
    · exact absurd (fetch₀ m hwm) (by have := fetch₁ m hvm; omega)
    · exact absurd (fetch₀ m hwm) (by have := bit t (by simp) m hvm; omega)
    · exact absurd (fetch₁ m hwm) (by have := bit t (by simp) m hvm; omega)
    · exact absurd (fetch₀ m hwm) (by have := bit u (by simp) m hvm; omega)
    · exact absurd (fetch₁ m hwm) (by have := bit u (by simp) m hvm; omega)
    · exact ⟨rfl, hwm, hvm⟩
  obtain ⟨rfl, htn, hun⟩ := only j n hn.1
  have hcross : ∀ n < 50, t.covers n = true → u.covers n = false := by decide
  have hle : n ≤ 50 := hn.2 hshared
  have heq : n = 50 := by
    by_contra hne
    rw [hcross n (by omega) htn] at hun
    cases hun
  rw [hbuild, heq]

end Rom

end Microcomputer
