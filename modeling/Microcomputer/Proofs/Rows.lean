import Mathlib
import Microcomputer.Proofs.Bits

/-!
# Fields as rows of bits

A field is written from its most significant bit down. Read as such a row, fields are joined by joining
their rows, and what is cut out of a field is a stretch of its row.

* `BitField.row` : the bits of a field as they are written, `text_eq` : in writing;
* `eq_of_row` : a field is its row;
* `row_append`, `row_concat` : the row of joined fields, `exists_concat`, `width_concat` : fields of up to 64
  bits in all can be joined;
* `row_extract`, `exists_row_extract` : the row of a piece, `exists_extract` : a piece within a field can be
  cut out;
* `concat_eq_error`, `extract_eq_error` : neither fails for any other reason;
* `exists_split_at` : a field that is cut in two can be put together again;
* `Bit.orElse`, `row_fill`, `row_fillFrom` : the row of a field whose X bits are given a value.
-/

namespace Microcomputer

def Bit.ofBool (b : Bool) : Bit := if b then .one else .zero

/-- The bit itself, or another one in place of X. -/
def Bit.orElse : Bit → Bit → Bit
  | .unknown, default => default
  | bit, _ => bit

namespace BitField

variable {f g h : BitField}

/-- The bits of a field, most significant first. -/
def row (f : BitField) : List Bit := (List.range f.width).reverse.map f.bitAt

theorem length_row (f : BitField) : f.row.length = f.width := by simp [row]

theorem text_eq (f : BitField) : f.text = String.ofList (f.row.map Bit.char) := by
  rw [text, row, List.map_map]
  rfl

theorem bitAt_congr {n m : Nat} (hcare : f.care.getLsbD n = g.care.getLsbD m)
    (hvalue : f.care.getLsbD n = true → f.value.getLsbD n = g.value.getLsbD m) :
    f.bitAt n = g.bitAt m := by
  unfold bitAt
  rw [← hcare]
  split
  · rename_i hknown
    rw [hvalue hknown]
  · rfl

/-- Downwards, the highest positions come first. -/
theorem map_reverse_range_add (bit : Nat → Bit) (low high : Nat) : (List.range (low + high)).reverse.map bit =
    (List.range high).reverse.map (fun n => bit (low + n)) ++ (List.range low).reverse.map bit := by
  rw [List.range_add, List.reverse_append, List.map_append, ← List.map_reverse, List.map_map]
  rfl

/-- The lowest `low` bits of a field are the end of its row. -/
theorem row_split (low high : Nat) (hwidth : f.width = low + high) : f.row =
    (List.range high).reverse.map (fun n => f.bitAt (low + n)) ++ (List.range low).reverse.map f.bitAt := by
  rw [row, hwidth, map_reverse_range_add]

/-! ## Fields with the same row -/

theorem bitAt_eq_iff {n m : Nat} : f.bitAt n = g.bitAt m ↔ f.care.getLsbD n = g.care.getLsbD m ∧
    (f.care.getLsbD n = true → f.value.getLsbD n = g.value.getLsbD m) := by
  refine ⟨fun heq => ?_, fun h => bitAt_congr h.1 h.2⟩
  unfold bitAt at heq
  cases hf : f.care.getLsbD n <;> cases hg : g.care.getLsbD m <;> cases hv : f.value.getLsbD n <;>
    cases hu : g.value.getLsbD m <;> simp [hf, hg, hv, hu] at heq ⊢

theorem eq_of_care (hf : f.Canonical) (hg : g.Canonical) (hwidth : f.width = g.width) (hcare : f.care = g.care)
    (hvalue : ∀ n, f.care.getLsbD n = true → f.value.getLsbD n = g.value.getLsbD n) : f = g := by
  have hvalue' : f.value = g.value := by
    apply BitVec.eq_of_getLsbD_eq
    intro n _
    cases hknown : f.care.getLsbD n with
    | false => rw [hf.value_eq_false hknown, hg.value_eq_false (hcare ▸ hknown)]
    | true => exact hvalue n hknown
  cases f
  cases g
  simp only at hwidth hcare hvalue'
  rw [hwidth, hcare, hvalue']

theorem eq_of_row (hf : f.Canonical) (hg : g.Canonical) (hrow : f.row = g.row) : f = g := by
  have hwidth : f.width = g.width := by rw [← length_row f, hrow, length_row]
  have hbit : ∀ n < f.width, f.bitAt n = g.bitAt n := by
    intro n hn
    rw [row, row, ← hwidth, List.map_inj_left] at hrow
    exact hrow n (by simpa using hn)
  apply eq_of_care hf hg hwidth
  · apply BitVec.eq_of_getLsbD_eq
    intro n _
    by_cases hn : n < f.width
    · exact (bitAt_eq_iff.mp (hbit n hn)).1
    · rw [Bool.eq_iff_iff]
      exact ⟨fun h => absurd (hf.care_width n h) hn, fun h => absurd (hg.care_width n h) (hwidth ▸ hn)⟩
  · intro n hknown
    exact (bitAt_eq_iff.mp (hbit n (hf.care_width n hknown))).2 hknown

/-! ## Joining -/

theorem append_eq_ok : f.append g = .ok h ↔ f.width + g.width ≤ 64 ∧
    h = ⟨f.width + g.width, f.value <<< g.width ||| (g.value &&& g.care), f.care <<< g.width ||| g.care⟩ := by
  unfold append maxWidth
  split
  · rename_i hlarge
    exact ⟨fun e => (nomatch e), fun e => absurd e.1 (by omega)⟩
  · rename_i hfits
    exact ⟨fun e => ⟨by omega, (Except.ok.inj e).symm⟩, fun e => e.2 ▸ rfl⟩

theorem append_eq_error {e : BitError} (he : f.append g = .error e) : e = .outOfRange := by
  unfold append at he
  split at he
  · exact (Except.error.inj he).symm
  · cases he

theorem width_append (e : f.append g = .ok h) : h.width = f.width + g.width := by
  obtain ⟨-, rfl⟩ := append_eq_ok.mp e
  rfl

theorem Canonical.append (hf : f.Canonical) (hg : g.Canonical) (e : f.append g = .ok h) :
    h.Canonical := by
  obtain ⟨-, rfl⟩ := append_eq_ok.mp e
  constructor
  · intro n hn
    simp only [BitVec.getLsbD_or, BitVec.getLsbD_and, BitVec.getLsbD_shiftLeft, Bool.or_eq_true,
      Bool.and_eq_true] at hn ⊢
    rcases hn with ⟨hn, hvalue⟩ | ⟨-, hcare⟩
    · exact .inl ⟨hn, hf.value_care _ hvalue⟩
    · exact .inr hcare
  · intro n hn
    simp only [BitVec.getLsbD_or, BitVec.getLsbD_shiftLeft, Bool.or_eq_true, Bool.and_eq_true] at hn
    show n < f.width + g.width
    rcases hn with ⟨-, hcare⟩ | hcare
    · have := hf.care_width _ hcare
      omega
    · have := hg.care_width _ hcare
      omega

theorem row_append (hg : g.Canonical) (e : f.append g = .ok h) : h.row = f.row ++ g.row := by
  obtain ⟨hfits, rfl⟩ := append_eq_ok.mp e
  rw [row_split g.width f.width (Nat.add_comm _ _), row, row]
  congr 1
  · apply List.map_congr_left
    intro n hn
    have hlt : n < f.width := by simpa using hn
    have hg' : g.care.getLsbD (g.width + n) = false := by
      by_contra hcare
      have := hg.care_width _ (by simpa using hcare)
      omega
    have hword : g.width + n < 64 := by omega
    apply bitAt_congr
    · rw [BitVec.getLsbD_or, BitVec.getLsbD_shiftLeft, hg']
      simp [hword]
    · intro _
      rw [BitVec.getLsbD_or, BitVec.getLsbD_shiftLeft, BitVec.getLsbD_and, hg']
      simp [hword]
  · apply List.map_congr_left
    intro n hn
    have hlt : n < g.width := by simpa using hn
    apply bitAt_congr
    · simp [hlt]
    · simp +contextual [hlt]

theorem foldlM_append_spec (fs : List BitField) (hf : f.Canonical) (hfs : ∀ g ∈ fs, g.Canonical)
    (e : fs.foldlM append f = .ok h) : h.Canonical ∧ h.row = f.row ++ fs.flatMap row := by
  induction fs generalizing f with
  | nil =>
    cases e
    exact ⟨hf, by simp⟩
  | cons g fs ih =>
    rw [List.foldlM_cons] at e
    obtain ⟨k, hk, e⟩ := Traversal.bind_eq_ok.mp e
    rw [List.forall_mem_cons] at hfs
    obtain ⟨ch, hrow⟩ := ih (hf.append hfs.1 hk) hfs.2 e
    refine ⟨ch, ?_⟩
    rw [hrow, row_append hfs.1 hk, List.flatMap_cons, List.append_assoc]

theorem row_concat {fs : List BitField} (hfs : ∀ g ∈ fs, g.Canonical) (e : concat fs = .ok h) :
    h.Canonical ∧ h.row = fs.flatMap row :=
  foldlM_append_spec fs (canonical_unknown 0) hfs e

theorem exists_foldlM_append (fs : List BitField) (hfits : f.width + (fs.map width).sum ≤ 64) :
    ∃ h, fs.foldlM append f = .ok h := by
  induction fs generalizing f with
  | nil => exact ⟨f, rfl⟩
  | cons g fs ih =>
    rw [List.map_cons, List.sum_cons] at hfits
    have hk := append_eq_ok.mpr ⟨show f.width + g.width ≤ 64 by omega, rfl⟩
    obtain ⟨h, hrest⟩ := ih (by rw [width_append hk]; omega)
    refine ⟨h, ?_⟩
    rw [List.foldlM_cons]
    exact Traversal.bind_eq_ok.mpr ⟨_, hk, hrest⟩

theorem exists_concat {fs : List BitField} (hfits : (fs.map width).sum ≤ 64) : ∃ h, concat fs = .ok h :=
  exists_foldlM_append fs (by rw [empty, Nat.zero_add]; exact hfits)

theorem foldlM_append_width (fs : List BitField) (hf : f.width ≤ 64) (e : fs.foldlM append f = .ok h) :
    h.width = f.width + (fs.map width).sum ∧ h.width ≤ 64 := by
  induction fs generalizing f with
  | nil =>
    cases e
    exact ⟨rfl, hf⟩
  | cons g fs ih =>
    rw [List.foldlM_cons] at e
    obtain ⟨k, hk, e⟩ := Traversal.bind_eq_ok.mp e
    have hwidth := width_append hk
    obtain ⟨hh, hle⟩ := ih (hwidth ▸ (append_eq_ok.mp hk).1) e
    rw [List.map_cons, List.sum_cons]
    exact ⟨by omega, hle⟩

theorem width_concat {fs : List BitField} (e : concat fs = .ok h) :
    h.width = (fs.map width).sum ∧ h.width ≤ 64 := by
  have hwidth := foldlM_append_width fs (show empty.width ≤ 64 by decide) e
  rwa [show empty.width = 0 from rfl, Nat.zero_add] at hwidth

theorem foldlM_append_eq_error (fs : List BitField) {e : BitError} (he : fs.foldlM append f = .error e) :
    e = .outOfRange := by
  induction fs generalizing f with
  | nil => cases he
  | cons g fs ih =>
    rw [List.foldlM_cons] at he
    rcases Traversal.bind_eq_error.mp he with he | ⟨k, -, he⟩
    · exact append_eq_error he
    · exact ih he

theorem concat_eq_error {fs : List BitField} {e : BitError} (he : concat fs = .error e) :
    e = .outOfRange :=
  foldlM_append_eq_error fs he

/-! ## Cutting -/

section

variable {high low : Int}

theorem extract_eq_ok : f.extract high low = .ok h ↔ (0 ≤ low ∧ low ≤ high ∧ high < f.width) ∧
    h = ⟨(high - low + 1).toNat, (f.value >>> low.toNat) &&& mask (high - low + 1).toNat,
      (f.care >>> low.toNat) &&& mask (high - low + 1).toNat⟩ := by
  unfold extract
  split
  · rename_i houtside
    exact ⟨fun e => (nomatch e), fun e => absurd e.1 (by omega)⟩
  · rename_i hinside
    exact ⟨fun e => ⟨by omega, (Except.ok.inj e).symm⟩, fun e => e.2 ▸ rfl⟩

theorem extract_eq_error {e : BitError} (he : f.extract high low = .error e) : e = .outOfRange := by
  unfold extract at he
  split at he
  · exact (Except.error.inj he).symm
  · cases he

theorem exists_extract (hlow : 0 ≤ low) (hle : low ≤ high) (hhigh : high < f.width) :
    ∃ h, f.extract high low = .ok h :=
  ⟨_, extract_eq_ok.mpr ⟨⟨hlow, hle, hhigh⟩, rfl⟩⟩

theorem width_extract (e : f.extract high low = .ok h) : h.width = (high - low + 1).toNat := by
  obtain ⟨-, rfl⟩ := extract_eq_ok.mp e
  rfl

theorem Canonical.extract (hf : f.Canonical) (e : f.extract high low = .ok h) : h.Canonical := by
  obtain ⟨-, rfl⟩ := extract_eq_ok.mp e
  constructor
  · intro n hn
    simp only [BitVec.getLsbD_and, BitVec.getLsbD_ushiftRight, Bool.and_eq_true] at hn ⊢
    exact ⟨hf.value_care _ hn.1, hn.2⟩
  · intro n hn
    simp only [BitVec.getLsbD_and, getLsbD_mask, Bool.and_eq_true, decide_eq_true_eq] at hn ⊢
    exact hn.2.2

/-- The bits of a piece are those of the field, from the lowest on. -/
theorem row_extract (e : f.extract high low = .ok h) :
    h.row = (List.range h.width).reverse.map fun n => f.bitAt (low.toNat + n) := by
  obtain ⟨-, rfl⟩ := extract_eq_ok.mp e
  apply List.map_congr_left
  intro n hn
  have hlt : n < (high - low + 1).toNat := by simpa using hn
  by_cases hword : n < 64
  · apply bitAt_congr
    · simp [getLsbD_mask, hlt, hword]
    · simp [getLsbD_mask, hlt, hword]
  · -- no field has a bit other than X there
    apply bitAt_congr
    · rw [BitVec.getLsbD_of_ge _ _ (by omega), BitVec.getLsbD_of_ge _ _ (by omega)]
    · intro _
      rw [BitVec.getLsbD_of_ge _ _ (by omega), BitVec.getLsbD_of_ge _ _ (by omega)]

/-- A piece is a stretch of the row, with `low` bits behind it. -/
theorem exists_row_extract (e : f.extract high low = .ok h) : ∃ left right, f.row = left ++ h.row ++ right ∧
    right.length = low.toNat ∧ h.row.length = (high - low + 1).toNat := by
  obtain ⟨⟨hlow, hle, hhigh⟩, -⟩ := extract_eq_ok.mp e
  have hwidth := width_extract e
  obtain ⟨rest, hrest⟩ := Nat.exists_eq_add_of_le (show h.width ≤ f.width - low.toNat by omega)
  refine ⟨(List.range rest).reverse.map fun n => f.bitAt (low.toNat + (h.width + n)),
    (List.range low.toNat).reverse.map f.bitAt, ?_, by simp, by rw [length_row, hwidth]⟩
  rw [row_split low.toNat (h.width + rest) (by omega), row_extract e,
    map_reverse_range_add (fun n => f.bitAt (low.toNat + n))]

end

/-- A field is its upper and its lower bits. -/
theorem exists_split_at (hf : f.Canonical) (hw : f.width ≤ 64) {place : Nat} (hpos : 0 < place)
    (hlt : place < f.width) : ∃ upper lower, f.extract (f.width - 1) place = .ok upper ∧
      f.extract (place - 1) 0 = .ok lower ∧ concat [upper, lower] = .ok f := by
  obtain ⟨upper, hupper⟩ : ∃ h, f.extract (f.width - 1) place = .ok h :=
    exists_extract (by omega) (by omega) (by omega)
  obtain ⟨lower, hlower⟩ : ∃ h, f.extract (place - 1) 0 = .ok h :=
    exists_extract (by omega) (by omega) (by omega)
  have wupper : upper.width = f.width - place := by rw [width_extract hupper]; omega
  have wlower : lower.width = place := by rw [width_extract hlower]; omega
  obtain ⟨h, hconcat⟩ : ∃ h, concat [upper, lower] = .ok h := by
    apply exists_concat
    show upper.width + (lower.width + 0) ≤ 64
    omega
  obtain ⟨ch, hrow⟩ := row_concat (List.forall_mem_cons.mpr ⟨hf.extract hupper,
    List.forall_mem_singleton.mpr (hf.extract hlower)⟩) hconcat
  refine ⟨upper, lower, hupper, hlower, ?_⟩
  have hsame : h = f := by
    apply eq_of_row ch hf
    rw [hrow, List.flatMap_cons, List.flatMap_singleton, row_extract hupper, row_extract hlower, wupper, wlower,
      row_split place (f.width - place) (by omega)]
    simp only [Int.toNat_natCast, Int.toNat_zero, Nat.zero_add]
  rw [hconcat, hsame]

/-! ## Filling -/

theorem bitAt_fill {n : Nat} (hn : n < f.width) (hword : n < 64) (bit : Bool) :
    (f.fill bit).bitAt n = (f.bitAt n).orElse (.ofBool bit) := by
  have hmask : (mask f.width).getLsbD n = true := by simp [getLsbD_mask, hn, hword]
  cases bit with
  | false =>
    simp only [fill, bitAt, hmask, if_true, Bool.false_eq_true, if_false, BitVec.getLsbD_and]
    cases f.care.getLsbD n <;> cases f.value.getLsbD n <;> rfl
  | true =>
    simp only [fill, bitAt, hmask, if_true, BitVec.getLsbD_or, BitVec.getLsbD_and, BitVec.getLsbD_not, hword,
      decide_true, Bool.true_and, Bool.and_true]
    cases f.care.getLsbD n <;> cases f.value.getLsbD n <;> rfl

theorem row_fill (hw : f.width ≤ 64) (bit : Bool) : (f.fill bit).row = f.row.map (·.orElse (.ofBool bit)) := by
  rw [row, row, List.map_map]
  apply List.map_congr_left
  intro n hn
  have hlt : n < f.width := by simpa [fill] using hn
  exact bitAt_fill hlt (by omega) bit

theorem fillFrom_eq_ok : f.fillFrom g = .ok h ↔ f.width = g.width ∧
    h = ⟨f.width, (f.value &&& f.care) ||| (g.value &&& g.care &&& ~~~f.care), f.care ||| g.care⟩ := by
  unfold fillFrom
  split
  · rename_i hne
    exact ⟨fun e => (nomatch e), fun e => absurd e.1 hne⟩
  · rename_i heq
    exact ⟨fun e => ⟨not_not.mp heq, (Except.ok.inj e).symm⟩, fun e => e.2 ▸ rfl⟩

theorem bitAt_fillFrom (e : f.fillFrom g = .ok h) {n : Nat} (hword : n < 64) :
    h.bitAt n = (f.bitAt n).orElse (g.bitAt n) := by
  obtain ⟨-, rfl⟩ := fillFrom_eq_ok.mp e
  simp only [bitAt, BitVec.getLsbD_or, BitVec.getLsbD_and, BitVec.getLsbD_not, hword, decide_true, Bool.true_and]
  cases f.care.getLsbD n <;> cases f.value.getLsbD n <;> cases g.care.getLsbD n <;>
    cases g.value.getLsbD n <;> rfl

theorem Canonical.fill (hf : f.Canonical) (bit : Bool) : (f.fill bit).Canonical := by
  constructor
  · intro n hn
    have hword : n < 64 := BitVec.lt_of_getLsbD hn
    have hlt : n < f.width := by
      cases bit with
      | false =>
        simp only [BitField.fill, Bool.false_eq_true, if_false, BitVec.getLsbD_and, Bool.and_eq_true] at hn
        exact hf.care_width n hn.2
      | true =>
        simp only [BitField.fill, if_true, BitVec.getLsbD_or, BitVec.getLsbD_and, getLsbD_mask, Bool.or_eq_true,
          Bool.and_eq_true, decide_eq_true_eq] at hn
        rcases hn with ⟨-, hknown⟩ | ⟨-, -, hlt⟩
        · exact hf.care_width n hknown
        · exact hlt
    show (mask f.width).getLsbD n = true
    rw [getLsbD_mask]
    simp [hword, hlt]
  · intro n hn
    simp only [BitField.fill, getLsbD_mask, Bool.and_eq_true, decide_eq_true_eq] at hn ⊢
    exact hn.2

theorem Canonical.fillFrom (hf : f.Canonical) (hg : g.Canonical) (e : f.fillFrom g = .ok h) : h.Canonical := by
  obtain ⟨hwidth, rfl⟩ := fillFrom_eq_ok.mp e
  constructor
  · intro n hn
    simp only [BitVec.getLsbD_or, BitVec.getLsbD_and, Bool.or_eq_true, Bool.and_eq_true] at hn ⊢
    rcases hn with ⟨-, hknown⟩ | ⟨⟨-, hknown⟩, -⟩
    · exact .inl hknown
    · exact .inr hknown
  · intro n hn
    rw [BitVec.getLsbD_or, Bool.or_eq_true] at hn
    rcases hn with hknown | hknown
    · exact hf.care_width n hknown
    · exact hwidth ▸ hg.care_width n hknown

theorem row_fillFrom (hw : f.width ≤ 64) (e : f.fillFrom g = .ok h) :
    h.row = List.zipWith Bit.orElse f.row g.row := by
  obtain ⟨hwidth, hh⟩ := fillFrom_eq_ok.mp e
  have hwidth' : h.width = f.width := by rw [hh]
  rw [row, row, row, hwidth', ← hwidth, List.zipWith_map, List.zipWith_self]
  apply List.map_congr_left
  intro n hn
  have hlt : n < f.width := by simpa using hn
  exact bitAt_fillFrom e (by omega)

theorem row_ofWord_zero (width : Nat) (hw : width ≤ 64) :
    (ofWord 0#64 width).row = List.replicate width .zero := by
  apply List.eq_replicate_iff.mpr
  refine ⟨length_row _, fun b hb => ?_⟩
  obtain ⟨n, hn, rfl⟩ := List.mem_map.mp hb
  have hlt : n < width := by simpa [ofWord] using hn
  simp [bitAt, ofWord, getLsbD_mask, hlt, show n < 64 by omega]

end BitField

end Microcomputer
