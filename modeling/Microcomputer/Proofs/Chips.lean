import Mathlib
import Microcomputer.Proofs.Rows
import Microcomputer.Rom.Chip

/-!
# The chips of a ROM hold its control words

A control word is filled up with zeros on the left to whole bytes, and chip `n` takes byte `n` of every
word. Put together again from the highest chip down, the bytes are the word that was filled up.

* `Rom.exists_padded`, `Rom.exists_bytes` : a word filled up to whole bytes, and cut into them;
* `Rom.Split` : a control word and its bytes, `Rom.exists_split` : a word of up to 64 bits has them;
* `Rom.chipAt` : a chip as a column of the bytes, `Rom.chipAt_eq`;
* `Rom.bytesAt` : the bytes of one entry, `Rom.bytesAt_chips` : they are those of its word;
* `Rom.laneBits_eq_error`, `Rom.chips_of_unlike` : words of different widths have no chips;
* `Rom.chips_lossless` : what the chips hold.
-/

namespace Microcomputer.Rom

open BitField Traversal

variable {data : BitField} {width n : Nat}

/-! ## The bytes of a control word -/

/-- A control word and its bytes, lowest first: joined from the last to the first they are the word with
zeros before it. -/
structure Split (data : BitField) (lanes : List BitField) : Prop where
  length_eq : lanes.length = (data.width + 7) / 8
  bytes : ∀ lane ∈ lanes, lane.Canonical ∧ lane.width = 8
  row_eq : lanes.reverse.flatMap row =
    List.replicate (lanes.length * 8 - data.width) .zero ++ data.row

theorem chipCount_eq (hw : width ≤ 64) : chipCount width = (width + 7) / 8 := by
  apply if_neg
  unfold largestWidth
  omega

theorem laneBits_of_ne (h : data.width ≠ width) : laneBits width data = .error .widthMismatch := by
  unfold laneBits
  rw [if_pos h]
  rfl

theorem laneBits_eq (h : data.width = width) : laneBits width data =
    if chipCount width = 0 then .ok [] else
      concat [ofWord 0#64 (chipCount width * 8 - width), data] >>= fun padded =>
        (List.range (chipCount width)).mapM fun (lane : Nat) =>
          padded.extract ((lane * 8 + 7 : Nat) : Int) ((lane * 8 : Nat) : Int) := by
  unfold laneBits
  rw [if_neg (not_not.mpr h)]
  rfl

/-- Pieces from the highest down, each from its highest bit down, are all bits from the highest down. -/
theorem flatMap_pieces (bit : Nat → Bit) (size n : Nat) :
    ((List.range n).reverse.flatMap fun lane =>
      (List.range size).reverse.map fun i => bit (lane * size + i)) =
        (List.range (n * size)).reverse.map bit := by
  induction n with
  | zero => simp
  | succ n ih =>
    rw [List.range_succ, List.reverse_append, List.reverse_singleton, List.singleton_append,
      List.flatMap_cons, ih, Nat.succ_mul, List.range_add, List.reverse_append, List.map_append,
      ← List.map_reverse, List.map_map]
    rfl

theorem exists_bytes {padded : BitField} (hwidth : padded.width = n * 8) (hpadded : padded.Canonical) :
    ∃ lanes, (List.range n).mapM (fun (lane : Nat) =>
        padded.extract ((lane * 8 + 7 : Nat) : Int) ((lane * 8 : Nat) : Int)) = .ok lanes ∧
      lanes.length = n ∧ (∀ lane ∈ lanes, lane.Canonical ∧ lane.width = 8) ∧
      lanes.reverse.flatMap row = padded.row := by
  obtain ⟨lanes, hlanes⟩ : ∃ lanes, (List.range n).mapM (fun (lane : Nat) =>
      padded.extract ((lane * 8 + 7 : Nat) : Int) ((lane * 8 : Nat) : Int)) = .ok lanes := by
    apply mapM_isOk
    intro lane hlane
    rw [List.mem_range] at hlane
    apply exists_extract <;> omega
  have hcut := mapM_eq_ok.mp hlanes
  have hbyte : ∀ {lane : Nat} {piece : BitField},
      padded.extract ((lane * 8 + 7 : Nat) : Int) ((lane * 8 : Nat) : Int) = .ok piece → piece.width = 8 := by
    intro lane piece hpiece
    rw [width_extract hpiece]
    omega
  have hpieces : (List.range n).map (fun lane =>
      (List.range 8).reverse.map fun i => padded.bitAt (lane * 8 + i)) = lanes.map row := by
    apply map_eq_of_forall₂ hcut
    intro lane piece hpiece
    rw [row_extract hpiece, hbyte hpiece, Int.toNat_natCast]
  refine ⟨lanes, hlanes, ?_, fun piece hpiece => ?_, ?_⟩
  · rw [← hcut.length_eq, List.length_range]
  · obtain ⟨lane, -, hextract⟩ := exists_of_mem_right hcut hpiece
    exact ⟨hpadded.extract hextract, hbyte hextract⟩
  · rw [List.flatMap_def, List.map_reverse, ← hpieces, ← List.map_reverse, ← List.flatMap_def,
      flatMap_pieces, row, hwidth]

theorem exists_padded (hw : data.width ≤ 64) (hdata : data.Canonical) :
    ∃ padded, concat [ofWord 0#64 ((data.width + 7) / 8 * 8 - data.width), data] = .ok padded ∧
      padded.Canonical ∧ padded.width = (data.width + 7) / 8 * 8 ∧
      padded.row = List.replicate ((data.width + 7) / 8 * 8 - data.width) .zero ++ data.row := by
  have hfits : ([ofWord 0#64 ((data.width + 7) / 8 * 8 - data.width), data].map BitField.width).sum ≤ 64 := by
    show (data.width + 7) / 8 * 8 - data.width + (data.width + 0) ≤ 64
    omega
  obtain ⟨padded, hpadded⟩ := exists_concat hfits
  obtain ⟨hcanonical, hrow⟩ := row_concat (List.forall_mem_cons.mpr ⟨canonical_ofWord _ _,
    List.forall_mem_singleton.mpr hdata⟩) hpadded
  rw [List.flatMap_cons, List.flatMap_singleton, row_ofWord_zero _ (by omega)] at hrow
  refine ⟨padded, hpadded, hcanonical, ?_, hrow⟩
  rw [← length_row, hrow, List.length_append, List.length_replicate, length_row]
  omega

theorem exists_split (hw : data.width ≤ 64) (hdata : data.Canonical) :
    ∃ lanes, laneBits data.width data = .ok lanes ∧ Split data lanes := by
  rw [laneBits_eq rfl, chipCount_eq hw]
  by_cases hzero : (data.width + 7) / 8 = 0
  · rw [if_pos hzero]
    have hrow : data.row = [] := by
      apply List.eq_nil_of_length_eq_zero
      rw [length_row]
      omega
    exact ⟨[], rfl, by rw [hzero, List.length_nil], by simp, by simp [hrow]⟩
  · rw [if_neg hzero]
    obtain ⟨padded, hpadded, hcanonical, hwidth, hrow⟩ := exists_padded hw hdata
    obtain ⟨lanes, hlanes, hlength, hbytes, hjoined⟩ := exists_bytes hwidth hcanonical
    refine ⟨lanes, bind_eq_ok.mpr ⟨padded, hpadded, hlanes⟩, hlength, hbytes, ?_⟩
    rw [hjoined, hrow, hlength]

/-- A word has no bytes for one of two reasons. -/
theorem laneBits_eq_error {e : BitError} (h : laneBits width data = .error e) :
    e = .widthMismatch ∨ e = .outOfRange := by
  by_cases hwidth : data.width = width
  · rw [laneBits_eq hwidth] at h
    split at h
    · cases h
    · rcases bind_eq_error.mp h with h | ⟨padded, -, h⟩
      · exact .inr (concat_eq_error h)
      · obtain ⟨lane, -, h⟩ := mapM_eq_error h
        exact .inr (extract_eq_error h)
  · rw [laneBits_of_ne hwidth] at h
    exact .inl (Except.error.inj h).symm

/-! ## The chips -/

def chipAt (rows : List (BitField × List BitField)) (lane : Nat) : List Entry :=
  rows.filterMap fun row => row.2[lane]?.map fun bits => ⟨row.1, bits⟩

/-- The bytes of entry `n` of a ROM, from the highest chip down. -/
def bytesAt (chips : List (List Entry)) (n : Nat) : List BitField :=
  chips.reverse.filterMap fun chip => chip[n]?.map Entry.data

theorem chips_cons (first : Entry) (rest : List Entry) : chips (first :: rest) =
    ((first :: rest).mapM fun (entry : Entry) =>
      (laneBits first.data.width entry.data).map fun lanes => (entry.address, lanes)) >>= fun rows =>
        .ok ((List.range (chipCount first.data.width)).map (chipAt rows)) := rfl

section

variable {rows : List (BitField × List BitField)} {lane count : Nat}

/-- A chip that every entry has a byte for has a byte for every entry. -/
theorem chipAt_eq (h : ∀ row ∈ rows, lane < row.2.length) :
    chipAt rows lane = rows.map fun row => ⟨row.1, row.2[lane]?.getD .empty⟩ := by
  rw [chipAt, ← List.filterMap_eq_map]
  apply List.filterMap_congr
  intro row hrow
  rw [Function.comp_apply, List.getElem?_eq_getElem (h row hrow)]
  rfl

theorem data_of_mem_chipAt {entry : Entry} (h : entry ∈ chipAt rows lane) :
    ∃ row ∈ rows, entry.data ∈ row.2 := by
  obtain ⟨row, hrow, hentry⟩ := List.mem_filterMap.mp h
  obtain ⟨bits, hbits, rfl⟩ := Option.map_eq_some_iff.mp hentry
  exact ⟨row, hrow, List.mem_of_getElem? hbits⟩

theorem bytesAt_chips (h : ∀ row ∈ rows, row.2.length = count) {row : BitField × List BitField}
    (hrow : rows[n]? = some row) : bytesAt ((List.range count).map (chipAt rows)) n = row.2.reverse := by
  have hcolumn : bytesAt ((List.range count).map (chipAt rows)) n =
      (List.range count).reverse.map fun lane => row.2[lane]?.getD .empty := by
    rw [bytesAt, ← List.map_reverse, List.filterMap_map, ← List.filterMap_eq_map]
    apply List.filterMap_congr
    intro lane hlane
    have hlt : ∀ row ∈ rows, lane < row.2.length := by
      intro row hmem
      rw [h row hmem]
      simpa using hlane
    rw [Function.comp_apply, chipAt_eq hlt, List.getElem?_map, hrow]
    rfl
  rw [hcolumn, List.map_reverse]
  congr 1
  apply List.ext_getElem
  · rw [List.length_map, List.length_range, h row (List.mem_of_getElem? hrow)]
  · intro lane _ hlane
    rw [List.getElem_map, List.getElem_range, List.getElem?_eq_getElem hlane, Option.getD_some]

end

theorem chips_of_width {rom : List Entry} (hrom : rom ≠ []) (hw : width ≤ 64)
    (hwords : ∀ entry ∈ rom, entry.data.Canonical ∧ entry.data.width = width) :
    ∃ chips, Rom.chips rom = .ok chips ∧ chips.length = (width + 7) / 8 ∧
      (∀ chip ∈ chips, chip.map Entry.address = rom.map Entry.address ∧
        ∀ entry ∈ chip, entry.data.Canonical ∧ entry.data.width = 8) ∧
      ∀ n entry, rom[n]? = some entry → ∃ lanes, Split entry.data lanes ∧ bytesAt chips n = lanes.reverse := by
  have hbytes : ∀ entry ∈ rom, ∃ lanes, laneBits width entry.data = .ok lanes ∧ Split entry.data lanes := by
    intro entry hentry
    obtain ⟨hcanonical, rfl⟩ := hwords entry hentry
    exact exists_split hw hcanonical
  choose! lanes hlanes hsplit using hbytes
  -- the addresses and bytes of all entries, of which the chips are the columns
  obtain ⟨rows, hrows⟩ : ∃ rows, rows = rom.map fun entry => (entry.address, lanes entry) := ⟨_, rfl⟩
  have hlength : ∀ row ∈ rows, row.2.length = (width + 7) / 8 := by
    rw [hrows, List.forall_mem_map]
    intro entry hentry
    rw [(hsplit entry hentry).length_eq, (hwords entry hentry).2]
  have hchips : Rom.chips rom = .ok ((List.range ((width + 7) / 8)).map (chipAt rows)) := by
    obtain ⟨first, rest, rfl⟩ := List.exists_cons_of_ne_nil hrom
    rw [chips_cons, (hwords first List.mem_cons_self).2, chipCount_eq hw]
    refine bind_eq_ok.mpr ⟨rows, ?_, rfl⟩
    rw [hrows]
    apply mapM_eq_ok_map
    intro entry hentry
    exact map_eq_ok.mpr ⟨_, hlanes entry hentry, rfl⟩
  refine ⟨_, hchips, by simp, ?_, ?_⟩
  · rw [List.forall_mem_map]
    intro lane hlane
    have hlt : ∀ row ∈ rows, lane < row.2.length := by
      intro row hrow
      rw [hlength row hrow]
      exact List.mem_range.mp hlane
    refine ⟨?_, fun entry hentry => ?_⟩
    · rw [chipAt_eq hlt, List.map_map, hrows, List.map_map]
      rfl
    · obtain ⟨row, hrow, hdata⟩ := data_of_mem_chipAt hentry
      rw [hrows] at hrow
      obtain ⟨source, hsource, rfl⟩ := List.mem_map.mp hrow
      exact (hsplit source hsource).bytes _ hdata
  · intro n entry hentry
    have hrow : rows[n]? = some (entry.address, lanes entry) := by
      rw [hrows, List.getElem?_map, hentry]
      rfl
    exact ⟨lanes entry, hsplit entry (List.mem_of_getElem? hentry), bytesAt_chips hlength hrow⟩

/-- The bytes of a control word can be joined, and are the word in writing with zeros before it. -/
theorem Split.concat {lanes : List BitField} (h : Split data lanes) (hw : data.width ≤ 64) :
    ∃ joined, BitField.concat lanes.reverse = .ok joined ∧ joined.Canonical ∧
      joined.text = String.ofList (List.replicate (lanes.length * 8 - data.width) '0') ++ data.text := by
  have hwidths : (lanes.reverse.map BitField.width).sum = lanes.length * 8 := by
    rw [List.map_congr_left (g := fun _ => 8) fun lane hlane =>
      (h.bytes lane (List.mem_reverse.mp hlane)).2, List.map_const', List.sum_replicate, List.length_reverse]
    rfl
  have hfits : (lanes.reverse.map BitField.width).sum ≤ 64 := by
    rw [hwidths, h.length_eq]
    omega
  obtain ⟨joined, hjoined⟩ := exists_concat hfits
  obtain ⟨hcanonical, hrow⟩ := row_concat (fun lane hlane =>
    (h.bytes lane (List.mem_reverse.mp hlane)).1) hjoined
  refine ⟨joined, hjoined, hcanonical, ?_⟩
  rw [text_eq, text_eq, hrow, h.row_eq, List.map_append, List.map_replicate, String.ofList_append]
  rfl

theorem chips_of_unlike {rom : List Entry} {a b : Entry} (ha : a ∈ rom) (hb : b ∈ rom)
    (hne : a.data.width ≠ b.data.width) :
    Rom.chips rom = .error .widthMismatch ∨ Rom.chips rom = .error .outOfRange := by
  obtain ⟨first, rest, rfl⟩ := List.exists_cons_of_ne_nil (List.ne_nil_of_mem ha)
  obtain ⟨odd, hodd, hwidth⟩ : ∃ odd ∈ first :: rest, odd.data.width ≠ first.data.width := by
    by_cases hfirst : a.data.width = first.data.width
    · exact ⟨b, hb, fun hcon => hne (hfirst.trans hcon.symm)⟩
    · exact ⟨a, ha, hfirst⟩
  cases hchips : Rom.chips (first :: rest) with
  | ok chips =>
    rw [chips_cons] at hchips
    obtain ⟨rows, hrows, -⟩ := bind_eq_ok.mp hchips
    obtain ⟨row, -, hrow⟩ := mapM_of_mem hrows hodd
    rw [laneBits_of_ne hwidth] at hrow
    cases hrow
  | error e =>
    rw [chips_cons] at hchips
    rcases bind_eq_error.mp hchips with hrows | ⟨rows, -, hcon⟩
    · obtain ⟨entry, -, hentry⟩ := mapM_eq_error hrows
      exact (laneBits_eq_error (map_eq_error.mp hentry)).imp (congrArg _) (congrArg _)
    · cases hcon

/-- A ROM with words of one width of up to 64 bits has a chip for each begun byte of the words. Each chip
has an entry of 8 bits for each entry of the ROM, in order and with its address, and the bytes of an entry,
joined from the highest chip down, are its word with zeros before it. A ROM with words of two widths has no
chips. -/
theorem chips_lossless :
    (∀ (rom : List Entry) (width : Nat), rom ≠ [] → width ≤ 64 →
      (∀ entry ∈ rom, entry.data.Canonical ∧ entry.data.width = width) →
      ∃ chips, Rom.chips rom = .ok chips ∧ chips.length = (width + 7) / 8 ∧
        (∀ chip ∈ chips, chip.map Entry.address = rom.map Entry.address ∧
          ∀ entry ∈ chip, entry.data.Canonical ∧ entry.data.width = 8) ∧
        ∀ n entry, rom[n]? = some entry →
          ∃ joined, BitField.concat (bytesAt chips n) = .ok joined ∧ joined.Canonical ∧
            joined.text =
              String.ofList (List.replicate (chips.length * 8 - width) '0') ++ entry.data.text) ∧
    ∀ (rom : List Entry) (a b : Entry), a ∈ rom → b ∈ rom → a.data.width ≠ b.data.width →
      Rom.chips rom = .error .widthMismatch ∨ Rom.chips rom = .error .outOfRange := by
  refine ⟨fun rom width hrom hw hwords => ?_, fun rom a b => chips_of_unlike⟩
  obtain ⟨chips, hchips, hlength, hentries, hbytes⟩ := chips_of_width hrom hw hwords
  refine ⟨chips, hchips, hlength, hentries, fun n entry hentry => ?_⟩
  obtain ⟨lanes, hsplit, heq⟩ := hbytes n entry hentry
  have hwidth := (hwords entry (List.mem_of_getElem? hentry)).2
  obtain ⟨joined, hjoined, hcanonical, htext⟩ := hsplit.concat (hwidth.trans_le hw)
  rw [hsplit.length_eq, hwidth, ← hlength] at htext
  rw [heq]
  exact ⟨joined, hjoined, hcanonical, htext⟩

/-- Words of 12 bits have two chips, the higher with four zeros before the bits of each word; with a word of
8 bits among them they have none. -/
theorem chips_lossless_twelve_bits : ∃ (data other short : BitField) (chips : List (List Entry)),
    parse "1X0110X1X010" = .ok data ∧ parse "000011110000" = .ok other ∧ parse "1X0110X1" = .ok short ∧
    Rom.chips [⟨unknown 2, data⟩, ⟨ofWord 3#64 2, other⟩] = .ok chips ∧ chips.length = 2 ∧
    (∀ chip ∈ chips, chip.map Entry.address = [unknown 2, ofWord 3#64 2]) ∧
    (∃ joined, BitField.concat (bytesAt chips 0) = .ok joined ∧ joined.text = "00001X0110X1X010") ∧
    (Rom.chips [⟨unknown 2, data⟩, ⟨ofWord 3#64 2, short⟩] = .error .widthMismatch ∨
      Rom.chips [⟨unknown 2, data⟩, ⟨ofWord 3#64 2, short⟩] = .error .outOfRange) := by
  have hdata : parse "1X0110X1X010" = .ok ⟨12, 2450#64, 3031#64⟩ := by decide
  have hother : parse "000011110000" = .ok ⟨12, 240#64, 4095#64⟩ := by decide
  have hshort : parse "1X0110X1" = .ok ⟨8, 153#64, 189#64⟩ := by decide
  have htext : text ⟨12, 2450#64, 3031#64⟩ = "1X0110X1X010" := by decide +kernel
  obtain ⟨hwords, hunlike⟩ := chips_lossless
  obtain ⟨chips, hchips, hlength, hentries, hbytes⟩ :=
    hwords [⟨unknown 2, ⟨12, 2450#64, 3031#64⟩⟩, ⟨ofWord 3#64 2, ⟨12, 240#64, 4095#64⟩⟩] 12
      (List.cons_ne_nil _ _) (by decide) (List.forall_mem_cons.mpr ⟨⟨canonical_parse hdata, rfl⟩,
        List.forall_mem_singleton.mpr ⟨canonical_parse hother, rfl⟩⟩)
  obtain ⟨joined, hjoined, -, hwritten⟩ := hbytes 0 _ rfl
  refine ⟨_, _, _, chips, hdata, hother, hshort, hchips, hlength, fun chip hchip => (hentries chip hchip).1,
    ⟨joined, hjoined, ?_⟩, hunlike _ _ _ List.mem_cons_self (List.mem_cons_of_mem _ List.mem_cons_self)
      (by decide)⟩
  rw [hwritten, hlength, htext]
  decide +kernel

end Microcomputer.Rom
