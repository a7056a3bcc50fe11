import Mathlib
import Microcomputer.Proofs.Rows

/-!
# Fields in writing

A field is written as a text of 0, 1 and X. Whatever is done with the two words of a field can be done with
its text instead: texts are put one after the other, pieces are taken out of them and an X is written over.
Reading a text gives the field that is written that way, whether or not its digits are divided by underscores.

* `toList_text`, `eq_of_text` : a field is its text;
* `text_concat`, `exists_text_extract`, `text_fill`, `text_fillFrom` : what the operations do to it;
* `operations_in_writing` : all of them, and when they fail;
* `digits`, `Readable` : the characters of a text that stand for bits, and the texts that can be read;
* `row_push` : a bit that is read goes to the end of the row;
* `parseFrom_eq_ok`, `exists_parseFrom`, `parseFrom_append`, `parseFrom_eq_error` : reading from the left;
* `reads_as_written` : reading is the inverse of writing, and where it stops.
-/

namespace Microcomputer

/-! ## Characters -/

def Bit.marks : List Char := ['0', '1', 'X', 'x', '_']

/-- An X may be written small. -/
def Bit.capital (c : Char) : Char := if c = 'x' then 'X' else c

theorem Bit.char_orElse (b d : Bit) : (b.orElse d).char = if b.char = 'X' then d.char else b.char := by
  cases b <;> rfl

theorem Bit.char_ofBool (b : Bool) : (Bit.ofBool b).char = if b then '1' else '0' := by
  cases b <;> rfl

theorem Bit.ofChar?_char (b : Bit) : Bit.ofChar? b.char = some b := by
  cases b <;> rfl

theorem Bit.char_injective : Function.Injective Bit.char := by
  intro b d h
  have hsame := congrArg Bit.ofChar? h
  rw [Bit.ofChar?_char, Bit.ofChar?_char] at hsame
  exact Option.some.inj hsame

theorem Bit.ofChar?_eq_none_iff {c : Char} (hc : c ≠ '_') : Bit.ofChar? c = none ↔ c ∉ Bit.marks := by
  unfold Bit.ofChar? Bit.marks
  split <;> simp_all

theorem Bit.mem_marks {c : Char} {b : Bit} (hc : c ≠ '_') (h : Bit.ofChar? c = some b) : c ∈ Bit.marks := by
  by_contra hforeign
  rw [(Bit.ofChar?_eq_none_iff hc).mpr hforeign] at h
  cases h

theorem Bit.char_of_ofChar? {c : Char} {b : Bit} (h : Bit.ofChar? c = some b) :
    b.char = Bit.capital c := by
  unfold Bit.ofChar? at h
  split at h <;> cases h <;> rfl

namespace BitField

variable {f g h : BitField} {fs : List BitField}

theorem toList_text (f : BitField) : f.text.toList = f.row.map Bit.char := by
  rw [text_eq, String.toList_ofList]

theorem length_text (f : BitField) : f.text.length = f.width := by
  rw [text_eq, String.length_ofList, List.length_map, length_row]

theorem eq_of_text (hf : f.Canonical) (hg : g.Canonical) (htext : f.text = g.text) : f = g := by
  apply eq_of_row hf hg
  rw [← String.toList_inj, toList_text, toList_text] at htext
  exact Bit.char_injective.list_map htext

/-! ## Operations -/

theorem text_concat (hfs : ∀ f ∈ fs, f.Canonical) (e : concat fs = .ok h) :
    h.text = String.join (fs.map text) := by
  rw [← String.toList_inj, toList_text, String.toList_join, (row_concat hfs e).2, List.map_flatMap,
    List.flatMap_map]
  simp only [toList_text]

/-- A piece is written in the text of the field, with `low` characters behind it. -/
theorem exists_text_extract {high low : Int} (e : f.extract high low = .ok h) : ∃ left right,
    f.text = left ++ h.text ++ right ∧ right.length = low.toNat ∧ h.text.length = (high - low + 1).toNat := by
  obtain ⟨left, right, hrow, hright, hpiece⟩ := exists_row_extract e
  refine ⟨String.ofList (left.map Bit.char), String.ofList (right.map Bit.char), ?_, ?_, ?_⟩
  · rw [text_eq, text_eq, hrow, List.map_append, List.map_append, String.ofList_append, String.ofList_append]
  · rw [String.length_ofList, List.length_map, hright]
  · rw [length_text, ← length_row, hpiece]

theorem text_fill (hw : f.width ≤ 64) (bit : Bool) : (f.fill bit).text =
    f.text.map fun c => if c = 'X' then (if bit then '1' else '0') else c := by
  rw [← String.toList_inj, String.toList_map, toList_text, toList_text, row_fill hw, List.map_map, List.map_map]
  apply List.map_congr_left
  intro b _
  rw [Function.comp_apply, Function.comp_apply, Bit.char_orElse, Bit.char_ofBool]

theorem text_fillFrom (hw : f.width ≤ 64) (e : f.fillFrom g = .ok h) : h.text = String.ofList
    (List.zipWith (fun c d => if c = 'X' then d else c) f.text.toList g.text.toList) := by
  rw [text_eq, row_fillFrom hw e, toList_text, toList_text, List.map_zipWith, List.zipWith_map]
  simp only [Bit.char_orElse]

/-- In writing, fields are joined by putting their texts one after the other if these have up to 64 characters
in all, a piece within a field is a stretch of its text, counted from the right, and an X is written over by
one digit or by the character of a text of the same length; nothing else succeeds. A field that is cut in two
anywhere is its two parts joined. -/
theorem operations_in_writing (fs : List BitField) (f g : BitField) (high low : Int) (bit : Bool)
    (hfs : ∀ f ∈ fs, f.Canonical) (hf : f.Canonical) (hw : f.width ≤ 64) (hg : g.Canonical) :
    ((fs.map width).sum ≤ 64 →
      ∃ h, concat fs = .ok h ∧ h.Canonical ∧ h.text = String.join (fs.map text)) ∧
    (64 < (fs.map width).sum → concat fs = .error .outOfRange) ∧
    (0 ≤ low ∧ low ≤ high ∧ high < f.width → ∃ h left right, f.extract high low = .ok h ∧ h.Canonical ∧
      f.text = left ++ h.text ++ right ∧ right.length = low ∧ h.text.length = high - low + 1) ∧
    (¬ (0 ≤ low ∧ low ≤ high ∧ high < f.width) → f.extract high low = .error .outOfRange) ∧
    ((f.fill bit).Canonical ∧
      (f.fill bit).text = f.text.map fun c => if c = 'X' then (if bit then '1' else '0') else c) ∧
    (f.width = g.width → ∃ h, f.fillFrom g = .ok h ∧ h.Canonical ∧ h.text = String.ofList
      (List.zipWith (fun c d => if c = 'X' then d else c) f.text.toList g.text.toList)) ∧
    (f.width ≠ g.width → f.fillFrom g = .error .widthMismatch) ∧
    ∀ place : Nat, 0 < place → place < f.width → ∃ upper lower,
      f.extract (f.width - 1) place = .ok upper ∧ f.extract (place - 1) 0 = .ok lower ∧
      concat [upper, lower] = .ok f := by
  refine ⟨fun hsum => ?_, fun hsum => ?_, fun hinside => ?_, fun houtside => ?_,
    ⟨hf.fill bit, text_fill hw bit⟩, fun hwidth => ?_, fun hwidth => ?_, fun place => exists_split_at hf hw⟩
  · obtain ⟨h, e⟩ := exists_concat hsum
    exact ⟨h, e, (row_concat hfs e).1, text_concat hfs e⟩
  · cases e : concat fs with
    | error cause => rw [concat_eq_error e]
    | ok h =>
      have := width_concat e
      omega
  · obtain ⟨h, e⟩ := exists_extract hinside.1 hinside.2.1 hinside.2.2
    obtain ⟨left, right, htext, hright, hpiece⟩ := exists_text_extract e
    exact ⟨h, left, right, e, hf.extract e, htext, by omega, by omega⟩
  · cases e : f.extract high low with
    | error cause => rw [extract_eq_error e]
    | ok h => exact absurd (extract_eq_ok.mp e).1 houtside
  · have e := fillFrom_eq_ok.mpr ⟨hwidth, rfl⟩
    exact ⟨_, e, hf.fillFrom hg e, text_fillFrom hw e⟩
  · exact if_pos hwidth

/-- Two fields of four bits, joined, cut, filled and split, and what cannot be done with them. -/
theorem operations_in_writing_four_bits : ∃ f g h : BitField,
    parse "1XX0" = .ok f ∧ parse "0X11" = .ok g ∧ concat [f, g] = .ok h ∧ h.text = "1XX00X11" ∧
    concat (List.replicate 17 f) = .error .outOfRange ∧
    (∃ k left right, f.extract 2 1 = .ok k ∧ f.text = left ++ k.text ++ right ∧ right.length = 1 ∧
      k.text.length = 2) ∧
    f.extract 4 0 = .error .outOfRange ∧ (f.fill true).text = "1110" ∧
    (∃ k, f.fillFrom g = .ok k ∧ k.text = "1X10") ∧ f.fillFrom h = .error .widthMismatch ∧
    ∃ upper lower, f.extract 3 1 = .ok upper ∧ f.extract 0 0 = .ok lower ∧ concat [upper, lower] = .ok f := by
  have hf : parse "1XX0" = .ok ⟨4, 8#64, 9#64⟩ := by decide
  have hg : parse "0X11" = .ok ⟨4, 3#64, 11#64⟩ := by decide
  have hfs : ∀ k ∈ [(⟨4, 8#64, 9#64⟩ : BitField), ⟨4, 3#64, 11#64⟩], k.Canonical :=
    List.forall_mem_cons.mpr ⟨canonical_parse hf, List.forall_mem_singleton.mpr (canonical_parse hg)⟩
  obtain ⟨hjoin, -, hcut, -, hfill, hfrom, -, hsplit⟩ := operations_in_writing _ _ _ 2 1 true hfs
    (canonical_parse hf) (by decide) (canonical_parse hg)
  obtain ⟨h, hconcat, hcanonical, hwritten⟩ := hjoin (by decide)
  obtain ⟨-, hlong, -, houtside, -, -, hunlike, -⟩ := operations_in_writing
    (List.replicate 17 ⟨4, 8#64, 9#64⟩) _ h 4 0 true (fun k hk => by
      rw [List.eq_of_mem_replicate hk]
      exact canonical_parse hf) (canonical_parse hf) (by decide) hcanonical
  obtain ⟨piece, left, right, hpiece, -, htext, hright, hlength⟩ := hcut (by decide)
  obtain ⟨filled, hfilled, -, hfilledText⟩ := hfrom rfl
  refine ⟨_, _, h, hf, hg, hconcat, ?_, hlong (by decide),
    ⟨piece, left, right, hpiece, htext, by omega, by omega⟩, houtside (by decide), ?_,
    ⟨filled, hfilled, ?_⟩, hunlike ?_, hsplit 1 (by decide) (by decide)⟩
  · rw [hwritten]
    decide +kernel
  · rw [hfill.2]
    decide +kernel
  · rw [hfilledText]
    decide +kernel
  · rw [(width_concat hconcat).1]
    decide

/-! ## Reading -/

/-- The characters of a text that stand for bits. -/
def digits (cs : List Char) : List Char := cs.filter (· ≠ '_')

/-- The texts of up to 64 bits in the characters that a field may be written with. -/
structure Readable (cs : List Char) : Prop where
  marks : ∀ c ∈ cs, c ∈ Bit.marks
  length_le : (digits cs).length ≤ 64

theorem digits_cons {c : Char} (hc : c ≠ '_') (cs : List Char) : digits (c :: cs) = c :: digits cs := by
  rw [digits, List.filter_cons, if_pos (by simpa using hc), ← digits]

theorem row_push (hw : f.width < 64) (b : Bit) : (f.push b).row = f.row ++ [b] := by
  have hwidth : (f.push b).width = 1 + f.width := by cases b <;> exact Nat.add_comm _ _
  rw [row_split 1 f.width hwidth]
  congr 1
  · apply List.map_congr_left
    intro n hn
    have hlt : n < f.width := by simpa using hn
    have hshifted : ∀ w : BitVec 64, (w <<< 1).getLsbD (1 + n) = w.getLsbD n := by
      intro w
      rw [BitVec.getLsbD_shiftLeft]
      simp [show 1 + n < 64 by omega]
    have hone : (1#64).getLsbD (1 + n) = false := by
      rw [BitVec.getLsbD_one]
      simp
    apply bitAt_congr
    · cases b <;> simp only [push, BitVec.getLsbD_or, hshifted, hone, Bool.or_false]
    · intro _
      cases b <;> simp only [push, BitVec.getLsbD_or, hshifted, hone, Bool.or_false]
  · cases b <;> simp [push, bitAt]

theorem width_push (b : Bit) : (f.push b).width = f.width + 1 := by cases b <;> rfl

section

variable {text : String} {cs : List Char}

/-- What is read is written like the text, in capitals and without underscores. -/
theorem parseFrom_eq_ok (hw : f.width ≤ 64) (e : parseFrom text f cs = .ok h) :
    (∀ c ∈ cs, c ∈ Bit.marks) ∧ f.width + (digits cs).length ≤ 64 ∧
      h.row.map Bit.char = f.row.map Bit.char ++ (digits cs).map Bit.capital := by
  fun_induction parseFrom text f cs with
  | case1 f =>
    cases e
    exact ⟨by simp, by simpa [digits] using hw, by simp [digits]⟩
  | case2 f cs ih =>
    obtain ⟨hmarks, hlength, hrow⟩ := ih hw e
    exact ⟨List.forall_mem_cons.mpr ⟨by decide, hmarks⟩, hlength, hrow⟩
  | case3 => cases e
  | case4 => cases e
  | case5 f c cs hc b hb hfull ih =>
    have hlt : f.width < 64 := lt_of_le_of_ne hw hfull
    obtain ⟨hmarks, hlength, hrow⟩ := ih (by rw [width_push]; omega) e
    rw [width_push] at hlength
    refine ⟨List.forall_mem_cons.mpr ⟨Bit.mem_marks hc hb, hmarks⟩, ?_, ?_⟩
    · rw [digits_cons hc, List.length_cons]
      omega
    · rw [hrow, row_push hlt, digits_cons hc, List.map_append, List.map_singleton, Bit.char_of_ofChar? hb,
        List.append_assoc]
      rfl

theorem exists_parseFrom (hmarks : ∀ c ∈ cs, c ∈ Bit.marks) (hlength : f.width + (digits cs).length ≤ 64) :
    ∃ h, parseFrom text f cs = .ok h := by
  fun_induction parseFrom text f cs with
  | case1 f => exact ⟨f, rfl⟩
  | case2 f cs ih => exact ih (List.forall_mem_cons.mp hmarks).2 hlength
  | case3 f c cs hc hb => exact absurd (List.forall_mem_cons.mp hmarks).1 ((Bit.ofChar?_eq_none_iff hc).mp hb)
  | case4 f c cs hc b hb hfull =>
    rw [digits_cons hc, List.length_cons, hfull, maxWidth] at hlength
    omega
  | case5 f c cs hc b hb hfull ih =>
    rw [digits_cons hc, List.length_cons] at hlength
    exact ih (List.forall_mem_cons.mp hmarks).2 (by rw [width_push]; omega)

/-- Why reading stops at a character with `count` bits before it: it may not be there, or there is no room for
another bit. -/
inductive StopsAt (text : String) (count : Nat) (c : Char) : BitError → Prop where
  | foreign (hforeign : c ∉ Bit.marks) : StopsAt text count c (.notBits text)
  | surplus (hmark : c ∈ Bit.marks) (hdigit : c ≠ '_') (hfull : count = 64) : StopsAt text count c .outOfRange

theorem parseFrom_of_stopsAt {c : Char} {e : BitError} (h : StopsAt text f.width c e) :
    parseFrom text f (c :: cs) = .error e := by
  cases h with
  | foreign hforeign =>
    have hc : c ≠ '_' := by
      rintro rfl
      exact hforeign (by decide)
    rw [parseFrom, if_neg hc, (Bit.ofChar?_eq_none_iff hc).mpr hforeign]
  | surplus hmark hc hfull =>
    obtain ⟨b, hb⟩ := Option.ne_none_iff_exists'.mp fun hnone => (Bit.ofChar?_eq_none_iff hc).mp hnone hmark
    rw [parseFrom, if_neg hc, hb]
    exact if_pos hfull

theorem parseFrom_append (cs ds : List Char) :
    parseFrom text f (cs ++ ds) = parseFrom text f cs >>= fun k => parseFrom text k ds := by
  induction cs generalizing f with
  | nil => rfl
  | cons c cs ih =>
    rw [List.cons_append, parseFrom, parseFrom]
    split
    · exact ih
    · split
      · rfl
      · split
        · rfl
        · exact ih

theorem parseFrom_eq_error (hw : f.width ≤ 64) {e : BitError} (he : parseFrom text f cs = .error e) :
    ∃ before c after, cs = before ++ c :: after ∧ (∀ d ∈ before, d ∈ Bit.marks) ∧
      f.width + (digits before).length ≤ 64 ∧ StopsAt text (f.width + (digits before).length) c e := by
  fun_induction parseFrom text f cs with
  | case1 => cases he
  | case2 f cs ih =>
    obtain ⟨before, c, after, rfl, hmarks, hlength, hstops⟩ := ih hw he
    exact ⟨'_' :: before, c, after, rfl, List.forall_mem_cons.mpr ⟨by decide, hmarks⟩, hlength, hstops⟩
  | case3 f c cs hc hb =>
    cases he
    exact ⟨[], c, cs, rfl, by simp, hw, .foreign ((Bit.ofChar?_eq_none_iff hc).mp hb)⟩
  | case4 f c cs hc b hb hfull =>
    cases he
    exact ⟨[], c, cs, rfl, by simp, hw, .surplus (Bit.mem_marks hc hb) hc hfull⟩
  | case5 f c cs hc b hb hfull ih =>
    have hlt : f.width < 64 := lt_of_le_of_ne hw hfull
    obtain ⟨before, d, after, rfl, hmarks, hlength, hstops⟩ := ih (by rw [width_push]; omega) he
    have hcount : f.width + (digits (c :: before)).length = (f.push b).width + (digits before).length := by
      rw [digits_cons hc, List.length_cons, width_push]
      omega
    exact ⟨c :: before, d, after, rfl, List.forall_mem_cons.mpr ⟨Bit.mem_marks hc hb, hmarks⟩,
      hcount ▸ hlength, hcount ▸ hstops⟩

theorem parse_isOk_iff (text : String) : (∃ h, parse text = .ok h) ↔ Readable text.toList := by
  constructor
  · rintro ⟨h, e⟩
    obtain ⟨hmarks, hlength, -⟩ := parseFrom_eq_ok (by decide) e
    exact ⟨hmarks, by simpa [empty] using hlength⟩
  · intro hreadable
    apply exists_parseFrom hreadable.marks
    simpa [empty] using hreadable.length_le

theorem text_parse (e : parse text = .ok h) :
    h.text = String.ofList ((digits text.toList).map Bit.capital) := by
  obtain ⟨-, -, hrow⟩ := parseFrom_eq_ok (by decide) e
  rw [text_eq, hrow]
  rfl

/-- Reading fails at the first character that may not be there or has no room. -/
theorem parse_eq_error_iff {e : BitError} : parse text = .error e ↔ ∃ before c after,
    text.toList = before ++ c :: after ∧ Readable before ∧ StopsAt text (digits before).length c e := by
  constructor
  · intro he
    obtain ⟨before, c, after, hcs, hmarks, hlength, hstops⟩ := parseFrom_eq_error (by decide) he
    rw [show empty.width = 0 from rfl, Nat.zero_add] at hlength hstops
    exact ⟨before, c, after, hcs, ⟨hmarks, hlength⟩, hstops⟩
  · rintro ⟨before, c, after, hcs, hreadable, hstops⟩
    have hlength : empty.width + (digits before).length ≤ 64 := by
      rw [show empty.width = 0 from rfl, Nat.zero_add]
      exact hreadable.length_le
    obtain ⟨k, hk⟩ : ∃ k, parseFrom text empty before = .ok k := exists_parseFrom hreadable.marks hlength
    have hwidth : k.width = (digits before).length := by
      have hrow := congrArg List.length (parseFrom_eq_ok (by decide) hk).2.2
      simpa [length_row, empty] using hrow
    rw [parse, hcs, parseFrom_append, hk]
    exact parseFrom_of_stopsAt (hwidth ▸ hstops)

theorem parse_text (hf : f.Canonical) (hw : f.width ≤ 64) : parse f.text = .ok f := by
  have hmarks : ∀ b : Bit, b.char ∈ Bit.marks ∧ b.char ≠ '_' ∧ Bit.capital b.char = b.char := by
    intro b
    cases b <;> decide
  have hdigits : digits f.text.toList = f.text.toList := by
    rw [digits, List.filter_eq_self, toList_text]
    intro c hc
    obtain ⟨b, -, rfl⟩ := List.mem_map.mp hc
    simpa using (hmarks b).2.1
  have hreadable : Readable f.text.toList := by
    refine ⟨fun c hc => ?_, ?_⟩
    · rw [toList_text] at hc
      obtain ⟨b, -, rfl⟩ := List.mem_map.mp hc
      exact (hmarks b).1
    · rw [hdigits, String.length_toList, length_text]
      exact hw
  obtain ⟨h, e⟩ := (parse_isOk_iff f.text).mpr hreadable
  have htext : h.text = f.text := by
    rw [text_parse e, hdigits, toList_text, List.map_map, text_eq]
    congr 1
    apply List.map_congr_left
    intro b _
    exact (hmarks b).2.2
  rw [e, eq_of_text (canonical_parse e) hf htext]

/-- A text can be read if it has only the characters a field is written with and up to 64 of them stand for
bits; the field is then written like the text, with capitals and without underscores. Otherwise reading stops
at the first character that may not be there, naming the text, or at the 65th bit. What is written can be
read. -/
theorem reads_as_written (text : String) (f : BitField) (hf : f.Canonical) (hw : f.width ≤ 64) :
    ((∃ h, parse text = .ok h) ↔
      (∀ c ∈ text.toList, c ∈ ['0', '1', 'X', 'x', '_']) ∧ (text.toList.filter (· ≠ '_')).length ≤ 64) ∧
    (∀ h, parse text = .ok h → h.Canonical ∧
      h.text = String.ofList ((text.toList.filter (· ≠ '_')).map fun c => if c = 'x' then 'X' else c)) ∧
    (∀ e, parse text = .error e ↔ ∃ before c after, text.toList = before ++ c :: after ∧ Readable before ∧
      StopsAt text (digits before).length c e) ∧
    parse f.text = .ok f := by
  refine ⟨?_, fun h e => ⟨canonical_parse e, text_parse e⟩, fun e => parse_eq_error_iff, parse_text hf hw⟩
  rw [parse_isOk_iff]
  exact ⟨fun h => ⟨h.marks, h.length_le⟩, fun h => ⟨h.1, h.2⟩⟩

/-- A text with an underscore and a small x, one with a letter that writes no bit, and the same letter behind 64
bits: it comes before the lack of room. -/
theorem reads_as_written_divided : ∃ f : BitField, parse "1_xX0" = .ok f ∧ f.text = "1XX0" ∧
    parse f.text = .ok f ∧ parse "10_2x" = .error (.notBits "10_2x") ∧
    parse (String.ofList (List.replicate 64 'X' ++ ['2', '1'])) =
      .error (.notBits (String.ofList (List.replicate 64 'X' ++ ['2', '1']))) ∧
    parse (String.ofList (List.replicate 64 'X' ++ ['_', '1', '2'])) = .error .outOfRange := by
  have hparse : parse "1_xX0" = .ok ⟨4, 8#64, 9#64⟩ := by decide
  have hall := fun text => reads_as_written text _ (canonical_parse hparse) (by decide)
  obtain ⟨-, hwritten, -, hback⟩ := hall "1_xX0"
  have hunknown : ∀ c ∈ List.replicate 64 'X', c ∈ Bit.marks := by
    intro c hc
    rw [List.eq_of_mem_replicate hc]
    decide
  refine ⟨_, hparse, ?_, hback, ?_, ?_, ?_⟩
  · rw [(hwritten _ hparse).2]
    decide
  · exact ((hall _).2.2.1 _).mpr ⟨['1', '0', '_'], '2', ['x'], rfl, ⟨by simp [Bit.marks], by decide⟩,
      .foreign (by decide)⟩
  · exact ((hall _).2.2.1 _).mpr ⟨List.replicate 64 'X', '2', ['1'], String.toList_ofList,
      ⟨hunknown, by decide⟩, .foreign (by decide)⟩
  · refine ((hall _).2.2.1 _).mpr ⟨List.replicate 64 'X' ++ ['_'], '1', ['2'], String.toList_ofList,
      ⟨fun c hc => ?_, by decide⟩, .surplus (by decide) (by decide) (by decide)⟩
    rcases List.mem_append.mp hc with hc | hc
    · exact hunknown c hc
    · rw [List.mem_singleton.mp hc]
      decide

end

end BitField

end Microcomputer
