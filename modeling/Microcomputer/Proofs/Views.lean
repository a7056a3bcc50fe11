import Mathlib
import Microcomputer.Proofs.Simulation

/-!
# The bytes of an assembled program and where they are found

* `Line.Encoded` : a line of machine code as an encoding of an operation;
  `Assembler.encoded_of_process` : every line of machine code of an assembled program is one;
* `Program.exists_of_getElem?_codes` : the line of a byte, `Program.Indexed.place_unique` : there is only
  one;
* `Program.Indexed.locate?_index`, `Program.Indexed.locate?_eq_none` : looking up the line of an index;
* `Program.LaidOut` : the bytes of a program, their indices and its views;
  `Assembler.laidOut_of_process` : every assembled program is laid out so.
-/

namespace Microcomputer

open Program Traversal

/-! ## Lines of machine code -/

namespace Line

/-- A line of machine code as an encoding of the operation with a mnemonic: the words of the line have
the signature of the encoding, and its bytes are the instruction byte and a byte for each constant. -/
structure Encoded (line : Line) (mnemonic : String) (e : Encoding) : Prop where
  listed : (mnemonic, e) ∈ InstructionSet.named
  words : ∃ args, Text.words line.clean = mnemonic :: args ∧
    List.Forall₂ (fun arg c => Argument.classify arg = .ok c) args e.signature
  bytes : ∃ first constants, line.bytes = first :: constants ∧ first.kind = .instruction ∧
    first.bits = e.instruction ∧ constants.length = e.signature.countP Argument.isConstant ∧
    ∀ byte ∈ constants, byte.kind = .constant ∧ ∃ word, byte.bits = .ofWord word 8

end Line

theorem CodeByte.IsConstant.resolved {word : String} {byte after : CodeByte} (h : IsConstant word byte)
    {labels : List (String × Nat)} {places : List (String × Int)} {index : Nat}
    (hresolves : Resolves labels places { byte with index := index } after) :
    after.kind = .constant ∧ ∃ w, after.bits = .ofWord w 8 := by
  obtain ⟨bits, hbits, rfl⟩ := hresolves
  cases h with
  | _ =>
    simp only [constantBits, ofConstant, if_true] at hbits
    exact ⟨rfl, _, (byteBits_eq_ok.mp hbits).2⟩

theorem Line.encoded_of_reads {raw : String} {bytes : List CodeByte}
    (hreads : Content.Reads raw (.code bytes)) {labels : List (String × Nat)}
    {places : List (String × Int)} {line : Line} (hclean : line.clean = cleanText raw) {index : Nat}
    (hbytes : List.Forall₂ (CodeByte.Resolves labels places) (numberBytes index bytes) line.bytes) :
    ∃ mnemonic e, line.Encoded mnemonic e := by
  cases hreads with
  | codeLine hop _ hparse =>
    obtain ⟨entry, hentry, rfl⟩ := List.mem_map.mp hop
    obtain ⟨args, hwords, hparsed⟩ := Operation.parseLine_eq_ok hparse
    obtain ⟨e, he, hclasses, constants, hconstants, rfl⟩ := Encoding.bytes_eq_ok hparsed
    unfold numberBytes at hbytes
    obtain ⟨first, rest, hfirst, hrest, hline⟩ := List.forall₂_cons_left_iff.mp hbytes
    refine ⟨entry.1, e, InstructionSet.mem_named.mpr ⟨entry, hentry, rfl, he⟩,
      ⟨args, hclean ▸ hwords, hclasses⟩, first, rest, hline, ?_⟩
    obtain ⟨bits, hbits, rfl⟩ := hfirst
    cases hbits
    refine ⟨rfl, rfl, ?_, ?_⟩
    · rw [← hrest.length_eq, length_numberBytes, ← hconstants.length_eq,
        Instruction.length_constantArguments hclasses.length_eq]
    · intro byte hbyte
      have hresolved := forall₂_comp (forall₂_comp hconstants (forall₂_numberBytes constants _)) hrest
      obtain ⟨arg, -, _, ⟨old, hold, n, rfl⟩, hafter⟩ := exists_of_mem_right hresolved hbyte
      exact (CodeByte.isConstant_ofArgument hold).resolved hafter

namespace Assembler

/-- Line `n` of an assembled program, counted from 0, is the line of source with number `n + 1`. -/
theorem number_of_process {asm : Assembler} {source : List String} {lines : List Line}
    (h : asm.process source = .ok lines) {n : Nat} {line : Line} (hline : lines[n]? = some line) :
    source[n]? = some line.raw ∧ line.number = n + 1 := by
  obtain ⟨read, hread, herased, -⟩ := exists_of_process h
  obtain ⟨-, hfrom, -⟩ := readChecked_eq_ok.mp hread
  have hsame : (read.map Line.erased)[n]? = some line.erased := by
    rw [← herased, List.getElem?_map, hline]
    rfl
  rw [List.getElem?_map] at hsame
  obtain ⟨old, hold, heq⟩ := Option.map_eq_some_iff.mp hsame
  obtain ⟨raw, content, hsource, rfl⟩ := Line.exists_of_readFrom hfrom hold
  have hraw : raw = line.raw := congrArg Line.raw heq
  have hnumber : 1 + n = line.number := congrArg Line.number heq
  exact ⟨hraw ▸ hsource, by omega⟩

theorem encoded_of_process {start : Int} {source : List String} {final : List Line}
    (h : (standard start).process source = .ok final) {line : Line} (hmem : line ∈ final)
    (hcode : line.content.isCode = true) :
    ∃ mnemonic e, line.Encoded mnemonic e := by
  obtain ⟨lines, hread, herased, hresolves⟩ := exists_of_process h
  obtain ⟨-, hfrom, -⟩ := readChecked_eq_ok.mp hread
  obtain ⟨i, hline⟩ := List.mem_iff_getElem?.mp hmem
  obtain ⟨old, hold, hsame, hbytes⟩ := bytes_of_resolves herased hresolves hline
  obtain ⟨raw, -, rfl, hreads⟩ := forall₂_getElem? (Line.reads_of_readFrom hfrom) hold
  have hcleaned : old.clean = Line.cleanText old.raw := by
    obtain ⟨raw, content, -, rfl⟩ := Line.exists_of_readFrom hfrom hold
    dsimp only
  have hclean : line.clean = old.clean := (congrArg Line.clean hsame).symm
  have hcode' : old.content.isCode = line.content.isCode := by
    have hcodes := congrArg (fun l : Line => l.content.isCode) hsame
    simpa only [Line.erased, Content.isCode_erased] using hcodes
  rw [hcode] at hcode'
  cases hcontent : old.content with
  | code bytes =>
    rw [hcontent] at hreads
    rw [Line.bytes, hcontent] at hbytes
    exact Line.encoded_of_reads hreads (hclean.trans hcleaned) hbytes
  | _ =>
    rw [hcontent] at hcode'
    cases hcode'

end Assembler

theorem CodeByte.isResolved_of_bits {byte : CodeByte} {word : BitVec 64}
    (h : byte.bits = .ofWord word 8) : byte.isResolved = true ∧ byte.bits.word.toNat < 256 := by
  unfold isResolved
  rw [h]
  refine ⟨by simp [BitField.ofWord, BitField.isConcrete], ?_⟩
  have hmask : BitField.mask 8 = 255#64 := rfl
  rw [BitField.word, BitField.ofWord, hmask, BitVec.toNat_and]
  show _ &&& 255 < 256
  exact Nat.lt_succ_of_le Nat.and_le_right

theorem Line.Encoded.bits_eq {line : Line} {mnemonic : String} {e : Encoding}
    (h : line.Encoded mnemonic e) : ∀ byte ∈ line.bytes, ∃ word, byte.bits = .ofWord word 8 := by
  obtain ⟨first, constants, hbytes, -, hfirst, -, hconstants⟩ := h.bytes
  have hcoherent :=
    InstructionSet.coherent_encodings e (InstructionSet.mem_encodings_of_named h.listed)
  rw [hbytes, List.forall_mem_cons]
  exact ⟨⟨_, hfirst.trans hcoherent.instruction_eq⟩, fun byte hbyte => (hconstants byte hbyte).2⟩

/-! ## Finding the line of a byte -/

namespace Program

theorem bytes_of_not_isCode {line : Line} (h : line.content.isCode = false) : line.bytes = [] := by
  unfold Line.bytes
  cases hcontent : line.content with
  | code bytes =>
    rw [hcontent] at h
    cases h
  | _ => rfl

theorem codes_eq_filter (lines : List Line) : (Program.mk lines).codes =
    (lines.filter fun line => line.content.isCode).flatMap Line.bytes := by
  show lines.flatMap Line.bytes = _
  induction lines with
  | nil => rfl
  | cons line rest ih =>
    rw [List.flatMap_cons, ih]
    cases hcode : line.content.isCode with
    | true => rw [List.filter_cons_of_pos (by simpa using hcode), List.flatMap_cons]
    | false =>
      rw [List.filter_cons_of_neg (by simp [hcode]), bytes_of_not_isCode hcode, List.nil_append]

theorem exists_of_getElem?_codes {lines : List Line} {i : Nat} {byte : CodeByte}
    (h : (Program.mk lines).codes[i]? = some byte) :
    ∃ n line k, lines[n]? = some line ∧ line.bytes[k]? = some byte ∧
      i = totalBytes (lines.take n) + k := by
  unfold codes at h
  induction lines generalizing i with
  | nil => cases h
  | cons line rest ih =>
    rw [List.flatMap_cons] at h
    by_cases hi : i < line.bytes.length
    · rw [List.getElem?_append_left hi] at h
      exact ⟨0, line, i, rfl, h, (Nat.zero_add i).symm⟩
    · rw [List.getElem?_append_right (by omega)] at h
      obtain ⟨n, line', k, hline, hbyte, hk⟩ := ih h
      refine ⟨n + 1, line', k, hline, hbyte, ?_⟩
      rw [List.take_succ_cons, totalBytes_cons]
      omega

/-- The bytes of a line end before those of the lines behind it begin. -/
theorem totalBytes_take_lt {lines : List Line} {n n' k : Nat} {line : Line}
    (hline : lines[n]? = some line) (hk : k < line.bytes.length) (hn : n < n') :
    totalBytes (lines.take n) + k < totalBytes (lines.take n') := by
  have hend := totalBytes_take_succ hline
  have hle := totalBytes_take_le (lines.take n') (n + 1)
  rw [List.take_take, Nat.min_eq_left (by omega)] at hle
  omega

section

variable {lines : List Line} {n k : Nat} {line : Line} {byte : CodeByte}

theorem Indexed.place_unique (h : Indexed lines) {n' k' : Nat} {line' : Line} {byte' : CodeByte}
    (hline : lines[n]? = some line) (hbyte : line.bytes[k]? = some byte)
    (hline' : lines[n']? = some line') (hbyte' : line'.bytes[k']? = some byte')
    (hindex : byte.index = byte'.index) : n = n' ∧ k = k' := by
  rw [h n line hline k byte hbyte, h n' line' hline' k' byte' hbyte'] at hindex
  have hk := (List.getElem?_eq_some_iff.mp hbyte).1
  have hk' := (List.getElem?_eq_some_iff.mp hbyte').1
  rcases Nat.lt_trichotomy n n' with hlt | rfl | hlt
  · have := totalBytes_take_lt hline hk hlt
    omega
  · exact ⟨rfl, by omega⟩
  · have := totalBytes_take_lt hline' hk' hlt
    omega

/-- What a line answers to the question for an index. -/
theorem Indexed.locate_line (h : Indexed lines) (hline : lines[n]? = some line) (index : Int) :
    (match line.bytes with
      | [] => none
      | first :: rest => if first.index ≤ index ∧ index < first.index + (first :: rest).length then
          some (line, index - first.index) else none) =
      if (totalBytes (lines.take n) : Int) ≤ index ∧ index < totalBytes (lines.take (n + 1)) then
        some (line, index - totalBytes (lines.take n)) else none := by
  rw [totalBytes_take_succ hline]
  cases hbytes : line.bytes with
  | nil =>
    refine (if_neg ?_).symm
    rw [List.length_nil]
    omega
  | cons first rest =>
    have hfirst := h n line hline 0 first (by rw [hbytes]; rfl)
    simp only [hfirst, Nat.add_zero]
    push_cast
    rfl

/-- The line of an index is the one with the byte that has it. -/
theorem Indexed.locate?_index (h : Indexed lines) (hline : lines[n]? = some line)
    (hbyte : line.bytes[k]? = some byte) :
    (Program.mk lines).locate? byte.index = some (line, (k : Int)) := by
  have hk := (List.getElem?_eq_some_iff.mp hbyte).1
  have hindex := h n line hline k byte hbyte
  have hend := totalBytes_take_succ hline
  obtain ⟨hn, rfl⟩ := List.getElem?_eq_some_iff.mp hline
  unfold locate?
  rw [List.findSome?_eq_some_iff]
  refine ⟨lines.take n, lines[n], lines.drop (n + 1), ?_, ?_, ?_⟩
  · show lines = _
    rw [← List.drop_eq_getElem_cons hn, List.take_append_drop]
  · refine (h.locate_line hline _).trans ?_
    rw [if_pos (by omega), hindex, Nat.cast_add, add_sub_cancel_left]
  · intro earlier hearlier
    obtain ⟨m, hm, rfl⟩ := List.mem_take_iff_getElem.mp hearlier
    have hmline : lines[m]? = some lines[m] := List.getElem?_eq_getElem (by omega)
    have hle := totalBytes_take_le (lines.take n) (m + 1)
    rw [List.take_take, Nat.min_eq_left (by omega)] at hle
    exact (h.locate_line hmline _).trans (if_neg (by omega))

theorem Indexed.locate?_eq_none (h : Indexed lines) {index : Int}
    (hindex : ¬ (0 ≤ index ∧ index < totalBytes lines)) : (Program.mk lines).locate? index = none := by
  unfold locate?
  rw [List.findSome?_eq_none_iff]
  intro line hmem
  obtain ⟨n, hline⟩ := List.mem_iff_getElem?.mp hmem
  have hle := totalBytes_take_le lines (n + 1)
  exact (h.locate_line hline _).trans (if_neg (by omega))

end

/-! ## The views -/

/-- Byte `k` of line `n` has index `i`. -/
def PlacedAt (lines : List Line) (i : Int) (n : Nat) (line : Line) (k : Nat) : Prop :=
  lines[n]? = some line ∧ ∃ byte, line.bytes[k]? = some byte ∧ (byte.index : Int) = i

theorem exists_placedAt {lines : List Line} {n index : Nat}
    (h : (lines[n]?.any fun line => line.bytes[0]?.any (·.index = index)) = true) :
    ∃ line, PlacedAt lines index n line 0 := by
  obtain ⟨line, hline, hbytes⟩ := (Option.any_eq_true _ _).mp h
  obtain ⟨byte, hbyte, hindex⟩ := (Option.any_eq_true _ _).mp hbytes
  exact ⟨line, hline, byte, hbyte, congrArg Nat.cast (of_decide_eq_true hindex)⟩

/-- The bytes of a program in order, and what its views say about them. -/
structure LaidOut (program : Program) : Prop where
  /-- Every byte has 8 bits, none of them X. -/
  resolved : ∀ byte ∈ program.codes, byte.isResolved = true
  size_le : program.codes.length ≤ 255
  /-- The index of a byte is its position. -/
  index_eq : program.codes.map CodeByte.index = List.range program.codes.length
  /-- The bytes are those of the lines of machine code. -/
  codes_eq : program.codes =
    (program.lines.filter fun line => line.content.isCode).flatMap Line.bytes
  machineCode_eq : program.machineCode = program.codes.map CodeByte.bits
  /-- Nothing of a byte is lost in memory. -/
  binary_eq : program.binary.map UInt8.toNat = program.codes.map fun byte => byte.bits.word.toNat
  /-- Every index belongs to one byte of one line, which is found. -/
  located : ∀ i : Int, 0 ≤ i → i < program.codes.length →
    ∃ n line k, PlacedAt program.lines i n line k ∧ program.locate? i = some (line, (k : Int)) ∧
      ∀ n' line' k', PlacedAt program.lines i n' line' k' → n' = n ∧ k' = k
  /-- No other number is found. -/
  not_located : ∀ i : Int, ¬ (0 ≤ i ∧ i < program.codes.length) → program.locate? i = none

theorem Indexed.index_codes {lines : List Line} (h : Indexed lines) :
    (Program.mk lines).codes.map CodeByte.index = List.range (Program.mk lines).codes.length := by
  apply List.ext_getElem?
  intro i
  rw [List.getElem?_map]
  cases hbyte : (Program.mk lines).codes[i]? with
  | none =>
    rw [List.getElem?_eq_none_iff] at hbyte
    rw [List.getElem?_eq_none (by rwa [List.length_range])]
    rfl
  | some byte =>
    obtain ⟨n, line, k, hline, hk, rfl⟩ := exists_of_getElem?_codes hbyte
    rw [List.getElem?_range (List.getElem?_eq_some_iff.mp hbyte).1, Option.map_some,
      h n line hline k byte hk]

theorem Indexed.exists_place {lines : List Line} (h : Indexed lines) (i : Int) (hzero : 0 ≤ i)
    (hi : i < (Program.mk lines).codes.length) :
    ∃ n line k, PlacedAt lines i n line k ∧
      (Program.mk lines).locate? i = some (line, (k : Int)) ∧
      ∀ n' line' k', PlacedAt lines i n' line' k' → n' = n ∧ k' = k := by
  obtain ⟨i, rfl⟩ := Int.eq_ofNat_of_zero_le hzero
  have hlt : i < (Program.mk lines).codes.length := by omega
  obtain ⟨n, line, k, hline, hbyte, hplace⟩ :=
    exists_of_getElem?_codes (List.getElem?_eq_getElem hlt)
  have hindex := h n line hline k _ hbyte
  rw [← hplace] at hindex
  refine ⟨n, line, k, ⟨hline, _, hbyte, by rw [hindex]⟩, ?_, ?_⟩
  · rw [← hindex]
    exact h.locate?_index hline hbyte
  · rintro n' line' k' ⟨hline', byte', hbyte', hindex'⟩
    exact h.place_unique hline' hbyte' hline hbyte (by omega)

end Program

namespace Assembler

/-- The bytes of an assembled program are concrete and numbered in order, its views list the same bytes,
and the line of every index is found. -/
theorem laidOut_of_process {start : Int} {source : List String} {final : List Line}
    (h : (standard start).process source = .ok final) : LaidOut ⟨final⟩ := by
  obtain ⟨lines, hread, herased, hresolves⟩ := exists_of_process h
  obtain ⟨-, -, hvalid⟩ := readChecked_eq_ok.mp hread
  have hindexed := indexed_of_resolves herased hresolves
  have hbits : ∀ byte ∈ (Program.mk final).codes, ∃ word, byte.bits = .ofWord word 8 := by
    intro byte hbyte
    rw [codes_eq_filter] at hbyte
    obtain ⟨line, hline, hbyte⟩ := List.mem_flatMap.mp hbyte
    obtain ⟨hmem, hcode⟩ := List.mem_filter.mp hline
    obtain ⟨mnemonic, e, hencoded⟩ := encoded_of_process h hmem hcode
    exact hencoded.bits_eq byte hbyte
  refine ⟨?_, ?_, hindexed.index_codes, codes_eq_filter final, rfl, ?_, ?_, ?_⟩
  · intro byte hbyte
    obtain ⟨word, hword⟩ := hbits byte hbyte
    exact (CodeByte.isResolved_of_bits hword).1
  · show totalBytes final ≤ 255
    rw [totalBytes_congr herased]
    exact totalBytes_le hvalid
  · unfold binary machineCode
    rw [List.map_map, List.map_map]
    refine List.map_congr_left fun byte hbyte => ?_
    obtain ⟨word, hword⟩ := hbits byte hbyte
    exact UInt8.toNat_ofNat_of_lt' (CodeByte.isResolved_of_bits hword).2
  · exact hindexed.exists_place
  · exact fun i => hindexed.locate?_eq_none

/-- The byte with index 3 is the second one of the last line, which comes behind a line without bytes. -/
theorem laidOut_store_jump : ∃ final : List Line,
    (standard 250).process ["STORE ACC [$x]", "@loop", "JUMP @loop"] = .ok final ∧ LaidOut ⟨final⟩ ∧
      ∃ line, (Program.mk final).locate? 3 = some (line, 1) ∧ line.raw = "JUMP @loop" := by
  have hcheck : ((standard 250).process ["STORE ACC [$x]", "@loop", "JUMP @loop"]).toOption.any
      (fun final => ((Program.mk final).locate? 3).any fun place =>
        place.2 = 1 ∧ place.1.raw = "JUMP @loop") = true := by decide +kernel
  obtain ⟨final, hfinal, hplace⟩ := exists_ok_of_any hcheck
  obtain ⟨⟨line, offset⟩, hplace, hcheck⟩ := (Option.any_eq_true _ _).mp hplace
  obtain ⟨rfl, hraw⟩ := of_decide_eq_true hcheck
  exact ⟨final, hfinal, laidOut_of_process hfinal, line, hplace, hraw⟩

end Assembler

end Microcomputer
