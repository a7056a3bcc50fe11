import Mathlib
import Microcomputer.Proofs.Formatting
import Microcomputer.Proofs.Literals
import Microcomputer.Proofs.Matching
import Microcomputer.Proofs.Ordering
import Microcomputer.Proofs.Views

/-!
# Numbers in programs

* `Word.Spells n word` : the words for `n`, a literal behind an optional mark and an optional sign;
  `Word.Spells.number?_eq` : they have the value `n`;
* `Word.number_iff_holds` : the words that are numbers, which are these but for what is passed over
  around a literal;
* `Content.read_of_number`, `Content.read_of_large_number` : a line `SET A` with a number;
* `Assembler.process_spelled` : a number from its word to its byte, or to the error that it is too large.
-/

namespace Microcomputer

open Traversal

namespace Word

/-! ## Words -/

/-- A sign and what it makes of a magnitude. -/
inductive Sign : List Char → Nat → Int → Prop
  | none {m : Nat} : Sign [] m m
  | plus {m : Nat} : Sign ['+'] m m
  | minus {m : Nat} : Sign ['-'] m (-m)

/-- A word for a number that is a mark or none, a sign or none and a literal, and nothing else. -/
inductive Spells (n : Int) (word : String) : Prop
  | intro {mark sign digits : List Char} {m : Nat} : word.toList = mark ++ (sign ++ digits) →
      mark = [] ∨ mark = ['#'] → Sign sign m n → Literal.Spells m digits → Spells n word

theorem Sign.natAbs_eq {sign : List Char} {m : Nat} {n : Int} (h : Sign sign m n) : n.natAbs = m := by
  cases h <;> simp

theorem Sign.signed {sign : List Char} {m : Nat} {n : Int} (h : Sign sign m n) :
    Literal.Signed sign m n := by
  cases h with
  | none => exact .bare
  | plus => exact .plus .none
  | minus => exact .minus .none

theorem sign_of_signed {sign : List Char} {m : Nat} {n : Int} (h : Literal.Signed sign m n)
    (hplain : ∀ c ∈ sign, c ∉ Literal.closers) : Sign sign m n := by
  cases h with
  | bare => exact .none
  | plus hgap =>
    obtain rfl := hgap.eq_nil fun c hc => hplain c (List.mem_cons_of_mem _ hc)
    exact .plus
  | minus hgap =>
    obtain rfl := hgap.eq_nil fun c hc => hplain c (List.mem_cons_of_mem _ hc)
    exact .minus

theorem exists_mark (text : List Char) :
    ∃ mark, (mark = [] ∨ mark = ['#']) ∧ text = mark ++ dropMark text := by
  unfold dropMark
  split
  · exact ⟨['#'], .inr rfl, rfl⟩
  · exact ⟨[], .inl rfl, rfl⟩

/-- The mark of a number is dropped, and nothing of a number without one. -/
theorem dropMark_append {mark text : List Char} (hmark : mark = [] ∨ mark = ['#'])
    (htext : text.head? ≠ some '#') : dropMark (mark ++ text) = text := by
  obtain rfl | rfl := hmark
  · rw [List.nil_append, dropMark]
    rintro rest rfl
    exact htext rfl
  · rfl

theorem isAlphanum_of_sign {sign digits : List Char} {m : Nat} {n : Int} (hsign : Sign sign m n)
    (hdigits : Literal.Spells m digits) :
    ∀ c ∈ sign ++ digits, c.isAlphanum = true ∨ c = '+' ∨ c = '-' := by
  intro c hc
  rcases List.mem_append.mp hc with hc | hc
  · cases hsign with
    | none => cases hc
    | plus => exact .inr (.inl (List.mem_singleton.mp hc))
    | minus => exact .inr (.inr (List.mem_singleton.mp hc))
  · exact .inl (hdigits.isAlphanum c hc)

theorem Spells.exists_sign {n : Int} {word : String} (h : Spells n word) :
    ∃ sign digits m, dropMark word.toList = sign ++ digits ∧ Sign sign m n ∧ Literal.Spells m digits := by
  obtain @⟨mark, sign, digits, m, hword, hmark, hsign, hdigits⟩ := h
  refine ⟨sign, digits, m, ?_, hsign, hdigits⟩
  rw [hword]
  refine dropMark_append hmark fun hhead => ?_
  have hmem := isAlphanum_of_sign hsign hdigits '#' (List.mem_of_head? hhead)
  exact absurd hmem (by decide)

theorem Spells.isAlphanum {n : Int} {word : String} (h : Spells n word) :
    ∀ c ∈ dropMark word.toList, c.isAlphanum = true ∨ c = '+' ∨ c = '-' := by
  obtain ⟨sign, digits, m, hword, hsign, hdigits⟩ := h.exists_sign
  rw [hword]
  exact isAlphanum_of_sign hsign hdigits

theorem number?_eq_some {word : String} {n : Int} :
    number? word = some n ↔ (∀ c ∈ dropMark word.toList, c ≠ ' ' ∧ c ≠ '\t' ∧ c ≠ '\n') ∧
      Literal.Holds n (dropMark word.toList) := by
  unfold number?
  rw [← Literal.value?_eq_some_iff, Option.ite_none_left_eq_some]
  simp [and_assoc]

theorem Spells.number?_eq {n : Int} {word : String} (h : Spells n word) (hn : n.natAbs ≤ Literal.largest) :
    number? word = some n := by
  obtain ⟨sign, digits, m, hword, hsign, hdigits⟩ := h.exists_sign
  rw [number?_eq_some]
  constructor
  · intro c hc
    refine ⟨?_, ?_, ?_⟩ <;> rintro rfl <;> exact absurd (h.isAlphanum _ hc) (by decide)
  · have hholds := Literal.Holds.intro .none hsign.signed hdigits (hsign.natAbs_eq ▸ hn)
      (.finish .none (.nothing .none))
    simpa [hword] using hholds

/-- The words that are numbers: behind the mark is no blank, and a literal of the value with what is passed
over around it. If nothing is there to be passed over, these are the words for the number. -/
theorem number_iff_holds (word : String) (n : Int) :
    (number? word = some n ↔ (∀ c ∈ dropMark word.toList, c ≠ ' ' ∧ c ≠ '\t' ∧ c ≠ '\n') ∧
      Literal.Holds n (dropMark word.toList)) ∧
    ((∀ c ∈ dropMark word.toList, c ∉ Literal.closers) →
      (number? word = some n ↔ Spells n word ∧ n.natAbs ≤ Literal.largest)) := by
  refine ⟨number?_eq_some, fun hplain => ⟨fun h => ?_, fun ⟨hspells, hn⟩ => hspells.number?_eq hn⟩⟩
  obtain ⟨mark, hmark, hword⟩ := exists_mark word.toList
  obtain ⟨-, hholds⟩ := number?_eq_some.mp h
  generalize dropMark word.toList = text at hplain hword hholds
  obtain @⟨lead, sign, digits, trail, fresh, m, hlead, hsign, hspells, hle, htrail⟩ := hholds
  have hsign' : Sign sign m n := sign_of_signed hsign fun c hc => hplain c (by simp [hc])
  obtain rfl : lead = [] := hlead.eq_nil fun c hc => hplain c (by simp [hc])
  obtain rfl : trail = [] := htrail.eq_nil fun c hc => hplain c (by simp [hc])
  refine ⟨.intro ?_ hmark hsign' hspells, hsign'.natAbs_eq ▸ hle⟩
  simpa using hword

/-- Letters of both cases, a mark and a sign leave nothing to be passed over. -/
theorem number_hexadecimal : number? "#-0x1F" = some (-31) ∧ Spells (-31) "#-0x1F" := by
  have hnumber : number? "#-0x1F" = some (-31) := by decide +kernel
  obtain ⟨-, hplain⟩ := number_iff_holds "#-0x1F" (-31)
  exact ⟨hnumber, ((hplain (by simp [dropMark, Literal.closers])).mp hnumber).1⟩

/-- A word may go on behind the literal: what follows `#` is passed over, and the word is assembled as the
number that stands before it. -/
theorem number_not_spelled : number? "5#foo" = some 5 ∧ (∀ n, ¬ Spells n "5#foo") ∧
    ∃ final, (Assembler.standard 0).process ["SET A 5#foo"] = .ok final ∧
      (final.flatMap Line.bytes).map CodeByte.value = [49, 5] := by
  refine ⟨by decide +kernel, fun n h => ?_, ?_⟩
  · exact absurd (h.isAlphanum '#' (by decide)) (by decide)
  · obtain ⟨final, hfinal, hbytes⟩ := exists_ok_of_any (show ((Assembler.standard 0).process
      ["SET A 5#foo"]).toOption.any (fun final =>
        decide ((final.flatMap Line.bytes).map CodeByte.value = [49, 5])) = true by decide +kernel)
    exact ⟨final, hfinal, by simpa using hbytes⟩

/-- A word for a number is a word of a line, and starts no comment. -/
theorem Spells.isWord {n : Int} {word : String} (h : Spells n word) :
    Text.IsWord word ∧ ¬ Line.marker <:+: word.toList := by
  have hchars : ∀ c ∈ word.toList, c.isAlphanum = true ∨ c = '+' ∨ c = '-' ∨ c = '#' := by
    intro c hc
    obtain ⟨mark, hmark, hword⟩ := exists_mark word.toList
    rw [hword, List.mem_append] at hc
    rcases hc with hc | hc
    · obtain rfl | rfl := hmark
      · cases hc
      · exact .inr (.inr (.inr (List.mem_singleton.mp hc)))
    · rcases h.isAlphanum c hc with hc | hc | hc
      · exact .inl hc
      · exact .inr (.inl hc)
      · exact .inr (.inr (.inl hc))
  refine ⟨⟨?_, fun c hc => ?_⟩, fun hmarker => ?_⟩
  · rintro rfl
    obtain ⟨sign, digits, m, hword, -, hdigits⟩ := h.exists_sign
    obtain ⟨c, hc, -⟩ := hdigits.head
    obtain ⟨-, rfl⟩ := List.append_eq_nil_iff.mp hword.symm
    cases hc
  · rcases hchars c hc with hc | rfl | rfl | rfl
    · exact isBlank_of_isNamePart (by simp [isNamePart, hc])
    · rfl
    · rfl
    · rfl
  · have hslash := hchars '/' (hmarker.subset (by simp [Line.marker]))
    exact absurd hslash (by decide)

end Word

/-! ## Lines -/

namespace Line

theorem words_cleanText_intercalate {ws : List String}
    (h : ∀ w ∈ ws, Text.IsWord w ∧ ¬ marker <:+: w.toList) :
    Text.words (cleanText (String.intercalate " " ws)) = ws := by
  rw [words_cleanText, beforeComment_eq_self (not_infix_intercalate fun w hw => (h w hw).2),
    String.ofList_toList, Text.words_intercalate fun w hw => (h w hw).1]

theorem readFrom_of_unreadable {ops : List Operation} {before : List String}
    (hbefore : ∀ other ∈ before, ∃ content, Content.read ops (cleanText other) = .ok content)
    {raw : String} {failure : Failure} (h : Content.read ops (cleanText raw) = .error failure)
    (number : Nat) (after : List String) : readFrom ops number (before ++ raw :: after) =
      .error (failure.wrap (.assembly .line (number + before.length : Nat) raw "")) := by
  induction before generalizing number with
  | nil => exact Assembler.readFrom_cons_error h number after
  | cons other before ih =>
    rw [List.forall_mem_cons] at hbefore
    obtain ⟨⟨content, hcontent⟩, hbefore⟩ := hbefore
    rw [List.cons_append, Assembler.readFrom_cons_ok hcontent, ih hbefore, List.length_cons,
      Nat.add_right_comm, Nat.add_assoc]
    rfl

end Line

namespace Content

/-- A line with arguments is what the operation of its first word makes of the arguments. -/
theorem read_of_words {entry : String × List Encoding} (hentry : entry ∈ InstructionSet.table)
    {clean arg : String} {args : List String} (hwords : Text.words clean = entry.1 :: arg :: args) :
    read Operation.all clean = ((Operation.parseWith entry.1 entry.2 (arg :: args)).map code).mapError
      fun e => .error (.line clean "" e) := by
  have hop : Operation.ofEncodings entry.1 entry.2 ∈ Operation.all :=
    List.mem_map.mpr ⟨entry, hentry, rfl⟩
  have hcode := readCode_of_mnemonic Operation.nodup_mnemonics
    (fun op hop => Operation.selective_of_mem hop) hop hwords
  rw [Operation.parseLine_of_words hwords] at hcode
  unfold read
  simp only [hwords, hcode]
  cases Operation.parseWith entry.1 entry.2 (arg :: args) <;> rfl

end Content

/-! ## `SET A` with a number -/

theorem Word.isConstant_of_number {word : String} {n : Int} (h : number? word = some n) :
    isConstant word = true := by
  simp [isConstant, isNumber, h]

namespace InstructionSet

theorem set_mem_table : ("SET", set) ∈ table := by simp [table]

theorem set_a_mem : [.register .a false, .constant false] ∈ set.map Encoding.signature := by decide +kernel

variable {word : String} {n : Int} (hnumber : Word.number? word = some n)

include hnumber

theorem shapes_of_number :
    List.Forall₂ Argument.Shape ["A", word] [.register .a false, .constant false] :=
  .cons (.plainRegister .a) (.cons (.plainConstant (Word.isConstant_of_number hnumber)) .nil)

theorem bytes_of_number (hrange : -128 ≤ n ∧ n ≤ 255) :
    ∃ bits, Encoding.bytes set ["A", word] = .ok [.instruction bits, .ofConstant .number word n] := by
  obtain ⟨e, he, hsig⟩ := List.mem_map.mp set_a_mem
  refine ⟨e.instruction, ?_⟩
  rw [Encoding.bytes_eq_ok_iff (nodup_signatures _ set_mem_table)]
  refine ⟨e, he, hsig ▸ shapes_of_number hnumber, [.ofConstant .number word n], ?_, rfl⟩
  rw [hsig]
  refine .cons ?_ .nil
  rw [Word.stripped_of_isConstant (Word.isConstant_of_number hnumber)]
  exact .ofNumber hnumber (by omega)

theorem bytes_of_large_number (hrange : ¬ (-128 ≤ n ∧ n ≤ 255)) :
    Encoding.bytes set ["A", word] = .error (.bits (.numberRange n 8)) := by
  rw [Encoding.bytes_eq_error_iff (nodup_signatures _ set_mem_table)]
  have hsplit : Encoding.constantArguments [.register .a false, .constant false] ["A", word] =
      [] ++ word :: [] := rfl
  refine .outOfRange set_a_mem (shapes_of_number hnumber) hsplit (by simp) ?_ hrange
  rwa [Word.stripped_of_isConstant (Word.isConstant_of_number hnumber)]

end InstructionSet

namespace Content

variable {word raw : String} {n : Int} (hnumber : Word.number? word = some n)
  (hwords : Text.words (Line.cleanText raw) = ["SET", "A", word])

include hnumber hwords

theorem read_of_number (hrange : -128 ≤ n ∧ n ≤ 255) :
    ∃ bits, read Operation.all (Line.cleanText raw) =
      .ok (.code [.instruction bits, .ofConstant .number word n]) := by
  obtain ⟨bits, hbits⟩ := InstructionSet.bytes_of_number hnumber hrange
  refine ⟨bits, ?_⟩
  rw [read_of_words InstructionSet.set_mem_table hwords, Operation.parseWith, hbits]
  rfl

theorem read_of_large_number (hrange : ¬ (-128 ≤ n ∧ n ≤ 255)) :
    read Operation.all (Line.cleanText raw) = .error (.error (.line (Line.cleanText raw) ""
      (.arguments "SET" ["A", word] (InstructionSet.set.map Encoding.signature)
        (.bits (.numberRange n 8))))) := by
  rw [read_of_words InstructionSet.set_mem_table hwords, Operation.parseWith,
    InstructionSet.bytes_of_large_number hnumber hrange]
  rfl

end Content

theorem byteBits_toNat {value : Int} {bits : BitField} (h : byteBits value = .ok bits)
    (hlt : bits.word.toNat < 256) : (bits.word.toNat : Int) = value % 256 := by
  have hvalue : bits.word.toNat % 256 = (value % 256).toNat % 256 := congrArg UInt8.toNat (byteBits_value h)
  omega

theorem CodeByte.resolved_number {labels : List (String × Nat)} {places : List (String × Int)}
    {word : String} {n : Int} {index : Nat} {after : CodeByte}
    (h : Resolves labels places { ofConstant .number word n with index := index } after) :
    after.isResolved = true ∧ (after.bits.word.toNat : Int) = n % 256 := by
  obtain ⟨bits, hbits, hafter⟩ := h
  have hvalue : byteBits n = .ok bits := hbits
  obtain rfl : after.bits = bits := by rw [hafter]
  obtain ⟨hresolved, hlt⟩ := isResolved_of_bits (byteBits_eq_ok.mp hvalue).2
  exact ⟨hresolved, byteBits_toNat hvalue hlt⟩

theorem Program.valid_of_number {start : Int} (hstart : start ≤ 255) (bits : BitField) (word : String)
    (n : Int) : Valid start [.code [.instruction bits, .ofConstant .number word n]] := by
  have hvariables : [Content.code [.instruction bits, .ofConstant .number word n]].flatMap
      Content.variableNames = [] := rfl
  have hlabels : (Content.code [.instruction bits, .ofConstant .number word n]).usedLabels = [] := rfl
  refine ⟨List.nodup_nil, (separated_cons_other rfl).mpr ?_, ?_, List.nodup_nil, ?_, ?_, ?_⟩
  · simp [Separated]
  · simp [hlabels]
  · simp [hvariables]
  · rw [hvariables]
    simpa using hstart.trans (by decide)
  · simp [Content.bytes]

namespace Assembler

section

variable {word raw : String} {n : Int} (hnumber : Word.number? word = some n)
  (hwords : Text.words (Line.cleanText raw) = ["SET", "A", word]) {start : Int}

include hnumber hwords

theorem process_of_number (hrange : -128 ≤ n ∧ n ≤ 255) (hstart : 0 ≤ start ∧ start ≤ 255) :
    ∃ line, (standard start).process [raw] = .ok [line] := by
  obtain ⟨bits, hcontent⟩ := Content.read_of_number hnumber hwords hrange
  obtain ⟨lines, hfrom, hcontents⟩ := Line.readFrom_of_reads (.cons (Content.read_eq_ok.mp hcontent) .nil) 1
  have hread : (standard start).readChecked [raw] = .ok lines :=
    readChecked_eq_ok.mpr ⟨hstart, hfrom, hcontents ▸ Program.valid_of_number hstart.2 bits word n⟩
  obtain ⟨final, hfinal⟩ := resolve_of_readChecked hread
  have hprocess : (standard start).process [raw] = .ok final :=
    bind_eq_ok.mpr ⟨_, hread, mapError_eq_ok.mpr hfinal⟩
  obtain ⟨line, rfl, -⟩ := List.map_eq_singleton_iff.mp (raw_of_process hprocess)
  exact ⟨line, hprocess⟩

theorem process_of_large_number (hrange : ¬ (-128 ≤ n ∧ n ≤ 255)) (hstart : 0 ≤ start ∧ start ≤ 255)
    {before : List String} (hbefore : ∀ other ∈ before, ∃ content, Content.Reads other content)
    (after : List String) : (standard start).process (before ++ raw :: after) =
      .error (.error (.assembly .line (before.length + 1 : Nat) raw "" (.line (Line.cleanText raw) ""
        (.arguments "SET" ["A", word] (InstructionSet.set.map Encoding.signature)
          (.bits (.numberRange n 8)))))) := by
  have hfrom := Line.readFrom_of_unreadable (fun other hother => (hbefore other hother).imp
    fun content => Content.read_eq_ok.mpr) (Content.read_of_large_number hnumber hwords hrange) 1 after
  have hstarts : (standard start).startsInMemory = true := by
    rw [startsInMemory, Bool.and_eq_true, decide_eq_true_eq, decide_eq_true_eq]
    exact hstart
  rw [process, readChecked, hstarts, standard, hfrom, Nat.add_comm]
  rfl

theorem byte_of_number {source : List String} {final : List Line}
    (h : (standard start).process source = .ok final) {line : Line} (hline : line ∈ final)
    (hraw : line.raw = raw) : (-128 ≤ n ∧ n ≤ 255) ∧ ∃ first second, line.bytes = [first, second] ∧
      second.isResolved = true ∧ (second.bits.word.toNat : Int) = n % 256 := by
  obtain ⟨lines, hread, herased, hresolves⟩ := exists_of_process h
  obtain ⟨-, hfrom, -⟩ := readChecked_eq_ok.mp hread
  obtain ⟨i, hline⟩ := List.mem_iff_getElem?.mp hline
  obtain ⟨old, hold, hsame, hbytes⟩ := bytes_of_resolves herased hresolves hline
  obtain ⟨_, -, rfl, hreads⟩ := forall₂_getElem? (Line.reads_of_readFrom hfrom) hold
  have hsameRaw : old.erased.raw = line.erased.raw := congrArg Line.raw hsame
  obtain rfl : old.raw = raw := hsameRaw.trans hraw
  have hcontent := Content.read_eq_ok.mpr hreads
  have hrange : -128 ≤ n ∧ n ≤ 255 := by
    by_contra hrange
    rw [Content.read_of_large_number hnumber hwords hrange] at hcontent
    cases hcontent
  refine ⟨hrange, ?_⟩
  obtain ⟨bits, hcode⟩ := Content.read_of_number hnumber hwords hrange
  rw [hcode] at hcontent
  rw [Line.bytes, ← Except.ok.inj hcontent] at hbytes
  simp only [Content.bytes, Line.numberBytes] at hbytes
  obtain ⟨first, _, -, hrest, hall⟩ := List.forall₂_cons_left_iff.mp hbytes
  obtain ⟨second, _, hsecond, hnil, rfl⟩ := List.forall₂_cons_left_iff.mp hrest
  cases hnil
  exact ⟨first, second, hall, CodeByte.resolved_number hsecond⟩

end

/-- Every number survives the assembler, however it is written. Its word has its value. Behind `SET A` it is
accepted exactly if it fits a byte, and its byte in any program is its value modulo 256. If it does not
fit, a program is refused at this line, with the number, once the lines before it can be read. -/
theorem process_spelled {n : Int} (hn : n.natAbs ≤ 2 ^ 63 - 1) {word : String} (h : Word.Spells n word) :
    Word.number? word = some n ∧ Text.words (Line.cleanText ("SET A " ++ word)) = ["SET", "A", word] ∧
    ∀ start, 0 ≤ start ∧ start ≤ 255 → ∀ raw, Text.words (Line.cleanText raw) = ["SET", "A", word] →
      ((∃ line, (standard start).process [raw] = .ok [line]) ↔ -128 ≤ n ∧ n ≤ 255) ∧
      (∀ source final, (standard start).process source = .ok final → ∀ line ∈ final, line.raw = raw →
        ∃ first second, line.bytes = [first, second] ∧ second.isResolved = true ∧
          (second.bits.word.toNat : Int) = n % 256) ∧
      (¬ (-128 ≤ n ∧ n ≤ 255) → ∀ before after,
        (∀ other ∈ before, ∃ content, Content.Reads other content) →
        (standard start).process (before ++ raw :: after) =
          .error (.error (.assembly .line (before.length + 1 : Nat) raw "" (.line (Line.cleanText raw) ""
            (.arguments "SET" ["A", word] (InstructionSet.set.map Encoding.signature)
              (.bits (.numberRange n 8))))))) := by
  have hnumber : Word.number? word = some n := h.number?_eq (by simpa [Literal.largest] using hn)
  have hall : ∀ w ∈ ["SET", "A", word], Text.IsWord w ∧ ¬ Line.marker <:+: w.toList := by
    have hset : Text.IsWord "SET" ∧ ¬ Line.marker <:+: "SET".toList :=
      ⟨by simp [Text.IsWord, Text.isBlank], by decide⟩
    have ha : Text.IsWord "A" ∧ ¬ Line.marker <:+: "A".toList :=
      ⟨by simp [Text.IsWord, Text.isBlank], by decide⟩
    simpa using ⟨hset, ha, h.isWord⟩
  have hclean : String.intercalate " " ["SET", "A", word] = "SET A " ++ word := by
    rw [String.intercalate_cons_cons, String.intercalate_cons_cons, String.intercalate_singleton,
      ← String.append_assoc, ← String.append_assoc]
    rfl
  refine ⟨hnumber, hclean ▸ Line.words_cleanText_intercalate hall, fun start hstart raw hwords => ⟨?_, ?_, ?_⟩⟩
  · refine ⟨?_, fun hrange => process_of_number hnumber hwords hrange hstart⟩
    rintro ⟨line, hprocess⟩
    have hraw : line.raw = raw := by simpa using raw_of_process hprocess
    exact (byte_of_number hnumber hwords hprocess (by simp) hraw).1
  · intro source final hprocess line hline hraw
    exact (byte_of_number hnumber hwords hprocess hline hraw).2
  · intro hrange before after hbefore
    exact process_of_large_number hnumber hwords hrange hstart hbefore after

/-- A negative number in hexadecimal digits fits a byte, a binary one of nine digits does not. -/
theorem process_spelled_bases :
    (∃ line, (standard 16).process ["SET A #-0x1F // low"] = .ok [line]) ∧
    (standard 16).process ["NOOP", "SET A 0B100000000"] =
      .error (.error (.assembly .line 2 "SET A 0B100000000" "" (.line "SET A 0B100000000" ""
        (.arguments "SET" ["A", "0B100000000"] (InstructionSet.set.map Encoding.signature)
          (.bits (.numberRange 256 8)))))) := by
  have hhex : Literal.Spells 31 ['0', 'x', '1', 'F'] :=
    @Literal.Spells.based 'x' 16 [1, 15] ['1', 'F'] (by decide) ⟨by decide, by decide, by decide⟩
  have hbinary : Literal.Spells 256 ("0B100000000".toList) :=
    @Literal.Spells.based 'B' 2 [1, 0, 0, 0, 0, 0, 0, 0, 0] _ (by decide) ⟨by decide, by decide, by decide⟩
  have hlow : Word.Spells (-31) "#-0x1F" :=
    @Word.Spells.intro _ _ ['#'] ['-'] _ 31 rfl (.inr rfl) .minus hhex
  have hhigh : Word.Spells 256 "0B100000000" :=
    @Word.Spells.intro _ _ [] [] _ 256 rfl (.inl rfl) .none hbinary
  obtain ⟨-, -, haccepts⟩ := process_spelled (by decide) hlow
  obtain ⟨-, -, hrefuses⟩ := process_spelled (by decide) hhigh
  refine ⟨?_, ?_⟩
  · exact (haccepts 16 (by decide) _ (by decide +kernel)).1.mpr (by decide)
  · refine (hrefuses 16 (by decide) "SET A 0B100000000" (by decide +kernel)).2.2 (by decide) ["NOOP"] [] ?_
    simp only [List.mem_singleton, forall_eq]
    exact ⟨.code [.instruction (InstructionSet.opcode .copy 0 0)], Content.read_eq_ok.mp (by decide +kernel)⟩

end Assembler

end Microcomputer
