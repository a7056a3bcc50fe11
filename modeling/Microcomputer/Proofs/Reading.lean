import Mathlib
import Microcomputer.Assembly.Assembler
import Microcomputer.Proofs.Traversal

/-!
# Reading lines of source

* `Text.IsWord` : a word, `Text.words_intercalate` : words that are joined by blanks are found again;
* `Line.words_cleanText`, `Line.cleanText_eq` : a cleaned line is its words;
* `Content.Reads raw content` : what a line of source holds, said without an order of tries;
* `Content.read_eq_ok` : a line is read exactly as that, with the operations of the instruction set.
-/

namespace Microcomputer

open Traversal

/-! ## Words -/

namespace Text

def IsWord (word : String) : Prop := word ≠ "" ∧ ∀ c ∈ word.toList, isBlank c = false

theorem wordsFrom_append {cs : List Char} (h : ∀ c ∈ cs, isBlank c = false) (pending rest : List Char) :
    wordsFrom pending (cs ++ rest) = wordsFrom (cs.reverse ++ pending) rest := by
  induction cs generalizing pending with
  | nil => rfl
  | cons c cs ih =>
    rw [List.forall_mem_cons] at h
    simp [wordsFrom, h.1, ih h.2]

theorem isWord_of_mem_wordsFrom {pending text : List Char} (h : ∀ c ∈ pending, isBlank c = false)
    {word : String} (hword : word ∈ wordsFrom pending text) : IsWord word := by
  have hpending : ∀ {pending : List Char}, (∀ c ∈ pending, isBlank c = false) →
      ¬ pending.isEmpty = true → IsWord (String.ofList pending.reverse) := by
    intro pending h hne
    refine ⟨fun hempty => hne ?_, fun c hc => h c (by simpa using hc)⟩
    have := congrArg String.toList hempty
    simpa using this
  fun_induction wordsFrom pending text with
  | case1 => cases hword
  | case2 pending hne =>
    rw [List.mem_singleton.mp hword]
    exact hpending h hne
  | case3 pending c cs hblank hempty ih => exact ih (by simp) hword
  | case4 pending c cs hblank hne ih =>
    rcases List.mem_cons.mp hword with rfl | hword
    · exact hpending h hne
    · exact ih (by simp) hword
  | case5 pending c cs hblank ih =>
    exact ih (List.forall_mem_cons.mpr ⟨by simpa using hblank, h⟩) hword

theorem isWord_of_mem_words {text word : String} (h : word ∈ words text) : IsWord word :=
  isWord_of_mem_wordsFrom (by simp) h

theorem words_of_isWord {word : String} (h : IsWord word) : words word = [word] := by
  have happend := wordsFrom_append h.2 [] []
  rw [List.append_nil, List.append_nil] at happend
  rw [words, happend, wordsFrom]
  have hne : word.toList ≠ [] := by simpa using h.1
  simp [hne]

theorem words_append_blank {word : String} (h : IsWord word) (text : String) :
    words (word ++ " " ++ text) = word :: words text := by
  have hne : word.toList ≠ [] := by simpa using h.1
  rw [words, String.toList_append, String.toList_append, List.append_assoc, wordsFrom_append h.2]
  have hblank : isBlank ' ' = true := by decide
  simp [wordsFrom, hblank, hne, words]

theorem words_intercalate {ws : List String} (h : ∀ w ∈ ws, IsWord w) :
    words (String.intercalate " " ws) = ws := by
  induction ws with
  | nil => rfl
  | cons w ws ih =>
    rw [List.forall_mem_cons] at h
    cases ws with
    | nil => simpa using words_of_isWord h.1
    | cons v ws => rw [String.intercalate_cons_cons, words_append_blank h.1, ih h.2]

end Text

namespace Line

theorem words_cleanText (raw : String) :
    Text.words (cleanText raw) = Text.words (String.ofList (beforeComment raw.toList)) :=
  Text.words_intercalate fun _ hw => Text.isWord_of_mem_words hw

theorem cleanText_eq (raw : String) :
    cleanText raw = String.intercalate " " (Text.words (cleanText raw)) := by
  rw [words_cleanText]
  rfl

end Line

/-! ## Labels and variables -/

namespace Word

theorem isBlank_of_isNamePart {c : Char} (h : isNamePart c = true) : Text.isBlank c = false := by
  simp only [isNamePart, Char.isAlphanum, Char.isAlpha, Char.isUpper, Char.isLower, Char.isDigit,
    Bool.or_eq_true, Bool.and_eq_true, decide_eq_true_eq, beq_iff_eq, ge_iff_le,
    UInt32.le_iff_toNat_le] at h
  have hn : (65 ≤ c.toNat ∧ c.toNat ≤ 90) ∨ (97 ≤ c.toNat ∧ c.toNat ≤ 122) ∨
      (48 ≤ c.toNat ∧ c.toNat ≤ 57) ∨ c.toNat = 95 := by
    rcases h with ((h | h) | h) | rfl
    · exact .inl h
    · exact .inr (.inl h)
    · exact .inr (.inr (.inl h))
    · exact .inr (.inr (.inr rfl))
  simp only [Text.isBlank, Bool.or_eq_false_iff, Bool.and_eq_false_iff, decide_eq_false_iff_not,
    beq_eq_false_iff_ne]
  omega

theorem isWord_of_isSigiled {sigil : Char} (hsigil : Text.isBlank sigil = false) {word : String}
    (h : isSigiled sigil word.toList = true) : Text.IsWord word := by
  rw [Text.IsWord, Ne, ← String.toList_eq_nil_iff]
  generalize word.toList = text at h
  rcases text with - | ⟨s, - | ⟨c, cs⟩⟩
  · cases h
  · cases h
  · simp only [isSigiled, Bool.and_eq_true, beq_iff_eq, List.all_eq_true] at h
    obtain ⟨⟨rfl, hstart⟩, hparts⟩ := h
    have hpart : isNamePart c = true := by
      rw [isNameStart, Bool.or_eq_true] at hstart
      rcases hstart with hstart | hstart
      · simp [isNamePart, Char.isAlphanum, hstart]
      · simp [isNamePart, hstart]
    refine ⟨List.cons_ne_nil _ _, ?_⟩
    rw [List.forall_mem_cons, List.forall_mem_cons]
    exact ⟨hsigil, isBlank_of_isNamePart hpart, fun d hd => isBlank_of_isNamePart (hparts d hd)⟩

theorem isWord_of_isLabel {word : String} (h : isLabel word = true) : Text.IsWord word :=
  isWord_of_isSigiled rfl h

theorem isWord_of_isVariable {word : String} (h : isVariable word = true) : Text.IsWord word :=
  isWord_of_isSigiled rfl h

theorem isLabel_of_isVariable {word : String} (h : isVariable word = true) : isLabel word = false := by
  unfold isVariable at h
  unfold isLabel
  generalize word.toList = text at h ⊢
  rcases text with - | ⟨s, - | ⟨c, cs⟩⟩
  · rfl
  · rfl
  · simp only [isSigiled, Bool.and_eq_true, beq_iff_eq] at h ⊢
    rw [h.1.1]
    rfl

end Word

/-! ## Arguments -/

theorem BitField.fits_byte (value : Int) :
    BitField.fits value Layout.instructionWidth = true ↔ -128 ≤ value ∧ value < 256 := by
  simp only [BitField.fits, Bool.and_eq_true, decide_eq_true_eq]
  simp [Layout.instructionWidth, BitField.maxWidth]

/-- The byte of a constant, which is a label, a variable or a number that fits a byte. -/
inductive CodeByte.IsConstant (word : String) : CodeByte → Prop
  | ofLabel : Word.isLabel word = true → IsConstant word (.ofConstant .label word 0)
  | ofVariable : Word.isVariable word = true → IsConstant word (.ofConstant .variable word 0)
  | ofNumber {n : Int} : Word.number? word = some n → -128 ≤ n ∧ n < 256 →
      IsConstant word (.ofConstant .number word n)

theorem CodeByte.isConstant_ofArgument {arg : String} {byte : CodeByte}
    (h : CodeByte.ofArgument arg = .ok byte) :
    CodeByte.IsConstant ((Word.memoryOperand? arg).getD arg) byte := by
  simp only [CodeByte.ofArgument] at h
  generalize (Word.memoryOperand? arg).getD arg = word at h ⊢
  split at h
  case isTrue hlabel =>
    cases h
    exact .ofLabel hlabel
  case isFalse =>
    split at h
    case isTrue hvariable =>
      cases h
      exact .ofVariable hvariable
    case isFalse =>
      split at h
      · cases h
      · split at h
        case isTrue n hn hfits =>
          cases h
          exact .ofNumber hn ((BitField.fits_byte n).mp hfits)
        case isFalse => cases h

namespace Encoding

/-- The bytes of a line: the instruction byte of the encoding with its arguments, then the bytes of
the constants among them. -/
theorem bytes_eq_ok {encodings : List Encoding} {args : List String} {bytes : List CodeByte}
    (h : Encoding.bytes encodings args = .ok bytes) :
    ∃ e ∈ encodings, List.Forall₂ (fun arg c => Argument.classify arg = .ok c) args e.signature ∧
      ∃ constants, List.Forall₂ (fun arg byte => CodeByte.ofArgument arg = .ok byte)
        (constantArguments e.signature args) constants ∧
        bytes = .instruction e.instruction :: constants := by
  unfold Encoding.bytes at h
  obtain ⟨e, hselect, h⟩ := bind_eq_ok.mp h
  obtain ⟨constants, hconstants, h⟩ := bind_eq_ok.mp h
  cases h
  unfold select at hselect
  obtain ⟨classes, hclasses, hselect⟩ := bind_eq_ok.mp hselect
  split at hselect
  case h_1 => cases hselect
  case h_2 e' hfilter =>
    cases hselect
    have hmem : e ∈ encodings.filter (·.signature == classes) := by
      rw [hfilter]
      exact List.mem_singleton_self e
    rw [List.mem_filter, beq_iff_eq] at hmem
    obtain ⟨he, rfl⟩ := hmem
    exact ⟨e, he, mapM_eq_ok.mp hclasses, constants, mapM_eq_ok.mp hconstants, rfl⟩
  case h_3 => cases hselect

end Encoding

/-! ## Operations -/

namespace Operation

theorem parseLine_eq_ok {entry : String × List Encoding} {clean : String} {bytes : List CodeByte}
    (h : (ofEncodings entry.1 entry.2).parseLine clean = .ok (some bytes)) :
    ∃ args, Text.words clean = entry.1 :: args ∧ Encoding.bytes entry.2 args = .ok bytes := by
  simp only [ofEncodings] at h
  cases hwords : Text.words clean with
  | nil =>
    rw [hwords] at h
    cases h
  | cons word args =>
    rw [hwords] at h
    simp only at h
    split at h
    case isTrue hword =>
      rw [mapError_eq_ok, map_eq_ok] at h
      obtain ⟨found, hfound, hbytes⟩ := h
      cases hbytes
      exact ⟨args, by rw [hword], mapError_eq_ok.mp hfound⟩
    case isFalse => cases h

theorem nodup_mnemonics : (all.map mnemonic).Nodup := by decide +kernel

theorem not_sigiled_mnemonics :
    ∀ name ∈ all.map mnemonic, Word.isLabel name = false ∧ Word.isVariable name = false := by
  decide +kernel

theorem parseLine_of_ne {op : Operation} (hop : op ∈ all) {clean : String}
    (h : (Text.words clean).head? ≠ some op.mnemonic) : op.parseLine clean = .ok none := by
  obtain ⟨entry, -, rfl⟩ := List.mem_map.mp hop
  simp only [ofEncodings] at h ⊢
  cases hwords : Text.words clean with
  | nil => rfl
  | cons word args =>
    rw [hwords] at h
    exact if_neg fun heq => h (congrArg some heq)

end Operation

namespace Content

/-- A line is read as machine code by the one operation whose mnemonic is its first word. -/
theorem readCode_eq_ok {clean : String} {bytes : List CodeByte} :
    readCode Operation.all clean = .ok bytes ↔ ∃ op ∈ Operation.all,
      (Text.words clean).head? = some op.mnemonic ∧ op.parseLine clean = .ok (some bytes) := by
  unfold readCode
  rw [bind_eq_ok]
  constructor
  · rintro ⟨readings, hreadings, h⟩
    rw [mapError_eq_ok] at hreadings
    have hmem : some bytes ∈ readings := by
      split at h
      · cases h
      · rename_i found hfound
        cases h
        have : bytes ∈ readings.filterMap id := by rw [hfound]; exact List.mem_singleton_self _
        simpa using this
      · cases h
    obtain ⟨op, hop, hparse⟩ := mem_of_mapM hreadings hmem
    refine ⟨op, hop, ?_, hparse⟩
    by_contra hne
    rw [Operation.parseLine_of_ne hop hne] at hparse
    cases hparse
  · rintro ⟨op, hop, hhead, hparse⟩
    -- the other operations have other mnemonics and find nothing
    have hparses : ∀ o ∈ Operation.all, o.parseLine clean =
        .ok (if o.mnemonic = op.mnemonic then some bytes else none) := by
      intro o ho
      split
      case isTrue heq =>
        rw [List.inj_on_of_nodup_map Operation.nodup_mnemonics ho hop heq, hparse]
      case isFalse hne =>
        refine Operation.parseLine_of_ne ho fun hhead' => hne ?_
        rw [hhead] at hhead'
        exact (Option.some.inj hhead').symm
    have hfound := filterMap_key Operation.nodup_mnemonics hop bytes
    refine ⟨_, mapError_eq_ok.mpr (mapM_eq_ok_map hparses), ?_⟩
    rw [List.filterMap_map, Function.id_comp, hfound]

/-- What a line of source holds: nothing, one label, one variable, or the machine code that the
operation with its first word as mnemonic makes of it. -/
inductive Reads (raw : String) : Content → Prop
  | blankLine : Line.cleanText raw = "" → Reads raw .blank
  | labelLine {name : String} : Line.cleanText raw = name → Word.isLabel name = true →
      Reads raw (.label name)
  | variableLine {name : String} : Line.cleanText raw = name → Word.isVariable name = true →
      Reads raw (.variable name)
  | codeLine {op : Operation} {bytes : List CodeByte} : op ∈ Operation.all →
      (Text.words (Line.cleanText raw)).head? = some op.mnemonic →
      op.parseLine (Line.cleanText raw) = .ok (some bytes) → Reads raw (.code bytes)

theorem read_eq_ok {raw : String} {content : Content} :
    read Operation.all (Line.cleanText raw) = .ok content ↔ Reads raw content := by
  have hclean := Line.cleanText_eq raw
  unfold read
  constructor
  · intro h
    split at h
    case h_1 hwords =>
      cases h
      rw [hwords] at hclean
      exact .blankLine hclean
    case h_2 word hwords =>
      rw [hwords, String.intercalate_singleton] at hclean
      split at h
      · cases h
        exact .labelLine hclean ‹_›
      · split at h
        · cases h
          exact .variableLine hclean ‹_›
        · obtain ⟨bytes, hbytes, rfl⟩ := map_eq_ok.mp h
          obtain ⟨op, hop, hhead, hparse⟩ := readCode_eq_ok.mp hbytes
          exact .codeLine hop hhead hparse
    case h_3 =>
      obtain ⟨bytes, hbytes, rfl⟩ := map_eq_ok.mp h
      obtain ⟨op, hop, hhead, hparse⟩ := readCode_eq_ok.mp hbytes
      exact .codeLine hop hhead hparse
  · intro h
    cases h with
    | blankLine h => rw [h]; rfl
    | labelLine h hlabel =>
      rw [h, Text.words_of_isWord (Word.isWord_of_isLabel hlabel)]
      exact if_pos hlabel
    | variableLine h hvariable =>
      rw [h, Text.words_of_isWord (Word.isWord_of_isVariable hvariable)]
      exact (if_neg (Bool.eq_false_iff.mp (Word.isLabel_of_isVariable hvariable))).trans
        (if_pos hvariable)
    | codeLine hop hhead hparse =>
      have hcode := readCode_eq_ok.mpr ⟨_, hop, hhead, hparse⟩
      rw [hcode]
      split
      case h_1 hwords =>
        rw [hwords] at hhead
        cases hhead
      case h_2 word hwords =>
        rw [hwords] at hhead
        obtain ⟨hlabel, hvariable⟩ :=
          Operation.not_sigiled_mnemonics word (Option.some.inj hhead ▸ List.mem_map_of_mem hop)
        rw [if_neg (Bool.eq_false_iff.mp hlabel), if_neg (Bool.eq_false_iff.mp hvariable)]
        rfl
      case h_3 => rfl

end Content

namespace Line

theorem readFrom_eq_ok {ops : List Operation} {number : Nat} {source : List String}
    {lines : List Line} : readFrom ops number source = .ok lines ↔
      List.Forall₂ (fun entry line => read ops entry.2 entry.1 = .ok line)
        (source.zipIdx number) lines := by
  induction source generalizing number lines with
  | nil =>
    rw [readFrom, List.zipIdx_nil, List.forall₂_nil_left_iff]
    exact ⟨fun h => (Except.ok.inj h).symm, fun h => congrArg _ h.symm⟩
  | cons raw rest ih =>
    rw [readFrom, bind_eq_ok, List.zipIdx_cons, List.forall₂_cons_left_iff]
    constructor
    · rintro ⟨line, hline, h⟩
      obtain ⟨lines', hrest, h⟩ := bind_eq_ok.mp h
      cases h
      exact ⟨line, lines', hline, ih.mp hrest, rfl⟩
    · rintro ⟨line, lines', hline, hrest, rfl⟩
      exact ⟨line, hline, bind_eq_ok.mpr ⟨lines', ih.mpr hrest, rfl⟩⟩

theorem read_eq_ok {ops : List Operation} {number : Nat} {raw : String} {line : Line} :
    read ops number raw = .ok line ↔ ∃ content, Content.read ops (cleanText raw) = .ok content ∧
      line = ⟨number, raw, cleanText raw, content, none⟩ := by
  unfold read
  rw [bind_eq_ok]
  refine exists_congr fun content => and_congr mapError_eq_ok ?_
  exact ⟨fun h => (Except.ok.inj h).symm, fun h => congrArg _ h.symm⟩

/-- Line `n`, counted from 0, is the text with this number as it is read: with its content, and bound to
no label. -/
theorem exists_of_readFrom {ops : List Operation} {number : Nat} {source : List String}
    {lines : List Line} (h : readFrom ops number source = .ok lines) {n : Nat} {line : Line}
    (hline : lines[n]? = some line) : ∃ raw content, source[n]? = some raw ∧
      line = ⟨number + n, raw, cleanText raw, content, none⟩ := by
  obtain ⟨entry, hentry, hread⟩ := forall₂_getElem? (readFrom_eq_ok.mp h) hline
  obtain ⟨content, -, rfl⟩ := read_eq_ok.mp hread
  rw [List.getElem?_zipIdx, Option.map_eq_some_iff] at hentry
  obtain ⟨raw, hraw, rfl⟩ := hentry
  exact ⟨raw, content, hraw, rfl⟩

theorem label_of_readFrom {ops : List Operation} {number : Nat} {source : List String}
    {lines : List Line} (h : readFrom ops number source = .ok lines) :
    ∀ line ∈ lines, line.label = none := by
  intro line hline
  obtain ⟨n, hn⟩ := List.mem_iff_getElem?.mp hline
  obtain ⟨raw, content, -, rfl⟩ := exists_of_readFrom h hn
  rfl

end Line

end Microcomputer
