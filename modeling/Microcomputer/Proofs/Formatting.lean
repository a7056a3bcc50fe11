import Mathlib
import Microcomputer.Proofs.Acceptance

/-!
# Comments and blanks have no meaning

Two sources that are the same after their comments, surplus blanks and empty lines are taken out are
assembled to the same machine code, or rejected for the same reason.

* `Line.cleanText_cleanText` : cleaning a clean line changes nothing;
* `visible` : the lines of a source without what has no meaning;
* `condensed` : lines without the empty ones, and without what tells where they stood. Every pass and
  every check does the same to condensed lines (`condensed_indexFrom` … `Check.first?_condensed`);
* `Assembler.outcome` : the result of assembling, condensed;
* `Assembler.alike_of_visible` : the outcome depends on the visible lines only.
-/

namespace Microcomputer

open Traversal

/-! ## Cleaning -/

namespace Text

/-- A word is part of the text that it was found in. -/
theorem infix_of_mem_wordsFrom {pending text : List Char} {word : String}
    (h : word ∈ wordsFrom pending text) : word.toList <:+: pending.reverse ++ text := by
  fun_induction wordsFrom pending text with
  | case1 => cases h
  | case2 pending hne =>
    rw [List.mem_singleton.mp h, String.toList_ofList, List.append_nil]
  | case3 pending c cs hblank hempty ih =>
    have hrest : word.toList <:+: cs := by simpa using ih h
    exact hrest.trans ((List.suffix_cons c cs).trans (List.suffix_append _ _)).isInfix
  | case4 pending c cs hblank hne ih =>
    rcases List.mem_cons.mp h with rfl | h
    · rw [String.toList_ofList]
      exact (List.prefix_append _ _).isInfix
    · have hrest : word.toList <:+: cs := by simpa using ih h
      exact hrest.trans ((List.suffix_cons c cs).trans (List.suffix_append _ _)).isInfix
  | case5 pending c cs hblank ih => simpa using ih h

end Text

namespace Line

def marker : List Char := ['/', '/']

theorem prefix_beforeComment (text : List Char) : beforeComment text <+: text := by
  fun_induction beforeComment text with
  | case1 => exact List.prefix_rfl
  | case2 rest => exact List.nil_prefix
  | case3 c cs hmarker ih => exact (List.prefix_cons_inj c).mpr ih

theorem beforeComment_eq_self {text : List Char} (h : ¬ marker <:+: text) :
    beforeComment text = text := by
  fun_induction beforeComment text with
  | case1 => rfl
  | case2 rest => exact absurd ⟨[], rest, rfl⟩ h
  | case3 c cs hmarker ih => rw [ih fun hcs => h (List.infix_cons hcs)]

theorem beforeComment_append {before : List Char} (h : ¬ marker <:+: before ++ ['/'])
    (comment : List Char) : beforeComment (before ++ marker ++ comment) = before := by
  induction before with
  | nil => rfl
  | cons c before ih =>
    have hhead : ∀ rest, c = '/' → before ++ marker ++ comment ≠ '/' :: rest := by
      rintro rest rfl hrest
      apply h
      cases before with
      | nil => exact List.infix_rfl
      | cons d before =>
        obtain ⟨rfl, -⟩ := List.cons.inj hrest
        exact ⟨[], before ++ ['/'], rfl⟩
    rw [List.cons_append, List.cons_append, beforeComment, ih fun hcs => h (List.infix_cons hcs)]
    exact fun rest hc hrest => hhead rest hc hrest

theorem not_infix_beforeComment (text : List Char) : ¬ marker <:+: beforeComment text := by
  fun_induction beforeComment text with
  | case1 => simp [marker]
  | case2 rest => simp [marker]
  | case3 c cs hmarker ih =>
    rw [List.infix_cons_iff, not_or]
    refine ⟨fun hhead => ?_, ih⟩
    obtain ⟨hc, hrest⟩ := List.cons_prefix_cons.mp hhead
    obtain ⟨rest, hrest⟩ := hrest.trans (prefix_beforeComment cs)
    exact hmarker rest hc.symm hrest.symm

/-- A blank between two texts makes no marker. -/
theorem not_infix_append_blank {first rest : List Char} (hfirst : ¬ marker <:+: first)
    (hrest : ¬ marker <:+: rest) : ¬ marker <:+: first ++ ' ' :: rest := by
  rw [List.infix_append_iff, List.infix_cons_iff]
  rintro (h | (h | h) | ⟨left, right, hsplit, hleft, hright⟩)
  · exact hfirst h
  · exact absurd (List.cons_prefix_cons.mp h).1 (by decide)
  · exact hrest h
  · rcases List.prefix_cons_iff.mp hright with rfl | ⟨right', rfl, -⟩
    · rw [List.append_nil] at hsplit
      exact hfirst (hsplit ▸ hleft.isInfix)
    · have hmem : ' ' ∈ marker := by
        rw [hsplit]
        simp
      exact absurd hmem (by decide)

theorem not_infix_intercalate {ws : List String} (h : ∀ w ∈ ws, ¬ marker <:+: w.toList) :
    ¬ marker <:+: (String.intercalate " " ws).toList := by
  induction ws with
  | nil => simp [marker]
  | cons w ws ih =>
    rw [List.forall_mem_cons] at h
    cases ws with
    | nil => simpa using h.1
    | cons v ws =>
      rw [String.intercalate_cons_cons, String.toList_append, String.toList_append, List.append_assoc]
      exact not_infix_append_blank h.1 (ih h.2)

theorem not_infix_cleanText (raw : String) : ¬ marker <:+: (cleanText raw).toList := by
  refine not_infix_intercalate fun w hw hmarker => ?_
  have hword : w.toList <:+: beforeComment raw.toList := by
    simpa using Text.infix_of_mem_wordsFrom hw
  exact not_infix_beforeComment raw.toList (hmarker.trans hword)

theorem cleanText_cleanText (raw : String) : cleanText (cleanText raw) = cleanText raw := by
  rw [cleanText, beforeComment_eq_self (not_infix_cleanText raw), String.ofList_toList, ← cleanText_eq]

end Line

/-! ## Condensed lines -/

/-- The cleaned lines of a source that are not empty. -/
def visible (source : List String) : List String := (source.map Line.cleanText).filter (· ≠ "")

/-- A line without what tells where it stood. -/
def Line.unplaced (line : Line) : Line := { line with number := 0, raw := "" }

/-- The lines that hold something, without what tells where they stood. -/
def condensed (lines : List Line) : List Line :=
  (lines.filter (·.content ≠ .blank)).map Line.unplaced

theorem condensed_cons_blank {line : Line} (h : line.content = .blank) (rest : List Line) :
    condensed (line :: rest) = condensed rest := by
  rw [condensed, List.filter_cons_of_neg (by simpa using h)]
  rfl

theorem condensed_cons {line : Line} (h : line.content ≠ .blank) (rest : List Line) :
    condensed (line :: rest) = line.unplaced :: condensed rest := by
  rw [condensed, List.filter_cons_of_pos (by simpa using h)]
  rfl

namespace Line

theorem bytes_of_blank {line : Line} (h : line.content = .blank) : line.bytes = [] := by
  rw [bytes, h]
  rfl

theorem definedLabel?_of_blank {line : Line} (h : line.content = .blank) : line.definedLabel? = none := by
  rw [definedLabel?, h]
  rfl

theorem variableNames_of_blank {line : Line} (h : line.content = .blank) : line.variableNames = [] := by
  rw [variableNames, bytes_of_blank h, definedVariable?, h]
  rfl

theorem withBytes_unplaced (line : Line) (bytes : List CodeByte) :
    line.unplaced.withBytes bytes = (line.withBytes bytes).unplaced := by
  cases hcontent : line.content <;> simp [withBytes, unplaced, hcontent]

theorem withBytes_eq_blank {line : Line} {bytes : List CodeByte} :
    (line.withBytes bytes).content = .blank ↔ line.content = .blank := by
  cases hcontent : line.content <;> simp [withBytes, hcontent]

/-! ## Passes -/

theorem condensed_indexFrom (lines : List Line) (index : Nat) :
    condensed (indexFrom index lines) = indexFrom index (condensed lines) := by
  induction lines generalizing index with
  | nil => rfl
  | cons line rest ih =>
    rw [indexFrom]
    by_cases hblank : line.content = .blank
    · rw [condensed_cons_blank (withBytes_eq_blank.mpr hblank), ih, condensed_cons_blank hblank,
        bytes_of_blank hblank]
      rfl
    · rw [condensed_cons (mt withBytes_eq_blank.mp hblank), ih, condensed_cons hblank, indexFrom,
        withBytes_unplaced]
      rfl

theorem condensed_bindLabels (lines : List Line) (pending : Option String) :
    condensed (bindLabels pending lines) = bindLabels pending (condensed lines) := by
  fun_induction bindLabels pending lines with
  | case1 => rfl
  | case2 line rest name hcontent ih =>
    rw [condensed_cons (by simp [hcontent]), condensed_cons (by simp [hcontent]), ih]
    simp [bindLabels, unplaced, hcontent]
  | case3 line rest bytes name hcontent ih =>
    rw [condensed_cons (by simp [hcontent]), condensed_cons (by simp [hcontent]), ih]
    simp [bindLabels, unplaced, hcontent]
  | case4 pending line rest hlabel hcode ih =>
    by_cases hblank : line.content = .blank
    · rw [condensed_cons_blank hblank, condensed_cons_blank hblank, ih]
    · rw [condensed_cons hblank, condensed_cons hblank, ih, bindLabels]
      · exact hlabel
      · exact hcode

theorem label_bindLabels {lines : List Line} (h : ∀ line ∈ lines, line.label = none)
    (pending : Option String) :
    ∀ line ∈ bindLabels pending lines, line.content = .blank → line.label = none := by
  fun_induction bindLabels pending lines with
  | case1 => simp
  | case2 line rest name hcontent ih =>
    rw [List.forall_mem_cons] at h ⊢
    exact ⟨fun _ => h.1, ih h.2⟩
  | case3 line rest bytes name hcontent ih =>
    rw [List.forall_mem_cons] at h ⊢
    exact ⟨fun hblank => absurd (hcontent.symm.trans hblank) (by simp), ih h.2⟩
  | case4 pending line rest hlabel hcode ih =>
    rw [List.forall_mem_cons] at h ⊢
    exact ⟨fun _ => h.1, ih h.2⟩

end Line

theorem Assembler.condensed_bind (lines : List Line) : condensed (bind lines) = bind (condensed lines) := by
  rw [bind, Line.condensed_bindLabels, Line.condensed_indexFrom, bind]

/-! ## Tables -/

theorem flatMap_condensed {α : Type} {f : Line → List α}
    (hblank : ∀ line, line.content = .blank → f line = []) (lines : List Line) :
    (condensed lines).flatMap f = lines.flatMap fun line => f line.unplaced := by
  induction lines with
  | nil => rfl
  | cons line rest ih =>
    rw [List.flatMap_cons]
    by_cases h : line.content = .blank
    · rw [condensed_cons_blank h, ih, hblank line.unplaced h, List.nil_append]
    · rw [condensed_cons h, List.flatMap_cons, ih]

theorem totalBytes_condensed (lines : List Line) : totalBytes (condensed lines) = totalBytes lines := by
  rw [totalBytes, flatMap_condensed fun _ => Line.bytes_of_blank]
  rfl

theorem filterMap_definedLabel?_condensed (lines : List Line) :
    (condensed lines).filterMap Line.definedLabel? = lines.filterMap Line.definedLabel? := by
  have hblank : ∀ line : Line, line.content = .blank → line.definedLabel?.toList = [] := by
    intro line h
    rw [Line.definedLabel?_of_blank h]
    rfl
  rw [List.filterMap_eq_flatMap_toList, flatMap_condensed hblank, List.filterMap_eq_flatMap_toList]
  rfl

theorem boundLabels_condensed {lines : List Line}
    (h : ∀ line ∈ lines, line.content = .blank → line.label = none) (total : Nat) :
    boundLabels total (condensed lines) = boundLabels total lines := by
  induction lines generalizing total with
  | nil => rfl
  | cons line rest ih =>
    rw [List.forall_mem_cons] at h
    by_cases hblank : line.content = .blank
    · rw [condensed_cons_blank hblank, ih h.2, boundLabels, h.1 hblank, Line.bytes_of_blank hblank]
      rfl
    · rw [condensed_cons hblank, boundLabels, ih h.2, boundLabels]
      rfl

theorem labelAddresses_condensed {lines : List Line}
    (h : ∀ line ∈ lines, line.content = .blank → line.label = none) :
    labelAddresses (condensed lines) = labelAddresses lines := by
  simp only [labelAddresses, boundLabels_condensed h, filterMap_definedLabel?_condensed,
    totalBytes_condensed]

theorem variableAddresses_condensed (start : Int) (lines : List Line) :
    variableAddresses start (condensed lines) = variableAddresses start lines := by
  rw [variableAddresses, variableNames_eq, flatMap_condensed fun _ => Line.variableNames_of_blank,
    variableAddresses, variableNames_eq]
  rfl

/-! ## Checks -/

def unplacedFound (found : Line × String) : Line × String := (found.1.unplaced, found.2)

namespace Check

theorem repeated_condensed {name? : Line → Option String}
    (hblank : ∀ line, line.content = .blank → name? line = none)
    (hsame : ∀ line, name? line.unplaced = name? line) (seen : Std.TreeSet String) (lines : List Line) :
    repeated name? seen (condensed lines) = (repeated name? seen lines).map unplacedFound := by
  induction lines generalizing seen with
  | nil => rfl
  | cons line rest ih =>
    by_cases h : line.content = .blank
    · rw [condensed_cons_blank h, ih, repeated, hblank line h]
    · rw [condensed_cons h, repeated, hsame, repeated]
      cases name? line with
      | none => exact ih seen
      | some name =>
        dsimp only
        split
        · rfl
        · exact ih _

theorem doubled_condensed (pending : Bool) (lines : List Line) :
    doubled pending (condensed lines) = (doubled pending lines).map unplacedFound := by
  fun_induction doubled pending lines with
  | case1 => rfl
  | case2 line rest name hcontent =>
    rw [condensed_cons (by simp [hcontent])]
    simp [doubled, Line.unplaced, hcontent, unplacedFound]
  | case3 pending line rest name hcontent hpending ih =>
    rw [condensed_cons (by simp [hcontent]), ← ih]
    simp [doubled, Line.unplaced, hcontent, hpending]
  | case4 pending line rest bytes hcontent ih =>
    rw [condensed_cons (by simp [hcontent]), ← ih]
    simp [doubled, Line.unplaced, hcontent]
  | case5 pending line rest hlabel hcode ih =>
    by_cases hblank : line.content = .blank
    · rw [condensed_cons_blank hblank, ih]
    · rw [condensed_cons hblank, doubled, ih]
      split
      · exact absurd ‹_› (hlabel _)
      · exact absurd ‹_› (hcode _)
      · rfl

theorem findSome?_condensed {find : Line → Option String}
    (hblank : ∀ line, line.content = .blank → find line = none)
    (hsame : ∀ line, find line.unplaced = find line) (lines : List Line) :
    (condensed lines).findSome? (fun line => (find line).map fun name => (line, name)) =
      (lines.findSome? fun line => (find line).map fun name => (line, name)).map unplacedFound := by
  induction lines with
  | nil => rfl
  | cons line rest ih =>
    rw [List.findSome?_cons]
    by_cases h : line.content = .blank
    · rw [condensed_cons_blank h, ih, hblank line h]
      rfl
    · rw [condensed_cons h, List.findSome?_cons, hsame]
      cases find line with
      | none => exact ih
      | some name => rfl

theorem undefinedLabel_condensed (lines : List Line) :
    undefinedLabel (condensed lines) = (undefinedLabel lines).map unplacedFound := by
  unfold undefinedLabel
  rw [filterMap_definedLabel?_condensed]
  refine findSome?_condensed (fun line h => ?_) (fun _ => rfl) lines
  rw [Line.usedLabels, Line.bytes_of_blank h]
  rfl

theorem overflowing_unplaced (start : Int) (count : Nat) (found : List (Line × String)) :
    overflowing start count (found.map unplacedFound) =
      (overflowing start count found).map unplacedFound := by
  fun_induction overflowing start count found with
  | case1 => rfl
  | case2 count first rest h => rw [List.map_cons, overflowing, if_pos h, Option.map_some]
  | case3 count first rest h ih => rw [List.map_cons, overflowing, if_neg h, ih]

theorem oversized_condensed {total : Nat} (htotal : total ≤ maxProgramBytes) (lines : List Line) :
    oversized total (condensed lines) = (oversized total lines).map unplacedFound := by
  fun_induction oversized total lines with
  | case1 => rfl
  | case2 total line rest hlarge =>
    have hblank : line.content ≠ .blank := by
      intro h
      rw [Line.bytes_of_blank h] at hlarge
      exact absurd hlarge (Nat.not_lt.mpr htotal)
    rw [condensed_cons hblank]
    exact if_pos hlarge
  | case3 total line rest hsmall ih =>
    have hrest := ih (Nat.not_lt.mp hsmall)
    by_cases hblank : line.content = .blank
    · rw [condensed_cons_blank hblank, ← hrest, Line.bytes_of_blank hblank]
      rfl
    · rw [condensed_cons hblank, ← hrest]
      exact if_neg hsmall

end Check

theorem firstAppearances_unplaced (seen : Std.TreeSet String) (found : List (Line × String)) :
    firstAppearances seen (found.map unplacedFound) =
      (firstAppearances seen found).map unplacedFound := by
  fun_induction firstAppearances seen found with
  | case1 => rfl
  | case2 seen line name rest hseen ih =>
    rw [List.map_cons, ← ih]
    exact if_pos hseen
  | case3 seen line name rest hseen ih =>
    rw [List.map_cons, List.map_cons, ← ih]
    exact if_neg hseen

theorem variablesOf_condensed (lines : List Line) :
    variablesOf (condensed lines) = (variablesOf lines).map unplacedFound := by
  have hblank : ∀ line : Line, line.content = .blank →
      (line.variableNames.map fun name => (line, name)) = [] := by
    intro line h
    rw [Line.variableNames_of_blank h]
    rfl
  rw [variablesOf, flatMap_condensed hblank, variablesOf, ← firstAppearances_unplaced, List.map_flatMap]
  simp only [List.map_map]
  rfl

/-! ## Errors -/

def Error.unplaced : Error → Error
  | .assembly kind _ _ symbol cause => .assembly kind 0 "" symbol cause
  | e => e

def Failure.unplaced : Failure → Failure
  | .error e => .error e.unplaced
  | .fault f => .fault f

namespace Check

theorem all_condensed (start : Int) (lines : List Line) :
    ∀ check ∈ all start, check.2 (condensed lines) = (check.2 lines).map unplacedFound := by
  unfold all
  simp only [List.forall_mem_cons, List.not_mem_nil, false_implies, implies_true, and_true]
  refine ⟨?_, doubled_condensed false lines, undefinedLabel_condensed lines, ?_, ?_,
    oversized_condensed (Nat.zero_le _) lines⟩
  · exact repeated_condensed (fun _ => Line.definedLabel?_of_blank) (fun _ => rfl) ∅ lines
  · refine repeated_condensed (fun line h => ?_) (fun _ => rfl) ∅ lines
    rw [Line.definedVariable?, h]
    rfl
  · rw [variablesOf_condensed, overflowing_unplaced]

theorem first?_condensed (start : Int) (lines : List Line) :
    first? start (condensed lines) = (first? start lines).map Error.unplaced := by
  have hall := all_condensed start lines
  unfold first?
  generalize all start = checks at hall
  induction checks with
  | nil => rfl
  | cons check checks ih =>
    rw [List.forall_mem_cons] at hall
    rw [List.findSome?_cons, List.findSome?_cons, hall.1]
    cases check.2 lines with
    | none => exact ih hall.2
    | some found => rfl

end Check

/-! ## Constants -/

theorem mapM_mapError {ε ε' α β : Type} {f : α → Except ε β} {g : ε → ε'} {f' : α → Except ε' β}
    (h : ∀ x, f' x = (f x).mapError g) (xs : List α) : xs.mapM f' = (xs.mapM f).mapError g := by
  induction xs with
  | nil => rfl
  | cons x xs ih =>
    rw [List.mapM_cons, List.mapM_cons, h, ih]
    cases f x with
    | error e => rfl
    | ok y => cases xs.mapM f <;> rfl

section

variable (kind : ConstantKind) (value : CodeByte → Except BitError BitField)

/-- What the pass for one kind of constants makes of a byte of a line. -/
def Line.resolveByte (line : Line) (byte : CodeByte) : Except Error CodeByte :=
  if byte.kind == .constant && byte.constantKind == kind then
    match value byte with
    | .ok bits => .ok { byte with bits := bits }
    | .error e => .error (.assembly .line line.number line.raw byte.constant (.bits e))
  else .ok byte

theorem Line.resolve_eq_map (line : Line) : resolve kind value line =
    (line.bytes.mapM (resolveByte kind value line)).map line.withBytes := rfl

theorem Line.resolveByte_unplaced (line : Line) (byte : CodeByte) :
    resolveByte kind value line.unplaced byte =
      (resolveByte kind value line byte).mapError Error.unplaced := by
  unfold resolveByte
  split
  · cases value byte <;> rfl
  · rfl

theorem Line.resolve_unplaced (line : Line) : resolve kind value line.unplaced =
    ((resolve kind value line).map unplaced).mapError Error.unplaced := by
  have hbytes : line.unplaced.bytes = line.bytes := rfl
  rw [resolve_eq_map, hbytes, mapM_mapError (resolveByte_unplaced kind value line), resolve_eq_map]
  cases line.bytes.mapM (resolveByte kind value line) with
  | error e => rfl
  | ok bytes => exact congrArg Except.ok (withBytes_unplaced line bytes)

theorem Line.resolve_of_blank {line : Line} (h : line.content = .blank) :
    resolve kind value line = .ok line := by
  rw [resolve_eq_map, bytes_of_blank h]
  show Except.ok (line.withBytes []) = _
  rw [withBytes, h]

theorem mapM_resolve_condensed (lines : List Line) :
    (condensed lines).mapM (Line.resolve kind value) =
      ((lines.mapM (Line.resolve kind value)).map condensed).mapError Error.unplaced := by
  induction lines with
  | nil => rfl
  | cons line rest ih =>
    rw [List.mapM_cons]
    by_cases hblank : line.content = .blank
    · rw [condensed_cons_blank hblank, ih, Line.resolve_of_blank kind value hblank]
      cases rest.mapM (Line.resolve kind value) with
      | error e => rfl
      | ok lines => exact congrArg Except.ok (condensed_cons_blank hblank lines).symm
    · rw [condensed_cons hblank, List.mapM_cons, ih, Line.resolve_unplaced]
      cases hline : Line.resolve kind value line with
      | error e => rfl
      | ok after =>
        have hafter : after.content ≠ .blank := by
          obtain ⟨bytes, -, rfl⟩ := Line.resolve_eq_ok.mp hline
          exact mt Line.withBytes_eq_blank.mp hblank
        cases rest.mapM (Line.resolve kind value) with
        | error e => rfl
        | ok lines => exact congrArg Except.ok (condensed_cons hafter lines).symm

end

theorem Assembler.resolve_condensed (asm : Assembler) {lines : List Line}
    (h : ∀ line ∈ lines, line.content = .blank → line.label = none) :
    asm.resolve (condensed lines) = ((asm.resolve lines).map condensed).mapError Error.unplaced := by
  unfold resolve resolveLabels
  rw [labelAddresses_condensed h, mapM_resolve_condensed]
  cases lines.mapM (Line.resolve .label _) with
  | error e => rfl
  | ok first =>
    show (resolveNumbers (condensed first) >>= _) = ((resolveNumbers first >>= _).map _).mapError _
    unfold resolveNumbers
    rw [mapM_resolve_condensed]
    cases first.mapM (Line.resolve .number _) with
    | error e => rfl
    | ok second =>
      show resolveVariables _ (condensed second) = ((resolveVariables _ second).map _).mapError _
      unfold resolveVariables
      rw [variableAddresses_condensed, mapM_resolve_condensed]

/-! ## Outcomes -/

namespace Assembler

def outcome (result : Except Failure (List Line)) : Except Failure (List Line) :=
  (result.map condensed).mapError Failure.unplaced

def finish (asm : Assembler) (lines : List Line) : Except Failure (List Line) :=
  match Check.first? asm.variableStart lines with
  | some e => .error (.error e)
  | none => (asm.resolve (bind lines)).mapError .error

theorem process_eq_finish (asm : Assembler) (source : List String) :
    asm.process source = if asm.startsInMemory then
      (Line.readFrom asm.operations 1 source).bind asm.finish else .error (.error .variableOffset) := by
  unfold process readChecked
  cases asm.startsInMemory with
  | false => rfl
  | true =>
    cases Line.readFrom asm.operations 1 source with
    | error failure => rfl
    | ok lines =>
      show (match Check.first? asm.variableStart lines with | some e => _ | none => _) >>= _ =
        match Check.first? asm.variableStart lines with | some e => _ | none => _
      cases Check.first? asm.variableStart lines <;> rfl

theorem outcome_finish (asm : Assembler) {lines : List Line} (h : ∀ line ∈ lines, line.label = none) :
    outcome (asm.finish lines) = asm.finish (condensed lines) := by
  unfold finish
  rw [Check.first?_condensed, ← condensed_bind]
  cases Check.first? asm.variableStart lines with
  | some e => rfl
  | none =>
    rw [Option.map_none]
    have hlabels : ∀ line ∈ bind lines, line.content = .blank → line.label = none :=
      Line.label_bindLabels (Line.label_indexFrom h 0) none
    dsimp only
    rw [asm.resolve_condensed hlabels]
    cases asm.resolve (bind lines) <;> rfl

/-! ## Reading -/

theorem outcome_map_cons_blank {line : Line} (h : line.content = .blank)
    (result : Except Failure (List Line)) : outcome (result.map (line :: ·)) = outcome result := by
  cases result with
  | error failure => rfl
  | ok lines => exact congrArg Except.ok (condensed_cons_blank h lines)

theorem outcome_map_cons {line : Line} (h : line.content ≠ .blank)
    (result : Except Failure (List Line)) :
    outcome (result.map (line :: ·)) = (outcome result).map (line.unplaced :: ·) := by
  cases result with
  | error failure => rfl
  | ok lines => exact congrArg Except.ok (condensed_cons h lines)

theorem readFrom_cons_ok {ops : List Operation} {raw : String} {content : Content}
    (h : Content.read ops (Line.cleanText raw) = .ok content) (number : Nat) (rest : List String) :
    Line.readFrom ops number (raw :: rest) =
      (Line.readFrom ops (number + 1) rest).map (⟨number, raw, Line.cleanText raw, content, none⟩ :: ·) := by
  rw [Line.readFrom, Line.read_eq_ok.mpr ⟨content, h, rfl⟩]
  cases Line.readFrom ops (number + 1) rest <;> rfl

theorem readFrom_cons_error {ops : List Operation} {raw : String} {failure : Failure}
    (h : Content.read ops (Line.cleanText raw) = .error failure) (number : Nat) (rest : List String) :
    Line.readFrom ops number (raw :: rest) =
      .error (failure.wrap (.assembly .line number raw "")) := by
  rw [Line.readFrom, Line.read, h]
  rfl

theorem read_ne_blank {ops : List Operation} {raw : String} {content : Content}
    (hraw : Line.cleanText raw ≠ "") (h : Content.read ops (Line.cleanText raw) = .ok content) :
    content ≠ .blank := by
  rintro rfl
  unfold Content.read at h
  split at h
  · rename_i hwords
    rw [Line.cleanText_eq, hwords] at hraw
    exact hraw rfl
  · split at h
    · cases h
    · split at h
      · cases h
      · obtain ⟨bytes, -, hcode⟩ := map_eq_ok.mp h
        cases hcode
  · obtain ⟨bytes, -, hcode⟩ := map_eq_ok.mp h
    cases hcode

theorem outcome_readFrom (ops : List Operation) (source : List String) (number number' : Nat) :
    outcome (Line.readFrom ops number source) =
      outcome (Line.readFrom ops number' (visible source)) := by
  induction source generalizing number number' with
  | nil => rfl
  | cons raw rest ih =>
    by_cases hraw : Line.cleanText raw = ""
    · have hvisible : visible (raw :: rest) = visible rest := by simp [visible, hraw]
      have hread : Content.read ops (Line.cleanText raw) = .ok .blank := by
        rw [hraw]
        rfl
      rw [hvisible, readFrom_cons_ok hread, outcome_map_cons_blank rfl]
      exact ih (number + 1) number'
    · have hvisible : visible (raw :: rest) = Line.cleanText raw :: visible rest := by
        simp [visible, hraw]
      have hclean := Line.cleanText_cleanText raw
      rw [hvisible]
      cases hread : Content.read ops (Line.cleanText raw) with
      | error failure =>
        rw [readFrom_cons_error hread, readFrom_cons_error (hclean.symm ▸ hread)]
        cases failure <;> rfl
      | ok content =>
        have hblank := read_ne_blank hraw hread
        rw [readFrom_cons_ok hread, readFrom_cons_ok (hclean.symm ▸ hread), outcome_map_cons hblank,
          outcome_map_cons hblank, ih (number + 1) (number' + 1), hclean]
        rfl

/-- The outcome depends on the visible lines of a source only. -/
theorem outcome_process (asm : Assembler) (source : List String) :
    outcome (asm.process source) = outcome (asm.process (visible source)) := by
  rw [process_eq_finish, process_eq_finish]
  split
  · have hread := outcome_readFrom asm.operations source 1 1
    cases hlines : Line.readFrom asm.operations 1 source with
    | error failure =>
      cases hlines' : Line.readFrom asm.operations 1 (visible source) with
      | error failure' =>
        rw [hlines, hlines'] at hread
        exact hread
      | ok lines' =>
        rw [hlines, hlines'] at hread
        cases hread
    | ok lines =>
      cases hlines' : Line.readFrom asm.operations 1 (visible source) with
      | error failure' =>
        rw [hlines, hlines'] at hread
        cases hread
      | ok lines' =>
        rw [hlines, hlines'] at hread
        show outcome (asm.finish lines) = outcome (asm.finish lines')
        rw [outcome_finish asm (Line.label_of_readFrom hlines),
          outcome_finish asm (Line.label_of_readFrom hlines'), Except.ok.inj hread]
  · rfl

/-! ## Sources that look different -/

/-- Results of assembling that tell the same apart from where the lines stand: the same machine code
and the same lines but for empty ones, or the same error. -/
inductive Alike : Except Failure (List Line) → Except Failure (List Line) → Prop
  | accepted {final final' : List Line} : condensed final = condensed final' →
      (Program.mk final).machineCode = (Program.mk final').machineCode → Alike (.ok final) (.ok final')
  | rejected {failure failure' : Failure} : failure.unplaced = failure'.unplaced →
      Alike (.error failure) (.error failure')

theorem codes_condensed (lines : List Line) :
    (Program.mk (condensed lines)).codes = (Program.mk lines).codes :=
  flatMap_condensed (fun _ => Line.bytes_of_blank) lines

theorem alike_of_outcome {result result' : Except Failure (List Line)}
    (h : outcome result = outcome result') : Alike result result' := by
  cases result with
  | error failure =>
    cases result' with
    | error failure' => exact .rejected (Except.error.inj h)
    | ok final' => cases h
  | ok final =>
    cases result' with
    | error failure' => cases h
    | ok final' =>
      have hlines : condensed final = condensed final' := Except.ok.inj h
      have hcodes : (Program.mk final).codes = (Program.mk final').codes := by
        rw [← codes_condensed final, hlines, codes_condensed]
      exact .accepted hlines (congrArg (List.map CodeByte.bits) hcodes)

/-- Sources with the same visible lines are assembled alike, whatever the instruction set and the start
of the variables. Cleaning a clean line changes nothing, and a cleaned line has the words that stand
before the first marker of a comment. -/
theorem alike_of_visible :
    (∀ (asm : Assembler) (source source' : List String), visible source = visible source' →
      Alike (asm.process source) (asm.process source')) ∧
    (∀ raw, Line.cleanText (Line.cleanText raw) = Line.cleanText raw) ∧
    (∀ raw : String, ¬ Line.marker <:+: raw.toList →
      Text.words (Line.cleanText raw) = Text.words raw) ∧
    ∀ before comment : List Char, ¬ Line.marker <:+: before ++ ['/'] →
      Text.words (Line.cleanText (String.ofList (before ++ Line.marker ++ comment))) =
        Text.words (String.ofList before) := by
  refine ⟨?_, Line.cleanText_cleanText, ?_, ?_⟩
  · intro asm source source' h
    apply alike_of_outcome
    rw [outcome_process, h, ← outcome_process]
  · intro raw h
    rw [Line.words_cleanText, Line.beforeComment_eq_self h, String.ofList_toList]
  · intro before comment h
    rw [Line.words_cleanText, String.toList_ofList, Line.beforeComment_append h]

/-- A comment and two empty lines between a label and its line, and single slashes that become no marker
when blanks are taken out. -/
theorem alike_of_scattered : ∃ final final',
    (standard 0).process ["@top", "JUMP @top"] = .ok final ∧
      (standard 0).process ["  @top// start", " // nothing", "", "JUMP\t @top"] = .ok final' ∧
      Alike (.ok final) (.ok final') ∧
      Text.words (Line.cleanText "A/  /B") = ["A/", "/B"] ∧
      Text.words (Line.cleanText (String.ofList ("A/  /B ".toList ++ Line.marker ++ "x // y".toList))) =
        ["A/", "/B"] := by
  obtain ⟨hprocess, -, hplain, hcomment⟩ := alike_of_visible
  have halike := hprocess (standard 0) ["@top", "JUMP @top"]
    ["  @top// start", " // nothing", "", "JUMP\t @top"] (by decide +kernel)
  have hcheck : ((standard 0).process ["@top", "JUMP @top"]).toOption.any (fun _ => true) = true := by
    decide +kernel
  obtain ⟨final, hfinal, -⟩ := exists_ok_of_any hcheck
  rw [hfinal] at halike
  cases hfinal' : (standard 0).process ["  @top// start", " // nothing", "", "JUMP\t @top"] with
  | error failure =>
    rw [hfinal'] at halike
    cases halike
  | ok final' =>
    rw [hfinal'] at halike
    refine ⟨final, final', hfinal, rfl, halike, ?_, ?_⟩
    · rw [hplain "A/  /B" (by decide +kernel)]
      decide +kernel
    · rw [hcomment "A/  /B ".toList "x // y".toList (by decide +kernel)]
      decide +kernel

end Assembler

end Microcomputer
