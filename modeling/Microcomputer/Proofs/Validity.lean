import Mathlib
import Microcomputer.Assembly.Resolve

/-!
# Programs that pass the checks

* `Program.Separated` : between two labels there is machine code;
* `Program.Valid` : a program that breaks none of the rules, said without the scans;
* `Check.repeated_eq_none` … `Check.oversized_eq_none` : when a scan finds nothing;
* `variableNames_eq` : the variables in order of first appearance, each once;
* `Check.first?_eq_none` : the checks find nothing exactly in valid programs.
-/

namespace Microcomputer

theorem contains_insert_name (seen : Std.TreeSet String) (name other : String) :
    (seen.insert name).contains other = (name == other || seen.contains other) := by
  rw [Std.TreeSet.contains_insert, Bool.eq_iff_iff]
  simp

/-! ## Rules of a program -/

namespace Content

def usedLabels (content : Content) : List String :=
  (content.bytes.filter (·.constantKind == .label)).map CodeByte.constant

def variableNames (content : Content) : List String :=
  content.variableName?.toList ++
    (content.bytes.filter (·.constantKind == .variable)).map CodeByte.constant

theorem labelName?_eq_some {content : Content} {name : String} :
    content.labelName? = some name ↔ content = .label name := by
  cases content <;> simp [labelName?]

end Content

namespace Program

def IsCodeAt (contents : List Content) (k : Nat) : Prop := ∃ bytes, contents[k]? = some (.code bytes)

/-- Between any two lines that define labels there is a line of machine code. -/
def Separated (contents : List Content) : Prop :=
  ∀ i j a b, i < j → contents[i]? = some (.label a) → contents[j]? = some (.label b) →
    ∃ k, i < k ∧ k < j ∧ IsCodeAt contents k

/-- A program that breaks none of the rules, with its variables from `start` on. -/
structure Valid (start : Int) (contents : List Content) : Prop where
  labels_nodup : (contents.filterMap Content.labelName?).Nodup
  separated : Separated contents
  labels_defined : ∀ content ∈ contents, ∀ name ∈ content.usedLabels, .label name ∈ contents
  variables_nodup : (contents.filterMap Content.variableName?).Nodup
  variables_count : (contents.flatMap Content.variableNames).toFinset.card ≤ 255
  variables_fit : start + (contents.flatMap Content.variableNames).toFinset.card ≤ 256
  bytes_fit : (contents.flatMap Content.bytes).length ≤ 255

theorem mem_labels {contents : List Content} {name : String} :
    name ∈ contents.filterMap Content.labelName? ↔ .label name ∈ contents := by
  simp only [List.mem_filterMap, Content.labelName?_eq_some, exists_eq_right]

/-- Every label has machine code before it. -/
def Guarded (contents : List Content) : Prop :=
  ∀ j b, contents[j]? = some (.label b) → ∃ k < j, IsCodeAt contents k

theorem separated_of_cons {content : Content} {contents : List Content}
    (h : Separated (content :: contents)) : Separated contents := by
  intro i j a b hij hi hj
  obtain ⟨k, hik, hkj, hk⟩ := h (i + 1) (j + 1) a b (by omega) hi hj
  obtain ⟨k, rfl⟩ : ∃ k', k = k' + 1 := ⟨k - 1, by omega⟩
  exact ⟨k, by omega, by omega, hk⟩

theorem separated_cons_label {name : String} {contents : List Content} :
    Separated (.label name :: contents) ↔ Separated contents ∧ Guarded contents := by
  constructor
  · intro h
    refine ⟨separated_of_cons h, fun j b hj => ?_⟩
    obtain ⟨k, hk, hkj, hcode⟩ := h 0 (j + 1) name b (by omega) rfl hj
    obtain ⟨k, rfl⟩ : ∃ k', k = k' + 1 := ⟨k - 1, by omega⟩
    exact ⟨k, by omega, hcode⟩
  · rintro ⟨hseparated, hguarded⟩ i j a b hij hi hj
    obtain ⟨j, rfl⟩ : ∃ j', j = j' + 1 := ⟨j - 1, by omega⟩
    cases i with
    | zero =>
      obtain ⟨k, hkj, hk⟩ := hguarded j b hj
      exact ⟨k + 1, by omega, by omega, hk⟩
    | succ i =>
      obtain ⟨k, hik, hkj, hk⟩ := hseparated i j a b (by omega) hi hj
      exact ⟨k + 1, by omega, by omega, hk⟩

theorem separated_cons_other {content : Content} (hcontent : content.labelName? = none)
    {contents : List Content} : Separated (content :: contents) ↔ Separated contents := by
  refine ⟨separated_of_cons, fun h i j a b hij hi hj => ?_⟩
  obtain ⟨j, rfl⟩ : ∃ j', j = j' + 1 := ⟨j - 1, by omega⟩
  cases i with
  | zero =>
    rw [Option.some.inj hi] at hcontent
    cases hcontent
  | succ i =>
    obtain ⟨k, hik, hkj, hk⟩ := h i j a b (by omega) hi hj
    exact ⟨k + 1, by omega, by omega, hk⟩

theorem guarded_cons_code {bytes : List CodeByte} {contents : List Content} :
    Guarded (.code bytes :: contents) := by
  intro j b hj
  cases j with
  | zero => cases hj
  | succ j => exact ⟨0, by omega, bytes, rfl⟩

theorem guarded_cons_other {content : Content} (hlabel : content.labelName? = none)
    (hcode : content.isCode = false) {contents : List Content} :
    Guarded (content :: contents) ↔ Guarded contents := by
  constructor
  · intro h j b hj
    obtain ⟨k, hkj, bytes, hk⟩ := h (j + 1) b hj
    cases k with
    | zero =>
      rw [Option.some.inj hk] at hcode
      cases hcode
    | succ k => exact ⟨k, by omega, bytes, hk⟩
  · intro h j b hj
    cases j with
    | zero =>
      rw [Option.some.inj hj] at hlabel
      cases hlabel
    | succ j =>
      obtain ⟨k, hkj, hk⟩ := h j b hj
      exact ⟨k + 1, by omega, hk⟩

end Program

/-! ## The scans -/

namespace Check

open Program

theorem repeated_eq_none {name? : Line → Option String} {seen : Std.TreeSet String}
    {lines : List Line} : repeated name? seen lines = none ↔
      (lines.filterMap name?).Nodup ∧ ∀ name ∈ lines.filterMap name?, seen.contains name = false := by
  fun_induction repeated name? seen lines with
  | case1 => simp
  | case2 seen line rest hnone ih => rw [ih, List.filterMap_cons_none hnone]
  | case3 seen line rest name hsome hseen =>
    rw [List.filterMap_cons_some hsome]
    simp [hseen]
  | case4 seen line rest name hsome hseen ih =>
    rw [ih, List.filterMap_cons_some hsome, List.nodup_cons, List.forall_mem_cons]
    simp only [contains_insert_name, Bool.or_eq_false_iff, beq_eq_false_iff_ne]
    constructor
    · rintro ⟨hnodup, hnew⟩
      exact ⟨⟨fun hmem => (hnew name hmem).1 rfl, hnodup⟩, Bool.eq_false_iff.mpr hseen,
        fun other hother => (hnew other hother).2⟩
    · rintro ⟨⟨hnot, hnodup⟩, -, hnew⟩
      exact ⟨hnodup, fun other hother => ⟨fun heq => hnot (heq ▸ hother), hnew other hother⟩⟩

theorem doubled_eq_none {pending : Bool} {lines : List Line} :
    doubled pending lines = none ↔
      Separated (lines.map Line.content) ∧ (pending = true → Guarded (lines.map Line.content)) := by
  fun_induction doubled pending lines with
  | case1 => simp [Separated, Guarded]
  | case2 line rest name hcontent =>
    rw [List.map_cons, hcontent]
    simp only [reduceCtorEq, false_iff, not_and]
    intro _ hguarded
    obtain ⟨k, hk, -⟩ := hguarded trivial 0 name rfl
    omega
  | case3 pending line rest name hcontent hpending ih =>
    rw [ih, List.map_cons, hcontent, separated_cons_label]
    simp [hpending]
  | case4 pending line rest bytes hcontent ih =>
    rw [ih, List.map_cons, hcontent, separated_cons_other rfl]
    simp [guarded_cons_code]
  | case5 pending line rest hlabel hcode ih =>
    have hnoLabel : line.content.labelName? = none := by
      cases h : line.content with
      | label name => exact absurd h (hlabel name)
      | _ => rfl
    have hnoCode : line.content.isCode = false := by
      cases h : line.content with
      | code bytes => exact absurd h (hcode bytes)
      | _ => rfl
    rw [ih, List.map_cons, separated_cons_other hnoLabel, guarded_cons_other hnoLabel hnoCode]

theorem undefinedLabel_eq_none {lines : List Line} : undefinedLabel lines = none ↔
    ∀ line ∈ lines, ∀ name ∈ line.usedLabels, name ∈ lines.filterMap Line.definedLabel? := by
  unfold undefinedLabel
  rw [List.findSome?_eq_none_iff]
  refine forall₂_congr fun line _ => ?_
  rw [Option.map_eq_none_iff, List.find?_eq_none]
  refine forall₂_congr fun name _ => ?_
  simp [Std.TreeSet.contains_ofList]

theorem overflowing_eq_none {start : Int} {count : Nat} {found : List (Line × String)} :
    overflowing start count found = none ↔
      found = [] ∨ (count + found.length ≤ 255 ∧ start + (count + found.length : Nat) ≤ 256) := by
  fun_induction overflowing start count found with
  | case1 => simp
  | case2 count found rest h =>
    rw [Bool.or_eq_true, decide_eq_true_eq, decide_eq_true_eq, maxVariables, maxDataAddress] at h
    simp only [reduceCtorEq, List.length_cons, false_or, false_iff, not_and]
    omega
  | case3 count found rest h ih =>
    rw [Bool.or_eq_true, decide_eq_true_eq, decide_eq_true_eq, maxVariables, maxDataAddress] at h
    rw [ih]
    simp only [reduceCtorEq, List.length_cons, false_or]
    cases rest with
    | nil => simp; omega
    | cons next rest => simp; omega

theorem oversized_eq_none {total : Nat} (htotal : total ≤ 255) {lines : List Line} :
    oversized total lines = none ↔ total + (lines.flatMap Line.bytes).length ≤ 255 := by
  fun_induction oversized total lines with
  | case1 => simpa using htotal
  | case2 total line rest h =>
    simp only [maxProgramBytes] at h
    rw [List.flatMap_cons, List.length_append]
    simp only [reduceCtorEq, false_iff]
    omega
  | case3 total line rest h ih =>
    simp only [maxProgramBytes] at h
    rw [ih (by omega), List.flatMap_cons, List.length_append]
    omega

end Check

/-! ## Variables -/

theorem map_firstAppearances {seen : Std.TreeSet String} {found : List (Line × String)} :
    (firstAppearances seen found).map Prod.snd =
      ((found.map Prod.snd).filter fun name => !seen.contains name).eraseDups := by
  fun_induction firstAppearances seen found with
  | case1 => rfl
  | case2 seen line name rest hseen ih => simp [ih, hseen]
  | case3 seen line name rest hseen ih =>
    rw [List.map_cons, ih, List.map_cons, List.filter_cons_of_pos (by rw [Bool.eq_false_iff.mpr hseen]; rfl),
      List.eraseDups_cons, List.filter_filter]
    congr 3
    funext other
    rw [contains_insert_name, Bool.not_or, Bool.beq_comm]

/-- The variables in order of first appearance, each once. -/
theorem variableNames_eq (lines : List Line) :
    (variablesOf lines).map Prod.snd = (lines.flatMap Line.variableNames).eraseDups := by
  have hnames : (lines.flatMap fun line => line.variableNames.map fun name => (line, name)).map
      Prod.snd = lines.flatMap Line.variableNames := by
    rw [List.map_flatMap]
    congr 1
    funext line
    simp
  rw [variablesOf, map_firstAppearances, hnames]
  simp

theorem nodup_eraseDups (names : List String) : names.eraseDups.Nodup := by
  induction h : names.length using Nat.strong_induction_on generalizing names with
  | _ n ih =>
    cases names with
    | nil => exact .nil
    | cons name rest =>
      rw [List.eraseDups_cons, List.nodup_cons]
      have hlength := List.length_filter_le (fun b => !b == name) rest
      rw [List.length_cons] at h
      refine ⟨?_, ih _ (by omega) _ rfl⟩
      rw [List.mem_eraseDups, List.mem_filter]
      simp

theorem length_eraseDups (names : List String) : names.eraseDups.length = names.toFinset.card := by
  rw [← List.toFinset_card_of_nodup (nodup_eraseDups names)]
  congr 1
  ext name
  simp [List.mem_eraseDups]

/-! ## All checks -/

namespace Check

open Program

theorem first?_eq_none_iff {start : Int} {lines : List Line} : first? start lines = none ↔
    repeated Line.definedLabel? ∅ lines = none ∧ doubled false lines = none ∧
      undefinedLabel lines = none ∧ repeated Line.definedVariable? ∅ lines = none ∧
      overflowing start 0 (variablesOf lines) = none ∧ oversized 0 lines = none := by
  rw [first?, List.findSome?_eq_none_iff]
  simp [all]

/-- The checks find nothing exactly in valid programs. -/
theorem first?_eq_none {start : Int} (hstart : start ≤ 255) {lines : List Line} :
    first? start lines = none ↔ Valid start (lines.map Line.content) := by
  have hlabels : lines.filterMap Line.definedLabel? =
      (lines.map Line.content).filterMap Content.labelName? := List.filterMap_map.symm
  have hvariables : lines.filterMap Line.definedVariable? =
      (lines.map Line.content).filterMap Content.variableName? := List.filterMap_map.symm
  have hnames : lines.flatMap Line.variableNames =
      (lines.map Line.content).flatMap Content.variableNames :=
    (List.flatMap_map Line.content Content.variableNames lines).symm
  have hbytes : lines.flatMap Line.bytes = (lines.map Line.content).flatMap Content.bytes :=
    (List.flatMap_map Line.content Content.bytes lines).symm
  have hcount : (variablesOf lines).length =
      ((lines.map Line.content).flatMap Content.variableNames).toFinset.card := by
    rw [← hnames, ← length_eraseDups, ← variableNames_eq, List.length_map]
  have hfit : overflowing start 0 (variablesOf lines) = none ↔
      ((lines.map Line.content).flatMap Content.variableNames).toFinset.card ≤ 255 ∧
      start + ((lines.map Line.content).flatMap Content.variableNames).toFinset.card ≤ 256 := by
    rw [overflowing_eq_none, ← List.length_eq_zero_iff, hcount]
    omega
  have hused : undefinedLabel lines = none ↔ ∀ content ∈ lines.map Line.content,
      ∀ name ∈ content.usedLabels, .label name ∈ lines.map Line.content := by
    rw [undefinedLabel_eq_none, List.forall_mem_map, hlabels]
    exact forall₂_congr fun line _ => forall₂_congr fun name _ => mem_labels
  have hnew : ∀ name, (∅ : Std.TreeSet String).contains name = false := fun name => by simp
  rw [first?_eq_none_iff, repeated_eq_none, doubled_eq_none, hused, repeated_eq_none, hfit,
    oversized_eq_none (Nat.zero_le _), hlabels, hvariables, hbytes, Nat.zero_add]
  constructor
  · rintro ⟨⟨hl, -⟩, ⟨hs, -⟩, hd, ⟨hv, -⟩, ⟨hc, hf⟩, hb⟩
    exact ⟨hl, hs, hd, hv, hc, hf, hb⟩
  · rintro ⟨hl, hs, hd, hv, hc, hf, hb⟩
    exact ⟨⟨hl, fun name _ => hnew name⟩, ⟨hs, by simp⟩, hd, ⟨hv, fun name _ => hnew name⟩,
      ⟨hc, hf⟩, hb⟩

end Check

end Microcomputer
