import Mathlib
import Microcomputer.Proofs.Acceptance

/-!
# Why a source is not assembled

The lines of a source are read first, then six rules are checked, each by a scan of all lines. What is
reported is the first line at fault under the first of these that finds one.

* `Check.Locates` : a scan finds the first line at fault; one lemma for each scan;
* `Program.Breaks` : a line against the rule behind a kind of defects, said without the scans;
* `Check.first?_eq_some` : the checks report the first line against the first rule that is broken;
* `Line.readFrom_eq_error` : reading stops at the first line that cannot be read;
* `Assembler.Culprit` : the line, the kind and the symbol that a source is rejected for;
* `Assembler.culprit_of_process` : every rejection reports its culprit.
-/

namespace Microcomputer

open Program Traversal

/-! ## Scans -/

namespace Check

/-- A scan finds the first line at fault with the symbol at fault, or nothing if no line is at fault. -/
def Locates (lines : List Line) (Fault : Nat → String → Prop) : Option (Line × String) → Prop
  | none => ∀ n symbol, ¬ Fault n symbol
  | some found => ∃ n, lines[n]? = some found.1 ∧ Fault n found.2 ∧ ∀ m < n, ∀ symbol, ¬ Fault m symbol

section

variable {lines rest : List Line} {line : Line} {Fault Fault' : Nat → String → Prop}
  {found : Option (Line × String)}

theorem Locates.here {symbol : String} (h : Fault 0 symbol) :
    Locates (line :: rest) Fault (some (line, symbol)) :=
  ⟨0, rfl, h, fun m hm => absurd hm (Nat.not_lt_zero m)⟩

theorem Locates.later (hhere : ∀ symbol, ¬ Fault 0 symbol)
    (h : Locates rest (fun n => Fault (n + 1)) found) : Locates (line :: rest) Fault found := by
  cases found with
  | none =>
    intro n symbol
    cases n with
    | zero => exact hhere symbol
    | succ n => exact h n symbol
  | some found =>
    obtain ⟨n, hline, hfault, hfirst⟩ := h
    refine ⟨n + 1, hline, hfault, ?_⟩
    intro m hm symbol
    cases m with
    | zero => exact hhere symbol
    | succ m => exact hfirst m (by omega) symbol

/-- The fault may be said in another way, as long as the same lines are at fault. -/
theorem Locates.imp (h : Locates lines Fault found) (hto : ∀ n symbol, Fault n symbol → Fault' n symbol)
    (hfrom : ∀ n symbol, Fault' n symbol → ∃ other, Fault n other) : Locates lines Fault' found := by
  have hnone : ∀ n, (∀ symbol, ¬ Fault n symbol) → ∀ symbol, ¬ Fault' n symbol := by
    intro n hn symbol hsymbol
    obtain ⟨other, hother⟩ := hfrom n symbol hsymbol
    exact hn other hother
  cases found with
  | none => exact fun n => hnone n (h n)
  | some found =>
    obtain ⟨n, hline, hfault, hfirst⟩ := h
    exact ⟨n, hline, hto n _ hfault, fun m hm => hnone m (hfirst m hm)⟩

theorem Locates.congr (h : Locates lines Fault found)
    (heq : ∀ n symbol, Fault n symbol ↔ Fault' n symbol) : Locates lines Fault' found :=
  h.imp (fun n symbol => (heq n symbol).mp) fun n symbol hfault => ⟨symbol, (heq n symbol).mpr hfault⟩

end

theorem locates_repeated (name? : Line → Option String) (seen : Std.TreeSet String) (lines : List Line) :
    Locates lines (fun n symbol => lines[n]?.bind name? = some symbol ∧
      (seen.contains symbol = true ∨ ∃ i < n, lines[i]?.bind name? = some symbol))
      (repeated name? seen lines) := by
  fun_induction repeated name? seen lines with
  | case1 seen =>
    intro n symbol h
    exact absurd h.1 (by simp)
  | case2 seen line rest hname ih =>
    refine .later (by simp [hname]) (ih.congr fun n symbol => ?_)
    rw [Nat.exists_lt_succ_left]
    simp [hname]
  | case3 seen line rest name hname hseen => exact .here ⟨hname, .inl hseen⟩
  | case4 seen line rest name hname hseen ih =>
    refine .later ?_ (ih.congr fun n symbol => ?_)
    · rintro symbol ⟨hsymbol, hbefore⟩
      obtain rfl : name = symbol := Option.some.inj (hname.symm.trans hsymbol)
      simp [hseen] at hbefore
    · rw [contains_insert_name, Nat.exists_lt_succ_left]
      simp [hname, or_assoc, or_left_comm]

theorem locates_findSome? (find : Line → Option String) (lines : List Line) :
    Locates lines (fun n symbol => lines[n]?.bind find = some symbol)
      (lines.findSome? fun line => (find line).map fun symbol => (line, symbol)) := by
  induction lines with
  | nil =>
    intro n symbol h
    exact absurd h (by simp)
  | cons line rest ih =>
    rw [List.findSome?_cons]
    cases hfind : find line with
    | none => exact .later (by simp [hfind]) ih
    | some symbol => exact .here hfind

theorem locates_undefinedLabel (lines : List Line) :
    Locates lines (fun n symbol => (∃ line, lines[n]? = some line ∧ symbol ∈ line.usedLabels) ∧
      symbol ∉ lines.filterMap Line.definedLabel?) (undefinedLabel lines) := by
  unfold undefinedLabel
  -- the scan names the first of the labels at fault in a line, the rule is about any of them
  refine (locates_findSome? _ lines).imp ?_ ?_
  · intro n symbol h
    obtain ⟨line, hline, hfind⟩ := Option.bind_eq_some_iff.mp h
    have hnot := List.find?_some hfind
    refine ⟨⟨line, hline, List.mem_of_find?_eq_some hfind⟩, ?_⟩
    simpa [Std.TreeSet.contains_ofList] using hnot
  · rintro n symbol ⟨⟨line, hline, hused⟩, hnot⟩
    rw [hline, Option.bind_some]
    refine Option.isSome_iff_exists.mp (List.find?_isSome.mpr ⟨symbol, hused, ?_⟩)
    simpa [Std.TreeSet.contains_ofList] using hnot

theorem locates_oversized (total : Nat) (lines : List Line) :
    Locates lines (fun n symbol => symbol = "" ∧ n < lines.length ∧
      255 < total + totalBytes (lines.take (n + 1))) (oversized total lines) := by
  fun_induction oversized total lines with
  | case1 total =>
    intro n symbol h
    exact absurd h.2.1 (Nat.not_lt_zero n)
  | case2 total line rest hlarge =>
    refine .here ⟨rfl, Nat.succ_pos _, ?_⟩
    unfold maxProgramBytes at hlarge
    rw [List.take_succ_cons, totalBytes_cons]
    omega
  | case3 total line rest hsmall ih =>
    unfold maxProgramBytes at hsmall
    refine .later ?_ (ih.congr fun n symbol => ?_)
    · rintro symbol ⟨-, -, hlarge⟩
      rw [List.take_succ_cons, totalBytes_cons, List.take_zero, show totalBytes [] = 0 from rfl] at hlarge
      omega
    · rw [List.take_succ_cons, totalBytes_cons, List.length_cons, Nat.add_lt_add_iff_right, Nat.add_assoc]

end Check

/-! ## Labels without machine code between them -/

namespace Program

def NoCodeIn (contents : List Content) (i n : Nat) : Prop := ∀ k, i ≤ k → k < n → ¬ IsCodeAt contents k

theorem noCodeIn_succ {content : Content} {contents : List Content} {i n : Nat} :
    NoCodeIn (content :: contents) (i + 1) (n + 1) ↔ NoCodeIn contents i n := by
  refine ⟨fun h k hi hn => h (k + 1) (by omega) (by omega), fun h k hi hn => ?_⟩
  obtain ⟨k, rfl⟩ : ∃ k', k = k' + 1 := ⟨k - 1, by omega⟩
  exact h k (by omega) (by omega)

theorem noCodeIn_zero {content : Content} {contents : List Content} {n : Nat} :
    NoCodeIn (content :: contents) 0 (n + 1) ↔ content.isCode = false ∧ NoCodeIn contents 0 n := by
  have hhead : IsCodeAt (content :: contents) 0 ↔ content.isCode = true := by
    rw [isCodeAt_iff]
    simp
  rw [← Bool.not_eq_true, ← hhead, ← @noCodeIn_succ content contents 0 n]
  refine ⟨fun h => ⟨h 0 (by omega) (by omega), fun k hk hn => h k (by omega) hn⟩, ?_⟩
  rintro ⟨hzero, h⟩ k - hn
  rcases Nat.eq_zero_or_pos k with rfl | hk
  · exact hzero
  · exact h k hk hn

end Program

/-- With `pending`, a label waits before all lines. -/
theorem Check.locates_doubled (pending : Bool) (lines : List Line) :
    Locates lines (fun n symbol => (lines.map Line.content)[n]? = some (.label symbol) ∧
      ((pending = true ∧ NoCodeIn (lines.map Line.content) 0 n) ∨
        ∃ i < n, (∃ other, (lines.map Line.content)[i]? = some (.label other)) ∧
          NoCodeIn (lines.map Line.content) (i + 1) n)) (doubled pending lines) := by
  fun_induction doubled pending lines with
  | case1 pending =>
    intro n symbol h
    exact absurd h.1 (by simp)
  | case2 line rest name hcontent =>
    exact .here ⟨congrArg some hcontent, .inl ⟨rfl, fun k _ hk => absurd hk (Nat.not_lt_zero k)⟩⟩
  | case3 pending line rest name hcontent hpending ih =>
    refine .later (by simp [hpending]) (ih.congr fun n symbol => ?_)
    rw [Nat.exists_lt_succ_left, List.map_cons, hcontent]
    simp [noCodeIn_succ, hpending]
  | case4 pending line rest bytes hcontent ih =>
    refine .later (by simp [hcontent]) (ih.congr fun n symbol => ?_)
    rw [Nat.exists_lt_succ_left, List.map_cons, hcontent]
    simp [noCodeIn_succ, noCodeIn_zero, Content.isCode]
  | case5 pending line rest hlabel hcode ih =>
    have hnoLabel : ∀ name, line.content ≠ .label name := hlabel
    have hnoCode : line.content.isCode = false := by
      cases h : line.content with
      | code bytes => exact absurd h (hcode bytes)
      | _ => rfl
    refine .later (by simp [hnoLabel]) (ih.congr fun n symbol => ?_)
    rw [Nat.exists_lt_succ_left, List.map_cons]
    simp [noCodeIn_succ, noCodeIn_zero, hnoCode, hnoLabel]

/-! ## Variables without a place -/

/-- The number of variables that have a place in data memory from `start` on. -/
def variableRoom (start : Int) : Nat := min 255 (256 - start).toNat

theorem Check.overflowing_eq {start : Int} (hstart : 0 ≤ start) {count : Nat}
    (hcount : count ≤ variableRoom start) (found : List (Line × String)) :
    overflowing start count found = found[variableRoom start - count]? := by
  unfold variableRoom at hcount ⊢
  fun_induction overflowing start count found with
  | case1 => rfl
  | case2 count first rest hfull =>
    rw [Bool.or_eq_true, decide_eq_true_eq, decide_eq_true_eq, maxVariables, maxDataAddress] at hfull
    rw [show min 255 (256 - start).toNat - count = 0 by omega]
    rfl
  | case3 count first rest hroom ih =>
    rw [Bool.or_eq_true, decide_eq_true_eq, decide_eq_true_eq, maxVariables, maxDataAddress] at hroom
    rw [ih (by omega), show min 255 (256 - start).toNat - count =
      min 255 (256 - start).toNat - (count + 1) + 1 by omega, List.getElem?_cons_succ]

theorem mem_firstAppearances {seen : Std.TreeSet String} {found : List (Line × String)} {line : Line}
    {name : String} (h : (line, name) ∈ firstAppearances seen found) :
    seen.contains name = false ∧ ∃ before after, found = before ++ (line, name) :: after ∧
      name ∉ before.map Prod.snd := by
  fun_induction firstAppearances seen found with
  | case1 => cases h
  | case2 seen line' name' rest hseen ih =>
    obtain ⟨hnew, before, after, rfl, hbefore⟩ := ih h
    refine ⟨hnew, (line', name') :: before, after, rfl, ?_⟩
    rw [List.map_cons, List.mem_cons, not_or]
    refine ⟨?_, hbefore⟩
    rintro rfl
    rw [hseen] at hnew
    cases hnew
  | case3 seen line' name' rest hseen ih =>
    rcases List.mem_cons.mp h with heq | h
    · cases heq
      exact ⟨Bool.eq_false_iff.mpr hseen, [], rest, rfl, by simp⟩
    · obtain ⟨hnew, before, after, rfl, hbefore⟩ := ih h
      rw [contains_insert_name, Bool.or_eq_false_iff, beq_eq_false_iff_ne] at hnew
      refine ⟨hnew.2, (line', name') :: before, after, rfl, ?_⟩
      rw [List.map_cons, List.mem_cons, not_or]
      exact ⟨fun heq => hnew.1 heq.symm, hbefore⟩

theorem exists_line_of_appearance {lines : List Line} {line : Line} {name : String}
    {before after : List (Line × String)}
    (h : (lines.flatMap fun line => line.variableNames.map fun name => (line, name)) =
      before ++ (line, name) :: after) :
    ∃ n, lines[n]? = some line ∧ name ∈ line.variableNames ∧
      (lines.take n).flatMap Line.variableNames <+: before.map Prod.snd := by
  induction lines generalizing before with
  | nil => simp at h
  | cons first rest ih =>
    have hfirst : (first.variableNames.map fun name => (first, name)).map Prod.snd =
        first.variableNames := by simp
    rw [List.flatMap_cons] at h
    rcases List.append_eq_append_iff.mp h with ⟨between, rfl, hrest⟩ | ⟨between, hnames, hrest⟩
    · obtain ⟨n, hline, hname, hbefore⟩ := ih hrest
      refine ⟨n + 1, hline, hname, ?_⟩
      rw [List.take_succ_cons, List.flatMap_cons, List.map_append, hfirst]
      exact (List.prefix_append_right_inj _).mpr hbefore
    · rcases between with - | ⟨pair, between⟩
      · obtain ⟨n, hline, hname, hbefore⟩ := @ih [] hrest.symm
        rw [List.append_nil] at hnames
        refine ⟨n + 1, hline, hname, ?_⟩
        rw [List.take_succ_cons, List.flatMap_cons, ← hnames, hfirst, List.prefix_nil.mp hbefore]
        simp
      · obtain ⟨rfl, -⟩ := List.cons.inj hrest
        have hmem : (line, name) ∈ first.variableNames.map fun name => (first, name) := by
          rw [hnames]
          simp
        obtain ⟨_, hname, heq⟩ := List.mem_map.mp hmem
        cases heq
        exact ⟨0, rfl, hname, by simp⟩

theorem Check.locates_overflowing {start : Int} (hstart : 0 ≤ start) (lines : List Line) :
    Locates lines (fun n symbol =>
      (lines.flatMap Line.variableNames).eraseDups[variableRoom start]? = some symbol ∧
        symbol ∈ (lines.take (n + 1)).flatMap Line.variableNames ∧
        symbol ∉ (lines.take n).flatMap Line.variableNames)
      (overflowing start 0 (variablesOf lines)) := by
  rw [overflowing_eq hstart (Nat.zero_le _), Nat.sub_zero, ← variableNames_eq, List.getElem?_map]
  cases hget : (variablesOf lines)[variableRoom start]? with
  | none =>
    intro n symbol h
    exact absurd h.1 (by simp)
  | some found =>
    obtain ⟨line, name⟩ := found
    obtain ⟨-, before, after, happearances, hbefore⟩ :=
      mem_firstAppearances (List.mem_of_getElem? hget)
    obtain ⟨n, hline, hname, hearlier⟩ := exists_line_of_appearance happearances
    refine ⟨n, hline, ⟨rfl, ?_, fun hmem => hbefore (hearlier.subset hmem)⟩, ?_⟩
    · refine List.mem_flatMap.mpr ⟨line, ?_, hname⟩
      rw [List.take_add_one, hline]
      simp
    · rintro m hm symbol ⟨heq, hmem, -⟩
      cases heq
      have hsub : (lines.take (m + 1)).flatMap Line.variableNames ⊆
          (lines.take n).flatMap Line.variableNames := by
        intro other hother
        obtain ⟨l, hl, hother⟩ := List.mem_flatMap.mp hother
        exact List.mem_flatMap.mpr ⟨l, (List.take_subset_take_left lines (by omega)) hl, hother⟩
      exact hbefore (hearlier.subset (hsub hmem))

/-! ## The rules -/

def Defect.inOrder : List Defect :=
  [.line, .labelDuplicate, .labelDouble, .labelUndefined, .variableDuplicate, .variableCapacity,
    .programCapacity]

theorem Content.variableName?_eq_some {content : Content} {name : String} :
    content.variableName? = some name ↔ content = .variable name := by
  cases content <;> simp [variableName?]

namespace Program

/-- Line `n`, counted from 0, is against the rule behind a kind of defects, and `symbol` is what is
wrong with it. -/
def Breaks (start : Int) (contents : List Content) (n : Nat) (symbol : String) : Defect → Prop
  | .labelDuplicate => contents[n]? = some (.label symbol) ∧ ∃ i < n, contents[i]? = some (.label symbol)
  | .labelDouble => contents[n]? = some (.label symbol) ∧
      ∃ i < n, (∃ other, contents[i]? = some (.label other)) ∧ NoCodeIn contents (i + 1) n
  | .labelUndefined => (∃ content, contents[n]? = some content ∧ symbol ∈ content.usedLabels) ∧
      .label symbol ∉ contents
  | .variableDuplicate =>
      contents[n]? = some (.variable symbol) ∧ ∃ i < n, contents[i]? = some (.variable symbol)
  | .variableCapacity =>
      (contents.flatMap Content.variableNames).eraseDups[variableRoom start]? = some symbol ∧
        symbol ∈ (contents.take (n + 1)).flatMap Content.variableNames ∧
        symbol ∉ (contents.take n).flatMap Content.variableNames
  | .programCapacity => symbol = "" ∧ n < contents.length ∧
      255 < ((contents.take (n + 1)).flatMap Content.bytes).length
  | _ => False

end Program

namespace Check

theorem flatMap_take (lines : List Line) (n : Nat) {α : Type} (view : Content → List α) :
    ((lines.map Line.content).take n).flatMap view = (lines.take n).flatMap fun line => view line.content := by
  rw [← List.map_take, List.flatMap_map]

/-- The line that a name is read off, by its content. -/
theorem bind_eq_some_symbol {name? : Line → Option String} {make : String → Content}
    (h : ∀ line name, name? line = some name ↔ line.content = make name) (lines : List Line) (n : Nat)
    (symbol : String) : lines[n]?.bind name? = some symbol ↔
      (lines.map Line.content)[n]? = some (make symbol) := by
  rw [List.getElem?_map, Option.bind_eq_some_iff, Option.map_eq_some_iff]
  exact exists_congr fun line => and_congr_right fun _ => h line symbol

theorem locates_all {start : Int} (hstart : 0 ≤ start) (lines : List Line) :
    ∀ check ∈ all start, Locates lines
      (fun n symbol => Breaks start (lines.map Line.content) n symbol check.1) (check.2 lines) := by
  unfold all
  simp only [List.forall_mem_cons, List.not_mem_nil, false_implies, implies_true, and_true]
  have hlabel : ∀ n symbol, lines[n]?.bind Line.definedLabel? = some symbol ↔ _ :=
    bind_eq_some_symbol (fun _ _ => Content.labelName?_eq_some) lines
  have hvariable : ∀ n symbol, lines[n]?.bind Line.definedVariable? = some symbol ↔ _ :=
    bind_eq_some_symbol (fun _ _ => Content.variableName?_eq_some) lines
  refine ⟨?_, ?_, ?_, ?_, ?_, ?_⟩
  · refine (locates_repeated Line.definedLabel? ∅ lines).congr fun n symbol => ?_
    simp [Breaks, hlabel]
  · refine (locates_doubled false lines).congr fun n symbol => ?_
    simp [Breaks]
  · refine (locates_undefinedLabel lines).congr fun n symbol => ?_
    have hlabels : lines.filterMap Line.definedLabel? =
        (lines.map Line.content).filterMap Content.labelName? := List.filterMap_map.symm
    rw [hlabels, mem_labels]
    simp [Breaks, Line.usedLabels, Content.usedLabels, Line.bytes]
  · refine (locates_repeated Line.definedVariable? ∅ lines).congr fun n symbol => ?_
    simp [Breaks, hvariable]
  · refine (locates_overflowing hstart lines).congr fun n symbol => ?_
    simp only [Breaks, flatMap_take, List.flatMap_map]
    rfl
  · refine (locates_oversized 0 lines).congr fun n symbol => ?_
    simp only [Breaks, flatMap_take, List.length_map, Nat.zero_add]
    rfl

theorem first?_eq_some {start : Int} (hstart : 0 ≤ start) {lines : List Line} {e : Error}
    (h : first? start lines = some e) :
    ∃ kind n line symbol, e = .assembly kind line.number line.raw symbol .absent ∧
      lines[n]? = some line ∧ Breaks start (lines.map Line.content) n symbol kind ∧
      (∀ m < n, ∀ other, ¬ Breaks start (lines.map Line.content) m other kind) ∧
      ∃ before after, Defect.inOrder = .line :: before ++ kind :: after ∧
        ∀ earlier ∈ before, ∀ m other, ¬ Breaks start (lines.map Line.content) m other earlier := by
  unfold first? at h
  obtain ⟨before, check, after, hall, hcheck, hbefore⟩ := List.findSome?_eq_some_iff.mp h
  obtain ⟨⟨line, symbol⟩, hfound, rfl⟩ := Option.map_eq_some_iff.mp hcheck
  have hlocates := locates_all hstart lines
  rw [hall] at hlocates
  have hthis := hlocates check (by simp)
  rw [hfound] at hthis
  obtain ⟨n, hline, hbreaks, hfirst⟩ := hthis
  refine ⟨check.1, n, line, symbol, rfl, hline, hbreaks, hfirst, before.map Prod.fst,
    after.map Prod.fst, ?_, ?_⟩
  · have horder : Defect.inOrder = .line :: (all start).map Prod.fst := rfl
    rw [horder, hall, List.map_append, List.map_cons]
    rfl
  · rw [List.forall_mem_map]
    intro earlier hearlier
    have hnone := hlocates earlier (by simp [hearlier])
    rwa [Option.map_eq_none_iff.mp (hbefore earlier hearlier)] at hnone

end Check

/-! ## Lines that cannot be read -/

theorem Operation.error_of_parseLine {op : Operation} (hop : op ∈ all) {clean : String}
    {failure : Failure} (h : op.parseLine clean = .error failure) : ∃ e, failure = .error e := by
  obtain ⟨entry, -, rfl⟩ := List.mem_map.mp hop
  simp only [ofEncodings] at h
  split at h
  · cases h
  · split at h
    · obtain ⟨e, -, rfl⟩ := mapError_eq_error.mp h
      exact ⟨e, rfl⟩
    · cases h

namespace Content

/-- With the instruction set, a line that cannot be read is an error of the user. -/
theorem error_of_readCode {clean : String} {failure : Failure}
    (h : readCode Operation.all clean = .error failure) : ∃ e, failure = .error e := by
  unfold readCode at h
  rcases bind_eq_error.mp h with h | ⟨readings, -, h⟩
  · obtain ⟨inner, hinner, rfl⟩ := mapError_eq_error.mp h
    obtain ⟨op, hop, hparse⟩ := mapM_eq_error hinner
    obtain ⟨e, rfl⟩ := Operation.error_of_parseLine hop hparse
    exact ⟨_, rfl⟩
  · split at h <;> cases h
    · exact ⟨_, rfl⟩
    · exact ⟨_, rfl⟩

theorem error_of_read {clean : String} {failure : Failure}
    (h : read Operation.all clean = .error failure) : ∃ e, failure = .error e := by
  unfold read at h
  split at h
  · cases h
  · split at h
    · cases h
    · split at h
      · cases h
      · exact error_of_readCode (map_eq_error.mp h)
  · exact error_of_readCode (map_eq_error.mp h)

end Content

namespace Line

theorem readFrom_eq_error {number : Nat} {source : List String} {failure : Failure}
    (h : readFrom Operation.all number source = .error failure) :
    ∃ n raw cause, source[n]? = some raw ∧
      Content.read Operation.all (cleanText raw) = .error (.error cause) ∧
      failure = .error (.assembly .line (number + n : Nat) raw "" cause) ∧
      ∀ m < n, ∀ raw', source[m]? = some raw' → ∃ content, Content.Reads raw' content := by
  induction source generalizing number with
  | nil => cases h
  | cons raw rest ih =>
    unfold readFrom at h
    rcases bind_eq_error.mp h with hread | ⟨line, hread, h⟩
    · unfold read at hread
      rcases bind_eq_error.mp hread with hread | ⟨content, -, hread⟩
      · obtain ⟨inner, hinner, rfl⟩ := mapError_eq_error.mp hread
        obtain ⟨cause, rfl⟩ := Content.error_of_read hinner
        exact ⟨0, raw, cause, rfl, hinner, rfl, fun m hm => absurd hm (Nat.not_lt_zero m)⟩
      · cases hread
    · rcases bind_eq_error.mp h with hrest | ⟨lines, -, h⟩
      · obtain ⟨n, raw', cause, hraw, hcause, hfailure, hbefore⟩ := ih hrest
        refine ⟨n + 1, raw', cause, hraw, hcause, ?_, ?_⟩
        · rw [hfailure, Nat.add_assoc, Nat.add_comm 1]
        · intro m hm other hother
          cases m with
          | zero =>
            obtain rfl := Option.some.inj hother
            obtain ⟨content, hcontent, -⟩ := read_eq_ok.mp hread
            exact ⟨content, Content.read_eq_ok.mp hcontent⟩
          | succ m => exact hbefore m (by omega) other hother
      · cases h

end Line

theorem Content.Reads.unique {raw : String} {content content' : Content} (h : Reads raw content)
    (h' : Reads raw content') : content = content' := by
  have hread := read_eq_ok.mpr h
  rw [read_eq_ok.mpr h'] at hread
  exact (Except.ok.inj hread).symm

theorem Content.reads_unique {source : List String} {contents contents' : List Content}
    (h : List.Forall₂ Reads source contents) (h' : List.Forall₂ Reads source contents') :
    contents = contents' := by
  induction h generalizing contents' with
  | nil => rw [List.forall₂_nil_left_iff.mp h']
  | cons hreads _ ih =>
    obtain ⟨content', rest', hreads', hrest', rfl⟩ := List.forall₂_cons_left_iff.mp h'
    rw [hreads.unique hreads', ih hrest']

/-! ## Rejected sources -/

namespace Assembler

/-- Line `n` of a source, counted from 0, has a defect of some kind, and `symbol` is what is wrong with
it. Only a source whose lines can all be read has defects other than such lines. -/
inductive Offends (start : Int) (source : List String) : Defect → Nat → String → Prop
  | unreadable {n : Nat} {raw : String} : source[n]? = some raw →
      (∀ content, ¬ Content.Reads raw content) → Offends start source .line n ""
  | breaks {contents : List Content} {kind : Defect} {n : Nat} {symbol : String} :
      List.Forall₂ Content.Reads source contents → Breaks start contents n symbol kind →
      Offends start source kind n symbol

/-- What a source is rejected for: the first line with a defect of the first kind that it has. -/
structure Culprit (start : Int) (source : List String) (kind : Defect) (n : Nat) (symbol : String) :
    Prop where
  offends : Offends start source kind n symbol
  first_line : ∀ m < n, ∀ other, ¬ Offends start source kind m other
  first_kind : ∃ before after, Defect.inOrder = before ++ kind :: after ∧
    ∀ earlier ∈ before, ∀ m other, ¬ Offends start source earlier m other

theorem offends_iff {start : Int} {source : List String} {contents : List Content}
    (hreads : List.Forall₂ Content.Reads source contents) {kind : Defect} {n : Nat} {symbol : String} :
    Offends start source kind n symbol ↔ Breaks start contents n symbol kind := by
  refine ⟨fun h => ?_, .breaks hreads⟩
  cases h with
  | unreadable hraw hunreadable =>
    obtain ⟨content, -, hcontent⟩ := forall₂_getElem? hreads.flip hraw
    exact absurd hcontent (hunreadable content)
  | breaks hreads' hbreaks => rwa [Content.reads_unique hreads hreads']

/-- A rejection comes from the start of the variables, from reading or from the checks. -/
theorem process_eq_error {start : Int} {source : List String} {failure : Failure}
    (h : (standard start).process source = .error failure) :
    (¬ (0 ≤ start ∧ start ≤ 255) ∧ failure = .error .variableOffset) ∨
    ((0 ≤ start ∧ start ≤ 255) ∧
      (Line.readFrom Operation.all 1 source = .error failure ∨
        ∃ lines e, Line.readFrom Operation.all 1 source = .ok lines ∧
          Check.first? start lines = some e ∧ failure = .error e)) := by
  unfold process at h
  rcases bind_eq_error.mp h with h | ⟨lines, hlines, h⟩
  · have hstarts : (standard start).startsInMemory = true ↔ 0 ≤ start ∧ start ≤ 255 := by
      rw [startsInMemory, Bool.and_eq_true, decide_eq_true_eq, decide_eq_true_eq]
      rfl
    unfold readChecked at h
    by_cases hstart : (standard start).startsInMemory = true
    · refine .inr ⟨hstarts.mp hstart, ?_⟩
      rw [hstart] at h
      rcases bind_eq_error.mp h with h | ⟨lines, hlines, h⟩
      · exact .inl h
      · split at h
        · rename_i e he
          cases h
          exact .inr ⟨lines, e, hlines, he, rfl⟩
        · cases h
    · refine .inl ⟨fun hcon => hstart (hstarts.mpr hcon), ?_⟩
      rw [Bool.eq_false_iff.mpr hstart] at h
      cases h
      rfl
  · -- what passes the checks can be resolved
    obtain ⟨final, hfinal⟩ := resolve_of_readChecked hlines
    rw [hfinal] at h
    cases h

/-- The first line that cannot be read is the culprit, whatever else is wrong. -/
theorem culprit_of_unreadable (start : Int) {source : List String} {n : Nat} {raw : String}
    (hraw : source[n]? = some raw) (hunreadable : ∀ content, ¬ Content.Reads raw content)
    (hbefore : ∀ m < n, ∀ raw', source[m]? = some raw' → ∃ content, Content.Reads raw' content) :
    Culprit start source .line n "" := by
  refine ⟨.unreadable hraw hunreadable, ?_, [], Defect.inOrder.tail, rfl, by simp⟩
  intro m hm other hother
  cases hother with
  | unreadable hraw' hunreadable' =>
    obtain ⟨content, hcontent⟩ := hbefore m hm _ hraw'
    exact hunreadable' content hcontent
  | breaks _ hbreaks => exact hbreaks

/-- If all lines can be read, the culprit is the first line against the first rule that is broken. -/
theorem culprit_of_breaks {start : Int} {source : List String} {contents : List Content}
    (hreads : List.Forall₂ Content.Reads source contents) {kind : Defect} {n : Nat} {symbol : String}
    (hbreaks : Breaks start contents n symbol kind)
    (hfirst : ∀ m < n, ∀ other, ¬ Breaks start contents m other kind) {before after : List Defect}
    (horder : Defect.inOrder = .line :: before ++ kind :: after)
    (hbefore : ∀ earlier ∈ before, ∀ m other, ¬ Breaks start contents m other earlier) :
    Culprit start source kind n symbol := by
  refine ⟨.breaks hreads hbreaks, ?_, .line :: before, after, horder, ?_⟩
  · intro m hm other
    rw [offends_iff hreads]
    exact hfirst m hm other
  · simp only [offends_iff hreads, List.forall_mem_cons]
    exact ⟨fun m other => id, hbefore⟩

/-- A source that is not assembled is reported with its culprit: the start of the variables if that is
not in data memory, else the first line with a defect of the first kind that the source has, by its
number and text, with the symbol that is wrong with it. A line that cannot be read is reported with
the reason. -/
theorem culprit_of_process {start : Int} {source : List String} {failure : Failure}
    (h : (standard start).process source = .error failure) :
    (¬ (0 ≤ start ∧ start ≤ 255) → failure = .error .variableOffset) ∧
    (0 ≤ start ∧ start ≤ 255 → ∃ kind n raw symbol cause,
      failure = .error (.assembly kind (n + 1 : Nat) raw symbol cause) ∧
      source[n]? = some raw ∧ Culprit start source kind n symbol ∧
      (kind = .line → Content.read Operation.all (Line.cleanText raw) = .error (.error cause)) ∧
      (kind ≠ .line → cause = .absent)) := by
  rcases process_eq_error h with ⟨hstart, rfl⟩ | ⟨hstart, hread | ⟨lines, e, hread, hcheck, rfl⟩⟩
  · exact ⟨fun _ => rfl, fun hcon => absurd hcon hstart⟩
  · refine ⟨fun hcon => absurd hstart hcon, fun _ => ?_⟩
    obtain ⟨n, raw, cause, hraw, hcause, rfl, hbefore⟩ := Line.readFrom_eq_error hread
    have hunreadable : ∀ content, ¬ Content.Reads raw content := by
      intro content hcontent
      rw [Content.read_eq_ok.mpr hcontent] at hcause
      cases hcause
    exact ⟨.line, n, raw, "", cause, by rw [Nat.add_comm], hraw,
      culprit_of_unreadable start hraw hunreadable hbefore, fun _ => hcause, fun hcon => absurd rfl hcon⟩
  · refine ⟨fun hcon => absurd hstart hcon, fun _ => ?_⟩
    obtain ⟨kind, n, line, symbol, rfl, hline, hbreaks, hfirst, before, after, horder, hbefore⟩ :=
      Check.first?_eq_some hstart.1 hcheck
    obtain ⟨raw, content, hraw, rfl⟩ := Line.exists_of_readFrom hread hline
    have hreads : List.Forall₂ Content.Reads source (lines.map Line.content) := by
      rw [List.forall₂_map_right_iff]
      exact (Line.reads_of_readFrom hread).imp fun _ _ hline => hline.2
    refine ⟨kind, n, raw, symbol, .absent, by rw [Nat.add_comm], hraw,
      culprit_of_breaks hreads hbreaks hfirst horder hbefore, ?_, fun _ => rfl⟩
    rintro rfl
    exact hbreaks.elim

/-- A variable that is defined twice comes before a label that is not defined, but labels are looked at
first. -/
theorem culprit_of_two_defects :
    (standard 0).process ["$x", "$x // again", "JUMP @far"] =
        .error (.error (.assembly .labelUndefined 3 "JUMP @far" "@far" .absent)) ∧
      Culprit 0 ["$x", "$x // again", "JUMP @far"] .labelUndefined 2 "@far" := by
  have hprocess : (standard 0).process ["$x", "$x // again", "JUMP @far"] =
      .error (.error (.assembly .labelUndefined 3 "JUMP @far" "@far" .absent)) := by decide +kernel
  obtain ⟨kind, n, raw, symbol, cause, hfailure, -, hculprit, -⟩ :=
    (culprit_of_process hprocess).2 (by decide)
  simp only [Failure.error.injEq, Error.assembly.injEq] at hfailure
  obtain ⟨rfl, hn, -, rfl, -⟩ := hfailure
  obtain rfl : n = 2 := by omega
  exact ⟨hprocess, hculprit⟩

end Assembler

end Microcomputer
