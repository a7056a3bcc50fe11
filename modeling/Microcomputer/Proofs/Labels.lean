import Mathlib
import Microcomputer.Proofs.Resolution

/-!
# The meaning of labels

* `Line.waiting` : the label that waits for machine code behind some lines;
* `labelDefinitions` : the labels with the number of bytes before the line that defines them;
* `labelAddresses_bindLabels` : where labels are separated and no two are the same, the addresses are
  those of the definitions;
* `Line.getElem?_bindLabels` : the label of a line is the one that waits for it;
* `Assembler.labels_of_process` : the value and the place of every label of an assembled program.
-/

namespace Microcomputer

open Program Traversal

/-- The labels of lines with the number of bytes before them; `total` bytes come before all lines. -/
def labelDefinitions (total : Nat) : List Line → List (String × Nat)
  | [] => []
  | line :: rest =>
    (line.definedLabel?.map fun name => (name, total)).toList ++
      labelDefinitions (total + line.bytes.length) rest

/-- The label that waits for machine code behind lines, if `pending` waits before them. -/
def Line.waiting (pending : Option String) : List Line → Option String
  | [] => pending
  | line :: rest =>
    match line.content, pending with
    | .label name, none => waiting (some name) rest
    | .code _, some _ => waiting none rest
    | _, _ => waiting pending rest

theorem totalBytes_cons (line : Line) (rest : List Line) :
    totalBytes (line :: rest) = line.bytes.length + totalBytes rest := by
  rw [totalBytes, List.flatMap_cons, List.length_append]
  rfl

theorem totalBytes_erased (lines : List Line) : totalBytes (lines.map Line.erased) = totalBytes lines := by
  induction lines with
  | nil => rfl
  | cons line rest ih =>
    rw [List.map_cons, totalBytes_cons, ih, totalBytes_cons]
    congr 1
    rw [Line.bytes, Line.erased, Content.bytes_erased, List.length_map]
    rfl

/-! ## Machine code behind a label -/

namespace Program

def NoCode (contents : List Content) : Prop := ∀ k, ¬ IsCodeAt contents k

def Trails (contents : List Content) (name : String) : Prop :=
  ∃ i, contents[i]? = some (.label name) ∧ ∀ k, i < k → ¬ IsCodeAt contents k

theorem noCode_cons {content : Content} {contents : List Content} :
    NoCode (content :: contents) ↔ content.isCode = false ∧ NoCode contents := by
  constructor
  · intro h
    refine ⟨?_, fun k => h (k + 1)⟩
    cases content with
    | code bytes => exact absurd ⟨bytes, rfl⟩ (h 0)
    | _ => rfl
  · rintro ⟨hcontent, h⟩ k
    cases k with
    | zero =>
      rintro ⟨bytes, hbytes⟩
      rw [Option.some.inj hbytes] at hcontent
      cases hcontent
    | succ k => exact h k

theorem trails_cons {content : Content} {contents : List Content} {name : String} :
    Trails (content :: contents) name ↔
      (content = .label name ∧ NoCode contents) ∨ Trails contents name := by
  constructor
  · rintro ⟨i, hi, hcode⟩
    cases i with
    | zero => exact .inl ⟨Option.some.inj hi, fun k => hcode (k + 1) (by omega)⟩
    | succ i => exact .inr ⟨i, hi, fun k hk => hcode (k + 1) (by omega)⟩
  · rintro (⟨rfl, hcode⟩ | ⟨i, hi, hcode⟩)
    · refine ⟨0, rfl, fun k hk => ?_⟩
      obtain ⟨k, rfl⟩ : ∃ k', k = k' + 1 := ⟨k - 1, by omega⟩
      exact hcode k
    · refine ⟨i + 1, hi, fun k hk => ?_⟩
      obtain ⟨k, rfl⟩ : ∃ k', k = k' + 1 := ⟨k - 1, by omega⟩
      exact hcode k (by omega)

end Program

/-! ## Addresses -/

/-- Binding labels to lines and keeping the one that still waits gives every label the number of
bytes before its definition. -/
theorem boundLabels_bindLabels {pending : Option String} {lines : List Line}
    (hnone : ∀ line ∈ lines, line.label = none) (hseparated : Separated (lines.map Line.content))
    (hguarded : pending.isSome = true → Guarded (lines.map Line.content)) (total : Nat) :
    boundLabels total (Line.bindLabels pending lines) ++
        (Line.waiting pending lines).toList.map (fun name => (name, total + totalBytes lines)) =
      pending.toList.map (fun name => (name, total)) ++ labelDefinitions total lines := by
  fun_induction Line.bindLabels pending lines generalizing total with
  | case1 pending => cases pending <;> rfl
  | case2 line rest name hcontent ih =>
    rw [List.forall_mem_cons] at hnone
    rw [List.map_cons, hcontent, separated_cons_label] at hseparated
    have hbytes : line.bytes = [] := by rw [Line.bytes, hcontent]; rfl
    have hlabel : line.definedLabel? = some name := by rw [Line.definedLabel?, hcontent]; rfl
    have := ih hnone.2 hseparated.1 (fun _ => hseparated.2) total
    simpa [boundLabels, hnone.1, hbytes, Line.waiting, hcontent, totalBytes_cons, labelDefinitions,
      hlabel] using this
  | case3 line rest bytes name hcontent ih =>
    rw [List.forall_mem_cons] at hnone
    rw [List.map_cons, hcontent, separated_cons_other rfl] at hseparated
    have hlabel : line.definedLabel? = none := by rw [Line.definedLabel?, hcontent]; rfl
    have := ih hnone.2 hseparated (by simp) (total + bytes.length)
    simpa [boundLabels, Line.bytes, Content.bytes, Line.waiting, hcontent, totalBytes_cons,
      labelDefinitions, hlabel, Nat.add_assoc] using this
  | case4 pending line rest hlabel hcode ih =>
    rw [List.forall_mem_cons] at hnone
    rw [List.map_cons] at hseparated hguarded
    cases hcontent : line.content with
    | label name =>
      rw [hcontent] at hguarded
      cases pending with
      | none => exact absurd rfl (hlabel name hcontent)
      | some waiting =>
        obtain ⟨k, hk, -⟩ := hguarded rfl 0 name rfl
        omega
    | code bytes =>
      cases pending with
      | some waiting => exact absurd rfl (hcode bytes waiting hcontent)
      | none =>
        rw [hcontent, separated_cons_other rfl] at hseparated
        have hbytes : line.bytes = bytes := by rw [Line.bytes, hcontent]; rfl
        have hdefined : line.definedLabel? = none := by rw [Line.definedLabel?, hcontent]; rfl
        have := ih hnone.2 hseparated (by simp) (total + bytes.length)
        simpa [boundLabels, hnone.1, hbytes, Line.waiting, hcontent, totalBytes_cons,
          labelDefinitions, hdefined, Nat.add_assoc] using this
    | _ =>
      rw [hcontent] at hseparated hguarded
      rw [separated_cons_other rfl] at hseparated
      rw [guarded_cons_other rfl rfl] at hguarded
      have hbytes : line.bytes = [] := by rw [Line.bytes, hcontent]; rfl
      have hdefined : line.definedLabel? = none := by rw [Line.definedLabel?, hcontent]; rfl
      have := ih hnone.2 hseparated hguarded total
      simpa [boundLabels, hnone.1, hbytes, Line.waiting, hcontent, totalBytes_cons,
        labelDefinitions, hdefined] using this

theorem map_labelDefinitions (total : Nat) (lines : List Line) :
    (labelDefinitions total lines).map Prod.fst = lines.filterMap Line.definedLabel? := by
  induction lines generalizing total with
  | nil => rfl
  | cons line rest ih =>
    rw [labelDefinitions, List.map_append, ih, List.filterMap_cons]
    cases line.definedLabel? <;> rfl

theorem filterMap_definedLabel?_erased (lines : List Line) :
    (lines.map Line.erased).filterMap Line.definedLabel? = lines.filterMap Line.definedLabel? := by
  rw [List.filterMap_map]
  congr 1
  funext line
  exact Content.labelName?_erased line.content

/-- Where labels are separated and no two are the same, the addresses are those of the definitions. -/
theorem labelAddresses_bindLabels {lines : List Line} (hnone : ∀ line ∈ lines, line.label = none)
    (hseparated : Separated (lines.map Line.content))
    (hnodup : (lines.filterMap Line.definedLabel?).Nodup) :
    labelAddresses (Line.bindLabels none lines) = labelDefinitions 0 lines := by
  have hbound := @boundLabels_bindLabels none lines hnone hseparated (by simp) 0
  have herased := Line.erased_bindLabels lines none
  have htotal : totalBytes (Line.bindLabels none lines) = totalBytes lines := by
    rw [← totalBytes_erased, herased, totalBytes_erased]
  have hdefined : (Line.bindLabels none lines).filterMap Line.definedLabel? =
      lines.filterMap Line.definedLabel? := by
    rw [← filterMap_definedLabel?_erased, herased, filterMap_definedLabel?_erased]
  simp only [Option.toList_none, List.map_nil, List.nil_append, Nat.zero_add] at hbound
  -- the defined names are the bound ones and the one that still waits
  have hnames := map_labelDefinitions 0 lines
  rw [← hbound, List.map_append, List.map_map] at hnames
  have hwaiting : (Line.waiting none lines).toList.map
      (Prod.fst ∘ fun name => (name, totalBytes lines)) = (Line.waiting none lines).toList :=
    List.map_id _
  rw [hwaiting] at hnames
  have htrailing : (lines.filterMap Line.definedLabel?).filter (fun name => !(Std.TreeSet.ofList
      ((boundLabels 0 (Line.bindLabels none lines)).map Prod.fst)).contains name) =
      (Line.waiting none lines).toList := by
    rw [← hnames, List.nodup_append] at hnodup
    rw [← hnames, List.filter_append, List.filter_eq_nil_iff.mpr, List.nil_append,
      List.filter_eq_self.mpr]
    · intro name hname
      simp only [Std.TreeSet.contains_ofList, Bool.not_eq_true', List.contains_eq_mem,
        decide_eq_false_iff_not]
      exact fun hmem => hnodup.2.2 name hmem name hname rfl
    · intro name hname
      simpa [Std.TreeSet.contains_ofList] using hname
  simp only [labelAddresses, hdefined, htotal, htrailing, hbound]

theorem mem_labelDefinitions {total n : Nat} {lines : List Line} {name : String} :
    (name, n) ∈ labelDefinitions total lines ↔
      ∃ i, (lines.map Line.content)[i]? = some (.label name) ∧
        n = total + totalBytes (lines.take i) := by
  induction lines generalizing total with
  | nil => simp [labelDefinitions]
  | cons line rest ih =>
    have hhead : (name, n) ∈ (line.definedLabel?.map fun name => (name, total)).toList ↔
        line.content = .label name ∧ n = total := by
      cases hcontent : line.content <;>
        simp [Line.definedLabel?, hcontent, Content.labelName?, eq_comm]
    rw [labelDefinitions, List.mem_append, hhead, ih]
    constructor
    · rintro (⟨hcontent, rfl⟩ | ⟨i, hi, rfl⟩)
      · exact ⟨0, by simp [hcontent], rfl⟩
      · refine ⟨i + 1, hi, ?_⟩
        rw [List.take_succ_cons, totalBytes_cons, Nat.add_assoc]
    · rintro ⟨i, hi, rfl⟩
      cases i with
      | zero => exact .inl ⟨by simpa using hi, rfl⟩
      | succ i =>
        refine .inr ⟨i, hi, ?_⟩
        rw [List.take_succ_cons, totalBytes_cons, Nat.add_assoc]

theorem nodup_labelDefinitions {start : Int} {lines : List Line}
    (h : Valid start (lines.map Line.content)) : ((labelDefinitions 0 lines).map Prod.fst).Nodup := by
  have hnodup := h.labels_nodup
  rw [List.filterMap_map] at hnodup
  rw [map_labelDefinitions]
  exact hnodup

/-! ## Lines -/

namespace Line

theorem getElem?_bindLabels (lines : List Line) (pending : Option String) (j : Nat) :
    (bindLabels pending lines)[j]? = lines[j]?.map fun line =>
      if line.content.isCode then { line with label := (waiting pending (lines.take j)).or line.label }
      else line := by
  fun_induction bindLabels pending lines generalizing j with
  | case1 => rfl
  | case2 line rest name hcontent ih =>
    cases j with
    | zero => simp [hcontent, Content.isCode]
    | succ j => simp [ih, waiting, hcontent]
  | case3 line rest bytes name hcontent ih =>
    cases j with
    | zero => simp [hcontent, Content.isCode, waiting]
    | succ j => simp [ih, waiting, hcontent]
  | case4 pending line rest hlabel hcode ih =>
    cases j with
    | zero =>
      cases hcontent : line.content with
      | code bytes =>
        cases pending with
        | some name => exact absurd rfl (hcode bytes name hcontent)
        | none =>
          rw [List.getElem?_cons_zero, List.getElem?_cons_zero, Option.map_some,
            if_pos (by rw [hcontent]; rfl)]
          rfl
      | _ => simp [hcontent, Content.isCode]
    | succ j =>
      have hwaiting : waiting pending (line :: rest.take j) = waiting pending (rest.take j) := by
        rw [waiting]
        · exact hlabel
        · exact hcode
      simp [ih, hwaiting]

/-- A label waits behind lines if it is defined and no machine code follows, or if it was waiting
before them and they have no machine code. -/
theorem waiting_eq_some {pending : Option String} {lines : List Line} {name : String}
    (hseparated : Separated (lines.map content))
    (hguarded : pending.isSome = true → Guarded (lines.map content)) :
    waiting pending lines = some name ↔ Trails (lines.map content) name ∨
      (pending = some name ∧ NoCode (lines.map content)) := by
  fun_induction waiting pending lines with
  | case1 => simp [Trails, NoCode, IsCodeAt]
  | case2 line rest other hcontent ih =>
    rw [List.map_cons, hcontent] at hseparated ⊢
    rw [separated_cons_label] at hseparated
    rw [ih hseparated.1 (fun _ => hseparated.2), trails_cons]
    simp [or_comm]
  | case3 line rest bytes other hcontent ih =>
    rw [List.map_cons, hcontent] at hseparated ⊢
    rw [separated_cons_other rfl] at hseparated
    rw [ih hseparated (by simp), trails_cons, noCode_cons]
    simp [Content.isCode]
  | case4 pending line rest hlabel hcode ih =>
    rw [List.map_cons] at hseparated hguarded ⊢
    cases hcontent : line.content with
    | label other =>
      cases pending with
      | none => exact absurd rfl (hlabel other hcontent)
      | some waits =>
        rw [hcontent] at hguarded
        obtain ⟨k, hk, -⟩ := hguarded rfl 0 other rfl
        omega
    | code bytes =>
      cases pending with
      | some waits => exact absurd rfl (hcode bytes waits hcontent)
      | none =>
        rw [hcontent, separated_cons_other rfl] at hseparated
        rw [ih hseparated (by simp), trails_cons]
        simp
    | _ =>
      rw [hcontent] at hseparated hguarded
      rw [separated_cons_other rfl] at hseparated
      rw [guarded_cons_other rfl rfl] at hguarded
      rw [ih hseparated hguarded, trails_cons, noCode_cons]
      simp [Content.isCode]

end Line

/-! ## Contents up to what the passes add -/

namespace Program

section

variable {contents contents' : List Content}

theorem labelAt_congr (h : contents'.map Content.erased = contents.map Content.erased) {i : Nat}
    {name : String} : contents'[i]? = some (.label name) ↔ contents[i]? = some (.label name) := by
  have herased : ∀ content : Content, content.erased = .label name ↔ content = .label name := by
    intro content
    cases content <;> simp [Content.erased]
  have hget : ∀ contents : List Content, contents[i]? = some (.label name) ↔
      (contents.map Content.erased)[i]? = some (.label name) := by
    intro contents
    rw [List.getElem?_map, Option.map_eq_some_iff]
    constructor
    · intro hlabel
      exact ⟨_, hlabel, rfl⟩
    · rintro ⟨content, hlabel, heq⟩
      rw [hlabel, (herased content).mp heq]
  rw [hget contents', h, ← hget]

theorem isCodeAt_iff {k : Nat} :
    IsCodeAt contents k ↔ (contents[k]?.map Content.isCode) = some true := by
  rw [IsCodeAt, Option.map_eq_some_iff]
  constructor
  · rintro ⟨bytes, hget⟩
    exact ⟨_, hget, rfl⟩
  · rintro ⟨content, hget, hcode⟩
    cases content with
    | code bytes => exact ⟨bytes, hget⟩
    | _ => cases hcode

theorem isCodeAt_congr (h : contents'.map Content.erased = contents.map Content.erased) {k : Nat} :
    IsCodeAt contents' k ↔ IsCodeAt contents k := by
  have hget : ∀ contents : List Content, contents[k]?.map Content.isCode =
      (contents.map Content.erased)[k]?.map Content.isCode := by
    intro contents
    rw [List.getElem?_map, Option.map_map]
    congr 1
    funext content
    exact (Content.isCode_erased content).symm
  rw [isCodeAt_iff, isCodeAt_iff, hget contents', h, ← hget]

theorem separated_congr (h : contents'.map Content.erased = contents.map Content.erased) :
    Separated contents' ↔ Separated contents := by
  simp only [Separated, labelAt_congr h, isCodeAt_congr h]

theorem separated_take (h : Separated contents) (n : Nat) : Separated (contents.take n) := by
  intro i j a b hij hi hj
  have hlt : j < n := by
    by_contra hcon
    rw [List.getElem?_take, if_neg hcon] at hj
    cases hj
  rw [List.getElem?_take_of_lt (by omega)] at hi hj
  obtain ⟨k, hik, hkj, bytes, hk⟩ := h i j a b hij hi hj
  exact ⟨k, hik, hkj, bytes, by rwa [List.getElem?_take_of_lt (by omega)]⟩

theorem label_index_unique (h : (contents.filterMap Content.labelName?).Nodup) {i j : Nat}
    {name : String} (hi : contents[i]? = some (.label name)) (hj : contents[j]? = some (.label name)) :
    i = j := by
  have hmem : ∀ {contents : List Content} {k : Nat}, contents[k]? = some (.label name) →
      name ∈ contents.filterMap Content.labelName? :=
    fun hk => mem_labels.mpr (List.mem_of_getElem? hk)
  have hcons : ∀ rest : List Content, (Content.label name :: rest).filterMap Content.labelName? =
      name :: rest.filterMap Content.labelName? := fun _ => rfl
  induction contents generalizing i j with
  | nil => cases hi
  | cons content rest ih =>
    cases i with
    | zero =>
      cases j with
      | zero => rfl
      | succ j =>
        rw [Option.some.inj hi, hcons, List.nodup_cons] at h
        rw [List.getElem?_cons_succ] at hj
        exact absurd (hmem hj) h.1
    | succ i =>
      cases j with
      | zero =>
        rw [Option.some.inj hj, hcons, List.nodup_cons] at h
        rw [List.getElem?_cons_succ] at hi
        exact absurd (hmem hi) h.1
      | succ j =>
        have hrest : (rest.filterMap Content.labelName?).Nodup :=
          h.sublist ((List.sublist_cons_self ..).filterMap _)
        rw [ih hrest hi hj]

end

/-- Line `j` is the first line of machine code behind line `i`. -/
def IsFirstCodeAfter (contents : List Content) (i j : Nat) : Prop :=
  i < j ∧ IsCodeAt contents j ∧ ∀ k, i < k → k < j → ¬ IsCodeAt contents k

theorem exists_firstCodeAfter {contents : List Content} {i k : Nat} (hik : i < k)
    (hk : IsCodeAt contents k) : ∃ j, IsFirstCodeAfter contents i j := by
  classical
  have hexists : ∃ j, i < j ∧ IsCodeAt contents j := ⟨k, hik, hk⟩
  obtain ⟨hij, hj⟩ := Nat.find_spec hexists
  exact ⟨Nat.find hexists, hij, hj, fun k hik hlt hk => Nat.find_min hexists hlt ⟨hik, hk⟩⟩

/-- A label with no machine code behind it is the last one. -/
theorem Separated.not_lt {contents : List Content} (h : Separated contents) {i i' : Nat}
    {name name' : String} (hi : contents[i]? = some (.label name))
    (hi' : contents[i']? = some (.label name')) (hnone : ∀ j, ¬ IsFirstCodeAfter contents i j) :
    ¬ i < i' := by
  intro hlt
  obtain ⟨k, hik, -, hk⟩ := h i i' name name' hlt hi hi'
  obtain ⟨j, hj⟩ := exists_firstCodeAfter hik hk
  exact hnone j hj

theorem trails_take {contents : List Content} {j : Nat} {name : String} :
    Trails (contents.take j) name ↔ ∃ i < j, contents[i]? = some (.label name) ∧
      ∀ k, i < k → k < j → ¬ IsCodeAt contents k := by
  constructor
  · rintro ⟨i, hi, hcode⟩
    have hlt : i < j := by
      by_contra hcon
      rw [List.getElem?_take, if_neg hcon] at hi
      cases hi
    rw [List.getElem?_take_of_lt hlt] at hi
    refine ⟨i, hlt, hi, fun k hik hkj ⟨bytes, hk⟩ => hcode k hik ⟨bytes, ?_⟩⟩
    rwa [List.getElem?_take_of_lt hkj]
  · rintro ⟨i, hlt, hi, hcode⟩
    refine ⟨i, by rwa [List.getElem?_take_of_lt hlt], fun k hik ⟨bytes, hk⟩ => ?_⟩
    have hkj : k < j := by
      by_contra hcon
      rw [List.getElem?_take, if_neg hcon] at hk
      cases hk
    rw [List.getElem?_take_of_lt hkj] at hk
    exact hcode k hik hkj ⟨bytes, hk⟩

end Program

/-! ## Assembled programs -/

theorem labelDefinitions_erased (total : Nat) (lines : List Line) :
    labelDefinitions total (lines.map Line.erased) = labelDefinitions total lines := by
  induction lines generalizing total with
  | nil => rfl
  | cons line rest ih =>
    have hlabel : line.erased.definedLabel? = line.definedLabel? :=
      Content.labelName?_erased line.content
    have hlength : line.erased.bytes.length = line.bytes.length := by
      rw [Line.bytes, Line.erased, Content.bytes_erased, List.length_map]
      rfl
    rw [List.map_cons, labelDefinitions, hlabel, hlength, ih, labelDefinitions]

theorem labelDefinitions_congr {lines lines' : List Line}
    (h : lines'.map Line.erased = lines.map Line.erased) :
    labelDefinitions 0 lines' = labelDefinitions 0 lines := by
  rw [← labelDefinitions_erased, h, labelDefinitions_erased]

theorem erased_contents_congr {lines lines' : List Line}
    (h : lines'.map Line.erased = lines.map Line.erased) :
    (lines'.map Line.content).map Content.erased = (lines.map Line.content).map Content.erased := by
  have hmap : ∀ lines : List Line, (lines.map Line.content).map Content.erased =
      (lines.map Line.erased).map Line.content := by
    intro lines
    rw [List.map_map, List.map_map]
    rfl
  rw [hmap, h, ← hmap]

namespace Assembler

theorem readChecked_eq_ok {asm : Assembler} {source : List String} {lines : List Line} :
    asm.readChecked source = .ok lines ↔ (0 ≤ asm.variableStart ∧ asm.variableStart ≤ 255) ∧
      Line.readFrom asm.operations 1 source = .ok lines ∧
      Valid asm.variableStart (lines.map Line.content) := by
  have hstarts : asm.startsInMemory = true ↔ 0 ≤ asm.variableStart ∧ asm.variableStart ≤ 255 := by
    rw [startsInMemory, Bool.and_eq_true, decide_eq_true_eq, decide_eq_true_eq]
    rfl
  unfold readChecked
  by_cases hstart : asm.startsInMemory = true
  · have hle := (hstarts.mp hstart).2
    rw [hstart, ← hstarts, and_iff_right hstart]
    constructor
    · intro h
      obtain ⟨lines', hread, h⟩ := bind_eq_ok.mp h
      split at h
      · cases h
      · rename_i hnone
        cases h
        exact ⟨hread, (Check.first?_eq_none hle).mp hnone⟩
    · rintro ⟨hread, hvalid⟩
      refine bind_eq_ok.mpr ⟨lines, hread, ?_⟩
      rw [(Check.first?_eq_none hle).mpr hvalid]
  · rw [← hstarts, Bool.eq_false_iff.mpr hstart]
    constructor
    · intro h
      cases h
    · rintro ⟨hfalse, -⟩
      cases hfalse

theorem erased_bind (lines : List Line) : (bind lines).map Line.erased = lines.map Line.erased :=
  (Line.erased_bindLabels _ none).trans (Line.erased_indexFrom lines 0)

theorem labelAddresses_bind {ops : List Operation} {source : List String} {lines : List Line}
    (hfrom : Line.readFrom ops 1 source = .ok lines) {start : Int}
    (hvalid : Valid start (lines.map Line.content)) :
    labelAddresses (bind lines) = labelDefinitions 0 lines := by
  have hindex := Line.erased_indexFrom lines 0
  rw [bind, labelAddresses_bindLabels, labelDefinitions_congr hindex]
  · exact Line.label_indexFrom (Line.label_of_readFrom hfrom) 0
  · exact (separated_congr (erased_contents_congr hindex)).mpr hvalid.separated
  · rw [← filterMap_definedLabel?_erased, hindex, filterMap_definedLabel?_erased,
      ← map_labelDefinitions 0]
    exact nodup_labelDefinitions hvalid

theorem exists_of_process {asm : Assembler} {source : List String} {final : List Line}
    (h : asm.process source = .ok final) :
    ∃ lines, asm.readChecked source = .ok lines ∧ final.map Line.erased = lines.map Line.erased ∧
      List.Forall₂ (Line.Resolves (labelDefinitions 0 lines)
        (variableAddresses asm.variableStart lines)) (bind lines) final := by
  unfold process at h
  obtain ⟨lines, hread, h⟩ := bind_eq_ok.mp h
  have hresolve := resolve_spec (mapError_eq_ok.mp h)
  obtain ⟨-, hfrom, hvalid⟩ := readChecked_eq_ok.mp hread
  have hbind := erased_bind lines
  rw [labelAddresses_bind hfrom hvalid, variableAddresses_congr asm.variableStart hbind] at hresolve
  have hfinal : final.map Line.erased = (bind lines).map Line.erased :=
    erased_eq_of_forall₂ (fun _ _ h => h.erased_eq) hresolve
  exact ⟨lines, hread, hfinal.trans hbind, hresolve⟩

/-- The lines that a label is bound to: machine code for which it waits. -/
theorem label_eq_some {labels : List (String × Nat)} {places : List (String × Int)}
    {lines final : List Line} (hnone : ∀ line ∈ lines, line.label = none)
    (hseparated : Separated (lines.map Line.content))
    (h : List.Forall₂ (Line.Resolves labels places) (Line.bindLabels none lines) final) (j : Nat)
    (name : String) : (∃ line, final[j]? = some line ∧ line.label = some name) ↔
      IsCodeAt (lines.map Line.content) j ∧ Trails ((lines.map Line.content).take j) name := by
  have hwaiting : Line.waiting none (lines.take j) = some name ↔
      Trails ((lines.map Line.content).take j) name := by
    have hseparated' : Separated ((lines.take j).map Line.content) := by
      rw [List.map_take]
      exact separated_take hseparated j
    rw [Line.waiting_eq_some hseparated' (by simp), List.map_take]
    simp
  have hbound : ∀ line, lines[j]? = some line →
      (Line.bindLabels none lines)[j]? = some (if line.content.isCode then
        { line with label := Line.waiting none (lines.take j) } else line) := by
    intro line hline
    rw [Line.getElem?_bindLabels, hline, Option.map_some, hnone line (List.mem_of_getElem? hline),
      Option.or_none]
  rw [isCodeAt_iff, List.getElem?_map, ← hwaiting]
  constructor
  · rintro ⟨after, hafter, hname⟩
    obtain ⟨old, hold, bytes, -, rfl⟩ := forall₂_getElem? h hafter
    rw [Line.label_withBytes] at hname
    cases hline : lines[j]? with
    | none =>
      rw [Line.getElem?_bindLabels, hline] at hold
      cases hold
    | some line =>
      rw [hbound line hline] at hold
      cases hcode : line.content.isCode with
      | true =>
        rw [hcode, if_pos rfl] at hold
        rw [← Option.some.inj hold] at hname
        exact ⟨congrArg some hcode, hname⟩
      | false =>
        rw [hcode, if_neg Bool.false_ne_true] at hold
        rw [← Option.some.inj hold, hnone line (List.mem_of_getElem? hline)] at hname
        cases hname
  · rintro ⟨hcode, hname⟩
    rw [Option.map_map] at hcode
    obtain ⟨line, hline, hcode⟩ := Option.map_eq_some_iff.mp hcode
    rw [Function.comp_apply] at hcode
    have hold := hbound line hline
    rw [if_pos hcode] at hold
    obtain ⟨after, hafter, bytes, -, rfl⟩ := forall₂_getElem? h.flip hold
    exact ⟨_, hafter, by rw [Line.label_withBytes]; exact hname⟩

theorem exists_label_of_use {start : Int} {lines final : List Line}
    (hvalid : Valid start (lines.map Line.content))
    (herased : final.map Line.erased = lines.map Line.erased) {line : Line} (hline : line ∈ final)
    {byte : CodeByte} (hbyte : byte ∈ line.bytes) (hkind : byte.constantKind = .label) :
    ∃ i : Nat, (lines.map Line.content)[i]? = some (.label byte.constant) := by
  obtain ⟨old, hold, oldByte, holdByte, heq⟩ := exists_byte_of_erased herased hline hbyte
  have hkind' : oldByte.constantKind = .label := (congrArg CodeByte.constantKind heq).trans hkind
  have hname : oldByte.constant = byte.constant := by
    simpa only [CodeByte.erased] using congrArg CodeByte.constant heq
  have hused : byte.constant ∈ old.content.usedLabels :=
    List.mem_map.mpr ⟨oldByte, List.mem_filter.mpr ⟨holdByte, by simp [hkind']⟩, hname⟩
  have hmem := hvalid.labels_defined old.content (List.mem_map_of_mem hold) byte.constant hused
  exact List.mem_iff_getElem?.mp hmem

section

variable {start : Int} {lines final : List Line}

theorem label_value {places : List (String × Int)} (hvalid : Valid start (lines.map Line.content))
    (herased : final.map Line.erased = lines.map Line.erased)
    (hresolves : List.Forall₂ (Line.Resolves (labelDefinitions 0 lines) places) (bind lines) final)
    {line : Line} (hline : line ∈ final) {byte : CodeByte} (hbyte : byte ∈ line.bytes)
    (hkind : byte.kind = .constant) (hconstant : byte.constantKind = .label) {i : Nat}
    (hi : (final.map Line.content)[i]? = some (.label byte.constant)) :
    totalBytes (final.take i) < 256 ∧
      byte.bits = .ofWord (BitVec.ofNat 64 (totalBytes (final.take i))) 8 := by
  have hdefined : (byte.constant, totalBytes (final.take i)) ∈ labelDefinitions 0 lines := by
    rw [← labelDefinitions_congr herased, mem_labelDefinitions]
    exact ⟨i, hi, (Nat.zero_add _).symm⟩
  have hlookup := lookup_of_mem (nodup_labelDefinitions hvalid) hdefined
  obtain ⟨old, -, hold⟩ := exists_of_mem_right hresolves hline
  obtain ⟨oldByte, -, bits, hbits, rfl⟩ := exists_of_mem_right hold.bytes_forall₂ hbyte
  have hkind' : oldByte.kind = .constant := hkind
  have hconstant' : oldByte.constantKind = .label := hconstant
  simp only [CodeByte.constantBits, hkind', hconstant', if_true, hlookup, Option.getD_some] at hbits
  exact byteBits_natCast.mp hbits

theorem label_bound {labels : List (String × Nat)} {places : List (String × Int)}
    (hvalid : Valid start (lines.map Line.content)) (hnone : ∀ line ∈ lines, line.label = none)
    (herased : final.map Line.erased = lines.map Line.erased)
    (hresolves : List.Forall₂ (Line.Resolves labels places) (bind lines) final) {i : Nat}
    {name : String} (hi : (final.map Line.content)[i]? = some (.label name)) (j : Nat) :
    (∃ line, final[j]? = some line ∧ line.label = some name) ↔
      IsFirstCodeAfter (final.map Line.content) i j := by
  have hlines := erased_contents_congr herased
  have hindexed : ((Line.indexFrom 0 lines).map Line.content).map Content.erased =
      (lines.map Line.content).map Content.erased :=
    erased_contents_congr (Line.erased_indexFrom lines 0)
  rw [labelAt_congr hlines] at hi
  rw [label_eq_some (Line.label_indexFrom hnone 0) ((separated_congr hindexed).mpr hvalid.separated)
    hresolves, trails_take]
  simp only [IsFirstCodeAfter, isCodeAt_congr hlines, isCodeAt_congr hindexed, labelAt_congr hindexed]
  constructor
  · rintro ⟨hj, i', hlt, hi', hbetween⟩
    obtain rfl := label_index_unique hvalid.labels_nodup hi hi'
    exact ⟨hlt, hj, hbetween⟩
  · rintro ⟨hlt, hj, hbetween⟩
    exact ⟨hj, i, hlt, hi, hbetween⟩

end

/-- The value and the place of every label of an assembled program. A label stands for the number of
bytes before its definition, and is bound to the first line of machine code behind it; at most one
label has none. -/
theorem labels_of_process {asm : Assembler} {source : List String} {final : List Line}
    (h : asm.process source = .ok final) :
    (∀ line ∈ final, ∀ byte ∈ line.bytes, byte.kind = .constant → byte.constantKind = .label →
      ∃ i, (final.map Line.content)[i]? = some (.label byte.constant) ∧
        (∀ j, (final.map Line.content)[j]? = some (.label byte.constant) → j = i) ∧
        totalBytes (final.take i) < 256 ∧
        byte.bits = .ofWord (BitVec.ofNat 64 (totalBytes (final.take i))) 8) ∧
    (∀ i name, (final.map Line.content)[i]? = some (.label name) → ∀ j,
      (∃ line, final[j]? = some line ∧ line.label = some name) ↔
        IsFirstCodeAfter (final.map Line.content) i j) ∧
    (∀ i i' name name', (final.map Line.content)[i]? = some (.label name) →
      (final.map Line.content)[i']? = some (.label name') →
      (∀ j, ¬ IsFirstCodeAfter (final.map Line.content) i j) →
      (∀ j, ¬ IsFirstCodeAfter (final.map Line.content) i' j) → i = i') := by
  obtain ⟨lines, hread, herased, hresolves⟩ := exists_of_process h
  obtain ⟨-, hfrom, hvalid⟩ := readChecked_eq_ok.mp hread
  have hcontents := erased_contents_congr herased
  refine ⟨?_, ?_, ?_⟩
  · intro line hline byte hbyte hkind hconstant
    obtain ⟨i, hi⟩ := exists_label_of_use hvalid herased hline hbyte hconstant
    rw [← labelAt_congr hcontents] at hi
    refine ⟨i, hi, ?_, label_value hvalid herased hresolves hline hbyte hkind hconstant hi⟩
    intro j hj
    rw [labelAt_congr hcontents] at hi hj
    exact label_index_unique hvalid.labels_nodup hj hi
  · intro i name hi j
    exact label_bound hvalid (Line.label_of_readFrom hfrom) herased hresolves hi j
  · intro i i' name name' hi hi' hnone hnone'
    have hseparated := (separated_congr hcontents).mpr hvalid.separated
    have hle := hseparated.not_lt hi hi' hnone
    have hge := hseparated.not_lt hi' hi hnone'
    omega

/-- A label before a blank line and one behind the last machine code. -/
theorem labels_of_loop : ∃ final,
    ({} : Assembler).process ["JUMP @end", "@loop", "", "JUMP @loop // back", "@end"] = .ok final ∧
      (∃ line, final[3]? = some line ∧ line.label = some "@loop") ∧
      ∃ line ∈ final, ∃ byte ∈ line.bytes, byte.constant = "@end" ∧ byte.bits = .ofWord 4#64 8 := by
  have hcheck : (({} : Assembler).process
      ["JUMP @end", "@loop", "", "JUMP @loop // back", "@end"]).toOption.any (fun final =>
        (final.map Line.content)[1]? = some (.label "@loop") ∧
        (final.map Line.content)[2]?.map Content.isCode = some false ∧
        (final.map Line.content)[3]?.map Content.isCode = some true ∧
        (final.map Line.content)[4]? = some (.label "@end") ∧ totalBytes (final.take 4) = 4 ∧
        ∃ line ∈ final, ∃ byte ∈ line.bytes, byte.kind = .constant ∧ byte.constantKind = .label ∧
          byte.constant = "@end") = true := by decide +kernel
  obtain ⟨final, hprocess, hfinal⟩ := exists_ok_of_any hcheck
  obtain ⟨hloop, hblank, hjump, hend, htotal, line, hline, byte, hbyte, hkind, hconstant, hname⟩ :=
    of_decide_eq_true hfinal
  obtain ⟨hvalues, hbound, -⟩ := labels_of_process hprocess
  refine ⟨final, hprocess, (hbound 1 "@loop" hloop 3).mpr ⟨by omega, isCodeAt_iff.mpr hjump, ?_⟩,
    line, hline, byte, hbyte, hname, ?_⟩
  · intro k hk hk' hcode
    obtain rfl : k = 2 := by omega
    rw [isCodeAt_iff, hblank] at hcode
    cases hcode
  · obtain ⟨i, -, hunique, -, hbits⟩ := hvalues line hline byte hbyte hkind hconstant
    obtain rfl := hunique 4 (hname ▸ hend)
    rw [hbits, htotal]

end Assembler

end Microcomputer
