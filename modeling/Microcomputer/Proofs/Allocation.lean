import Mathlib
import Microcomputer.Proofs.Simulation

/-!
# Where variables are kept

The variables of a program get data addresses in the order in which the source mentions them first.
A definition is a mention like any other.

* `Line.mentioned`, `mentions` : the variables that a line and a whole source mention, word by word;
* `Content.Reads.variableNames_eq` : a line that is read defines or uses the variables it mentions;
* `variablePlace` : the address of a variable by its place in the order of first mention;
* `Program.Allocates` : a map of variables to addresses that an assembled program goes by;
* `Program.Valid.remove` : without a definition behind another mention a program stays valid;
* `Assembler.variables_of_process` : every assembled program goes by such a map.
-/

namespace Microcomputer

open Program Traversal

/-! ## Mentions of variables -/

/-- The variables that a line of source mentions, plain or in square brackets. -/
def Line.mentioned (raw : String) : List String :=
  ((Text.words (cleanText raw)).map Word.stripped).filter Word.isVariable

/-- The mentions of variables in a source, in the order of its text. -/
def mentions (source : List String) : List String := source.flatMap Line.mentioned

theorem mentions_cons (raw : String) (source : List String) :
    mentions (raw :: source) = Line.mentioned raw ++ mentions source := List.flatMap_cons

theorem mentions_append (before after : List String) :
    mentions (before ++ after) = mentions before ++ mentions after := List.flatMap_append

theorem Argument.isVariable_of_classify {arg : String} {c : Argument}
    (h : Argument.classify arg = .ok c) (hc : c.isConstant = false) :
    Word.isVariable (Word.stripped arg) = false := by
  have hmem : c ∈ classes arg := by
    rw [classify_eq_ok.mp h]
    exact List.mem_singleton_self c
  obtain ⟨r, rfl, rfl⟩ | ⟨r, rfl, rfl⟩ | ⟨-, rfl⟩ | ⟨word, -, rfl, rfl⟩ := mem_classes hmem
  · cases r <;> rfl
  · cases r <;> rfl
  · cases hc
  · cases hc

/-- Only constants of a line are variables. -/
theorem Encoding.filter_constantArguments {args : List String} {sig : Signature}
    (h : List.Forall₂ (fun arg c => Argument.classify arg = .ok c) args sig) :
    ((constantArguments sig args).map Word.stripped).filter Word.isVariable =
      (args.map Word.stripped).filter Word.isVariable := by
  induction h with
  | nil => rfl
  | @cons arg c args sig hclass _ ih =>
    unfold constantArguments at ih ⊢
    rw [List.zip_cons_cons, List.filter_cons]
    cases hc : c.isConstant with
    | true =>
      rw [if_pos rfl, List.map_cons, List.map_cons, List.filter_cons, ih, List.map_cons,
        List.filter_cons]
    | false =>
      rw [if_neg Bool.false_ne_true, ih, List.map_cons, List.filter_cons,
        Argument.isVariable_of_classify hclass hc, if_neg Bool.false_ne_true]

theorem CodeByte.IsConstant.isVariable {word : String} {byte : CodeByte} (h : IsConstant word byte) :
    byte.constant = word ∧ (byte.constantKind == .variable) = Word.isVariable word := by
  cases h with
  | ofLabel h =>
    refine ⟨rfl, ?_⟩
    cases hvariable : Word.isVariable word with
    | false => rfl
    | true =>
      rw [Word.isLabel_of_isVariable hvariable] at h
      cases h
  | ofVariable h => exact ⟨rfl, h.symm⟩
  | ofNumber h hfits =>
    refine ⟨rfl, ?_⟩
    cases hvariable : Word.isVariable word with
    | false => rfl
    | true =>
      rw [Word.number?_of_isSigiled (by decide) hvariable] at h
      cases h

theorem CodeByte.filter_variables {args : List String} {constants : List CodeByte}
    (h : List.Forall₂ (fun arg byte => ofArgument arg = .ok byte) args constants) :
    (constants.filter (·.constantKind == .variable)).map constant =
      (args.map Word.stripped).filter Word.isVariable := by
  induction h with
  | nil => rfl
  | @cons arg byte args constants hbyte _ ih =>
    obtain ⟨hname, hvariable⟩ := (isConstant_ofArgument hbyte).isVariable
    rw [List.map_cons, List.filter_cons, List.filter_cons, ← ih, hvariable]
    unfold Word.stripped
    split
    · rw [List.map_cons, hname]
    · rfl

theorem Operation.isVariable_mnemonic :
    ∀ op ∈ all, Word.isVariable (Word.stripped op.mnemonic) = false := by decide +kernel

theorem Content.Reads.variableNames_eq {raw : String} {content : Content} (h : Reads raw content) :
    content.variableNames = Line.mentioned raw := by
  unfold Line.mentioned
  cases h with
  | blankLine h => rw [h]; rfl
  | @labelLine name h hlabel =>
    have hvariable : Word.isVariable name = false := by
      by_contra hcon
      rw [Word.isLabel_of_isVariable (Bool.not_eq_false _ ▸ hcon)] at hlabel
      cases hlabel
    have hconstant : Word.isConstant name = true := by simp [Word.isConstant, hlabel]
    rw [h, Text.words_of_isWord (Word.isWord_of_isLabel hlabel), List.map_singleton,
      Word.stripped_of_isConstant hconstant, List.filter_singleton, hvariable]
    rfl
  | @variableLine name h hvariable =>
    have hconstant : Word.isConstant name = true := by simp [Word.isConstant, hvariable]
    rw [h, Text.words_of_isWord (Word.isWord_of_isVariable hvariable), List.map_singleton,
      Word.stripped_of_isConstant hconstant, List.filter_singleton, hvariable]
    rfl
  | @codeLine op bytes hop hhead hparse =>
    have hmnemonic := Operation.isVariable_mnemonic op hop
    obtain ⟨entry, -, rfl⟩ := List.mem_map.mp hop
    obtain ⟨args, hwords, hbytes⟩ := Operation.parseLine_eq_ok hparse
    obtain ⟨e, -, hclasses, constants, hconstants, rfl⟩ := Encoding.bytes_eq_ok hbytes
    rw [hwords, List.map_cons, List.filter_cons]
    simp only [Operation.ofEncodings] at hmnemonic
    rw [hmnemonic, if_neg Bool.false_ne_true, ← Encoding.filter_constantArguments hclasses,
      ← CodeByte.filter_variables hconstants]
    rfl

/-- The variables of a program are those that its source mentions, in the same order. -/
theorem Content.variableNames_of_reads {source : List String} {contents : List Content}
    (h : List.Forall₂ Reads source contents) : contents.flatMap variableNames = mentions source := by
  have hnames : contents.map variableNames = source.map Line.mentioned := by
    rw [← List.forall₂_eq_eq_eq, List.forall₂_map_left_iff, List.forall₂_map_right_iff]
    exact h.flip.imp fun content raw (hreads : Reads raw content) => hreads.variableNames_eq
  rw [mentions, List.flatMap_def, hnames, ← List.flatMap_def]

theorem Content.eq_variable_of_reads {raw : String} {content : Content} (h : Reads raw content)
    (hvariable : Word.isVariable (Line.cleanText raw) = true) :
    content = .variable (Line.cleanText raw) := by
  have hread := read_eq_ok.mpr h
  rw [read_eq_ok.mpr (.variableLine rfl hvariable)] at hread
  exact (Except.ok.inj hread).symm

theorem Line.forall₂_reads {number : Nat} {source : List String} {lines : List Line}
    (h : readFrom Operation.all number source = .ok lines) :
    List.Forall₂ Content.Reads source (lines.map content) := by
  rw [List.forall₂_map_right_iff]
  exact (reads_of_readFrom h).imp fun _ _ hline => hline.2

/-! ## The order of first mention -/

theorem idxOf_concat {names : List String} {x name : String} (h : name ∈ names ++ [x]) :
    (names ++ [x]).idxOf name = names.idxOf name := by
  by_cases hname : name ∈ names
  · exact List.idxOf_append_of_mem hname
  · have hx : name = x := by simpa [hname] using h
    rw [List.idxOf_append_of_notMem hname, hx, List.idxOf_cons_self, Nat.add_zero, ← hx,
      List.idxOf_eq_length_iff.mpr hname]

/-- Names keep their order of first mention when later mentions are taken out. -/
theorem idxOf_eraseDups_lt_iff {names : List String} {a b : String} (ha : a ∈ names) (hb : b ∈ names) :
    names.eraseDups.idxOf a < names.eraseDups.idxOf b ↔ names.idxOf a < names.idxOf b := by
  induction names using List.reverseRecOn with
  | nil => cases ha
  | append_singleton names x ih =>
    rw [idxOf_concat ha, idxOf_concat hb]
    have hlt : ∀ {name}, name ∈ names → names.idxOf name < names.length ∧
        names.eraseDups.idxOf name < names.eraseDups.length := fun hname =>
      ⟨List.idxOf_lt_length_of_mem hname, List.idxOf_lt_length_of_mem (List.mem_eraseDups.mpr hname)⟩
    have hend : ∀ {name}, name ∉ names → names.idxOf name = names.length ∧
        names.eraseDups.idxOf name = names.eraseDups.length := fun hname =>
      ⟨List.idxOf_eq_length_iff.mpr hname,
        List.idxOf_eq_length_iff.mpr fun hcon => hname (List.mem_eraseDups.mp hcon)⟩
    have hold : names.eraseDups.idxOf a < names.eraseDups.idxOf b ↔
        names.idxOf a < names.idxOf b := by
      by_cases ha' : a ∈ names
      · by_cases hb' : b ∈ names
        · exact ih ha' hb'
        · have := hlt ha'
          have := hend hb'
          omega
      · have := hend ha'
        have := List.idxOf_le_length (a := b) (l := names)
        have := List.idxOf_le_length (a := b) (l := names.eraseDups)
        omega
    rw [← hold, List.eraseDups_append]
    by_cases hx : x ∈ names
    · have hrepeated : [x].removeAll names = [] := by simp [List.removeAll, hx]
      rw [hrepeated, List.eraseDups_nil, List.append_nil]
    · have hnew : ([x].removeAll names).eraseDups = [x] := by
        simp [List.removeAll, hx, List.eraseDups_cons]
      have hmem : ∀ {name}, name ∈ names ++ [x] → name ∈ names.eraseDups ++ [x] := by
        intro name hname
        simpa [List.mem_eraseDups] using hname
      rw [hnew, idxOf_concat (hmem ha), idxOf_concat (hmem hb)]

/-- The address of a variable: names are numbered from `start` on as the source mentions them first. -/
def variablePlace (start : Int) (source : List String) (name : String) : Int :=
  start + ((mentions source).eraseDups.idxOf name : Nat)

/-- Another definition of a variable that was mentioned before moves no variable. -/
theorem variablePlace_remove (start : Int) {before after : List String} {raw name : String}
    (hraw : Line.mentioned raw = [name]) (h : name ∈ mentions before) :
    variablePlace start (before ++ raw :: after) = variablePlace start (before ++ after) := by
  have hrepeated : ∀ rest, (name :: rest).removeAll (mentions before) =
      rest.removeAll (mentions before) := by
    intro rest
    unfold List.removeAll
    exact List.filter_cons_of_neg (by simpa using h)
  have hnames : (mentions (before ++ raw :: after)).eraseDups =
      (mentions (before ++ after)).eraseDups := by
    rw [mentions_append, mentions_append, mentions_cons, hraw, List.eraseDups_append,
      List.singleton_append, hrepeated, ← List.eraseDups_append]
  funext other
  rw [variablePlace, variablePlace, hnames]

theorem idxOf_mentions_lt {source : List String} {name : String} (h : name ∈ mentions source) :
    (mentions source).eraseDups.idxOf name < (mentions source).toFinset.card := by
  rw [← length_eraseDups]
  exact List.idxOf_lt_length_of_mem (List.mem_eraseDups.mpr h)

theorem injOn_variablePlace (start : Int) (source : List String) :
    Set.InjOn (variablePlace start source) {name | name ∈ mentions source} := by
  intro a ha b hb h
  unfold variablePlace at h
  exact (List.idxOf_inj (List.mem_eraseDups.mpr ha)).mp (by omega)

theorem image_variablePlace (start : Int) (source : List String) :
    variablePlace start source '' {name | name ∈ mentions source} =
      Set.Ico start (start + ((mentions source).toFinset.card : Nat)) := by
  ext value
  rw [Set.mem_image, Set.mem_Ico]
  constructor
  · rintro ⟨name, hname, rfl⟩
    have := idxOf_mentions_lt hname
    unfold variablePlace
    omega
  · rintro ⟨hlow, hhigh⟩
    have hlt : (value - start).toNat < (mentions source).eraseDups.length := by
      rw [length_eraseDups]
      omega
    refine ⟨(mentions source).eraseDups[(value - start).toNat], ?_, ?_⟩
    · exact List.mem_eraseDups.mp (List.getElem_mem hlt)
    · rw [variablePlace, (nodup_eraseDups _).idxOf_getElem]
      omega

/-! ## Programs without a definition -/

namespace Program

theorem guarded_append_other {content : Content} (hlabel : content.labelName? = none)
    (hcode : content.isCode = false) {before after : List Content} :
    Guarded (before ++ content :: after) ↔ Guarded (before ++ after) := by
  induction before with
  | nil => exact guarded_cons_other hlabel hcode
  | cons first before ih =>
    rw [List.cons_append, List.cons_append]
    cases first with
    | code bytes => exact ⟨fun _ => guarded_cons_code, fun _ => guarded_cons_code⟩
    | label name =>
      have hlabels : ∀ contents, ¬ Guarded (.label name :: contents) := by
        intro contents h
        obtain ⟨k, hk, -⟩ := h 0 name rfl
        omega
      exact ⟨fun h => absurd h (hlabels _), fun h => absurd h (hlabels _)⟩
    | _ => rw [guarded_cons_other rfl rfl, guarded_cons_other rfl rfl, ih]

theorem separated_append_other {content : Content} (hlabel : content.labelName? = none)
    (hcode : content.isCode = false) {before after : List Content} :
    Separated (before ++ content :: after) ↔ Separated (before ++ after) := by
  induction before with
  | nil => exact separated_cons_other hlabel
  | cons first before ih =>
    rw [List.cons_append, List.cons_append]
    cases first with
    | label name =>
      rw [separated_cons_label, separated_cons_label, ih, guarded_append_other hlabel hcode]
    | _ => rw [separated_cons_other rfl, separated_cons_other rfl, ih]

theorem Valid.remove {start : Int} {before after : List Content} {name : String}
    (h : Valid start (before ++ .variable name :: after))
    (hname : name ∈ before.flatMap Content.variableNames) : Valid start (before ++ after) := by
  have hsub : List.Sublist (before ++ after) (before ++ .variable name :: after) :=
    (List.sublist_cons_self _ _).append_left before
  have hnames : ((before ++ after).flatMap Content.variableNames).toFinset =
      ((before ++ .variable name :: after).flatMap Content.variableNames).toFinset := by
    ext other
    have hother : other ∈ (Content.variable name).variableNames ↔ other = name := by
      simp [Content.variableNames, Content.variableName?, Content.bytes]
    rw [List.mem_toFinset, List.mem_toFinset, List.flatMap_append, List.flatMap_append,
      List.flatMap_cons, List.mem_append, List.mem_append, List.mem_append, hother]
    constructor
    · rintro (h | h)
      · exact .inl h
      · exact .inr (.inr h)
    · rintro (h | rfl | h)
      · exact .inl h
      · exact .inl hname
      · exact .inr h
  refine ⟨?_, ?_, ?_, ?_, ?_, ?_, ?_⟩
  · exact h.labels_nodup.sublist (hsub.filterMap _)
  · exact (separated_append_other rfl rfl).mp h.separated
  · intro content hcontent label hlabel
    have hmem := h.labels_defined content (hsub.subset hcontent) label hlabel
    simpa using hmem
  · exact h.variables_nodup.sublist (hsub.filterMap _)
  · rw [hnames]
    exact h.variables_count
  · rw [hnames]
    exact h.variables_fit
  · have hbytes := h.bytes_fit
    rwa [List.flatMap_append, List.flatMap_cons, show (Content.variable name).bytes = [] from rfl,
      List.nil_append, ← List.flatMap_append] at hbytes

/-! ## Assembled programs -/

/-- A map of the variables that a source mentions to data addresses from `start` on, by which the
machine code of its lines goes. -/
structure Allocates (start : Int) (source : List String) (lines : List Line) (place : String → Int) :
    Prop where
  /-- The definitions and the uses in the lines are the mentions in the source. -/
  names_eq : lines.flatMap Line.variableNames = mentions source
  /-- A variable in machine code stands for its address. -/
  resolved : ∀ line ∈ lines, ∀ byte ∈ line.bytes, byte.kind = .constant →
    byte.constantKind = .variable → byte.bits = .ofWord (BitVec.ofInt 64 (place byte.constant)) 8
  /-- No two variables have the same address. -/
  injective : Set.InjOn place {name | name ∈ mentions source}
  /-- The addresses are those from `start` on, as many as there are names. -/
  image_eq : place '' {name | name ∈ mentions source} =
    Set.Ico start (start + ((mentions source).toFinset.card : Nat))
  /-- Every address is in data memory. -/
  in_memory : ∀ name ∈ mentions source, 0 ≤ place name ∧ place name ≤ 255
  /-- The order of the addresses is that of the first mentions. -/
  ordered : ∀ a ∈ mentions source, ∀ b ∈ mentions source,
    place a < place b ↔ (mentions source).idxOf a < (mentions source).idxOf b

end Program

namespace Assembler

theorem reads_of_process {start : Int} {source : List String} {final : List Line}
    (h : (standard start).process source = .ok final) :
    (0 ≤ start ∧ start ≤ 255) ∧ ∃ contents, List.Forall₂ Content.Reads source contents ∧
      Valid start contents := by
  obtain ⟨lines, hread, -⟩ := exists_of_process h
  obtain ⟨hstart, hfrom, hvalid⟩ := readChecked_eq_ok.mp hread
  exact ⟨hstart, lines.map Line.content, Line.forall₂_reads hfrom, hvalid⟩

theorem exists_process_of_reads {start : Int} (hstart : 0 ≤ start ∧ start ≤ 255)
    {source : List String} {contents : List Content}
    (hreads : List.Forall₂ Content.Reads source contents) (hvalid : Valid start contents) :
    ∃ final, (standard start).process source = .ok final := by
  obtain ⟨lines, hfrom, rfl⟩ := Line.readFrom_of_reads hreads 1
  have hread : (standard start).readChecked source = .ok lines :=
    readChecked_eq_ok.mpr ⟨hstart, hfrom, hvalid⟩
  obtain ⟨final, hfinal⟩ := resolve_of_readChecked hread
  exact ⟨final, bind_eq_ok.mpr ⟨lines, hread, mapError_eq_ok.mpr hfinal⟩⟩

theorem allocates_of_process {start : Int} {source : List String} {final : List Line}
    (h : (standard start).process source = .ok final) :
    Allocates start source final (variablePlace start source) := by
  obtain ⟨lines, hread, herased, hresolves⟩ := exists_of_process h
  obtain ⟨⟨hzero, -⟩, hfrom, hvalid⟩ := readChecked_eq_ok.mp hread
  have hstart : 0 ≤ start := hzero
  have hnames : lines.flatMap Line.variableNames = mentions source := by
    rw [← Content.variableNames_of_reads (Line.forall₂_reads hfrom), List.flatMap_map]
    rfl
  have hfinal : final.flatMap Line.variableNames = mentions source := by
    rw [← flatMap_variableNames_erased, herased, flatMap_variableNames_erased, hnames]
  have hfit : start + ((mentions source).toFinset.card : Nat) ≤ 256 := by
    have hfit := hvalid.variables_fit
    rw [List.flatMap_map] at hfit
    rw [← hnames]
    exact hfit
  refine ⟨hfinal, ?_, injOn_variablePlace start source, image_variablePlace start source, ?_, ?_⟩
  · intro line hline byte hbyte hkind hconstant
    have hmem : byte.constant ∈ mentions source := by
      rw [← hfinal]
      refine List.mem_flatMap.mpr ⟨line, hline, List.mem_append_right _ ?_⟩
      exact List.mem_map_of_mem (List.mem_filter.mpr ⟨hbyte, beq_iff_eq.mpr hconstant⟩)
    have hlookup := lookup_variableAddresses (hnames ▸ hmem) start
    rw [hnames] at hlookup
    obtain ⟨old, -, hold⟩ := exists_of_mem_right hresolves hline
    obtain ⟨oldByte, -, bits, hbits, rfl⟩ := exists_of_mem_right hold.bytes_forall₂ hbyte
    have hkind' : oldByte.kind = .constant := hkind
    have hconstant' : oldByte.constantKind = .variable := hconstant
    have hlookup' : (variableAddresses start lines).lookup oldByte.constant = _ := hlookup
    simp only [CodeByte.constantBits, hkind', hconstant', if_true, standard, hlookup',
      Option.getD_some] at hbits
    exact (byteBits_eq_ok.mp hbits).2
  · intro name hname
    have := idxOf_mentions_lt hname
    unfold variablePlace
    omega
  · intro a ha b hb
    rw [← idxOf_eraseDups_lt_iff ha hb, variablePlace, variablePlace]
    omega

/-- Every assembled program has one map of its variables to data addresses. The map is injective, it
takes exactly the addresses from the start of the variables on, all in data memory, and follows the
order in which the source mentions the variables first. The program without a definition that comes
behind another mention is assembled too, and goes by the same map. -/
theorem variables_of_process {start : Int} {source : List String} {final : List Line}
    (h : (standard start).process source = .ok final) :
    ∃ place, Allocates start source final place ∧
      ∀ before raw after, source = before ++ raw :: after →
        Word.isVariable (Line.cleanText raw) = true → Line.cleanText raw ∈ mentions before →
        ∃ final', (standard start).process (before ++ after) = .ok final' ∧
          Allocates start (before ++ after) final' place := by
  refine ⟨variablePlace start source, allocates_of_process h, ?_⟩
  rintro before raw after rfl hraw hmentioned
  obtain ⟨hstart, contents, hreads, hvalid⟩ := reads_of_process h
  have hfirst := (List.forall₂_take_append _ _ _ hreads.flip).flip
  obtain ⟨content, last, hcontent, hlast, hdrop⟩ :=
    List.forall₂_cons_left_iff.mp (List.forall₂_drop_append _ _ _ hreads.flip).flip
  obtain rfl := Content.eq_variable_of_reads hcontent hraw
  rw [← List.take_append_drop before.length contents, hdrop] at hvalid
  have hnames := Content.variableNames_of_reads hfirst
  obtain ⟨final', hfinal'⟩ := exists_process_of_reads hstart (List.rel_append hfirst hlast)
    (hvalid.remove (hnames ▸ hmentioned))
  rw [variablePlace_remove start hcontent.variableNames_eq.symm hmentioned]
  exact ⟨final', hfinal', allocates_of_process hfinal'⟩

/-- `$y` is used before `$x` and defined behind it, so it comes first with or without its definition. -/
theorem variables_of_late_definition : ∃ final place final',
    (standard 250).process ["STORE A [$y]", "$x", "$y // late", "LOAD [$x] B"] = .ok final ∧
      Allocates 250 ["STORE A [$y]", "$x", "$y // late", "LOAD [$x] B"] final place ∧
      place "$y" = 250 ∧ place "$x" = 251 ∧
      (standard 250).process ["STORE A [$y]", "$x", "LOAD [$x] B"] = .ok final' ∧
      Allocates 250 ["STORE A [$y]", "$x", "LOAD [$x] B"] final' place := by
  have hcheck : ((standard 250).process
      ["STORE A [$y]", "$x", "$y // late", "LOAD [$x] B"]).toOption.any (fun _ => true) = true := by
    decide +kernel
  have hnames : mentions ["STORE A [$y]", "$x", "$y // late", "LOAD [$x] B"] =
      ["$y", "$x", "$y", "$x"] := by decide +kernel
  obtain ⟨final, hfinal, -⟩ := exists_ok_of_any hcheck
  obtain ⟨place, hplace, hlate⟩ := variables_of_process hfinal
  obtain ⟨final', hfinal', hplace'⟩ := hlate ["STORE A [$y]", "$x"] "$y // late" ["LOAD [$x] B"] rfl
    (by decide +kernel) (by decide +kernel)
  have hrange := hplace.image_eq
  have hordered := hplace.ordered
  rw [hnames] at hrange hordered
  have hcard : (["$y", "$x", "$y", "$x"] : List String).toFinset.card = 2 := by decide
  have hplaces : ∀ name ∈ ["$y", "$x", "$y", "$x"], 250 ≤ place name ∧ place name < 252 := by
    intro name hname
    have hmem := hrange.subset ⟨name, hname, rfl⟩
    rw [hcard, Set.mem_Ico] at hmem
    exact hmem
  have hlt := (hordered "$y" (by simp) "$x" (by simp)).mpr (by decide)
  have hy := hplaces "$y" (by simp)
  have hx := hplaces "$x" (by simp)
  exact ⟨final, place, final', hfinal, hplace, by omega, by omega, hfinal', hplace'⟩

end Assembler

end Microcomputer
