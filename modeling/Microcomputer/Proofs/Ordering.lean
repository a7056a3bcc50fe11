import Mathlib
import Microcomputer.Proofs.Acceptance

/-!
# The order of the operations

Operations are tried one after the other, and a mnemonic that is not known is looked up among all of
them. If the mnemonics differ and each operation only speaks for lines that start with its own, the
order in which they are tried has no influence.

* `Text.found_eq_some` : the key that a text finds, said without positions;
* `Operation.Selective` : an operation that only speaks for lines with its mnemonic;
* `Content.readCode_of_silent`, `Content.readCode_of_spokesman` : what a line comes to if no operation
  speaks for it, and if one does;
* `Assembler.process_perm` : operations in another order assemble everything alike.
-/

namespace Microcomputer

open Traversal

/-! ## Looking up a mnemonic -/

namespace Text

def found (keys : List String) (text : String) : Option String :=
  (findKey keys text).toOption.bind fun i => keys[i]?

def begins (text key : String) : Bool := text.toList.isPrefixOf key.toList

theorem map_abbreviated (keys : List String) (text : String) :
    (abbreviated keys text).map (fun i => keys[i]?) = (keys.filter (begins text)).map some := by
  have hkeys : (List.range keys.length).map (fun i => keys[i]?) = keys.map some := by
    apply List.ext_getElem
    · simp
    · intro i hi hi'
      simp
  have hany : (fun key? : Option String => key?.any (begins text)) ∘ some = begins text := rfl
  calc (abbreviated keys text).map (fun i => keys[i]?)
      = ((List.range keys.length).map (fun i => keys[i]?)).filter
          (fun key? => key?.any (begins text)) := by rw [List.filter_map]; rfl
    _ = (keys.filter (begins text)).map some := by rw [hkeys, List.filter_map, hany]

theorem found_eq_some {keys : List String} {text key : String} : found keys text = some key ↔
    (text ∈ keys ∧ key = text) ∨ (text ∉ keys ∧ text ≠ "" ∧ keys.filter (begins text) = [key]) := by
  unfold found findKey
  cases hexact : keys.findIdx? (· == text) with
  | some i =>
    obtain ⟨hi, htext, -⟩ := List.findIdx?_eq_some_iff_getElem.mp hexact
    rw [beq_iff_eq] at htext
    have hmem : text ∈ keys := htext ▸ List.getElem_mem hi
    simp only [Except.toOption, Option.bind_some, List.getElem?_eq_getElem hi, htext, Option.some.injEq,
      hmem, true_and, not_true_eq_false, false_and, or_false]
    exact eq_comm
  | none =>
    have hmem : text ∉ keys := by
      intro hmem
      simpa using List.findIdx?_eq_none_iff.mp hexact text hmem
    simp only [hmem, false_and, false_or, not_false_eq_true, true_and, String.isEmpty_iff]
    by_cases hempty : text = ""
    · simp [hempty, Except.toOption]
    · have hmap := map_abbreviated keys text
      simp only [hempty, if_false, ne_eq, not_false_eq_true, true_and]
      -- the positions of the abbreviated keys and the keys themselves are equally many
      match hplaces : abbreviated keys text, hkeys : keys.filter (begins text) with
      | [], [] => simp [Except.toOption]
      | [i], [only] =>
        rw [hplaces, hkeys] at hmap
        simp only [List.map_cons, List.map_nil, List.cons.injEq, and_true] at hmap
        simp [Except.toOption, hmap]
      | _ :: _ :: _, _ :: _ :: _ => simp [Except.toOption]
      | [], _ :: _ | _ :: _, [] | [_], _ :: _ :: _ | _ :: _ :: _, [_] =>
        rw [hplaces, hkeys] at hmap
        simp at hmap

theorem found_perm {keys keys' : List String} (h : keys.Perm keys') (text : String) :
    found keys text = found keys' text := by
  ext key
  have hfilter : keys.filter (begins text) = [key] ↔ keys'.filter (begins text) = [key] := by
    rw [← List.perm_singleton, ← List.perm_singleton, (h.filter _).congr_left]
  rw [found_eq_some, found_eq_some, h.mem_iff, hfilter]

end Text

namespace Operation

theorem hint_eq (ops : List Operation) (line : String) : hint ops line =
    ((Text.words line).head?.bind fun word => Text.found (ops.map mnemonic) (Text.upper word)).getD "" := by
  unfold hint find Text.found
  cases Text.words line with
  | nil => rfl
  | cons word args =>
    cases hkey : Text.findKey (ops.map mnemonic) (Text.upper word) with
    | error e => simp [hkey, Except.toOption]
    | ok i => simp [hkey, Except.toOption]

theorem hint_perm {ops ops' : List Operation} (h : ops.Perm ops') (line : String) :
    hint ops line = hint ops' line := by
  simp only [hint_eq, Text.found_perm (h.map mnemonic)]

/-! ## Operations that speak for their own lines -/

/-- An operation that finds nothing in a line whose first word is not its mnemonic. -/
def Selective (op : Operation) : Prop :=
  ∀ line word args, Text.words line = word :: args → word ≠ op.mnemonic → op.parseLine line = .ok none

theorem selective_of_mem {op : Operation} (h : op ∈ all) : op.Selective := by
  intro line word args hwords hne
  refine parseLine_of_ne h ?_
  rw [hwords]
  exact fun hcon => hne (Option.some.inj hcon)

end Operation

/-! ## Reading a line -/

namespace Content

/-- What a line comes to, given what the operation of its mnemonic makes of it. -/
def settle (ops : List Operation) (clean : String) :
    Except Failure (Option (List CodeByte)) → Except Failure (List CodeByte)
  | .ok (some bytes) => .ok bytes
  | .ok none => .error (.error (.line clean (Operation.hint ops clean) .noOperation))
  | .error failure => .error (failure.wrap (.line clean ""))

theorem settle_perm {ops ops' : List Operation} (h : ops.Perm ops') (clean : String) :
    settle ops clean = settle ops' clean := by
  funext reading
  rcases reading with failure | - | bytes
  · rfl
  · rw [settle, settle, Operation.hint_perm h]
  · rfl

section

variable {ops : List Operation} {clean : String}

theorem readCode_of_silent (hsilent : ∀ op ∈ ops, op.parseLine clean = .ok none) :
    readCode ops clean = settle ops clean (.ok none) := by
  have hreadings : ops.mapM (fun op => op.parseLine clean) = .ok (ops.map fun _ => none) :=
    mapM_eq_ok_map hsilent
  have hnone : (ops.map fun _ => (none : Option (List CodeByte))).filterMap id = [] := by simp
  rw [readCode, hreadings]
  simp only [Except.mapError, bind, Except.bind, hnone]
  rfl

/-- One operation decides about the line if the others find nothing in it. -/
theorem readCode_of_spokesman (hnodup : (ops.map Operation.mnemonic).Nodup) {op : Operation}
    (hop : op ∈ ops)
    (hothers : ∀ o ∈ ops, o.mnemonic ≠ op.mnemonic → o.parseLine clean = .ok none) :
    readCode ops clean = settle ops clean (op.parseLine clean) := by
  have hsame : ∀ o ∈ ops, o.mnemonic = op.mnemonic → o = op :=
    fun o ho => List.inj_on_of_nodup_map hnodup ho hop
  rcases hparse : op.parseLine clean with failure | - | bytes
  · -- no other operation can fail before or after
    have hreadings : ops.mapM (fun op => op.parseLine clean) = .error failure := by
      cases hresult : ops.mapM (fun op => op.parseLine clean) with
      | ok readings =>
        obtain ⟨reading, -, hreading⟩ := mapM_of_mem hresult hop
        rw [hparse] at hreading
        cases hreading
      | error failure' =>
        obtain ⟨o, ho, hfailure⟩ := mapM_eq_error hresult
        by_cases hmnemonic : o.mnemonic = op.mnemonic
        · rw [hsame o ho hmnemonic, hparse] at hfailure
          rw [Except.error.inj hfailure]
        · rw [hothers o ho hmnemonic] at hfailure
          cases hfailure
    rw [readCode, hreadings]
    rfl
  · apply readCode_of_silent
    intro o ho
    by_cases hmnemonic : o.mnemonic = op.mnemonic
    · rw [hsame o ho hmnemonic, hparse]
    · exact hothers o ho hmnemonic
  · have hparses : ∀ o ∈ ops, o.parseLine clean =
        .ok (if o.mnemonic = op.mnemonic then some bytes else none) := by
      intro o ho
      split
      case isTrue hmnemonic => rw [hsame o ho hmnemonic, hparse]
      case isFalse hmnemonic => exact hothers o ho hmnemonic
    have hfound := filterMap_key hnodup hop bytes
    rw [readCode, mapM_eq_ok_map hparses]
    simp only [Except.mapError, bind, Except.bind, List.filterMap_map, Function.id_comp, hfound]
    rfl

variable (hnodup : (ops.map Operation.mnemonic).Nodup) (hselective : ∀ op ∈ ops, op.Selective)

include hnodup hselective

theorem readCode_of_mnemonic {op : Operation} (hop : op ∈ ops) {args : List String}
    (hwords : Text.words clean = op.mnemonic :: args) :
    readCode ops clean = settle ops clean (op.parseLine clean) :=
  readCode_of_spokesman hnodup hop fun o ho hne =>
    hselective o ho clean op.mnemonic args hwords hne.symm

theorem readCode_perm {ops' : List Operation} (hperm : ops.Perm ops') (hwords : Text.words clean ≠ []) :
    readCode ops clean = readCode ops' clean := by
  have hnodup' : (ops'.map Operation.mnemonic).Nodup := (hperm.map _).nodup_iff.mp hnodup
  have hselective' : ∀ op ∈ ops', op.Selective := fun op hop => hselective op (hperm.mem_iff.mpr hop)
  obtain ⟨word, args, hwords⟩ := List.exists_cons_of_ne_nil hwords
  by_cases hknown : ∃ op ∈ ops, op.mnemonic = word
  · obtain ⟨op, hop, rfl⟩ := hknown
    rw [readCode_of_mnemonic hnodup hselective hop hwords,
      readCode_of_mnemonic hnodup' hselective' (hperm.mem_iff.mp hop) hwords, settle_perm hperm]
  · have hsilent : ∀ op ∈ ops, op.parseLine clean = .ok none := by
      intro op hop
      refine hselective op hop clean word args hwords fun heq => hknown ⟨op, hop, heq.symm⟩
    rw [readCode_of_silent hsilent, readCode_of_silent fun op hop => hsilent op (hperm.mem_iff.mpr hop),
      settle_perm hperm]

/-- A line that one of the operations makes machine code of can be read, and is that machine code if
it is any. -/
theorem exists_read_of_parseLine {op : Operation} (hop : op ∈ ops) {bytes : List CodeByte}
    (hparse : op.parseLine clean = .ok (some bytes)) :
    ∃ content, read ops clean = .ok content ∧ (content.isCode = true → content = .code bytes) := by
  unfold read
  match hwords : Text.words clean with
  | [] => exact ⟨.blank, rfl, fun hcode => nomatch hcode⟩
  | word :: args =>
    have hmnemonic : word = op.mnemonic := by
      by_contra hne
      rw [hselective op hop clean word args hwords hne] at hparse
      cases hparse
    have hcode : readCode ops clean = .ok bytes := by
      rw [readCode_of_mnemonic hnodup hselective hop (hmnemonic ▸ hwords), hparse]
      rfl
    simp only [hcode]
    split
    · exact ⟨.blank, rfl, fun hcode => nomatch hcode⟩
    · split
      · exact ⟨_, rfl, fun hcode => nomatch hcode⟩
      · split
        · exact ⟨_, rfl, fun hcode => nomatch hcode⟩
        · exact ⟨.code bytes, rfl, fun _ => rfl⟩
    · exact ⟨.code bytes, rfl, fun _ => rfl⟩

end

theorem read_congr {ops ops' : List Operation}
    (h : ∀ clean, Text.words clean ≠ [] → readCode ops clean = readCode ops' clean) (clean : String) :
    read ops clean = read ops' clean := by
  have hclean := h clean
  unfold read
  split
  · rfl
  · rename_i hwords
    rw [hclean (by simp [hwords])]
  · rename_i hwords _
    rw [hclean hwords]

theorem readCode_of_read_eq_error {ops : List Operation} {clean : String} {failure : Failure}
    (h : read ops clean = .error failure) : readCode ops clean = .error failure := by
  unfold read at h
  split at h
  · cases h
  · split at h
    · cases h
    · split at h
      · cases h
      · exact map_eq_error.mp h
  · exact map_eq_error.mp h

theorem text_of_readCode {ops : List Operation} {clean text hint : String} {cause : Error}
    (h : readCode ops clean = .error (.error (.line text hint cause))) : text = clean := by
  unfold readCode at h
  rcases bind_eq_error.mp h with h | ⟨readings, -, h⟩
  · obtain ⟨inner, -, hinner⟩ := mapError_eq_error.mp h
    cases inner with
    | error e =>
      cases hinner
      rfl
    | fault f => cases hinner
  · split at h <;> cases h
    · rfl
    · rfl

end Content

/-! ## Reading a program -/

namespace Line

theorem readFrom_congr {ops ops' : List Operation}
    (h : ∀ clean, Content.read ops clean = Content.read ops' clean) (number : Nat)
    (source : List String) : readFrom ops number source = readFrom ops' number source := by
  induction source generalizing number with
  | nil => rfl
  | cons raw rest ih =>
    have hread : read ops number raw = read ops' number raw := by simp only [read, h]
    rw [readFrom, readFrom, hread]
    simp only [ih]

theorem exists_of_readFrom_eq_error {ops : List Operation} {number : Nat} {source : List String}
    {failure : Failure} (h : readFrom ops number source = .error failure) :
    ∃ (n : Nat) (raw : String) (inner : Failure), Content.read ops (cleanText raw) = .error inner ∧
      failure = inner.wrap (.assembly .line n raw "") := by
  induction source generalizing number with
  | nil => cases h
  | cons raw rest ih =>
    unfold readFrom at h
    rcases bind_eq_error.mp h with hread | ⟨line, -, h⟩
    · unfold read at hread
      rcases bind_eq_error.mp hread with hread | ⟨content, -, hread⟩
      · obtain ⟨inner, hinner, rfl⟩ := mapError_eq_error.mp hread
        exact ⟨number, raw, inner, hinner, rfl⟩
      · cases hread
    · rcases bind_eq_error.mp h with hrest | ⟨lines, -, h⟩
      · exact ih hrest
      · cases h

/-- What is wrong with a constant that has no bits is a matter of bits. -/
theorem exists_of_resolve_eq_error {kind : ConstantKind} {value : CodeByte → Except BitError BitField}
    {line : Line} {e : Error} (h : resolve kind value line = .error e) :
    ∃ constant cause, e = .assembly .line line.number line.raw constant (.bits cause) := by
  unfold resolve at h
  rcases bind_eq_error.mp h with h | ⟨bytes, -, h⟩
  · obtain ⟨byte, -, hbyte⟩ := mapM_eq_error h
    split at hbyte
    · split at hbyte
      · cases hbyte
      · cases hbyte
        exact ⟨_, _, rfl⟩
    · cases hbyte
  · cases h

end Line

namespace Assembler

theorem exists_of_resolve_eq_error {asm : Assembler} {lines : List Line} {e : Error}
    (h : asm.resolve lines = .error e) :
    ∃ (n : Nat) (raw constant : String) (cause : BitError),
      e = .assembly .line n raw constant (.bits cause) := by
  have hpass : ∀ {kind value} {lines : List Line}, lines.mapM (Line.resolve kind value) = .error e →
      ∃ (n : Nat) (raw constant : String) (cause : BitError),
        e = .assembly .line n raw constant (.bits cause) := by
    intro kind value lines h
    obtain ⟨line, -, hline⟩ := mapM_eq_error h
    exact ⟨line.number, line.raw, Line.exists_of_resolve_eq_error hline⟩
  unfold resolve at h
  rcases bind_eq_error.mp h with h | ⟨lines₁, -, h⟩
  · exact hpass h
  · rcases bind_eq_error.mp h with h | ⟨lines₂, -, h⟩
    · exact hpass h
    · exact hpass h

/-- A program that is rejected for what one of its lines holds is rejected in reading. -/
theorem readFrom_of_process {asm : Assembler} {source : List String} {kind : Defect} {n : Int}
    {raw symbol text hint : String} {cause : Error}
    (h : asm.process source = .error (.error (.assembly kind n raw symbol (.line text hint cause)))) :
    Line.readFrom asm.operations 1 source =
      .error (.error (.assembly kind n raw symbol (.line text hint cause))) := by
  unfold process at h
  rcases bind_eq_error.mp h with h | ⟨lines, -, h⟩
  · unfold readChecked at h
    cases hstart : asm.startsInMemory with
    | false =>
      rw [hstart] at h
      cases h
    | true =>
      rw [hstart] at h
      rcases bind_eq_error.mp h with h | ⟨lines, -, h⟩
      · exact h
      · split at h
        · rename_i e he
          obtain ⟨before, check, after, -, hcheck, -⟩ := List.findSome?_eq_some_iff.mp he
          obtain ⟨found, -, rfl⟩ := Option.map_eq_some_iff.mp hcheck
          cases h
        · cases h
  · obtain ⟨e, hresolve, he⟩ := mapError_eq_error.mp h
    obtain ⟨n, raw, constant, cause, rfl⟩ := exists_of_resolve_eq_error hresolve
    cases he

/-- Operations with different mnemonics that each speak for their own lines assemble everything alike
in every order, down to the errors and hints. A line that one of them makes machine code of can be read,
so no program is rejected because several operations would match such a line. -/
theorem process_perm {ops ops' : List Operation} (hperm : ops.Perm ops')
    (hnodup : (ops.map Operation.mnemonic).Nodup) (hselective : ∀ op ∈ ops, op.Selective) :
    (∀ (start : Int) (source : List String), (Assembler.mk ops start).process source =
      (Assembler.mk ops' start).process source) ∧
    (∀ op ∈ ops, ∀ line bytes, op.parseLine line = .ok (some bytes) →
      ∃ content, Content.read ops line = .ok content ∧
        (content.isCode = true → content = .code bytes)) ∧
    ∀ (start : Int) (source : List String) (n : Int) (raw symbol text hint : String),
      (Assembler.mk ops start).process source =
        .error (.error (.assembly .line n raw symbol (.line text hint .multipleOperations))) →
      ∀ op ∈ ops, ∀ bytes, op.parseLine text ≠ .ok (some bytes) := by
  refine ⟨?_, ?_, ?_⟩
  · intro start source
    have hread : Line.readFrom ops 1 source = Line.readFrom ops' 1 source :=
      Line.readFrom_congr (Content.read_congr fun clean hwords =>
        Content.readCode_perm hnodup hselective hperm hwords) 1 source
    unfold process readChecked
    simp only [hread]
    rfl
  · intro op hop line bytes hparse
    exact Content.exists_read_of_parseLine hnodup hselective hop hparse
  · intro start source n raw symbol text hint h op hop bytes hparse
    have hfrom := readFrom_of_process h
    obtain ⟨m, raw', inner, hinner, hfailure⟩ := Line.exists_of_readFrom_eq_error hfrom
    cases inner with
    | fault f => cases hfailure
    | error e =>
      cases hfailure
      obtain rfl := Content.text_of_readCode (Content.readCode_of_read_eq_error hinner)
      obtain ⟨content, hcontent, -⟩ := Content.exists_read_of_parseLine hnodup hselective hop hparse
      rw [hinner] at hcontent
      cases hcontent

/-- The instruction set backwards gives the same hint for a mnemonic that is cut short. -/
theorem process_reversed :
    (Assembler.mk Operation.all.reverse 0).process ["JUMP @end", "@end", "hal"] =
      .error (.error (.assembly .line 3 "hal" "" (.line "hal" "HALT" .noOperation))) := by
  have hstandard : (Assembler.mk Operation.all 0).process ["JUMP @end", "@end", "hal"] =
      .error (.error (.assembly .line 3 "hal" "" (.line "hal" "HALT" .noOperation))) := by decide +kernel
  have hsame := (process_perm (List.reverse_perm Operation.all).symm Operation.nodup_mnemonics
    fun op hop => Operation.selective_of_mem hop).1 0 ["JUMP @end", "@end", "hal"]
  rw [← hsame, hstandard]

end Assembler

end Microcomputer
