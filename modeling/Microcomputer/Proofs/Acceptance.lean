import Mathlib
import Microcomputer.Proofs.Labels

/-!
# Which programs are assembled

* `mem_addressesFrom` : the address of a variable is its place in the order of first appearance;
* `Content.Reads.number_fits` : numbers that are read fit a byte;
* `Assembler.resolve_of_readChecked` : a program that passes the checks can be resolved;
* `Assembler.process_isOk_iff` : what programs are assembled, rule by rule.
-/

namespace Microcomputer

open Program Traversal

/-! ## Addresses of variables -/

theorem mem_addressesFrom {start value : Int} {names : List String} {name : String} :
    (name, value) ∈ addressesFrom start names ↔
      ∃ k : Nat, names[k]? = some name ∧ value = start + k := by
  induction names generalizing start with
  | nil => simp [addressesFrom]
  | cons first rest ih =>
    rw [addressesFrom, List.mem_cons, ih, Prod.mk.injEq]
    constructor
    · rintro (⟨rfl, rfl⟩ | ⟨k, hk, rfl⟩)
      · exact ⟨0, rfl, by simp⟩
      · exact ⟨k + 1, hk, by push_cast; ring⟩
    · rintro ⟨k, hk, rfl⟩
      cases k with
      | zero => exact .inl ⟨(Option.some.inj hk).symm, by simp⟩
      | succ k => exact .inr ⟨k, hk, by push_cast; ring⟩

theorem map_addressesFrom (start : Int) (names : List String) :
    (addressesFrom start names).map Prod.fst = names := by
  induction names generalizing start with
  | nil => rfl
  | cons first rest ih => rw [addressesFrom, List.map_cons, ih]

/-! ## Numbers -/

theorem Content.Reads.number_fits {raw : String} {content : Content} (h : Reads raw content) :
    ∀ byte ∈ content.bytes, byte.constantKind = .number → -128 ≤ byte.number ∧ byte.number < 256 := by
  intro byte hbyte hkind
  cases h with
  | codeLine hop _ hparse =>
    obtain ⟨entry, -, rfl⟩ := List.mem_map.mp hop
    obtain ⟨args, -, hbytes⟩ := Operation.parseLine_eq_ok hparse
    obtain ⟨e, -, -, constants, hconstants, rfl⟩ := Encoding.bytes_eq_ok hbytes
    rcases List.mem_cons.mp hbyte with rfl | hbyte
    · cases hkind
    · obtain ⟨arg, -, harg⟩ := exists_of_mem_right hconstants hbyte
      cases CodeByte.isConstant_ofArgument harg with
      | ofLabel => cases hkind
      | ofVariable => cases hkind
      | ofNumber _ hfits => exact hfits
  | _ => cases hbyte

namespace Line

theorem reads_of_readFrom {number : Nat} {source : List String} {lines : List Line}
    (h : readFrom Operation.all number source = .ok lines) :
    List.Forall₂ (fun raw line => line.raw = raw ∧ Content.Reads raw line.content) source lines := by
  induction source generalizing number lines with
  | nil =>
    cases h
    exact .nil
  | cons raw rest ih =>
    obtain ⟨line, hline, h⟩ := bind_eq_ok.mp h
    obtain ⟨lines, hrest, h⟩ := bind_eq_ok.mp h
    cases h
    obtain ⟨content, hcontent, rfl⟩ := read_eq_ok.mp hline
    exact .cons ⟨rfl, Content.read_eq_ok.mp hcontent⟩ (ih hrest)

theorem readFrom_of_reads {source : List String} {contents : List Content}
    (h : List.Forall₂ Content.Reads source contents) (number : Nat) :
    ∃ lines, readFrom Operation.all number source = .ok lines ∧ lines.map content = contents := by
  induction h generalizing number with
  | nil => exact ⟨[], rfl, rfl⟩
  | @cons raw content source contents hreads _ ih =>
    obtain ⟨lines, hlines, hcontents⟩ := ih (number + 1)
    have hread : read Operation.all number raw = .ok ⟨number, raw, cleanText raw, content, none⟩ :=
      read_eq_ok.mpr ⟨content, Content.read_eq_ok.mpr hreads, rfl⟩
    refine ⟨⟨number, raw, cleanText raw, content, none⟩ :: lines, ?_, by rw [List.map_cons, hcontents]⟩
    exact bind_eq_ok.mpr ⟨_, hread, bind_eq_ok.mpr ⟨lines, hlines, rfl⟩⟩

end Line

/-! ## Acceptance -/

namespace Assembler

/-- The assembler of the instruction set with its variables from `start` on. -/
def standard (start : Int) : Assembler := { variableStart := start }

theorem totalBytes_le {lines : List Line} {start : Int} (hvalid : Valid start (lines.map Line.content)) :
    totalBytes lines ≤ 255 := by
  have hbytes := hvalid.bytes_fit
  rw [List.flatMap_map] at hbytes
  exact hbytes

theorem label_lookup_le {lines : List Line} {start : Int}
    (hvalid : Valid start (lines.map Line.content)) (name : String) :
    ((labelDefinitions 0 lines).lookup name).getD 0 ≤ 255 := by
  have htotal := totalBytes_le hvalid
  cases hlookup : (labelDefinitions 0 lines).lookup name with
  | none => exact Nat.zero_le 255
  | some n =>
    obtain ⟨i, -, rfl⟩ := mem_labelDefinitions.mp (mem_of_lookup hlookup)
    have hsplit : totalBytes (lines.take i) + totalBytes (lines.drop i) = totalBytes lines := by
      rw [totalBytes, totalBytes, totalBytes, ← List.length_append, ← List.flatMap_append,
        List.take_append_drop]
    rw [Option.getD_some]
    omega

theorem variable_lookup_mem {lines : List Line} {start : Int} (hstart : 0 ≤ start)
    (hvalid : Valid start (lines.map Line.content)) (name : String) :
    0 ≤ ((variableAddresses start lines).lookup name).getD 0 ∧
      ((variableAddresses start lines).lookup name).getD 0 ≤ 255 := by
  have hcount : start + ((lines.flatMap Line.variableNames).eraseDups.length : Nat) ≤ 256 := by
    have hfit := hvalid.variables_fit
    rw [List.flatMap_map, ← length_eraseDups] at hfit
    exact hfit
  rw [variableAddresses, variableNames_eq]
  cases hlookup : (addressesFrom start (lines.flatMap Line.variableNames).eraseDups).lookup name with
  | none => decide
  | some value =>
    obtain ⟨k, hk, rfl⟩ := mem_addressesFrom.mp (mem_of_lookup hlookup)
    obtain ⟨hlt, -⟩ := List.getElem?_eq_some_iff.mp hk
    rw [Option.getD_some]
    omega

/-- A program that passes the checks can be resolved. -/
theorem resolve_of_readChecked {start : Int} {source : List String} {lines : List Line}
    (h : (standard start).readChecked source = .ok lines) :
    ∃ final, (standard start).resolve (bind lines) = .ok final := by
  obtain ⟨⟨hstart, -⟩, hfrom, hvalid⟩ := readChecked_eq_ok.mp h
  have hbind := erased_bind lines
  apply resolve_isOk
  · intro name
    rw [labelAddresses_bind hfrom hvalid]
    have hle := label_lookup_le hvalid name
    exact ⟨_, byteBits_natCast.mpr ⟨by omega, rfl⟩⟩
  · intro line hline byte hbyte hkind
    obtain ⟨old, hold, oldByte, holdByte, heq⟩ := exists_byte_of_erased hbind hline hbyte
    have hkind' : oldByte.constantKind = .number := (congrArg CodeByte.constantKind heq).trans hkind
    have hnumber : oldByte.number = byte.number := by
      simpa only [CodeByte.erased] using congrArg CodeByte.number heq
    obtain ⟨raw, -, -, hreads⟩ := exists_of_mem_right (Line.reads_of_readFrom hfrom) hold
    have hfits := hreads.number_fits oldByte holdByte hkind'
    rw [hnumber] at hfits
    exact ⟨_, byteBits_eq_ok.mpr ⟨hfits, rfl⟩⟩
  · intro name
    rw [variableAddresses_congr _ hbind]
    obtain ⟨hzero, hle⟩ := variable_lookup_mem hstart hvalid name
    exact ⟨_, byteBits_eq_ok.mpr ⟨⟨by omega, by omega⟩, rfl⟩⟩

/-- Exactly the programs whose lines can be read and that break none of the rules are assembled, and
once the checks find nothing no constant fails to be resolved. -/
theorem process_isOk_iff (start : Int) (source : List String) :
    ((∃ final, (standard start).process source = .ok final) ↔
      (0 ≤ start ∧ start ≤ 255) ∧
        ∃ contents, List.Forall₂ Content.Reads source contents ∧ Valid start contents) ∧
    ∀ lines, (standard start).readChecked source = .ok lines →
      ∃ final, (standard start).resolve (bind lines) = .ok final := by
  refine ⟨⟨?_, ?_⟩, fun lines hlines => resolve_of_readChecked hlines⟩
  · rintro ⟨final, hfinal⟩
    obtain ⟨lines, hread, -⟩ := exists_of_process hfinal
    obtain ⟨hstart, hfrom, hvalid⟩ := readChecked_eq_ok.mp hread
    refine ⟨hstart, lines.map Line.content, ?_, hvalid⟩
    rw [List.forall₂_map_right_iff]
    exact (Line.reads_of_readFrom hfrom).imp fun _ _ h => h.2
  · rintro ⟨hstart, contents, hreads, hvalid⟩
    obtain ⟨lines, hfrom, rfl⟩ := Line.readFrom_of_reads hreads 1
    have hread : (standard start).readChecked source = .ok lines :=
      readChecked_eq_ok.mpr ⟨hstart, hfrom, hvalid⟩
    obtain ⟨final, hfinal⟩ := resolve_of_readChecked hread
    exact ⟨final, bind_eq_ok.mpr ⟨lines, hread, mapError_eq_ok.mpr hfinal⟩⟩

end Assembler

end Microcomputer
