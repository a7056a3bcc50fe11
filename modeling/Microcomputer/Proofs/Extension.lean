import Mathlib
import Microcomputer.Proofs.Simulation

/-!
# Longer sources

Lines behind the end of a source change nothing of what was assembled before them. Every pass takes
the lines from first to last, and the tables of labels and variables only grow at their ends, so a
name that was known keeps its address.

* `Line.readFrom_append`, `Assembler.exists_bind_append` : reading and binding two pieces of source;
* `labelDefinitions_append`, `exists_variableAddresses_append` : how the tables grow;
* `CodeByte.Knows` : tables that hold the name of a constant, `Line.Resolves.eq_of_knows` : larger tables
  resolve the line in the same way;
* `Assembler.process_append` : the assembled lines of a source are the first ones of every longer source.
-/

namespace Microcomputer

open Program Traversal

/-! ## Passes over two pieces -/

namespace Line

theorem readFrom_append {ops : List Operation} {number : Nat} {source more : List String}
    {lines : List Line} (h : readFrom ops number (source ++ more) = .ok lines) :
    ∃ first rest, readFrom ops number source = .ok first ∧ lines = first ++ rest := by
  rw [readFrom_eq_ok, List.zipIdx_append] at h
  have htake := (List.forall₂_take_append _ _ _ h.flip).flip
  exact ⟨_, _, readFrom_eq_ok.mpr htake, (List.take_append_drop _ lines).symm⟩

theorem indexFrom_append (lines more : List Line) (index : Nat) :
    indexFrom index (lines ++ more) =
      indexFrom index lines ++ indexFrom (index + totalBytes lines) more := by
  induction lines generalizing index with
  | nil => rfl
  | cons line rest ih =>
    rw [List.cons_append, indexFrom, ih, indexFrom, List.cons_append, totalBytes_cons, Nat.add_assoc]

theorem bindLabels_append (lines more : List Line) (pending : Option String) :
    bindLabels pending (lines ++ more) =
      bindLabels pending lines ++ bindLabels (waiting pending lines) more := by
  fun_induction bindLabels pending lines with
  | case1 => rfl
  | case2 line rest name hcontent ih => simp [bindLabels, waiting, hcontent, ih]
  | case3 line rest bytes name hcontent ih => simp [bindLabels, waiting, hcontent, ih]
  | case4 pending line rest hlabel hcode ih =>
    rw [List.cons_append, bindLabels, waiting, ih, List.cons_append]
    · exact hlabel
    · exact hcode
    · exact hlabel
    · exact hcode

end Line

/-- Lines behind the end are numbered and bound after the others. -/
theorem Assembler.exists_bind_append (lines more : List Line) :
    ∃ rest, bind (lines ++ more) = bind lines ++ rest := by
  unfold bind
  rw [Line.indexFrom_append, Line.bindLabels_append]
  exact ⟨_, rfl⟩

/-! ## Tables -/

theorem labelDefinitions_append (lines more : List Line) (total : Nat) :
    labelDefinitions total (lines ++ more) =
      labelDefinitions total lines ++ labelDefinitions (total + totalBytes lines) more := by
  induction lines generalizing total with
  | nil => rfl
  | cons line rest ih =>
    rw [List.cons_append, labelDefinitions, ih, labelDefinitions, List.append_assoc, totalBytes_cons,
      Nat.add_assoc]

theorem addressesFrom_append (names more : List String) (start : Int) :
    addressesFrom start (names ++ more) =
      addressesFrom start names ++ addressesFrom (start + names.length) more := by
  induction names generalizing start with
  | nil => simp [addressesFrom]
  | cons name rest ih =>
    rw [List.cons_append, addressesFrom, ih, addressesFrom, List.cons_append, List.length_cons]
    congr 3
    push_cast
    ring

/-- New variables come behind those that were mentioned before. -/
theorem exists_variableAddresses_append (lines more : List Line) (start : Int) :
    ∃ rest, variableAddresses start (lines ++ more) = variableAddresses start lines ++ rest := by
  unfold variableAddresses
  rw [variableNames_eq, variableNames_eq, List.flatMap_append, List.eraseDups_append,
    addressesFrom_append]
  exact ⟨_, rfl⟩

theorem lookup_append_of_isSome {α : Type} {entries : List (String × α)} {name : String}
    (h : (entries.lookup name).isSome = true) (more : List (String × α)) :
    (entries ++ more).lookup name = entries.lookup name := by
  rw [List.lookup_append, Option.or_of_isSome h]

/-! ## Constants -/

namespace CodeByte

/-- The tables of labels and variables hold the name of a constant. -/
def Knows (labels : List (String × Nat)) (places : List (String × Int)) (byte : CodeByte) : Prop :=
  (byte.constantKind = .label → (labels.lookup byte.constant).isSome = true) ∧
    (byte.constantKind = .variable → (places.lookup byte.constant).isSome = true)

variable {labels : List (String × Nat)} {places : List (String × Int)} {byte after after' : CodeByte}

theorem Knows.constantBits_append (h : byte.Knows labels places) (labels' : List (String × Nat))
    (places' : List (String × Int)) :
    byte.constantBits (labels ++ labels') (places ++ places') = byte.constantBits labels places := by
  unfold constantBits
  cases hkind : byte.constantKind with
  | label => rw [lookup_append_of_isSome (h.1 hkind)]
  | «variable» => rw [lookup_append_of_isSome (h.2 hkind)]
  | _ => rfl

theorem Resolves.eq_of_knows (h : Resolves labels places byte after) (hknows : byte.Knows labels places)
    {labels' : List (String × Nat)} {places' : List (String × Int)}
    (h' : Resolves (labels ++ labels') (places ++ places') byte after') : after' = after := by
  obtain ⟨bits, hbits, rfl⟩ := h
  obtain ⟨bits', hbits', rfl⟩ := h'
  rw [hknows.constantBits_append, hbits] at hbits'
  rw [Except.ok.inj hbits']

end CodeByte

/-- Larger tables resolve a line in the same way if the names of its constants were known. -/
theorem Line.Resolves.eq_of_knows {labels labels' : List (String × Nat)}
    {places places' : List (String × Int)} {line after after' : Line}
    (h : Resolves labels places line after) (hknows : ∀ byte ∈ line.bytes, byte.Knows labels places)
    (h' : Resolves (labels ++ labels') (places ++ places') line after') : after' = after := by
  obtain ⟨bytes, hbytes, rfl⟩ := h
  obtain ⟨bytes', hbytes', rfl⟩ := h'
  rw [forall₂_unique hbytes hbytes' fun byte hbyte _ _ hnew hnew' =>
    hnew.eq_of_knows (hknows byte hbyte) hnew']

/-! ## Assembled programs -/

namespace Assembler

theorem knows_of_valid {start : Int} {lines : List Line} (hvalid : Valid start (lines.map Line.content))
    {line : Line} (hline : line ∈ bind lines) {byte : CodeByte} (hbyte : byte ∈ line.bytes) :
    byte.Knows (labelDefinitions 0 lines) (variableAddresses start lines) := by
  have herased := erased_bind lines
  refine ⟨fun hkind => ?_, fun hkind => ?_⟩
  · obtain ⟨i, hi⟩ := exists_label_of_use hvalid herased hline hbyte hkind
    have hmem : (byte.constant, 0 + totalBytes (lines.take i)) ∈ labelDefinitions 0 lines :=
      mem_labelDefinitions.mpr ⟨i, hi, rfl⟩
    rw [lookup_of_mem (nodup_labelDefinitions hvalid) hmem]
    rfl
  · have hmem : byte.constant ∈ (bind lines).flatMap Line.variableNames := by
      refine List.mem_flatMap.mpr ⟨line, hline, List.mem_append_right _ ?_⟩
      exact List.mem_map_of_mem (List.mem_filter.mpr ⟨hbyte, beq_iff_eq.mpr hkind⟩)
    rw [← flatMap_variableNames_erased, herased, flatMap_variableNames_erased] at hmem
    rw [lookup_variableAddresses hmem]
    rfl

/-- Whatever lines are appended to a source, its own lines are assembled to the same: every byte, every
index, every bound label and every address. So its machine code is where the longer one begins. -/
theorem process_append {asm : Assembler} {source more : List String} {final longer : List Line}
    (h : asm.process source = .ok final) (h' : asm.process (source ++ more) = .ok longer) :
    longer.take source.length = final ∧
      (Program.mk final).codes <+: (Program.mk longer).codes ∧
      (Program.mk final).machineCode <+: (Program.mk longer).machineCode ∧
      (Program.mk final).binary <+: (Program.mk longer).binary := by
  obtain ⟨lines, hread, -, hresolves⟩ := exists_of_process h
  obtain ⟨lines', hread', -, hresolves'⟩ := exists_of_process h'
  obtain ⟨-, hfrom, hvalid⟩ := readChecked_eq_ok.mp hread
  obtain ⟨-, hfrom', -⟩ := readChecked_eq_ok.mp hread'
  obtain ⟨first, rest, hfirst, rfl⟩ := Line.readFrom_append hfrom'
  obtain rfl : lines = first := Except.ok.inj (hfrom.symm.trans hfirst)
  obtain ⟨bound, hbound⟩ := exists_bind_append lines rest
  obtain ⟨places, hplaces⟩ := exists_variableAddresses_append lines rest asm.variableStart
  rw [hbound, hplaces, labelDefinitions_append] at hresolves'
  have htake := (List.forall₂_take_append _ _ _ hresolves'.flip).flip
  have hlines : longer.take (bind lines).length = final :=
    forall₂_unique hresolves htake fun line hline _ _ hafter hafter' =>
      hafter.eq_of_knows (fun _ hbyte => knows_of_valid hvalid hline hbyte) hafter'
  have hlength : (bind lines).length = source.length := by
    have hzip := (Line.readFrom_eq_ok.mp hfrom).length_eq
    have hsame := congrArg List.length (erased_bind lines)
    rw [List.length_zipIdx] at hzip
    rw [List.length_map, List.length_map] at hsame
    omega
  rw [hlength] at hlines
  have hcodes : (Program.mk final).codes <+: (Program.mk longer).codes := by
    rw [← hlines]
    exact (List.take_prefix _ longer).flatMap _
  exact ⟨hlines, hcodes, hcodes.map _, (hcodes.map _).map _⟩

/-- Alone, the first three lines leave `@end` without a line of machine code. In the longer source it is
bound to the load, and `$y` is a new variable; the store and the jump stay as they were. -/
theorem process_append_trailing : ∃ final longer,
    (standard 7).process ["STORE A [$x]", "JUMP @end", "@end"] = .ok final ∧
      (standard 7).process (["STORE A [$x]", "JUMP @end", "@end"] ++ ["", "LOAD [$y] A", "$x"]) =
        .ok longer ∧
      (∀ line ∈ final, line.label = none) ∧
      (∃ line, longer[4]? = some line ∧ line.label = some "@end") ∧
      longer.take 3 = final ∧ (Program.mk final).binary <+: (Program.mk longer).binary := by
  have hcheck : ((standard 7).process ["STORE A [$x]", "JUMP @end", "@end"]).toOption.any
      (fun final => ∀ line ∈ final, line.label = none) = true := by decide +kernel
  have hcheck' : ((standard 7).process
      (["STORE A [$x]", "JUMP @end", "@end"] ++ ["", "LOAD [$y] A", "$x"])).toOption.any
      (fun longer => longer[4]?.bind Line.label = some "@end") = true := by decide +kernel
  obtain ⟨final, hfinal, hnone⟩ := exists_ok_of_any hcheck
  obtain ⟨longer, hlonger, hbound⟩ := exists_ok_of_any hcheck'
  obtain ⟨htake, -, -, hbinary⟩ := process_append hfinal hlonger
  exact ⟨final, longer, hfinal, hlonger, of_decide_eq_true hnone,
    Option.bind_eq_some_iff.mp (of_decide_eq_true hbound), htake, hbinary⟩

end Assembler

end Microcomputer
