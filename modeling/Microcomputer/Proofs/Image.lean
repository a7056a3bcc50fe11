import Mathlib
import Microcomputer.Machine.Emulator
import Microcomputer.Proofs.Labels

/-!
# Assembled programs in memory

* `Assembler.bytes_of_resolves` : the bytes of every line, in terms of the line that was read;
* `Program.Indexed` : every byte has the number of bytes before it as its index;
* `Program.nextIndex` : the index of the first byte behind a line;
* `Program.Indexed.read_binary` : a program in memory has every byte at its index.
-/

namespace Microcomputer

open Program Traversal

/-! ## Counting bytes -/

theorem totalBytes_append (lines lines' : List Line) :
    totalBytes (lines ++ lines') = totalBytes lines + totalBytes lines' := by
  rw [totalBytes, totalBytes, totalBytes, List.flatMap_append, List.length_append]

theorem totalBytes_take_succ {lines : List Line} {i : Nat} {line : Line} (h : lines[i]? = some line) :
    totalBytes (lines.take (i + 1)) = totalBytes (lines.take i) + line.bytes.length := by
  rw [List.take_add_one, h, totalBytes_append, Option.toList_some, totalBytes_cons]
  rfl

theorem totalBytes_take_le (lines : List Line) (i : Nat) :
    totalBytes (lines.take i) ≤ totalBytes lines := by
  have hsplit := totalBytes_append (lines.take i) (lines.drop i)
  rw [List.take_append_drop] at hsplit
  omega

theorem totalBytes_congr {lines lines' : List Line}
    (h : lines'.map Line.erased = lines.map Line.erased) : totalBytes lines' = totalBytes lines := by
  rw [← totalBytes_erased lines', h, totalBytes_erased]

/-! ## Bytes of lines -/

theorem Assembler.bytes_getElem?_bind (lines : List Line) (i : Nat) :
    (bind lines)[i]?.map Line.bytes = lines[i]?.map fun line =>
      Line.numberBytes (totalBytes (lines.take i)) line.bytes := by
  rw [bind, Line.getElem?_bindLabels, Line.getElem?_indexFrom, Option.map_map, Option.map_map]
  congr 1
  funext line
  have hbytes := Line.bytes_withBytes (Line.length_numberBytes line.bytes (totalBytes (lines.take i)))
  rw [Nat.zero_add, Function.comp_apply, Function.comp_apply]
  split
  · exact hbytes
  · exact hbytes

/-- A line of an assembled program has the bytes that were read, numbered from the number of bytes
before the line and with their constants resolved. -/
theorem Assembler.bytes_of_resolves {labels : List (String × Nat)} {places : List (String × Int)}
    {lines final : List Line} (herased : final.map Line.erased = lines.map Line.erased)
    (h : List.Forall₂ (Line.Resolves labels places) (bind lines) final) {i : Nat} {line : Line}
    (hline : final[i]? = some line) :
    ∃ old, lines[i]? = some old ∧ old.erased = line.erased ∧
      List.Forall₂ (CodeByte.Resolves labels places)
        (Line.numberBytes (totalBytes (final.take i)) old.bytes) line.bytes := by
  obtain ⟨bound, hbound, hresolves⟩ := forall₂_getElem? h hline
  have hbytes := bytes_getElem?_bind lines i
  rw [hbound, Option.map_some] at hbytes
  obtain ⟨old, hold, hnumbered⟩ := Option.map_eq_some_iff.mp hbytes.symm
  have hget := congrArg (fun ls : List Line => ls[i]?) herased
  simp only [List.getElem?_map, hline, hold, Option.map_some, Option.some.injEq] at hget
  have htake : totalBytes (final.take i) = totalBytes (lines.take i) := by
    apply totalBytes_congr
    rw [List.map_take, List.map_take, herased]
  refine ⟨old, hold, hget.symm, ?_⟩
  rw [htake, hnumbered]
  exact hresolves.bytes_forall₂

namespace Program

/-- Every byte has the number of bytes before it as its index. -/
def Indexed (lines : List Line) : Prop :=
  ∀ i line, lines[i]? = some line → ∀ k byte, line.bytes[k]? = some byte →
    byte.index = totalBytes (lines.take i) + k

theorem indexed_of_resolves {labels : List (String × Nat)} {places : List (String × Int)}
    {lines final : List Line} (herased : final.map Line.erased = lines.map Line.erased)
    (h : List.Forall₂ (Line.Resolves labels places) (Assembler.bind lines) final) : Indexed final := by
  intro i line hline k byte hbyte
  obtain ⟨old, -, -, hbytes⟩ := Assembler.bytes_of_resolves herased h hline
  obtain ⟨numbered, hnumbered, bits, -, rfl⟩ := forall₂_getElem? hbytes hbyte
  rw [Line.getElem?_numberBytes] at hnumbered
  obtain ⟨oldByte, -, rfl⟩ := Option.map_eq_some_iff.mp hnumbered
  rfl

/-! ## The byte behind a line -/

/-- The index of the first byte of machine code behind line `i`; the number of all bytes if there is
none. -/
def nextIndex (lines : List Line) (i : Nat) : Nat :=
  ((lines.drop (i + 1)).findSome? (·.bytes.head?)).elim (totalBytes lines) CodeByte.index

theorem totalBytes_eq_zero {lines : List Line} (h : ∀ line ∈ lines, line.bytes.head? = none) :
    totalBytes lines = 0 := by
  rw [totalBytes, List.length_eq_zero_iff, List.flatMap_eq_nil_iff]
  exact fun line hline => List.head?_eq_none_iff.mp (h line hline)

theorem Indexed.index_head {before rest : List Line} {line : Line} {byte : CodeByte}
    (h : Indexed (before ++ line :: rest)) (hbyte : line.bytes.head? = some byte) :
    byte.index = totalBytes before := by
  have hget : (before ++ line :: rest)[before.length]? = some line := by
    rw [List.getElem?_append_right (Nat.le_refl _), Nat.sub_self]
    rfl
  have hindex := h _ line hget 0 byte (by rwa [← List.head?_eq_getElem?])
  rwa [List.take_left, Nat.add_zero] at hindex

theorem nextIndex_eq {lines : List Line} (h : Indexed lines) (i : Nat) :
    nextIndex lines i = totalBytes (lines.take (i + 1)) := by
  have hsplit := totalBytes_append (lines.take (i + 1)) (lines.drop (i + 1))
  rw [List.take_append_drop] at hsplit
  unfold nextIndex
  cases hfind : (lines.drop (i + 1)).findSome? (·.bytes.head?) with
  | none =>
    have hzero := totalBytes_eq_zero (List.findSome?_eq_none_iff.mp hfind)
    rw [Option.elim_none]
    omega
  | some byte =>
    obtain ⟨between, line, rest, hdrop, hbyte, hbetween⟩ := List.findSome?_eq_some_iff.mp hfind
    rw [← List.take_append_drop (i + 1) lines, hdrop, ← List.append_assoc] at h
    rw [Option.elim_some, h.index_head hbyte, totalBytes_append, totalBytes_eq_zero hbetween]
    rfl

theorem nextIndex_of_nil {lines : List Line} (h : Indexed lines) {i : Nat} {line : Line}
    (hline : lines[i]? = some line) (hbytes : line.bytes = []) :
    nextIndex lines i = totalBytes (lines.take i) := by
  rw [nextIndex_eq h, totalBytes_take_succ hline, hbytes]
  rfl

end Program

/-! ## Memory -/

def CodeByte.value (byte : CodeByte) : UInt8 := .ofNat byte.bits.word.toNat

theorem Memory.read_ofBytes (bytes : List UInt8) (address : UInt8) :
    (Memory.ofBytes bytes).read address = bytes[address.toNat]?.getD 0 := by
  rw [Memory.read, Memory.ofBytes, Vector.get_ofFn]

namespace Program

theorem length_binary (lines : List Line) : (Program.mk lines).binary.length = totalBytes lines := by
  rw [binary, List.length_map, machineCode, List.length_map]
  rfl

theorem getElem?_codes {lines : List Line} {i k : Nat} {line : Line} {byte : CodeByte}
    (hline : lines[i]? = some line) (hbyte : line.bytes[k]? = some byte) :
    (Program.mk lines).codes[totalBytes (lines.take i) + k]? = some byte := by
  obtain ⟨hi, rfl⟩ := List.getElem?_eq_some_iff.mp hline
  obtain ⟨hk, -⟩ := List.getElem?_eq_some_iff.mp hbyte
  have hsplit : lines = lines.take i ++ lines[i] :: lines.drop (i + 1) := by
    rw [← List.drop_eq_getElem_cons hi, List.take_append_drop]
  have hcodes : (Program.mk lines).codes = (lines.take i).flatMap Line.bytes ++
      (lines[i].bytes ++ (lines.drop (i + 1)).flatMap Line.bytes) := by
    rw [← List.flatMap_cons, ← List.flatMap_append, ← hsplit]
    rfl
  rw [hcodes, totalBytes, List.getElem?_append_right (Nat.le_add_right _ _), Nat.add_sub_cancel_left,
    List.getElem?_append_left hk, hbyte]

/-- A program in memory has every byte at its index. -/
theorem Indexed.read_binary {lines : List Line} (h : Indexed lines) {i k : Nat} {line : Line}
    {byte : CodeByte} (hline : lines[i]? = some line) (hbyte : line.bytes[k]? = some byte)
    {address : UInt8} (haddress : address.toNat = byte.index) :
    (Memory.ofBytes (Program.mk lines).binary).read address = byte.value := by
  rw [Memory.read_ofBytes, haddress, h i line hline k byte hbyte, binary, machineCode,
    List.getElem?_map, List.getElem?_map, getElem?_codes hline hbyte]
  rfl

end Program

end Microcomputer
