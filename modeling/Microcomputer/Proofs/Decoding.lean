import Mathlib
import Microcomputer.Proofs.Views

/-!
# Reading machine code back

The instruction bytes of the instruction set differ, and each tells how many constants follow it. So
machine code falls into instructions in one way only, although a constant may look like any
instruction byte.

* `InstructionSet.decode?` : the operation and the encoding of an instruction byte;
* `disassemble` : the instructions of machine code;
* `Line.Decodes` : what a line of machine code says;
* `Assembler.disassemble_binary` : what is read off the machine code of an assembled program is what its
  lines say;
* `Assembler.decodes_of_process` : machine code determines the lines of the source that it was assembled
  from.
-/

namespace Microcomputer

open Program Traversal

/-! ## Instruction bytes -/

namespace InstructionSet

/-- The operation and the encoding that an instruction byte belongs to. -/
def decode? (byte : UInt8) : Option (String × Encoding) := named.find? (·.2.byte == byte)

theorem decode?_byte {mnemonic : String} {e : Encoding} (h : (mnemonic, e) ∈ named) :
    decode? e.byte = some (mnemonic, e) := by
  cases hdecode : decode? e.byte with
  | none => exact absurd (List.find?_eq_none.mp hdecode _ h) (by simp)
  | some other =>
    have hbyte : other.2.byte = e.byte := by simpa using List.find?_some hdecode
    rw [eq_of_byte_eq (List.mem_of_find?_eq_some hdecode) h hbyte]

theorem constants_le_one : ∀ e ∈ encodings, e.signature.countP Argument.isConstant ≤ 1 := by
  decide +kernel

end InstructionSet

/-! ## Machine code -/

structure Decoded where
  mnemonic : String
  signature : Signature
  constants : List UInt8
deriving DecidableEq, Repr

/-- The instructions of machine code; none if a byte at the place of an instruction byte is not one. -/
def disassemble : List UInt8 → Option (List Decoded)
  | [] => some []
  | byte :: rest =>
    match InstructionSet.decode? byte with
    | none => none
    | some (mnemonic, e) =>
      let count := e.signature.countP Argument.isConstant
      (disassemble (rest.drop count)).map (⟨mnemonic, e.signature, rest.take count⟩ :: ·)
termination_by bytes => bytes.length
decreasing_by
  rw [List.length_drop, List.length_cons]
  omega

theorem disassemble_append {mnemonic : String} {e : Encoding}
    (h : (mnemonic, e) ∈ InstructionSet.named) {constants : List UInt8}
    (hlength : constants.length = e.signature.countP Argument.isConstant) (rest : List UInt8) :
    disassemble (e.byte :: constants ++ rest) =
      (disassemble rest).map (⟨mnemonic, e.signature, constants⟩ :: ·) := by
  rw [List.cons_append, disassemble, InstructionSet.decode?_byte h]
  simp only [← hlength, List.drop_left, List.take_left]

namespace Line

/-- What a line of machine code says: the mnemonic of an operation, the signature of the operation that
the words behind it have, and the values of the constant bytes, which follow the instruction byte. -/
structure Decodes (line : Line) (d : Decoded) : Prop where
  operation : ∃ op ∈ Operation.all, op.mnemonic = d.mnemonic ∧
    ∃ signatures, op.signatures = .ok signatures ∧ d.signature ∈ signatures
  words : ∃ args, Text.words line.clean = d.mnemonic :: args ∧
    List.Forall₂ (fun arg c => Argument.classify arg = .ok c) args d.signature
  bytes : ∃ first constants, line.bytes = first :: constants ∧ first.kind = .instruction ∧
    (∀ byte ∈ constants, byte.kind = .constant) ∧ constants.map CodeByte.value = d.constants

theorem Encoded.decodes {line : Line} {mnemonic : String} {e : Encoding}
    (h : line.Encoded mnemonic e) : ∃ constants : List UInt8,
      line.Decodes ⟨mnemonic, e.signature, constants⟩ ∧
      line.bytes.map CodeByte.value = e.byte :: constants ∧
      constants.length = e.signature.countP Argument.isConstant := by
  obtain ⟨first, constants, hbytes, hkind, hfirst, hlength, hconstants⟩ := h.bytes
  obtain ⟨entry, hentry, hmnemonic, he⟩ := InstructionSet.mem_named.mp h.listed
  refine ⟨constants.map CodeByte.value, ⟨?_, h.words, ?_⟩, ?_, by rw [List.length_map, hlength]⟩
  · exact ⟨_, List.mem_map_of_mem hentry, hmnemonic, _, rfl, List.mem_map_of_mem he⟩
  · exact ⟨first, constants, hbytes, hkind, fun byte hbyte => (hconstants byte hbyte).1, rfl⟩
  · rw [hbytes, List.map_cons, CodeByte.value, hfirst]
    rfl

end Line

theorem disassemble_lines {lines : List Line} (h : ∀ line ∈ lines, ∃ mnemonic e, line.Encoded mnemonic e) :
    ∃ ds, disassemble (lines.flatMap fun line => line.bytes.map CodeByte.value) = some ds ∧
      List.Forall₂ Line.Decodes lines ds := by
  induction lines with
  | nil => exact ⟨[], by rw [List.flatMap_nil, disassemble], .nil⟩
  | cons line rest ih =>
    obtain ⟨⟨mnemonic, e, hline⟩, hrest⟩ := List.forall_mem_cons.mp h
    obtain ⟨constants, hdecodes, hbytes, hlength⟩ := hline.decodes
    obtain ⟨ds, hds, hall⟩ := ih hrest
    refine ⟨⟨mnemonic, e.signature, constants⟩ :: ds, ?_, .cons hdecodes hall⟩
    rw [List.flatMap_cons, hbytes, disassemble_append hline.listed hlength, hds]
    rfl

namespace Assembler

/-- What is read off the machine code of an assembled program is what its lines say. -/
theorem disassemble_binary {start : Int} {source : List String} {final : List Line}
    (h : (standard start).process source = .ok final) :
    ∃ ds, disassemble (Program.mk final).binary = some ds ∧
      List.Forall₂ Line.Decodes (final.filter fun line => line.content.isCode) ds := by
  have hbinary : (Program.mk final).binary =
      (final.filter fun line => line.content.isCode).flatMap fun line =>
        line.bytes.map CodeByte.value := by
    unfold binary machineCode
    rw [List.map_map, codes_eq_filter, List.map_flatMap]
    rfl
  rw [hbinary]
  refine disassemble_lines fun line hline => ?_
  obtain ⟨hmem, hcode⟩ := List.mem_filter.mp hline
  exact encoded_of_process h hmem hcode

/-- Two assembled programs have the lines of their sources. With the same machine code they have lines of
machine code that say the same. One instruction byte is enough to tell the operation, its operands and how
many constants follow, which is one at most. -/
theorem decodes_of_process {start start' : Int} {source source' : List String}
    {final final' : List Line} (h : (standard start).process source = .ok final)
    (h' : (standard start').process source' = .ok final') :
    final.map Line.raw = source ∧ final'.map Line.raw = source' ∧
    ((Program.mk final).binary = (Program.mk final').binary →
      List.Forall₂ (fun line line' => ∃ d, line.Decodes d ∧ line'.Decodes d)
        (final.filter fun line => line.content.isCode)
        (final'.filter fun line => line.content.isCode)) ∧
    ∀ line ∈ final, line.content.isCode = true → ∀ line' ∈ final', line'.content.isCode = true →
      (line.bytes.map CodeByte.value).head? = (line'.bytes.map CodeByte.value).head? →
      ∃ d d', line.Decodes d ∧ line'.Decodes d' ∧ d.mnemonic = d'.mnemonic ∧
        d.signature = d'.signature ∧ d.constants.length = d'.constants.length ∧
        d.constants.length ≤ 1 := by
  refine ⟨raw_of_process h, raw_of_process h', ?_, ?_⟩
  · intro hbinary
    obtain ⟨ds, hds, hlines⟩ := disassemble_binary h
    obtain ⟨ds', hds', hlines'⟩ := disassemble_binary h'
    rw [hbinary, hds', Option.some.injEq] at hds
    subst hds
    exact forall₂_comp hlines hlines'.flip
  · intro line hmem hcode line' hmem' hcode' hfirst
    obtain ⟨mnemonic, e, hencoded⟩ := encoded_of_process h hmem hcode
    obtain ⟨mnemonic', e', hencoded'⟩ := encoded_of_process h' hmem' hcode'
    obtain ⟨constants, hdecodes, hbytes, hlength⟩ := hencoded.decodes
    obtain ⟨constants', hdecodes', hbytes', hlength'⟩ := hencoded'.decodes
    rw [hbytes, hbytes', List.head?_cons, List.head?_cons, Option.some.injEq] at hfirst
    have hsame := InstructionSet.eq_of_byte_eq hencoded.listed hencoded'.listed hfirst
    rw [Prod.mk.injEq] at hsame
    obtain ⟨rfl, rfl⟩ := hsame
    have hle := InstructionSet.constants_le_one e (InstructionSet.mem_encodings_of_named hencoded.listed)
    exact ⟨_, _, hdecodes, hdecodes', rfl, rfl, hlength.trans hlength'.symm, hlength.trans_le hle⟩

/-- The numbers stand where the other program has a variable and a label. -/
theorem decodes_store_jump : ∃ final final' : List Line,
    (standard 250).process ["STORE ACC [$x] // keep", "@loop", "JUMP @loop"] = .ok final ∧
      (standard 0).process ["STORE ACC [250]", "JUMP 2"] = .ok final' ∧
      final.map Line.raw = ["STORE ACC [$x] // keep", "@loop", "JUMP @loop"] ∧
      final'.map Line.raw = ["STORE ACC [250]", "JUMP 2"] ∧
      (Program.mk final).binary ≠ [] ∧ (Program.mk final).binary = (Program.mk final').binary ∧
      List.Forall₂ (fun line line' => ∃ d, line.Decodes d ∧ line'.Decodes d)
        (final.filter fun line => line.content.isCode)
        (final'.filter fun line => line.content.isCode) := by
  have hcheck : ((standard 250).process ["STORE ACC [$x] // keep", "@loop", "JUMP @loop"]).toOption.any
      (fun final => (Program.mk final).binary = [134, 250, 248, 2]) = true := by decide +kernel
  have hcheck' : ((standard 0).process ["STORE ACC [250]", "JUMP 2"]).toOption.any
      (fun final => (Program.mk final).binary = [134, 250, 248, 2]) = true := by decide +kernel
  obtain ⟨final, hfinal, hbinary⟩ := exists_ok_of_any hcheck
  obtain ⟨final', hfinal', hbinary'⟩ := exists_ok_of_any hcheck'
  have hbytes := of_decide_eq_true hbinary
  have hsame := hbytes.trans (of_decide_eq_true hbinary').symm
  have hne : (Program.mk final).binary ≠ [] := by
    rw [hbytes]
    exact List.cons_ne_nil _ _
  obtain ⟨hraw, hraw', hlines, -⟩ := decodes_of_process hfinal hfinal'
  exact ⟨final, final', hfinal, hfinal', hraw, hraw', hne, hsame, hlines hsame⟩

end Assembler

end Microcomputer
