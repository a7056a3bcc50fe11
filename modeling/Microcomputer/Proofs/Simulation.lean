import Mathlib
import Microcomputer.Proofs.Acceptance
import Microcomputer.Proofs.Image
import Microcomputer.Proofs.Statement

/-!
# Assembled programs on the machine

* `constantValue` : the byte that a constant of a program stands for;
* `Line.Holds value line i args` : a line of an assembled program that is the instruction `i`, byte
  for byte;
* `Assembler.holds_of_process` : every line of machine code of an assembled program is an instruction;
* `Emulator.next_of_completes` : one instruction of the emulator is the cycles of the CPU up to the
  end of the instruction;
* `Emulator.Executes` : the machine has the effect of an instruction at some index;
* `Emulator.executes_source` : the machine executes every line of an assembled program as it is
  written.
-/

namespace Microcomputer

open Program Traversal

/-! ## Constants -/

def labelLine (lines : List Line) (name : String) : Nat :=
  lines.findIdx (·.definedLabel? == some name)

/-- The byte that a constant stands for in a program with its variables from `start` on: a label for
the machine code behind its definition, a variable for its place in the order of first appearance,
a number for itself modulo 256. -/
def constantValue (start : Int) (lines : List Line) (word : String) : UInt8 :=
  .ofInt <|
    if Word.isLabel word then (nextIndex lines (labelLine lines word) : Nat)
    else if Word.isVariable word then
      start + ((lines.flatMap Line.variableNames).eraseDups.idxOf word : Nat)
    else (Word.number? word).getD 0

theorem byteBits_value {value : Int} {bits : BitField} (h : byteBits value = .ok bits) :
    UInt8.ofNat bits.word.toNat = .ofInt value := by
  obtain ⟨-, rfl⟩ := byteBits_eq_ok.mp h
  have hmask : BitField.mask 8 = 255#64 := rfl
  have hand : ∀ n : Nat, n &&& 255 = n % 256 := fun n => Nat.and_two_pow_sub_one_eq_mod n 8
  have hnumber : ((value % 18446744073709551616).toNat % 256) % 256 = (value % 256).toNat := by omega
  rw [BitField.word, BitField.ofWord, hmask, BitVec.toNat_and, BitVec.toNat_and, BitVec.toNat_ofInt]
  exact congrArg UInt8.ofNat (by rw [BitVec.toNat_ofNat, hand, hand]; exact hnumber)

theorem lookup_addressesFrom {names : List String} (hnodup : names.Nodup) {name : String}
    (h : name ∈ names) (start : Int) :
    (addressesFrom start names).lookup name = some (start + (names.idxOf name : Nat)) := by
  apply lookup_of_mem
  · rwa [map_addressesFrom]
  · exact mem_addressesFrom.mpr ⟨_, List.getElem?_idxOf h, rfl⟩

theorem lookup_variableAddresses {lines : List Line} {name : String}
    (h : name ∈ lines.flatMap Line.variableNames) (start : Int) :
    (variableAddresses start lines).lookup name =
      some (start + ((lines.flatMap Line.variableNames).eraseDups.idxOf name : Nat)) := by
  rw [variableAddresses, variableNames_eq]
  exact lookup_addressesFrom (nodup_eraseDups _) (List.mem_eraseDups.mpr h) start

theorem getElem?_labelLine {lines : List Line} {name : String}
    (h : ∃ line ∈ lines, line.content = .label name) :
    ∃ line, lines[labelLine lines name]? = some line ∧ line.content = .label name := by
  have hexists : ∃ line ∈ lines, (line.definedLabel? == some name) = true := by
    obtain ⟨line, hline, hcontent⟩ := h
    refine ⟨line, hline, ?_⟩
    rw [Line.definedLabel?, hcontent]
    exact beq_self_eq_true _
  have hget := List.findIdx_getElem?_eq_getElem_of_exists hexists
  have hname := List.findIdx_of_getElem?_eq_some (p := fun l : Line => l.definedLabel? == some name) hget
  exact ⟨_, hget, Content.labelName?_eq_some.mp (beq_iff_eq.mp hname)⟩

theorem lookup_labelDefinitions {lines : List Line} (hindexed : Indexed lines)
    (hnodup : ((labelDefinitions 0 lines).map Prod.fst).Nodup) {name : String}
    (h : ∃ line ∈ lines, line.content = .label name) :
    (labelDefinitions 0 lines).lookup name = some (nextIndex lines (labelLine lines name)) := by
  obtain ⟨line, hline, hcontent⟩ := getElem?_labelLine h
  apply lookup_of_mem hnodup
  refine mem_labelDefinitions.mpr ⟨labelLine lines name, ?_, ?_⟩
  · rw [List.getElem?_map, hline, Option.map_some, hcontent]
  · rw [nextIndex_of_nil hindexed hline (by rw [Line.bytes, hcontent]; rfl), Nat.zero_add]

/-- What the constants of an assembled program have in memory. -/
theorem value_of_resolves {start : Int} {lines : List Line} (hindexed : Indexed lines)
    (hnodup : ((labelDefinitions 0 lines).map Prod.fst).Nodup) {word : String}
    {byte after : CodeByte}
    (hlabel : after.constantKind = .label → ∃ line ∈ lines, line.content = .label after.constant)
    (hplace : after.constantKind = .variable → after.constant ∈ lines.flatMap Line.variableNames)
    (hbyte : CodeByte.IsConstant word byte) {index : Nat}
    (hresolves : CodeByte.Resolves (labelDefinitions 0 lines) (variableAddresses start lines)
      { byte with index := index } after) :
    after.value = constantValue start lines word := by
  obtain ⟨bits, hbits, rfl⟩ := hresolves
  rw [constantValue]
  cases hbyte with
  | ofLabel h =>
    simp only [CodeByte.constantBits, CodeByte.ofConstant, if_true] at hbits
    have hlookup : (labelDefinitions 0 lines).lookup word = _ :=
      lookup_labelDefinitions hindexed hnodup (hlabel rfl)
    rw [hlookup, Option.getD_some] at hbits
    rw [if_pos h]
    exact byteBits_value hbits
  | ofVariable h =>
    simp only [CodeByte.constantBits, CodeByte.ofConstant, if_true] at hbits
    have hlookup : (variableAddresses start lines).lookup word = _ :=
      lookup_variableAddresses (hplace rfl) start
    rw [hlookup] at hbits
    rw [Word.isLabel_of_isVariable h, if_neg Bool.false_ne_true, if_pos h]
    exact byteBits_value hbits
  | @ofNumber n h hfits =>
    have hsigiled : ∀ sigil ∈ ['[', '@', '$'], Word.isSigiled sigil word.toList = false := by
      intro sigil hsigil
      by_contra hcon
      rw [Word.number?_of_isSigiled hsigil (Bool.not_eq_false _ ▸ hcon)] at h
      cases h
    simp only [CodeByte.constantBits, CodeByte.ofConstant, if_true] at hbits
    rw [Word.isLabel, hsigiled '@' (by decide), Word.isVariable, hsigiled '$' (by decide), h]
    exact byteBits_value hbits

/-! ## Lines of machine code -/

namespace Line

/-- A line that is an instruction with arguments, byte for byte. -/
structure Holds (value : String → UInt8) (line : Line) (i : Instruction) (args : List String) :
    Prop where
  words : Text.words (cleanText line.raw) = i.mnemonic :: args
  classes : List.Forall₂ (fun arg c => Argument.classify arg = .ok c) args i.signature
  bytes : ∃ first constants, line.bytes = first :: constants ∧
    Instruction.decode first.value = some i ∧
    List.Forall₂ (fun arg (byte : CodeByte) => byte.value = value (Word.stripped arg))
      (Encoding.constantArguments i.signature args) constants

theorem Holds.length_bytes {value : String → UInt8} {line : Line} {i : Instruction}
    {args : List String} (h : line.Holds value i args) : line.bytes.length = 1 + i.constants := by
  obtain ⟨first, constants, hbytes, -, hconstants⟩ := h.bytes
  rw [hbytes, List.length_cons, ← hconstants.length_eq,
    Instruction.length_constantArguments h.classes.length_eq, Nat.add_comm]
  rfl

theorem Holds.exists_writtenIn {value : String → UInt8} {line : Line} {i : Instruction}
    {args : List String} (h : line.Holds value i args) : ∃ k, i.WrittenIn value line.raw k := by
  have hcount := Instruction.length_constantArguments h.classes.length_eq
  have hle := i.constants_le_one
  rw [Instruction.constants, ← hcount] at hle
  simp only [Instruction.writtenIn_iff h.words h.classes, true_and]
  match hconstants : Encoding.constantArguments i.signature args with
  | [] => exact ⟨0, by simp⟩
  | [arg] => exact ⟨value (Word.stripped arg), by simp⟩
  | _ :: _ :: _ => simp [hconstants] at hle

theorem Holds.constant_byte {value : String → UInt8} {line : Line} {i : Instruction}
    {args : List String} (h : line.Holds value i args) {k : UInt8}
    (hwritten : i.WrittenIn value line.raw k) (hne : i.constants ≠ 0) :
    ∃ byte, line.bytes[1]? = some byte ∧ byte.value = k := by
  have hlength := h.length_bytes
  obtain ⟨-, hvalue⟩ := (Instruction.writtenIn_iff h.words h.classes).mp hwritten
  obtain ⟨first, constants, hbytes, -, hconstants⟩ := h.bytes
  rw [hbytes] at hlength ⊢
  cases constants with
  | nil =>
    rw [List.length_singleton] at hlength
    omega
  | cons byte rest =>
    obtain ⟨arg, hmem, hbyte⟩ := exists_of_mem_right hconstants (List.mem_cons_self ..)
    exact ⟨byte, rfl, hbyte.trans (hvalue arg hmem)⟩

theorem forall₂_numberBytes (bytes : List CodeByte) (index : Nat) :
    List.Forall₂ (fun byte (after : CodeByte) => ∃ n, after = { byte with index := n }) bytes
      (numberBytes index bytes) := by
  induction bytes generalizing index with
  | nil => exact .nil
  | cons byte rest ih => exact .cons ⟨index, rfl⟩ (ih (index + 1))

theorem holds_of_reads {start : Int} {lines : List Line} (hindexed : Indexed lines)
    (hnodup : ((labelDefinitions 0 lines).map Prod.fst).Nodup) {line : Line}
    (hlabel : ∀ byte ∈ line.bytes, byte.constantKind = .label →
      ∃ line ∈ lines, line.content = .label byte.constant)
    (hplace : ∀ byte ∈ line.bytes, byte.constantKind = .variable →
      byte.constant ∈ lines.flatMap variableNames)
    {bytes : List CodeByte} (hreads : Content.Reads line.raw (.code bytes)) {index : Nat}
    (hbytes : List.Forall₂ (CodeByte.Resolves (labelDefinitions 0 lines) (variableAddresses start lines))
      (numberBytes index bytes) line.bytes) :
    ∃ i args, line.Holds (constantValue start lines) i args := by
  cases hreads with
  | codeLine hop _ hparse =>
    obtain ⟨entry, hentry, rfl⟩ := List.mem_map.mp hop
    obtain ⟨args, hwords, hparsed⟩ := Operation.parseLine_eq_ok hparse
    obtain ⟨e, he, hclasses, constants, hconstants, rfl⟩ := Encoding.bytes_eq_ok hparsed
    obtain ⟨i, hmnemonic, hi⟩ := InstructionSet.implements_table entry hentry e he
    rw [hi.signature] at hclasses hconstants
    rw [← hmnemonic] at hwords
    refine ⟨i, args, hwords, hclasses, ?_⟩
    rw [numberBytes] at hbytes
    obtain ⟨first, rest, hfirst, hrest, hline⟩ := List.forall₂_cons_left_iff.mp hbytes
    refine ⟨first, rest, hline, ?_, ?_⟩
    · obtain ⟨bits, hbits, rfl⟩ := hfirst
      cases hbits
      exact hi.decode
    · have hresolved := forall₂_comp (forall₂_comp hconstants (forall₂_numberBytes constants _)) hrest
      obtain ⟨hlength, hzip⟩ := List.forall₂_iff_zip.mp hresolved
      refine List.forall₂_iff_zip.mpr ⟨hlength, fun {arg after} hmem => ?_⟩
      obtain ⟨_, ⟨byte, hbyte, n, rfl⟩, hafter⟩ := hzip hmem
      have hmem' : after ∈ line.bytes := hline ▸ List.mem_cons_of_mem _ (List.of_mem_zip hmem).2
      exact value_of_resolves hindexed hnodup (hlabel after hmem') (hplace after hmem')
        (CodeByte.isConstant_ofArgument hbyte) hafter

end Line

namespace Assembler

theorem raw_of_process {start : Int} {source : List String} {final : List Line}
    (h : (standard start).process source = .ok final) : final.map Line.raw = source := by
  obtain ⟨lines, hread, herased, -⟩ := exists_of_process h
  obtain ⟨-, hfrom, -⟩ := readChecked_eq_ok.mp hread
  have hraw : ∀ lines : List Line, (lines.map Line.erased).map Line.raw = lines.map Line.raw := by
    intro lines
    rw [List.map_map]
    rfl
  rw [← hraw final, herased, hraw, ← List.forall₂_eq_eq_eq, List.forall₂_map_left_iff]
  refine (Line.reads_of_readFrom hfrom).flip.imp ?_
  rintro line raw ⟨hline, -⟩
  exact hline

/-- Every line of machine code of an assembled program is the instruction written on it. -/
theorem holds_of_process {start : Int} {source : List String} {final : List Line}
    (h : (standard start).process source = .ok final) {i : Nat} {line : Line}
    (hline : final[i]? = some line) (hcode : line.content.isCode = true) :
    ∃ inst args, line.Holds (constantValue start final) inst args := by
  obtain ⟨lines, hread, herased, hresolves⟩ := exists_of_process h
  obtain ⟨-, hfrom, hvalid⟩ := readChecked_eq_ok.mp hread
  have hindexed := indexed_of_resolves herased hresolves
  have hnodup := nodup_labelDefinitions hvalid
  rw [← labelDefinitions_congr herased] at hnodup
  rw [← labelDefinitions_congr herased, ← variableAddresses_congr _ herased] at hresolves
  obtain ⟨old, hold, hsame, hbytes⟩ := bytes_of_resolves herased hresolves hline
  obtain ⟨raw, -, hraw, hreads⟩ := forall₂_getElem? (Line.reads_of_readFrom hfrom) hold
  have hcode' : old.content.isCode = true := by
    have hcodes := congrArg (fun l : Line => l.content.isCode) hsame
    simp only [Line.erased, Content.isCode_erased] at hcodes
    rw [hcodes, hcode]
  have hsameRaw : old.erased.raw = line.erased.raw := congrArg Line.raw hsame
  have hraw' : raw = line.raw := hraw.symm.trans hsameRaw
  have hmem := List.mem_of_getElem? hline
  cases hcontent : old.content with
  | code bytes =>
    rw [hcontent, hraw'] at hreads
    rw [Line.bytes, hcontent] at hbytes
    refine Line.holds_of_reads hindexed hnodup ?_ ?_ hreads hbytes
    · intro byte hbyte hkind
      obtain ⟨k, hk⟩ := exists_label_of_use hvalid herased hmem hbyte hkind
      rw [← labelAt_congr (erased_contents_congr herased)] at hk
      exact List.mem_map.mp (List.mem_of_getElem? hk)
    · intro byte hbyte hkind
      refine List.mem_flatMap.mpr ⟨line, hmem, List.mem_append_right _ ?_⟩
      exact List.mem_map_of_mem (List.mem_filter.mpr ⟨hbyte, beq_iff_eq.mpr hkind⟩)
  | _ =>
    rw [hcontent] at hcode'
    cases hcode'

end Assembler

/-! ## The emulator -/

theorem Cpu.verbose_tick (microcode : Microcode) (cpu : Cpu) :
    (cpu.tick microcode).1.verbose = cpu.verbose := by
  have hstart : cpu.startStep.verbose = cpu.verbose := by
    unfold startStep
    split <;> rfl
  unfold tick
  split
  · rfl
  · dsimp only
    split
    · exact hstart
    · split <;> exact hstart

namespace Emulator

theorem tick_eq {emu : Emulator} {cpu : Cpu} (h : emu.ready.cpu.tick emu.microcode = (cpu, none)) :
    emu.tick = ({ emu with cpu := cpu }, none) := by
  rw [tick, h]
  rfl

/-- The emulator goes on as long as the cycles of an instruction last. -/
theorem nextWithin_of_completes {microcode : Microcode} {n k : Nat} {cpu after : Cpu}
    (h : Cpu.Completes microcode n cpu after) {emu : Emulator} (hmicrocode : emu.microcode = microcode)
    (hcpu : emu.ready.cpu = cpu) (hn : n ≤ k) :
    emu.nextWithin k = ({ emu with cpu := after }, none) := by
  induction h generalizing emu k with
  | @last cpu after htick hend =>
    obtain ⟨k, rfl⟩ := Nat.exists_eq_add_of_le' hn
    rw [← hcpu, ← hmicrocode] at htick
    have hend' : (after.halted || after.step == 0) = true := by
      rcases hend with hend | hend
      · simp [hend]
      · simp [hend]
    rw [nextWithin, tick_eq htick]
    exact if_pos hend'
  | @more n cpu mid after htick hstep hhalted _ ih =>
    obtain ⟨k, rfl⟩ := Nat.exists_eq_add_of_le' hn
    rw [← hcpu, ← hmicrocode] at htick
    have hend : (mid.halted || mid.step == 0) = false := by simp [hhalted, hstep]
    have hverbose : mid.verbose = emu.verbose := by
      have hkept := Cpu.verbose_tick emu.microcode emu.ready.cpu
      rw [htick] at hkept
      exact hkept
    have hready : ({ emu with cpu := mid } : Emulator).ready.cpu = mid := by
      rw [ready, ← hverbose]
    rw [← Nat.add_assoc, nextWithin, tick_eq htick]
    exact (if_neg (by simp [hend])).trans (ih hmicrocode hready (Nat.le_add_left n k))

theorem next_of_completes {emu : Emulator} {n : Nat} {after : Cpu}
    (h : Cpu.Completes emu.microcode n emu.ready.cpu after) (hn : n ≤ 8) :
    emu.next = ({ emu with cpu := after }, none) :=
  nextWithin_of_completes h rfl rfl (Nat.le_succ_of_le hn)

theorem exists_load {lines : List Line} (h : totalBytes lines ≤ 255) (emu : Emulator) :
    ∃ loaded, emu.load ⟨lines⟩ = .ok loaded ∧ loaded.microcode = emu.microcode ∧
      loaded.cpu.program = .ofBytes (Program.mk lines).binary := by
  have hfits : ¬ memorySize < (Program.mk lines).binary.length := by
    rw [length_binary, memorySize]
    omega
  exact ⟨_, if_neg hfits, rfl, rfl⟩

/-- The machine with an instruction at `index`: from every state between two instructions that has PC
there and the program in memory, `next` has the effect of the instruction with constant `k`. Unless
it jumps, PC is at `behind` then. -/
def Executes (emu : Emulator) (i : Instruction) (k : UInt8) (index behind : Nat) : Prop :=
  ∀ cpu : Cpu, cpu.halted = false → cpu.step = 0 → cpu.pc.toNat = index → cpu.flags.toNat < 16 →
    cpu.program = emu.cpu.program →
    ∃ after : Cpu, ({ emu with cpu := cpu } : Emulator).next = ({ emu with cpu := after }, none) ∧
      after.step = 0 ∧ after.flags.toNat < 16 ∧ after.state = i.execute k cpu.state ∧
      (i.jumps cpu.state = false → after.pc.toNat = behind)

/-- A line in memory is executed as the instruction that it is, with the value of its constant. -/
theorem executes_of_holds {emu : Emulator} (hruns : emu.microcode.Runs InstructionSet.encodings)
    {lines : List Line} (hindexed : Indexed lines) (hbytes : totalBytes lines ≤ 255)
    (hprogram : emu.cpu.program = .ofBytes (Program.mk lines).binary) {n : Nat} {line : Line}
    (hline : lines[n]? = some line) {value : String → UInt8} {i : Instruction} {args : List String}
    (hholds : line.Holds value i args) {k : UInt8} (hwritten : i.WrittenIn value line.raw k)
    {first : CodeByte} (hfirst : line.bytes.head? = some first) :
    emu.Executes i k first.index (nextIndex lines n) := by
  intro cpu hhalted hstep hpc hflags hmemory
  have hlength := hholds.length_bytes
  obtain ⟨first', constants, hline', hdecode, -⟩ := hholds.bytes
  have hhead : line.bytes[0]? = some first' := by rw [hline']; rfl
  rw [hline'] at hfirst
  cases hfirst
  have hindex := hindexed n line hline 0 first hhead
  have hnext : nextIndex lines n = first.index + 1 + i.constants := by
    rw [nextIndex_eq hindexed, totalBytes_take_succ hline, hlength, hindex, Nat.add_zero, Nat.add_assoc]
  have hfits : first.index + 1 + i.constants ≤ 255 := by
    have hle := totalBytes_take_le lines (n + 1)
    rw [← nextIndex_eq hindexed, hnext] at hle
    omega
  have hpc' : (cpu.pc + 1).toNat = first.index + 1 := by
    rw [UInt8.toNat_add, hpc, UInt8.toNat_one]
    omega
  -- the bytes of the line stand in memory from PC on
  have hread : cpu.program.read cpu.pc = first.value := by
    rw [hmemory, hprogram]
    exact hindexed.read_binary hline hhead hpc
  have hconstant : i.constants ≠ 0 → cpu.program.read (cpu.pc + 1) = k := by
    intro hne
    obtain ⟨byte, hbyte, rfl⟩ := hholds.constant_byte hwritten hne
    rw [hmemory, hprogram]
    refine hindexed.read_binary hline hbyte ?_
    rw [hpc', hindexed n line hline 1 byte hbyte, hindex]
  obtain ⟨m, hm, after, hcompletes, hstep', hflags', hstate⟩ :=
    Cpu.exists_completes_execute hruns ({ emu with cpu := cpu } : Emulator).ready.cpu hhalted hstep hflags
  have hinstruction : ({ emu with cpu := cpu } : Emulator).ready.cpu.instruction = i := by
    show (Instruction.decode (cpu.program.read cpu.pc)).getD .noop = i
    rw [hread, hdecode]
    rfl
  rw [hinstruction] at hstate
  have hstate' : after.state = i.execute k cpu.state := hstate.trans (Instruction.execute_congr hconstant _)
  refine ⟨after, next_of_completes hcompletes hm, hstep', hflags', hstate', fun hjumps => ?_⟩
  have hafter : after.state.pc = cpu.pc + 1 + .ofNat i.constants := by
    rw [hstate', Instruction.pc_execute hdecode hjumps]
    rfl
  show after.state.pc.toNat = _
  rw [hafter, hnext, UInt8.toNat_add, hpc', UInt8.toNat_ofNat']
  omega

/-- The machine executes every assembled program as it is written. The program can be loaded, and
every line of machine code in it writes an instruction. From any state between two instructions with
PC at the line, one instruction of the emulator has the effect of what the line writes and leads to
the machine code behind it, unless it jumps. -/
theorem executes_source {start : Int} {source : List String} {final : List Line}
    (h : (Assembler.standard start).process source = .ok final) :
    final.map Line.raw = source ∧ ∃ microcode loaded, Microcode.standard = .ok microcode ∧
      ({ microcode := microcode } : Emulator).load ⟨final⟩ = .ok loaded ∧
      ∀ n line, final[n]? = some line → line.content.isCode = true →
        ∃ first rest, line.bytes = first :: rest ∧
          (∃ i k, Instruction.WrittenIn (constantValue start final) line.raw i k) ∧
          ∀ i k, Instruction.WrittenIn (constantValue start final) line.raw i k →
            loaded.Executes i k first.index (nextIndex final n) := by
  obtain ⟨lines, hread, herased, hresolves⟩ := Assembler.exists_of_process h
  obtain ⟨-, -, hvalid⟩ := Assembler.readChecked_eq_ok.mp hread
  have hindexed := indexed_of_resolves herased hresolves
  have hbytes : totalBytes final ≤ 255 := by
    rw [totalBytes_congr herased]
    exact Assembler.totalBytes_le hvalid
  obtain ⟨microcode, hstandard, hruns⟩ := Microcode.exists_standard
  obtain ⟨loaded, hload, hmicrocode, hprogram⟩ :=
    exists_load hbytes ({ microcode := microcode } : Emulator)
  have hruns' : loaded.microcode.Runs InstructionSet.encodings := by
    rw [hmicrocode]
    exact hruns
  refine ⟨Assembler.raw_of_process h, microcode, loaded, hstandard, hload, ?_⟩
  intro n line hline hcode
  obtain ⟨i, args, hholds⟩ := Assembler.holds_of_process h hline hcode
  obtain ⟨first, rest, hfirst, -⟩ := hholds.bytes
  obtain ⟨k, hk⟩ := hholds.exists_writtenIn
  refine ⟨first, rest, hfirst, ⟨i, k, hk⟩, ?_⟩
  intro j l hwritten
  obtain ⟨rfl, -⟩ := (Instruction.writtenIn_iff hholds.words hholds.classes).mp hwritten
  exact executes_of_holds hruns' hindexed hbytes hprogram hline hholds hwritten (by rw [hfirst]; rfl)

/-- The variable stands for address 250, and the label for the two bytes before it. -/
theorem executes_store_jump : ∃ final microcode loaded,
    (Assembler.standard 250).process ["STORE ACC [$x] // keep", "@loop", "JUMP @loop"] = .ok final ∧
      Microcode.standard = .ok microcode ∧
      ({ microcode := microcode } : Emulator).load ⟨final⟩ = .ok loaded ∧
      (∃ after : Cpu, ({ loaded with cpu := { acc := 7, program := loaded.cpu.program } } : Emulator).next =
        ({ loaded with cpu := after }, none) ∧ after.data.read 250 = 7 ∧ after.pc.toNat = 2) ∧
      loaded.Executes .jump 2 2 4 := by
  have hcheck : ((Assembler.standard 250).process
      ["STORE ACC [$x] // keep", "@loop", "JUMP @loop"]).toOption.any (fun final =>
        final[0]?.any (fun line : Line => line.raw = "STORE ACC [$x] // keep" ∧ line.content.isCode = true ∧
          line.bytes.map CodeByte.index = [0, 1]) ∧
        final[2]?.any (fun line : Line => line.raw = "JUMP @loop" ∧ line.content.isCode = true ∧
          line.bytes.map CodeByte.index = [2, 3]) ∧
        constantValue 250 final "$x" = 250 ∧ constantValue 250 final "@loop" = 2 ∧
        nextIndex final 0 = 2 ∧ nextIndex final 2 = 4) = true := by decide +kernel
  obtain ⟨final, hfinal, hcheck⟩ := exists_ok_of_any hcheck
  obtain ⟨hstore, hjump, hx, hloop, hnext, hnext'⟩ := of_decide_eq_true hcheck
  obtain ⟨store, hline, hstore⟩ := (Option.any_eq_true _ _).mp hstore
  obtain ⟨jump, hline', hjump⟩ := (Option.any_eq_true _ _).mp hjump
  obtain ⟨hraw, hcode, hindex⟩ := of_decide_eq_true hstore
  obtain ⟨hraw', hcode', hindex'⟩ := of_decide_eq_true hjump
  obtain ⟨-, microcode, loaded, hstandard, hload, hall⟩ := executes_source hfinal
  refine ⟨final, microcode, loaded, hfinal, hstandard, hload, ?_, ?_⟩
  · obtain ⟨first, rest, hbytes, -, hexecutes⟩ := hall 0 store hline hcode
    rw [hbytes, List.map_cons, List.cons.injEq] at hindex
    rw [hindex.1, hnext] at hexecutes
    have hwritten : Instruction.WrittenIn (constantValue 250 final) store.raw (.store .acc .constant) 250 := by
      refine ⟨["ACC", "[$x]"], by rw [hraw]; decide +kernel, ?_⟩
      exact .cons (.plainRegister .acc) (.cons (.indexConstant (by decide +kernel) hx) .nil)
    obtain ⟨after, hafter, -, -, hstate, hpc⟩ := hexecutes _ _ hwritten
      { acc := 7, program := loaded.cpu.program } rfl rfl rfl (Nat.zero_lt_succ 15) rfl
    refine ⟨after, hafter, ?_, hpc rfl⟩
    show after.state.data.read 250 = 7
    rw [hstate]
    exact (by decide +kernel : (Memory.zero.write 250 7).read 250 = 7)
  · obtain ⟨first, rest, hbytes, -, hexecutes⟩ := hall 2 jump hline' hcode'
    rw [hbytes, List.map_cons, List.cons.injEq] at hindex'
    rw [hindex'.1, hnext'] at hexecutes
    refine hexecutes _ _ ⟨["@loop"], by rw [hraw']; decide +kernel, ?_⟩
    exact .cons (.plainConstant (by decide +kernel) hloop) .nil

end Emulator

end Microcomputer
