import Mathlib
import Microcomputer.Proofs.Instruction
import Microcomputer.Proofs.Sequencer

/-!
# The microcode implements the instruction set

* `Encoding.Implements e i` : the byte and the signature of `e` are those of the instruction `i`, and
  the microprograms of `e` have the effect of `i`;
* `InstructionSet.implements_table` : every encoding of the instruction set implements an instruction
  with the mnemonic of its operation;
* `Cpu.exists_completes_execute` : the cycles of any instruction byte have its effect.
-/

namespace Microcomputer

open Cpu

namespace Cpu

@[simp] theorem state_get (cpu : Cpu) (r : Register) : cpu.state.get r = cpu.get r := by
  cases r <;> rfl

@[simp] theorem state_put (cpu : Cpu) (r : Register) (value : UInt8) :
    (cpu.put r value).state = cpu.state.put r value := by
  cases r <;> rfl

end Cpu

structure Encoding.Implements (e : Encoding) (i : Instruction) : Prop where
  decode : Instruction.decode e.byte = some i
  signature : e.signature = i.signature
  /-- Whatever the flags are, one of the microprograms has the effect of the instruction. -/
  follows : ∀ cpu : Cpu, ∃ p ∈ e.code, Microprogram.Holds p.conditions cpu.flags.toNat ∧
    ∃ after, Follows p.steps cpu after ∧ after.state = i.perform (cpu.program.read cpu.pc) cpu.state

theorem Operand.mem_all (x : Operand) : x ∈ all := by
  cases x with
  | register r => cases r <;> decide
  | _ => decide

namespace InstructionSet

/-- The instruction that the fields of an opcode decode to. -/
def decoded (group : Group) (source dest : Nat) : Option Instruction :=
  Instruction.decode (UInt8.ofNat (opcode group source dest).word.toNat)

theorem decoded_eq {group : Group} (hgroup : group ∈ [.copy, .load, .store]) (source dest : Operand) :
    decoded group source.code dest.code = Instruction.decodeFields group source dest := by
  have hall : ∀ group ∈ [Group.copy, .load, .store], ∀ source ∈ Operand.all, ∀ dest ∈ Operand.all,
      decoded group source.code dest.code = Instruction.decodeFields group source dest := by
    decide +kernel
  exact hall group hgroup source (Operand.mem_all source) dest (Operand.mem_all dest)

theorem decoded_alu (f : AluFunction) (x : Operand) :
    decoded .alu f.code x.code = Instruction.decodeAlu f x := by
  have hall : ∀ f ∈ AluFunction.all, ∀ x ∈ Operand.all,
      decoded .alu f.code x.code = Instruction.decodeAlu f x := by decide +kernel
  exact hall f (by cases f <;> decide) x (Operand.mem_all x)

theorem implements_plain {signature : Signature} {group : Group} {source dest : Nat}
    {steps : List (List Control)} {i : Instruction} (hdecoded : decoded group source dest = some i)
    (hsignature : signature = i.signature)
    (h : ∀ cpu, ∃ after, Follows steps cpu after ∧
      after.state = i.perform (cpu.program.read cpu.pc) cpu.state) :
    (plain signature (opcode group source dest) steps).Implements i := by
  refine ⟨hdecoded, hsignature, fun cpu => ⟨.always steps, List.mem_singleton_self _, ?_, h cpu⟩⟩
  intro c hc
  cases hc

/-! ## Moving data -/

theorem implements_noop : ∀ e ∈ noop, e.Implements .noop := by
  intro e he
  rw [List.mem_singleton.mp he]
  refine implements_plain rfl rfl fun cpu => ?_
  exact ⟨cpu, .cons (effect_none cpu) (.nil _), rfl⟩

theorem implements_halt : ∀ e ∈ halt, e.Implements .halt := by
  intro e he
  rw [List.mem_singleton.mp he]
  refine implements_plain rfl rfl fun cpu => ?_
  exact ⟨_, .cons (effect_halt cpu) (.nil _), rfl⟩

theorem implements_copy : ∀ e ∈ copy, ∃ source dest, e.Implements (.copy source dest) := by
  intro e he
  obtain ⟨source, -, he⟩ := List.mem_flatMap.mp he
  obtain ⟨dest, hdest, rfl⟩ := List.mem_map.mp he
  have hne : source ≠ dest := (bne_iff_ne.mp (List.mem_filter.mp hdest).2).symm
  have hdecoded := decoded_eq (List.mem_cons_self ..) (.register source) (.register dest)
  refine ⟨source, dest, implements_plain (hdecoded.trans (if_pos hne)) rfl fun cpu => ?_⟩
  exact ⟨_, .cons (effect_move cpu source dest) (.nil _), by simp [Instruction.perform]⟩

theorem implements_set : ∀ e ∈ set, ∃ dest, e.Implements (.set dest) := by
  intro e he
  obtain ⟨dest, hdest, rfl⟩ := List.mem_map.mp he
  have hpc : dest ≠ .pc := by
    rintro rfl
    exact absurd hdest (by decide)
  have hdecoded := decoded_eq (List.mem_cons_self ..) .constant (.register dest)
  refine ⟨dest, implements_plain (hdecoded.trans (if_pos hdest)) rfl fun cpu => ?_⟩
  refine ⟨_, .cons (effect_point cpu .pc) (.cons (effect_constant _ hpc) (.nil _)), ?_⟩
  rw [state_put]
  rfl

theorem implements_load : ∀ e ∈ load, ∃ index dest, e.Implements (.load index dest) := by
  intro e he
  obtain ⟨dest, hdest, he⟩ := List.mem_flatMap.mp he
  have hdecoded : ∀ index : Operand, decoded .load index.code dest.code = _ :=
    fun index => (decoded_eq (by decide) index (.register dest)).trans (if_pos hdest)
  rcases List.mem_append.mp he with he | he
  · obtain ⟨source, -, rfl⟩ := List.mem_map.mp he
    refine ⟨_, dest, implements_plain (hdecoded (.register source)) rfl fun cpu => ?_⟩
    refine ⟨_, .cons (effect_point cpu source) (.cons (effect_read _ dest) (.nil _)), ?_⟩
    rw [state_put, ← state_get]
    rfl
  · rw [List.mem_singleton.mp he]
    refine ⟨_, dest, implements_plain (hdecoded .constant) rfl fun cpu => ?_⟩
    refine ⟨_, .cons (effect_point cpu .pc) (.cons (effect_constantPoint _)
      (.cons (effect_read _ dest) (.nil _))), ?_⟩
    rw [state_put]
    rfl

theorem implements_store : ∀ e ∈ store, ∃ source index, e.Implements (.store source index) := by
  intro e he
  obtain ⟨source, hsource, he⟩ := List.mem_flatMap.mp he
  have hdecoded : ∀ index : Operand, decoded .store source.code index.code = _ :=
    fun index => (decoded_eq (by decide) (.register source) index).trans (if_pos hsource)
  rcases List.mem_append.mp he with he | he
  · obtain ⟨dest, hdest, rfl⟩ := List.mem_map.mp he
    have hpc : dest ≠ .pc := by
      rintro rfl
      exact absurd hdest (by decide)
    have hregister := (hdecoded (.register dest)).trans (if_neg hpc)
    refine ⟨source, _, implements_plain hregister rfl fun cpu => ?_⟩
    refine ⟨_, .cons (effect_point cpu dest) (.cons (effect_write _ source) (.nil _)), ?_⟩
    cases source <;> cases dest <;> rfl
  · rw [List.mem_singleton.mp he]
    refine ⟨source, _, implements_plain (hdecoded .constant) rfl fun cpu => ?_⟩
    refine ⟨_, .cons (effect_point cpu .pc) (.cons (effect_constantPoint _)
      (.cons (effect_write _ source) (.nil _))), ?_⟩
    cases source <;> rfl

theorem implements_push : ∀ e ∈ push, ∃ source, e.Implements (.push source) := by
  intro e he
  obtain ⟨source, hsource, rfl⟩ := List.mem_map.mp he
  have hdecoded := decoded_eq (by decide : Group.store ∈ _) (.register source) .stack
  refine ⟨source, implements_plain (hdecoded.trans (if_pos hsource)) rfl fun cpu => ?_⟩
  refine ⟨_, .cons (effect_countStack cpu .decr) (.cons (effect_keepStack _)
    (.cons (effect_write _ source) (.nil _))), ?_⟩
  cases source <;> rfl

theorem implements_pop : ∀ e ∈ pop, ∃ dest, e.Implements (.pop dest) := by
  intro e he
  obtain ⟨dest, hdest, rfl⟩ := List.mem_map.mp he
  have hdecoded := decoded_eq (by decide : Group.load ∈ _) .stack (.register dest)
  refine ⟨dest, implements_plain (hdecoded.trans (if_pos hdest)) rfl fun cpu => ?_⟩
  refine ⟨_, .cons (effect_point cpu .sp) (.cons (effect_read _ dest)
    (.cons (effect_countStack _ .incr) (.cons (effect_keep _ .sp) (.nil _)))), ?_⟩
  cases dest <;> rfl

/-! ## Arithmetic -/

theorem implements_alu (f : Combination) :
    ∀ e ∈ alu f.function, ∃ x, e.Implements (.combine f x) := by
  have hdecoded : ∀ x : Operand, decoded .alu f.function.code x.code = Instruction.decodeCombine f x := by
    intro x
    rw [decoded_alu]
    cases f <;> rfl
  intro e he
  rcases List.mem_append.mp he with he | he
  · obtain ⟨operand, hoperand, rfl⟩ := List.mem_map.mp he
    have hregister := (hdecoded (.register operand)).trans (if_pos hoperand)
    refine ⟨_, implements_plain hregister rfl fun cpu => ?_⟩
    refine ⟨_, .cons (effect_compute cpu f.function operand) (.cons (effect_keep _ .acc) (.nil _)), ?_⟩
    rw [AluFunction.compute_eq, ← state_get]
    rfl
  · rw [List.mem_singleton.mp he]
    refine ⟨_, implements_plain (hdecoded .constant) rfl fun cpu => ?_⟩
    refine ⟨_, .cons (effect_point cpu .pc) (.cons (effect_constantCompute _ f.function)
      (.cons (effect_keep _ .acc) (.nil _))), ?_⟩
    rw [AluFunction.compute_eq]
    rfl

theorem implements_counter (f : Counting) :
    ∀ e ∈ counter f.function, ∃ r, e.Implements (.count f r) := by
  intro e he
  obtain ⟨r, hr, rfl⟩ := List.mem_map.mp he
  have hdecoded : decoded .alu f.function.code r.code = some (.count f r) := by
    refine (decoded_alu f.function (.register r)).trans ?_
    cases f <;> exact if_pos hr
  refine ⟨r, implements_plain hdecoded rfl fun cpu => ?_⟩
  refine ⟨_, .cons (effect_compute cpu f.function r) (.cons (effect_keep _ r) (.nil _)), ?_⟩
  rw [AluFunction.compute_eq, state_put, ← state_get]
  rfl

theorem implements_not : ∀ e ∈ not, e.Implements .not := by
  intro e he
  rw [List.mem_singleton.mp he]
  refine implements_plain rfl rfl fun cpu => ?_
  refine ⟨_, .cons (effect_compute cpu .not .acc) (.cons (effect_keep _ .acc) (.nil _)), ?_⟩
  rw [AluFunction.compute_eq]
  rfl

/-! ## Jumps -/

theorem follows_jumpSteps (cpu : Cpu) : ∃ after, Follows jumpSteps cpu after ∧
    after.state = Instruction.jump.perform (cpu.program.read cpu.pc) cpu.state :=
  ⟨_, .cons (effect_point cpu .pc) (.cons (effect_jump _) (.nil _)), rfl⟩

theorem implements_jump : ∀ e ∈ jump, e.Implements .jump := by
  intro e he
  rw [List.mem_singleton.mp he]
  exact implements_plain rfl rfl follows_jumpSteps

theorem implements_jumpIf (flag : Flag) : ∀ e ∈ jumpIf flag, e.Implements (.jumpIf flag) := by
  have hdecoded : decoded .alu AluFunction.not.code (Flow.jumpIf flag).code = some (.jumpIf flag) := by
    cases flag with
    | zero => exact decoded_alu .not (.register .a)
    | carry => exact decoded_alu .not (.register .b)
    | negative => exact decoded_alu .not (.register .c)
    | overflow => exact decoded_alu .not (.register .sp)
  intro e he
  rw [List.mem_singleton.mp he]
  refine ⟨hdecoded, rfl, fun cpu => ?_⟩
  have hholds : ∀ state, flag.isSet cpu.flags = state →
      Microprogram.Holds [(flag, state)] cpu.flags.toNat := by
    rintro state hstate c hc
    rw [List.mem_singleton.mp hc]
    exact hstate
  cases hset : flag.isSet cpu.flags with
  | true =>
    obtain ⟨after, hfollows, hstate⟩ := follows_jumpSteps cpu
    refine ⟨_, List.mem_cons_self .., hholds true hset, after, hfollows, ?_⟩
    rw [hstate]
    exact (if_pos hset).symm
  | false =>
    refine ⟨_, List.mem_cons_of_mem _ (List.mem_singleton_self _), hholds false hset, _,
      .cons (effect_skip cpu) (.nil _), ?_⟩
    exact (if_neg (Bool.eq_false_iff.mp hset)).symm

/-! ## The table -/

/-- Every encoding of an operation implements an instruction that is written with its mnemonic. -/
theorem implements_table : ∀ entry ∈ table, ∀ e ∈ entry.2,
    ∃ i : Instruction, i.mnemonic = entry.1 ∧ e.Implements i := by
  intro entry hentry e he
  have hcombine : ∀ f ∈ [AluFunction.add, .sub, .and, .or, .xor], ∃ c : Combination, f = c.function := by
    simp only [List.forall_mem_cons]
    exact ⟨⟨.add, rfl⟩, ⟨.sub, rfl⟩, ⟨.and, rfl⟩, ⟨.or, rfl⟩, ⟨.xor, rfl⟩, by simp⟩
  have hcount : ∀ f ∈ [AluFunction.incr, .decr], ∃ c : Counting, f = c.function := by
    simp only [List.forall_mem_cons]
    exact ⟨⟨.incr, rfl⟩, ⟨.decr, rfl⟩, by simp⟩
  rw [table] at hentry
  simp only [List.mem_append, List.mem_map, List.mem_singleton] at hentry
  rcases hentry with ((((hentry | ⟨f, hf, rfl⟩) | rfl) | ⟨f, hf, rfl⟩) | rfl) | ⟨flag, -, rfl⟩
  rotate_left
  · obtain ⟨f, rfl⟩ := hcombine f hf
    obtain ⟨x, h⟩ := implements_alu f e he
    exact ⟨_, rfl, h⟩
  · exact ⟨_, rfl, implements_not e he⟩
  · obtain ⟨f, rfl⟩ := hcount f hf
    obtain ⟨r, h⟩ := implements_counter f e he
    exact ⟨_, rfl, h⟩
  · exact ⟨_, rfl, implements_jump e he⟩
  · exact ⟨_, rfl, implements_jumpIf flag e he⟩
  simp only [List.mem_cons, List.not_mem_nil, or_false] at hentry
  rcases hentry with rfl | rfl | rfl | rfl | rfl | rfl | rfl | rfl
  · exact ⟨_, rfl, implements_noop e he⟩
  · exact ⟨_, rfl, implements_halt e he⟩
  · obtain ⟨source, dest, h⟩ := implements_copy e he
    exact ⟨_, rfl, h⟩
  · obtain ⟨dest, h⟩ := implements_set e he
    exact ⟨_, rfl, h⟩
  · obtain ⟨index, dest, h⟩ := implements_load e he
    exact ⟨_, rfl, h⟩
  · obtain ⟨source, index, h⟩ := implements_store e he
    exact ⟨_, rfl, h⟩
  · obtain ⟨source, h⟩ := implements_push e he
    exact ⟨_, rfl, h⟩
  · obtain ⟨dest, h⟩ := implements_pop e he
    exact ⟨_, rfl, h⟩

theorem implements_encodings {e : Encoding} (he : e ∈ encodings) :
    ∃ i : Instruction, e.Implements i := by
  obtain ⟨entry, hentry, he⟩ := List.mem_flatMap.mp he
  obtain ⟨i, -, h⟩ := implements_table entry hentry e he
  exact ⟨i, h⟩

def decodable : List UInt8 :=
  ((List.range 256).map UInt8.ofNat).filter fun byte => (Instruction.decode byte).isSome

theorem mem_decodable (byte : UInt8) : byte ∈ decodable ↔ (Instruction.decode byte).isSome := by
  rw [decodable, List.mem_filter, List.mem_map]
  exact and_iff_right ⟨byte.toNat, List.mem_range.mpr byte.toNat_lt, UInt8.ofNat_toNat⟩

theorem exists_encoding {byte : UInt8} (h : (Instruction.decode byte).isSome) :
    ∃ e ∈ encodings, e.byte = byte := by
  have hsubset : encodings.map Encoding.byte ⊆ decodable := by
    intro b hb
    obtain ⟨e, he, rfl⟩ := List.mem_map.mp hb
    obtain ⟨i, hi⟩ := implements_encodings he
    rw [mem_decodable, hi.decode]
    rfl
  have hlength : decodable.length ≤ (encodings.map Encoding.byte).length := by
    rw [List.length_map]
    decide +kernel
  -- as many bytes have an encoding as decode to an instruction, so these are the same bytes
  have hperm := (nodup_bytes.subperm hsubset).perm_of_length_le hlength
  exact List.mem_map.mp (hperm.mem_iff.mpr ((mem_decodable byte).mpr h))

end InstructionSet

/-! ## Whole instructions -/

namespace Instruction

theorem flags_put (s : State) (r : Register) (value : UInt8) : (s.put r value).flags = s.flags := by
  cases r <;> rfl

theorem perform_flags_lt {s : State} (h : s.flags.toNat < 16) (k : UInt8) (i : Instruction) :
    (i.perform k s).flags.toNat < 16 := by
  have hstatus : ∀ (f : AluFunction) (acc x : UInt8), (f.status acc x).toNat < 16 :=
    fun f acc x => Flag.pack_lt ..
  have hoperand : ∀ x, (s.operand k x).2.flags = s.flags := by
    intro x
    cases x <;> rfl
  cases i with
  | copy source dest => rwa [perform, flags_put]
  | set dest => rwa [perform, flags_put]
  | load index dest => rwa [perform, flags_put, hoperand]
  | store source index => rwa [perform, hoperand]
  | pop dest => rwa [perform, flags_put]
  | combine f x => exact hstatus ..
  | count f r =>
    rw [perform, State.combine, flags_put]
    exact hstatus ..
  | not => exact hstatus ..
  | jumpIf flag =>
    rw [perform]
    split <;> exact h
  | _ => exact h

end Instruction

namespace Cpu

/-- The instruction at PC; a byte that decodes to none counts as `NOOP`. -/
def instruction (cpu : Cpu) : Instruction :=
  (Instruction.decode (cpu.program.read cpu.pc)).getD .noop

theorem instruction_of_table {cpu : Cpu} {entry : String × List Encoding}
    (hentry : entry ∈ InstructionSet.table) {e : Encoding} (he : e ∈ entry.2)
    (hbyte : e.byte = cpu.program.read cpu.pc) :
    cpu.instruction.mnemonic = entry.1 ∧ cpu.instruction.signature = e.signature := by
  obtain ⟨i, hmnemonic, hi⟩ := InstructionSet.implements_table entry hentry e he
  rw [instruction, ← hbyte, hi.decode]
  exact ⟨hmnemonic, hi.signature.symm⟩

theorem instruction_of_not_encoded {cpu : Cpu}
    (h : ∀ e ∈ InstructionSet.encodings, e.byte ≠ cpu.program.read cpu.pc) :
    cpu.instruction = .noop := by
  have hnone : Instruction.decode (cpu.program.read cpu.pc) = none := by
    rw [← Option.not_isSome_iff_eq_none]
    intro hsome
    obtain ⟨e, he, hbyte⟩ := InstructionSet.exists_encoding hsome
    exact h e he hbyte
  rw [instruction, hnone]
  rfl

/-- The cycles of the instruction at PC have its effect. -/
theorem exists_completes_execute {microcode : Microcode}
    (hruns : microcode.Runs InstructionSet.encodings) (cpu : Cpu) (hhalted : cpu.halted = false)
    (hstep : cpu.step = 0) (hflags : cpu.flags.toNat < 16) :
    ∃ n ≤ 8, ∃ after, Completes microcode n cpu after ∧ after.step = 0 ∧ after.flags.toNat < 16 ∧
      after.state = cpu.instruction.execute (cpu.program.read (cpu.pc + 1)) cpu.state := by
  suffices h : ∃ n ≤ 8, ∃ (after : Cpu) (ticks : Int64),
      Completes microcode n cpu (after.clocked 0 ticks) ∧
      after.state = cpu.instruction.execute (cpu.program.read (cpu.pc + 1)) cpu.state by
    obtain ⟨n, hn, after, ticks, hcompletes, hstate⟩ := h
    refine ⟨n, hn, after.clocked 0 ticks, hcompletes, rfl, ?_, hstate⟩
    show after.state.flags.toNat < 16
    rw [hstate]
    exact Instruction.perform_flags_lt hflags _ _
  by_cases hbyte : ∃ e ∈ InstructionSet.encodings, e.byte = cpu.program.read cpu.pc
  · obtain ⟨e, he, hbyte⟩ := hbyte
    obtain ⟨i, hi⟩ := InstructionSet.implements_encodings he
    obtain ⟨p, hp, hholds, after, hfollows, hstate⟩ := hi.follows cpu.fetched
    obtain ⟨n, hn, ticks, hcompletes⟩ := completes_encoded hruns hhalted hstep hflags he hbyte.symm hp
      (InstructionSet.steady_encodings e he p hp) hholds hfollows
    refine ⟨n, hn, after, ticks, hcompletes, ?_⟩
    rw [hstate, instruction, ← hbyte, hi.decode]
    rfl
  · have hidle : ∀ e ∈ InstructionSet.encodings, e.byte ≠ cpu.program.read cpu.pc :=
      fun e he heq => hbyte ⟨e, he, heq⟩
    obtain ⟨ticks, hcompletes⟩ := completes_idle hruns hhalted hstep hflags hidle
    refine ⟨8, Nat.le_refl 8, cpu.fetched, ticks, hcompletes, ?_⟩
    rw [instruction_of_not_encoded hidle]
    rfl

/-- The microcode of the instruction set can be built, and from any state between two instructions
its cycles run without an error to the end of the instruction at PC and have its effect. That
instruction is the one whose operation encodes it in the byte at PC, and `NOOP` if none does. -/
theorem standard_completes_instruction (cpu : Cpu) (hhalted : cpu.halted = false)
    (hstep : cpu.step = 0) (hflags : cpu.flags.toNat < 16) :
    ∃ microcode, Microcode.standard = .ok microcode ∧
      (∃ n ≤ 8, ∃ after, Completes microcode n cpu after ∧ after.step = 0 ∧ after.flags.toNat < 16 ∧
        after.state = cpu.instruction.execute (cpu.program.read (cpu.pc + 1)) cpu.state) ∧
      (∀ entry ∈ InstructionSet.table, ∀ e ∈ entry.2, e.byte = cpu.program.read cpu.pc →
        cpu.instruction.mnemonic = entry.1 ∧ cpu.instruction.signature = e.signature) ∧
      ((∀ e ∈ InstructionSet.encodings, e.byte ≠ cpu.program.read cpu.pc) →
        cpu.instruction = .noop) := by
  obtain ⟨microcode, hstandard, hruns⟩ := Microcode.exists_standard
  refine ⟨microcode, hstandard, exists_completes_execute hruns cpu hhalted hstep hflags, ?_, ?_⟩
  · intro entry hentry e he hbyte
    exact instruction_of_table hentry he hbyte
  · exact instruction_of_not_encoded

/-- `ADD 200` with 100 in ACC: the sum wraps and sets the carry. -/
theorem standard_completes_addition :
    let cpu : Cpu := { acc := 100, program := .ofBytes [198, 200] }
    cpu.halted = false ∧ cpu.step = 0 ∧ cpu.flags.toNat < 16 ∧
      cpu.instruction = .combine .add .constant ∧
      ∃ microcode, Microcode.standard = .ok microcode ∧ ∃ n ≤ 8, ∃ after,
        Completes microcode n cpu after ∧ after.acc = 44 ∧ after.pc = 2 ∧ after.flags = 4 := by
  intro cpu
  obtain ⟨microcode, hstandard, ⟨n, hn, after, hcompletes, -, -, hstate⟩, -⟩ :=
    standard_completes_instruction cpu rfl rfl (by decide)
  have hexecute : (cpu.instruction.execute (cpu.program.read (cpu.pc + 1)) cpu.state).acc = 44 ∧
      (cpu.instruction.execute (cpu.program.read (cpu.pc + 1)) cpu.state).pc = 2 ∧
      (cpu.instruction.execute (cpu.program.read (cpu.pc + 1)) cpu.state).flags = 4 := by decide +kernel
  rw [← hstate] at hexecute
  exact ⟨rfl, rfl, by decide, by decide +kernel, microcode, hstandard, n, hn, after, hcompletes, hexecute⟩

end Cpu

end Microcomputer
