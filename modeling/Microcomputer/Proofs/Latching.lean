import Mathlib
import Microcomputer.Proofs.Bus

/-!
# A clock cycle as one step

A cycle reads the bus and the ALU before anything changes; then every register and memory that its
control word names takes its new value. Attending to the lines one after the other comes to the same
state as long as the store comes before MAR and the load of PC before its count.

* `Cpu.Updates` : the state after a cycle, cell by cell, `Cpu.updates_iff` : there is one such state;
* `Cpu.obey` : what a line does on its own, `Control.Orderly` : orders of the lines,
  `Cpu.foldl_obey` : one line after the other;
* `Cpu.tick_updates_at_once` : the cycle of every control word with at most one driver.
-/

namespace Microcomputer

attribute [ext] Cpu

namespace Memory

theorem read_write (memory : Memory) (place byte address : UInt8) :
    (memory.write place byte).read address = if address = place then byte else memory.read address := by
  have hplace : place.toNat < memorySize := place.toNat_lt_size
  have haddress : address.toNat < memorySize := address.toNat_lt_size
  show (memory.set place.toNat byte hplace)[address.toNat] =
    if address = place then byte else memory[address.toNat]
  rw [Vector.getElem_set]
  simp only [UInt8.toNat_inj, eq_comm]

theorem ext_read {m m' : Memory} (h : ∀ address, m.read address = m'.read address) : m = m' := by
  apply Vector.ext
  intro i hi
  have hread := h (UInt8.ofNat i)
  unfold read at hread
  have hi' : (UInt8.ofNat i).toNat = i := UInt8.toNat_ofNat_of_lt' hi
  simpa only [Vector.get_eq_getElem, hi'] using hread

end Memory

namespace Cpu

variable {word : BitVec 64} {cpu : Cpu}

/-! ## All at once -/

/-- The state after a cycle with a value on the bus: each register, each memory cell and each counter
by the lines of the control word and the state before, and by nothing else. -/
structure Updates (word : BitVec 64) (value : UInt8) (before after : Cpu) : Prop where
  register : ∀ r : Register, r ≠ .pc →
    after.get r = if r.input.isActive word then value else before.get r
  /-- PC takes the bus first and counts then. -/
  pc : after.pc = (if Control.pcIn.isActive word then value else before.pc) +
    if Control.pcCount.isActive word then 1 else 0
  ir : after.ir = if Control.irIn.isActive word then value else before.ir
  mar : after.mar = if Control.marIn.isActive word then value else before.mar
  alu : after.alu = if Control.aluStoreResult.isActive word then
    ((selected word).compute before.acc value).1 else before.alu
  flags : after.flags = if Control.aluStoreFlags.isActive word then
    ((selected word).compute before.acc value).2 else before.flags
  /-- A store goes to the address that MAR had before. -/
  program : ∀ address, after.program.read address =
    if Control.ramIn.isActive word = true ∧ Control.ramSelectProgram.isActive word = true ∧
      address = before.mar then value else before.program.read address
  data : ∀ address, after.data.read address =
    if Control.ramIn.isActive word = true ∧ Control.ramSelectProgram.isActive word = false ∧
      address = before.mar then value else before.data.read address
  halted : after.halted = Control.halt.isActive word
  step : after.step = if Control.stepReset.isActive word then 0 else (before.step + 1) % 8
  ip : after.ip = if before.step = 0 then before.pc else before.ip
  ticks : after.ticks = before.ticks + 1
  verbose : after.verbose = before.verbose

theorem Updates.unique {value : UInt8} {before after other : Cpu} (h : Updates word value before after)
    (h' : Updates word value before other) : after = other := by
  have hregister : ∀ r : Register, r ≠ .pc → after.get r = other.get r := fun r hr => by
    rw [h.register r hr, h'.register r hr]
  apply Cpu.ext
  · exact hregister .a (by decide)
  · exact hregister .b (by decide)
  · exact hregister .c (by decide)
  · exact hregister .acc (by decide)
  · exact hregister .sp (by decide)
  · rw [h.pc, h'.pc]
  · rw [h.mar, h'.mar]
  · rw [h.ir, h'.ir]
  · rw [h.alu, h'.alu]
  · rw [h.flags, h'.flags]
  · rw [h.step, h'.step]
  · rw [h.ip, h'.ip]
  · rw [h.halted, h'.halted]
  · exact Memory.ext_read fun address => by rw [h.program, h'.program]
  · exact Memory.ext_read fun address => by rw [h.data, h'.data]
  · rw [h.ticks, h'.ticks]
  · rw [h.verbose, h'.verbose]

theorem updates_latch (h : cpu.InRange) (hhalted : cpu.halted = false) (word : BitVec 64)
    (value : UInt8) : Updates word value cpu (cpu.startStep.latch word value) := by
  rw [startStep_eq]
  refine ⟨?_, rfl, rfl, rfl, rfl, rfl, ?_, ?_, ?_, ?_, rfl, rfl, rfl⟩
  · intro r hr
    cases r with
    | pc => exact absurd rfl hr
    | _ => rfl
  · intro address
    simp only [latch, Bool.and_eq_true]
    split
    · rename_i hstore
      rw [Memory.read_write]
      simp only [hstore.1, hstore.2, true_and]
    · rename_i hstore
      rw [if_neg fun hcon => hstore ⟨hcon.1, hcon.2.1⟩]
  · intro address
    simp only [latch, Bool.and_eq_true, Bool.not_eq_true']
    split
    · rename_i hstore
      rw [Memory.read_write]
      simp only [hstore.1, hstore.2, true_and]
    · rename_i hstore
      rw [if_neg fun hcon => hstore ⟨hcon.1, hcon.2.1⟩]
  · simp only [latch, hhalted, Bool.false_or]
  · simp only [latch, h.step_tmod]

theorem updates_iff (h : cpu.InRange) (hhalted : cpu.halted = false) (value : UInt8) (after : Cpu) :
    Updates word value cpu after ↔ after = cpu.startStep.latch word value := by
  constructor
  · exact fun hafter => hafter.unique (updates_latch h hhalted word value)
  · rintro rfl
    exact updates_latch h hhalted word value

end Cpu

/-! ## One line after the other -/

/-- An order in which a cycle can attend to its lines: each line that changes the state comes once, the
store before MAR takes another address, and PC takes the bus before it counts. -/
structure Control.Orderly (lines : List Control) : Prop where
  nodup : lines.Nodup
  complete : ∀ line : Control, line.latches = true → line ∈ lines
  store : [.ramIn, .marIn].Sublist lines
  count : [.pcIn, .pcCount].Sublist lines

/-- The memory first, then what takes the bus, the ALU, and what counts or stops. -/
def Control.memoryFirst : List Control :=
  [.ramIn, .aIn, .bIn, .cIn, .accIn, .spIn, .pcIn, .irIn, .marIn, .aluStoreResult, .aluStoreFlags,
    .pcCount, .halt]

theorem Control.orderly_memoryFirst : Orderly memoryFirst := by
  refine ⟨by decide, ?_, by decide, by decide⟩
  intro line hline
  cases line <;> first | decide | cases hline

namespace Cpu

/-- What a line does on its own to the state that it finds, given the value on the bus and what the ALU
computes of it. -/
def obey (word : BitVec 64) (value : UInt8) (computed : UInt8 × UInt8) (cpu : Cpu) (line : Control) :
    Cpu :=
  if line.isActive word then
    match line with
    | .aIn => { cpu with a := value }
    | .bIn => { cpu with b := value }
    | .cIn => { cpu with c := value }
    | .accIn => { cpu with acc := value }
    | .spIn => { cpu with sp := value }
    | .pcIn => { cpu with pc := value }
    | .pcCount => { cpu with pc := cpu.pc + 1 }
    | .marIn => { cpu with mar := value }
    | .irIn => { cpu with ir := value }
    | .aluStoreResult => { cpu with alu := computed.1 }
    | .aluStoreFlags => { cpu with flags := computed.2 }
    | .ramIn =>
      if Control.ramSelectProgram.isActive word then
        { cpu with program := cpu.program.write cpu.mar value }
      else { cpu with data := cpu.data.write cpu.mar value }
    | .halt => { cpu with halted := true }
    | _ => cpu
  else cpu

section

variable {word : BitVec 64} {value : UInt8} {computed : UInt8 × UInt8} {lines : List Control} {α : Type}
  (field : Cpu → α)

/-- What none of the lines changes stays. -/
theorem foldl_obey_keeps (h : ∀ line ∈ lines, ∀ cpu, field (obey word value computed cpu line) = field cpu)
    (cpu : Cpu) : field (lines.foldl (obey word value computed) cpu) = field cpu := by
  induction lines generalizing cpu with
  | nil => rfl
  | cons line rest ih =>
    rw [List.foldl_cons, ih fun other hother => h other (List.mem_cons_of_mem _ hother)]
    exact h line (List.mem_cons_self ..) cpu

/-- What one of the lines changes, and no other, is changed once. -/
theorem foldl_obey_changes {line : Control} (change : α → α) (hnodup : lines.Nodup) (hmem : line ∈ lines)
    (hline : ∀ cpu, field (obey word value computed cpu line) =
      if line.isActive word then change (field cpu) else field cpu)
    (hother : ∀ other ∈ lines, other ≠ line → ∀ cpu, field (obey word value computed cpu other) = field cpu)
    (cpu : Cpu) : field (lines.foldl (obey word value computed) cpu) =
      if line.isActive word then change (field cpu) else field cpu := by
  obtain ⟨earlier, later, rfl⟩ := List.append_of_mem hmem
  have hearlier : line ∉ earlier := fun h => (List.disjoint_of_nodup_append hnodup) h List.mem_cons_self
  have hlater : line ∉ later := (List.nodup_cons.mp hnodup.of_append_right).1
  rw [List.foldl_append, List.foldl_cons, foldl_obey_keeps field, hline, foldl_obey_keeps field]
  · intro other hmem'
    exact hother other (List.mem_append_left _ hmem') fun h => hearlier (h ▸ hmem')
  · intro other hmem'
    exact hother other (by simp [hmem']) fun h => hlater (h ▸ hmem')

theorem foldl_obey_sets {line : Control} (new : α) (h : Control.Orderly lines)
    (hlatches : line.latches = true)
    (hfield : ∀ cpu other, field (obey word value computed cpu other) =
      if other = line ∧ other.isActive word = true then new else field cpu)
    (cpu : Cpu) : field (lines.foldl (obey word value computed) cpu) =
      if line.isActive word then new else field cpu := by
  refine foldl_obey_changes field (fun _ => new) h.nodup (h.complete line hlatches) ?_ ?_ cpu
  · intro cpu
    simp only [hfield, true_and]
  · intro other _ hne cpu
    rw [hfield, if_neg fun hcon => hne hcon.1]

end

section

variable {lines : List Control} (h : Control.Orderly lines) (word : BitVec 64) (value : UInt8)
  (computed : UInt8 × UInt8) (cpu : Cpu)

/-- Each field by the line that changes it; PC has two. -/
theorem obey_eq (line : Control) : obey word value computed cpu line = { cpu with
    a := if line = .aIn ∧ line.isActive word = true then value else cpu.a
    b := if line = .bIn ∧ line.isActive word = true then value else cpu.b
    c := if line = .cIn ∧ line.isActive word = true then value else cpu.c
    acc := if line = .accIn ∧ line.isActive word = true then value else cpu.acc
    sp := if line = .spIn ∧ line.isActive word = true then value else cpu.sp
    pc := if line = .pcIn ∧ line.isActive word = true then value
      else if line = .pcCount ∧ line.isActive word = true then cpu.pc + 1 else cpu.pc
    mar := if line = .marIn ∧ line.isActive word = true then value else cpu.mar
    ir := if line = .irIn ∧ line.isActive word = true then value else cpu.ir
    alu := if line = .aluStoreResult ∧ line.isActive word = true then computed.1 else cpu.alu
    flags := if line = .aluStoreFlags ∧ line.isActive word = true then computed.2 else cpu.flags
    program := if line = .ramIn ∧ line.isActive word = true ∧
      Control.ramSelectProgram.isActive word = true then cpu.program.write cpu.mar value else cpu.program
    data := if line = .ramIn ∧ line.isActive word = true ∧
      (!Control.ramSelectProgram.isActive word) = true then cpu.data.write cpu.mar value else cpu.data
    halted := if line = .halt ∧ line.isActive word = true then true else cpu.halted } := by
  unfold obey
  cases hactive : line.isActive word with
  | false => simp
  | true =>
    rw [if_pos rfl]
    cases line <;> simp only [reduceCtorEq, and_true, true_and, false_and, if_true, if_false]
    · cases Control.ramSelectProgram.isActive word <;> rfl

include h

theorem pc_foldl_obey : (lines.foldl (obey word value computed) cpu).pc =
    (if Control.pcIn.isActive word then value else cpu.pc) +
      if Control.pcCount.isActive word then 1 else 0 := by
  obtain ⟨earlier, later, rfl, hin, hcount⟩ := List.cons_sublist_iff.mp h.count
  rw [List.singleton_sublist] at hcount
  have hdisjoint := List.disjoint_of_nodup_append h.nodup
  have hearlier : (earlier.foldl (obey word value computed) cpu).pc =
      if Control.pcIn.isActive word then value else cpu.pc := by
    refine foldl_obey_changes Cpu.pc (fun _ => value) h.nodup.of_append_left hin ?_ ?_ cpu
    · intro cpu
      simp [obey_eq]
    · intro other hmem hne cpu
      have hne' : other ≠ .pcCount := fun hcon => hdisjoint hmem (hcon ▸ hcount)
      simp [obey_eq, hne, hne']
  have hlater : ∀ cpu, (later.foldl (obey word value computed) cpu).pc =
      if Control.pcCount.isActive word then cpu.pc + 1 else cpu.pc := by
    refine foldl_obey_changes Cpu.pc (· + 1) h.nodup.of_append_right hcount ?_ ?_
    · intro cpu
      simp [obey_eq]
    · intro other hmem hne cpu
      have hne' : other ≠ .pcIn := fun hcon => hdisjoint hin (hcon ▸ hmem)
      simp [obey_eq, hne, hne']
  rw [List.foldl_append, hlater, hearlier]
  cases Control.pcCount.isActive word <;> simp

/-- The store to a memory goes to the address that MAR had before. -/
theorem memory_foldl_obey (memory : Cpu → Memory) (chosen : Bool)
    (hmemory : ∀ cpu line, memory (obey word value computed cpu line) =
      if line = .ramIn ∧ line.isActive word = true ∧ chosen = true then
        (memory cpu).write cpu.mar value else memory cpu) :
    memory (lines.foldl (obey word value computed) cpu) =
      if Control.ramIn.isActive word && chosen then (memory cpu).write cpu.mar value
      else memory cpu := by
  obtain ⟨earlier, later, rfl, hstore, hmar⟩ := List.cons_sublist_iff.mp h.store
  rw [List.singleton_sublist] at hmar
  have hdisjoint := List.disjoint_of_nodup_append h.nodup
  -- MAR goes along with the memory: up to the store no line changes it
  have hearlier : ((earlier.foldl (obey word value computed) cpu).mar,
      memory (earlier.foldl (obey word value computed) cpu)) =
      if Control.ramIn.isActive word then
        (cpu.mar, if chosen then (memory cpu).write cpu.mar value else memory cpu)
      else (cpu.mar, memory cpu) := by
    refine foldl_obey_changes (fun cpu => (cpu.mar, memory cpu))
      (fun cell => (cell.1, if chosen then cell.2.write cell.1 value else cell.2))
      h.nodup.of_append_left hstore ?_ ?_ cpu
    · intro cpu
      rw [hmemory, obey_eq]
      cases Control.ramIn.isActive word <;> simp
    · intro other hmem hne cpu
      have hne' : other ≠ .marIn := fun hcon => hdisjoint hmem (hcon ▸ hmar)
      rw [hmemory, obey_eq]
      simp [hne, hne']
  have hlater : ∀ cpu, memory (later.foldl (obey word value computed) cpu) = memory cpu := by
    refine foldl_obey_keeps memory fun line hmem cpu => ?_
    have hne : line ≠ .ramIn := fun hcon => hdisjoint hstore (hcon ▸ hmem)
    rw [hmemory, if_neg fun hcon => hne hcon.1]
  rw [List.foldl_append, hlater]
  have hmemory' := congrArg Prod.snd hearlier
  dsimp only at hmemory'
  rw [hmemory']
  cases Control.ramIn.isActive word <;> simp

/-- In every orderly sequence, the lines one after the other come to the state of all at once. -/
theorem foldl_obey :
    (lines.foldl (obey word value ((selected word).compute cpu.acc value)) cpu).counted cpu word =
      cpu.latch word value := by
  apply Cpu.ext
  · exact foldl_obey_sets Cpu.a value h rfl (fun _ _ => by rw [obey_eq]) cpu
  · exact foldl_obey_sets Cpu.b value h rfl (fun _ _ => by rw [obey_eq]) cpu
  · exact foldl_obey_sets Cpu.c value h rfl (fun _ _ => by rw [obey_eq]) cpu
  · exact foldl_obey_sets Cpu.acc value h rfl (fun _ _ => by rw [obey_eq]) cpu
  · exact foldl_obey_sets Cpu.sp value h rfl (fun _ _ => by rw [obey_eq]) cpu
  · exact pc_foldl_obey h word value _ cpu
  · exact foldl_obey_sets Cpu.mar value h rfl (fun _ _ => by rw [obey_eq]) cpu
  · exact foldl_obey_sets Cpu.ir value h rfl (fun _ _ => by rw [obey_eq]) cpu
  · exact foldl_obey_sets Cpu.alu _ h rfl (fun _ _ => by rw [obey_eq]) cpu
  · exact foldl_obey_sets Cpu.flags _ h rfl (fun _ _ => by rw [obey_eq]) cpu
  · rfl
  · exact foldl_obey_keeps Cpu.ip (fun _ _ _ => by rw [obey_eq]) cpu
  · refine (foldl_obey_sets Cpu.halted true h rfl (fun _ _ => by rw [obey_eq]) cpu).trans ?_
    show _ = (cpu.halted || Control.halt.isActive word)
    cases Control.halt.isActive word <;> simp
  · exact memory_foldl_obey h word value _ cpu Cpu.program _ (fun _ _ => by rw [obey_eq])
  · exact memory_foldl_obey h word value _ cpu Cpu.data _ (fun _ _ => by rw [obey_eq])
  · rfl
  · exact foldl_obey_keeps Cpu.verbose (fun _ _ _ => by rw [obey_eq]) cpu

end

/-- In range there is a control word. If at most one line drives the bus, there is one value on it, the
cycle succeeds, and the state after it is the one that takes every new value at once; attending to the
lines one after the other leads to the same state in every orderly sequence. -/
theorem tick_updates_at_once (microcode : Microcode) (cpu : Cpu) (h : cpu.InRange)
    (hhalted : cpu.halted = false) :
    ∃ word, microcode.word? cpu.address = some word ∧
      ((Control.drivers word).length ≤ 1 → ∃ value after,
        (∀ other, cpu.Carries word other ↔ other = value) ∧
        cpu.tick microcode = (after, none) ∧
        (∀ state, Updates word value cpu state ↔ state = after) ∧
        ∀ lines, Control.Orderly lines → after =
          (lines.foldl (obey word value ((selected word).compute cpu.acc value))
            cpu.startStep).counted cpu word) := by
  obtain ⟨word, hword⟩ := h.exists_word microcode
  refine ⟨word, hword, fun hdrivers => ?_⟩
  obtain ⟨value, hcarries, htick⟩ := tick_latched hhalted hword hdrivers
  refine ⟨value, _, hcarries, htick, updates_iff h hhalted value, fun lines horderly => ?_⟩
  rw [← foldl_obey horderly, startStep_eq]
  rfl

/-- A store at MAR, which takes another address in the same cycle, and a jump that counts. -/
theorem tick_updates_store_point_jump : ∃ after : Cpu,
    Control.drivers 29698#64 = [.aOut] ∧
    ({ a := 9, mar := 5, pc := 200, step := 3 } : Cpu).tick (.tabulate fun _ => 29698#64) = (after, none) ∧
    after.data.read 5 = 9 ∧ after.data.read 9 = 0 ∧ after.mar = 9 ∧ after.pc = 10 ∧ after.step = 4 ∧
    (Control.memoryFirst.foldl (obey 29698#64 9 (0, 0))
      { a := 9, mar := 5, pc := 200, step := 3 }).data = after.data := by
  have hdrivers : Control.drivers 29698#64 = [.aOut] := by decide
  obtain ⟨word, hword, hcycle⟩ := tick_updates_at_once (.tabulate fun _ => 29698#64)
    { a := 9, mar := 5, pc := 200, step := 3 } ⟨by decide, by decide, by decide⟩ rfl
  obtain rfl : 29698#64 = word :=
    Option.some.inj ((Microcode.word?_tabulate _ (by decide : 3 < microcodeSize)).symm.trans hword)
  obtain ⟨value, after, hcarries, htick, hupdates, hlines⟩ := hcycle (by decide)
  have hvalue : (9 : UInt8) = value :=
    (hcarries _).mp (.driven (hdrivers ▸ List.mem_singleton_self Control.aOut))
  subst hvalue
  have hafter := (hupdates after).mpr rfl
  refine ⟨after, hdrivers, htick, hafter.data 5, hafter.data 9, hafter.mar, hafter.pc, hafter.step, ?_⟩
  rw [hlines _ Control.orderly_memoryFirst]
  rfl

end Cpu

end Microcomputer
