import Mathlib
import Microcomputer.Proofs.Template

/-!
# The microcode of the instruction set

* `InstructionSet.encodings` : all encodings of the instruction set; their instruction bytes differ;
* `InstructionSet.named` : the same with the mnemonics of their operations, `eq_of_byte_eq` : an
  instruction byte determines both;
* `Microcode.Runs` : microcode that fetches an instruction in steps 0 and 1, goes through the steps
  of the microprogram whose conditions the flags meet, and is idle behind every other byte;
* `Microcode.exists_standard_words` : the ROM of the instruction set can be built, and each of its
  words is that of the template which covers the address, or idle;
* `Microcode.exists_standard` : its microcode runs the encodings of the instruction set.
-/

namespace Microcomputer

open Traversal

namespace InstructionSet

def encodings : List Encoding := table.flatMap Prod.snd

theorem coherent_encodings : ∀ e ∈ encodings, e.Coherent := by
  have h : ∀ e ∈ encodings, e.instruction = .ofWord (BitVec.ofNat 64 e.byte.toNat) 8 ∧
      e.code.Pairwise Microprogram.Excludes := by decide +kernel
  exact fun e he => ⟨(h e he).1, (h e he).2⟩

theorem nodup_bytes : (encodings.map Encoding.byte).Nodup := by
  apply List.Nodup.of_map UInt8.toNat
  decide +kernel

/-- The encodings, each with the mnemonic of its operation. -/
def named : List (String × Encoding) := table.flatMap fun entry => entry.2.map fun e => (entry.1, e)

theorem mem_named {mnemonic : String} {e : Encoding} :
    (mnemonic, e) ∈ named ↔ ∃ entry ∈ table, entry.1 = mnemonic ∧ e ∈ entry.2 := by
  simp only [named, List.mem_flatMap, List.mem_map, Prod.mk.injEq]
  refine exists_congr fun entry => and_congr_right fun _ => ⟨?_, ?_⟩
  · rintro ⟨e', he', hmnemonic, rfl⟩
    exact ⟨hmnemonic, he'⟩
  · rintro ⟨hmnemonic, he⟩
    exact ⟨e, he, hmnemonic, rfl⟩

theorem mem_encodings_of_named {mnemonic : String} {e : Encoding} (h : (mnemonic, e) ∈ named) :
    e ∈ encodings := by
  obtain ⟨entry, hentry, -, he⟩ := mem_named.mp h
  exact List.mem_flatMap.mpr ⟨entry, hentry, he⟩

/-- An instruction byte belongs to one encoding of one operation. -/
theorem eq_of_byte_eq {x y : String × Encoding} (hx : x ∈ named) (hy : y ∈ named)
    (hbyte : x.2.byte = y.2.byte) : x = y := by
  have hbytes : named.map (·.2.byte) = encodings.map Encoding.byte := by
    unfold named encodings
    rw [List.map_flatMap, List.map_flatMap]
    refine List.flatMap_congr fun entry _ => ?_
    rw [List.map_map]
    rfl
  have hnodup := nodup_bytes
  rw [← hbytes] at hnodup
  exact List.inj_on_of_nodup_map hnodup hx hy hbyte

theorem nodup_entry_bytes {entry : String × List Encoding} (h : entry ∈ table) :
    (entry.2.map Encoding.byte).Nodup := by
  have hsublist : entry.2.Sublist encodings := by
    unfold encodings
    rw [List.flatMap_def]
    exact List.sublist_flatten_of_mem (List.mem_map_of_mem h)
  exact nodup_bytes.sublist (hsublist.map _)

theorem realizes_entry {entry : String × List Encoding} (h : entry ∈ table) {ts : List Template}
    (hts : Encoding.allTemplates entry.2 = .ok ts) : Encoding.Realizes entry.2 ts :=
  Encoding.realizes_allTemplates
    (fun e he => coherent_encodings e (List.mem_flatMap.mpr ⟨entry, h, he⟩)) (nodup_entry_bytes h) hts

end InstructionSet

/-! ## The templates of the fetch -/

namespace Rom

/-- The template of a step of the fetch, for all instruction bytes and flags. -/
structure IsFetch (step : Nat) (lines : List Control) (t : Template) : Prop where
  wellFormed : t.WellFormed
  asserts : Control.Asserts t.data.word lines
  covers_iff : ∀ n, t.covers n = true ↔ n < microcodeSize ∧ n % 8 = step

theorem isFetch_of_merge {step : Nat} (hstep : step < 8) {lines : List Control} {address data : BitField}
    (ha : BitField.merge [Layout.anyAddress, Layout.stepBits step] = .ok address)
    (hd : Control.wordOf lines = .ok data) : IsFetch step lines ⟨address, data⟩ := by
  obtain ⟨hdc, hdw, hda⟩ := Control.asserts_wordOf hd
  have hcanonical : ∀ g ∈ [Layout.anyAddress, Layout.stepBits step], g.Canonical := by
    intro g hg
    simp only [List.mem_cons, List.not_mem_nil, or_false] at hg
    rcases hg with rfl | rfl
    · exact BitField.canonical_unknown _
    · exact BitField.canonical_place _ _ _ _ (by decide)
  obtain ⟨hac, haw, haa⟩ := BitField.merge_spec hcanonical ha
  refine ⟨⟨(haw Layout.anyAddress (by simp)).symm, hac, hdw, hdc⟩, hda, fun n => ?_⟩
  simp [Template.covers, haa, accepts_stepBits hstep, Layout.anyAddress, BitField.accepts_unknown]

theorem fetchFrom_spec {steps : List (List Control)} {n : Nat} {ts : List Template}
    (h : fetchFrom n steps = .ok ts) (hn : n + steps.length ≤ 8) :
    List.Forall₂ (fun step t => IsFetch step.2 step.1 t) (steps.zipIdx n) ts := by
  induction steps generalizing n ts with
  | nil => cases h; exact .nil
  | cons lines rest ih =>
    rw [List.length_cons] at hn
    obtain ⟨address, ha, h⟩ := bind_eq_ok.mp h
    obtain ⟨data, hd, h⟩ := bind_eq_ok.mp h
    obtain ⟨us, hus, h⟩ := bind_eq_ok.mp h
    cases h
    exact .cons (isFetch_of_merge (by omega) ha hd) (ih hus (by omega))

theorem fetch_spec {ts : List Template} (h : fetch = .ok ts) :
    ∃ t₀ t₁, ts = [t₀, t₁] ∧ IsFetch 0 [.pcOut, .marIn] t₀ ∧
      IsFetch 1 [.ramSelectProgram, .ramOut, .irIn, .pcCount] t₁ := by
  have hspec := fetchFrom_spec h (by decide)
  simp only [fetchSteps, List.zipIdx_cons, List.zipIdx_nil, List.forall₂_cons_left_iff,
    List.forall₂_nil_left_iff] at hspec
  obtain ⟨t₀, _, h₀, ⟨t₁, _, h₁, rfl, rfl⟩, rfl⟩ := hspec
  exact ⟨t₀, t₁, rfl, h₀, h₁⟩

theorem templates_all : ∃ t₀ t₁ ts, templates Operation.all = .ok ([t₀, t₁] ++ ts) ∧
    IsFetch 0 [.pcOut, .marIn] t₀ ∧
    IsFetch 1 [.ramSelectProgram, .ramOut, .irIn, .pcCount] t₁ ∧
    Encoding.Realizes InstructionSet.encodings ts := by
  obtain ⟨T, hT⟩ : ∃ T, templates Operation.all = .ok T := by
    have hok : (templates Operation.all).isOk = true := by decide +kernel
    cases h : templates Operation.all with
    | ok T => exact ⟨T, rfl⟩
    | error e => rw [h] at hok; cases hok
  obtain ⟨first, rest, hfirst, hrest, rfl⟩ := templates_eq_ok.mp hT
  obtain ⟨t₀, t₁, rfl, h₀, h₁⟩ := fetch_spec hfirst
  refine ⟨t₀, t₁, rest.flatten, hT, h₀, h₁, ?_⟩
  have hencodings : InstructionSet.encodings = (InstructionSet.table.map Prod.snd).flatten :=
    List.flatMap_def
  have hnodup := InstructionSet.nodup_bytes
  rw [hencodings] at hnodup ⊢
  refine Encoding.Realizes.flatten ?_ hnodup
  have hentries : List.Forall₂ (fun entry ts => Encoding.allTemplates entry.2 = .ok ts)
      InstructionSet.table rest := by
    rw [Operation.all, List.forall₂_map_left_iff] at hrest
    exact hrest.imp fun entry ts h => mapError_eq_ok.mp h
  rw [List.forall₂_map_left_iff]
  have hboth := (List.forall₂_and_left ..).mpr ⟨fun _ => id, hentries⟩
  exact hboth.imp fun entry ts h => InstructionSet.realizes_entry h.1 h.2

section

variable {encodings : List Encoding} {lines₀ lines₁ : List Control} {t₀ t₁ : Template}
  {ts : List Template}

/-- The templates of steps leave steps 0 and 1 to the fetch. -/
theorem covers_step (hts : Encoding.Realizes encodings ts) {t : Template} (ht : t ∈ ts) {n : Nat}
    (hn : t.covers n = true) : 2 ≤ n % 8 := by
  obtain ⟨e, -, p, -, step, hstep, hs⟩ := hts.sound t ht
  rw [((hs.covers_iff n).mp hn).2.2.1]
  exact (Microprogram.lt_of_mem_numberedSteps hstep).1

theorem wellFormed_templates (h₀ : IsFetch 0 lines₀ t₀) (h₁ : IsFetch 1 lines₁ t₁)
    (hts : Encoding.Realizes encodings ts) : ∀ t ∈ [t₀, t₁] ++ ts, t.WellFormed := by
  intro t ht
  simp only [List.cons_append, List.nil_append, List.mem_cons] at ht
  rcases ht with rfl | rfl | ht
  · exact h₀.wellFormed
  · exact h₁.wellFormed
  · obtain ⟨e, -, p, -, step, -, hs⟩ := hts.sound t ht
    exact hs.wellFormed

theorem disjoint_templates (h₀ : IsFetch 0 lines₀ t₀) (h₁ : IsFetch 1 lines₁ t₁)
    (hts : Encoding.Realizes encodings ts) : ([t₀, t₁] ++ ts).Pairwise Template.Disjoint := by
  simp only [List.cons_append, List.nil_append, List.pairwise_cons, List.mem_cons]
  refine ⟨?_, ?_, hts.disjoint⟩
  · rintro t (rfl | ht) n ⟨hn, hn'⟩
    · have := ((h₀.covers_iff n).mp hn).2
      have := ((h₁.covers_iff n).mp hn').2
      omega
    · have := ((h₀.covers_iff n).mp hn).2
      have := covers_step hts ht hn'
      omega
  · rintro t ht n ⟨hn, hn'⟩
    have := ((h₁.covers_iff n).mp hn).2
    have := covers_step hts ht hn'
    omega

theorem find?_idle (h₀ : IsFetch 0 lines₀ t₀) (h₁ : IsFetch 1 lines₁ t₁)
    (hts : Encoding.Realizes encodings ts) {n : Nat} (hstep : 2 ≤ n % 8)
    (hbytes : ∀ e ∈ encodings, e.byte.toNat ≠ n / 128) :
    ([t₀, t₁] ++ ts).find? (·.covers n) = none := by
  rw [List.find?_eq_none]
  intro t ht hcovers
  simp only [List.cons_append, List.nil_append, List.mem_cons] at ht
  rcases ht with rfl | rfl | ht
  · have := ((h₀.covers_iff n).mp hcovers).2
    omega
  · have := ((h₁.covers_iff n).mp hcovers).2
    omega
  · obtain ⟨e, he, p, -, step, -, hs⟩ := hts.sound t ht
    exact hbytes e he ((hs.covers_iff n).mp hcovers).2.1.symm

end

end Rom

/-! ## The microcode -/

namespace Microcode

/-- Microcode that fetches instructions and runs the given encodings. -/
structure Runs (encodings : List Encoding) (microcode : Microcode) : Prop where
  fetch₀ : ∀ n < microcodeSize, n % 8 = 0 →
    ∃ word, microcode.word? n = some word ∧ Control.Asserts word [.pcOut, .marIn]
  fetch₁ : ∀ n < microcodeSize, n % 8 = 1 → ∃ word, microcode.word? n = some word ∧
    Control.Asserts word [.ramSelectProgram, .ramOut, .irIn, .pcCount]
  step : ∀ e ∈ encodings, ∀ p ∈ e.code, ∀ step ∈ Microprogram.numberedSteps 2 p.steps,
    ∀ n < microcodeSize, n / 128 = e.byte.toNat → n % 8 = step.1 →
      Microprogram.Holds p.conditions (n / 8 % 16) →
        ∃ word, microcode.word? n = some word ∧ Control.Asserts word step.2
  idle : ∀ n < microcodeSize, 2 ≤ n % 8 → (∀ e ∈ encodings, e.byte.toNat ≠ n / 128) →
    ∃ word, microcode.word? n = some word ∧ Control.Asserts word []

theorem find?_of_disjoint {ts : List Template} (hd : ts.Pairwise Template.Disjoint) {t : Template}
    (ht : t ∈ ts) {n : Nat} (hn : t.covers n = true) : ts.find? (·.covers n) = some t := by
  cases h : ts.find? (·.covers n) with
  | none => exact absurd hn (List.find?_eq_none.mp h t ht)
  | some u =>
    have hu : u.covers n = true := by simpa using List.find?_some h
    by_contra hne
    have hsymm : Std.Symm Template.Disjoint := ⟨fun t u h n hn => h n hn.symm⟩
    exact hd.forall ht (List.mem_of_find?_eq_some h) (fun e => hne (by rw [e])) n ⟨hn, hu⟩

theorem data_entryAt {ts : List Template} {t : Template} {n : Nat} (wf : t.WellFormed)
    (h : ts.find? (·.covers n) = some t) : (Rom.entryAt ts n).data.word = t.data.word := by
  have hword := Rom.word_and_mask wf.data_canonical
  rw [wf.data_width] at hword
  simp only [Rom.entryAt, h, Rom.entryOf, BitField.ofWord, BitField.word] at hword ⊢
  rw [hword, hword]

/-- The control words of the instruction set, by the templates of the fetch and of the steps. -/
theorem exists_standard_words : ∃ microcode t₀ t₁ ts, standard = .ok microcode ∧
    Rom.IsFetch 0 [.pcOut, .marIn] t₀ ∧
    Rom.IsFetch 1 [.ramSelectProgram, .ramOut, .irIn, .pcCount] t₁ ∧
    Encoding.Realizes InstructionSet.encodings ts ∧
    (∀ t ∈ [t₀, t₁] ++ ts, ∀ n < microcodeSize, t.covers n = true →
      microcode.word? n = some t.data.word) ∧
    ∀ n < microcodeSize, ([t₀, t₁] ++ ts).find? (·.covers n) = none →
      microcode.word? n = some 0#64 := by
  obtain ⟨t₀, t₁, ts, hT, h₀, h₁, hts⟩ := Rom.templates_all
  have wf := Rom.wellFormed_templates h₀ h₁ hts
  have disjoint := Rom.disjoint_templates h₀ h₁ hts
  have hbuild := Rom.build_ok hT wf disjoint
  obtain ⟨microcode, hrom, hword⟩ := ofRom_ok ([t₀, t₁] ++ ts)
  refine ⟨microcode, t₀, t₁, ts, ?_, h₀, h₁, hts, ?_, ?_⟩
  · rw [standard, bind_eq_ok]
    exact ⟨_, hbuild, mapError_eq_ok.mpr hrom⟩
  · intro t ht n hn hcovers
    rw [hword n hn, data_entryAt (wf t ht) (find?_of_disjoint disjoint ht hcovers)]
  · intro n hn hnone
    rw [hword n hn, Rom.entryAt, hnone]
    simp [Rom.idleEntry, Control.idleWord, BitField.ofWord, BitField.word]

theorem asserts_nil : Control.Asserts 0#64 [] := by
  intro line
  simp [Control.isActive]

theorem exists_standard :
    ∃ microcode, standard = .ok microcode ∧ Runs InstructionSet.encodings microcode := by
  obtain ⟨microcode, t₀, t₁, ts, hstandard, h₀, h₁, hts, word, idle⟩ := exists_standard_words
  refine ⟨microcode, hstandard, ?_, ?_, ?_, ?_⟩
  · intro n hn hstep
    exact ⟨_, word t₀ (by simp) n hn ((h₀.covers_iff n).mpr ⟨hn, hstep⟩), h₀.asserts⟩
  · intro n hn hstep
    exact ⟨_, word t₁ (by simp) n hn ((h₁.covers_iff n).mpr ⟨hn, hstep⟩), h₁.asserts⟩
  · intro e he p hp step hstep n hn hbyte hnumber hholds
    obtain ⟨t, ht, hs⟩ := hts.complete e he p hp step hstep
    exact ⟨_, word t (by simp [ht]) n hn ((hs.covers_iff n).mpr ⟨hn, hbyte, hnumber, hholds⟩),
      hs.asserts⟩
  · intro n hn hstep hbytes
    exact ⟨0#64, idle n hn (Rom.find?_idle h₀ h₁ hts hstep hbytes), asserts_nil⟩

end Microcode

end Microcomputer
