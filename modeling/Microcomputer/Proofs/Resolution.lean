import Mathlib
import Microcomputer.Assembly.Assembler
import Microcomputer.Proofs.Reading
import Microcomputer.Proofs.Validity

/-!
# What the passes of the assembler do to lines

Each pass goes through the lines one by one and changes only indices, bits and bound labels.

* `Line.erased` : a line without what the passes add to it; no pass changes it;
* `Line.getElem?_indexFrom` : the indices of the bytes;
* `CodeByte.constantBits` : the bits of a byte, given the addresses of labels and variables;
* `Assembler.resolve_spec` : the lines after all constants are resolved, one by one;
* `Assembler.resolve_isOk` : resolving succeeds if every constant fits a byte.
-/

namespace Microcomputer

open Traversal

/-! ## What no pass changes -/

def CodeByte.erased (byte : CodeByte) : CodeByte := { byte with bits := .empty, index := 0 }

def Content.erased : Content → Content
  | .code bytes => .code (bytes.map CodeByte.erased)
  | content => content

namespace Content

@[simp] theorem labelName?_erased (content : Content) :
    content.erased.labelName? = content.labelName? := by
  cases content <;> rfl

@[simp] theorem variableName?_erased (content : Content) :
    content.erased.variableName? = content.variableName? := by
  cases content <;> rfl

@[simp] theorem isCode_erased (content : Content) : content.erased.isCode = content.isCode := by
  cases content <;> rfl

@[simp] theorem bytes_erased (content : Content) :
    content.erased.bytes = content.bytes.map CodeByte.erased := by
  cases content <;> rfl

@[simp] theorem variableNames_erased (content : Content) :
    content.erased.variableNames = content.variableNames := by
  rw [variableNames, variableNames, variableName?_erased, bytes_erased, List.filter_map, List.map_map]
  rfl

end Content

namespace Line

/-- A line without what the passes add to it. -/
def erased (line : Line) : Line := { line with content := line.content.erased, label := none }

theorem bytes_withBytes {line : Line} {bytes : List CodeByte} (h : bytes.length = line.bytes.length) :
    (line.withBytes bytes).bytes = bytes := by
  have hblank : line.bytes = [] → bytes = [] := by
    intro hnil
    rw [hnil] at h
    exact List.length_eq_zero_iff.mp h
  unfold withBytes
  cases hcontent : line.content with
  | code old => rfl
  | _ =>
    rw [hblank (by rw [Line.bytes, hcontent]; rfl)]
    rw [Line.bytes, hcontent]
    rfl

theorem erased_withBytes {line : Line} {bytes : List CodeByte}
    (h : bytes.map CodeByte.erased = line.bytes.map CodeByte.erased) :
    (line.withBytes bytes).erased = line.erased := by
  unfold withBytes
  cases hcontent : line.content with
  | code old =>
    rw [Line.bytes, hcontent] at h
    simp only [erased, hcontent, Content.erased]
    rw [h]
    rfl
  | _ => rfl

theorem label_withBytes (line : Line) (bytes : List CodeByte) :
    (line.withBytes bytes).label = line.label := by
  unfold withBytes
  split <;> rfl

/-! ## Indices -/

theorem getElem?_numberBytes (bytes : List CodeByte) (index k : Nat) :
    (numberBytes index bytes)[k]? = bytes[k]?.map fun byte => { byte with index := index + k } := by
  induction bytes generalizing index k with
  | nil => rfl
  | cons byte rest ih =>
    cases k with
    | zero => rfl
    | succ k =>
      rw [numberBytes, List.getElem?_cons_succ, ih, List.getElem?_cons_succ,
        Nat.add_assoc, Nat.add_comm 1 k]

theorem length_numberBytes (bytes : List CodeByte) (index : Nat) :
    (numberBytes index bytes).length = bytes.length := by
  induction bytes generalizing index with
  | nil => rfl
  | cons byte rest ih => rw [numberBytes, List.length_cons, ih, List.length_cons]

theorem erased_numberBytes (bytes : List CodeByte) (index : Nat) :
    (numberBytes index bytes).map CodeByte.erased = bytes.map CodeByte.erased := by
  induction bytes generalizing index with
  | nil => rfl
  | cons byte rest ih =>
    rw [numberBytes, List.map_cons, ih]
    rfl

theorem getElem?_indexFrom (lines : List Line) (index i : Nat) :
    (indexFrom index lines)[i]? = lines[i]?.map fun line =>
      line.withBytes (numberBytes (index + totalBytes (lines.take i)) line.bytes) := by
  induction lines generalizing index i with
  | nil => rfl
  | cons line rest ih =>
    cases i with
    | zero => rfl
    | succ i =>
      rw [indexFrom, List.getElem?_cons_succ, ih, List.getElem?_cons_succ, List.take_succ_cons]
      simp only [totalBytes, List.flatMap_cons, List.length_append, Nat.add_assoc]

theorem erased_indexFrom (lines : List Line) (index : Nat) :
    (indexFrom index lines).map erased = lines.map erased := by
  induction lines generalizing index with
  | nil => rfl
  | cons line rest ih =>
    rw [indexFrom, List.map_cons, ih, erased_withBytes (erased_numberBytes ..), List.map_cons]

theorem label_indexFrom {lines : List Line} (h : ∀ line ∈ lines, line.label = none) (index : Nat) :
    ∀ line ∈ indexFrom index lines, line.label = none := by
  induction lines generalizing index with
  | nil => simp [indexFrom]
  | cons line rest ih =>
    rw [List.forall_mem_cons] at h
    rw [indexFrom, List.forall_mem_cons, label_withBytes]
    exact ⟨h.1, ih h.2 _⟩

theorem erased_bindLabels (lines : List Line) (pending : Option String) :
    (bindLabels pending lines).map erased = lines.map erased := by
  fun_induction bindLabels pending lines with
  | case1 => rfl
  | case2 line rest name hcontent ih => rw [List.map_cons, ih, List.map_cons]
  | case3 line rest bytes name hcontent ih =>
    rw [List.map_cons, ih, List.map_cons]
    rfl
  | case4 pending line rest h₁ h₂ ih => rw [List.map_cons, ih, List.map_cons]

theorem withBytes_withBytes (line : Line) (bytes bytes' : List CodeByte) :
    (line.withBytes bytes).withBytes bytes' = line.withBytes bytes' := by
  cases hcontent : line.content <;> simp [withBytes, hcontent]

end Line

/-! ## Constants -/

theorem byteBits_eq_ok {value : Int} {bits : BitField} : byteBits value = .ok bits ↔
    (-128 ≤ value ∧ value < 256) ∧ bits = .ofWord (BitVec.ofInt 64 value) 8 := by
  have hfits := BitField.fits_byte value
  unfold byteBits BitField.ofNumber
  split
  case isTrue h =>
    rw [and_iff_right (hfits.mp h)]
    exact ⟨fun h => (Except.ok.inj h).symm, fun h => congrArg _ h.symm⟩
  case isFalse h =>
    rw [hfits] at h
    exact ⟨fun hcon => (nomatch hcon), fun hcon => absurd hcon.1 h⟩

theorem byteBits_natCast {n : Nat} {bits : BitField} : byteBits n = .ok bits ↔
    n < 256 ∧ bits = .ofWord (BitVec.ofNat 64 n) 8 := by
  rw [byteBits_eq_ok, BitVec.ofInt_natCast]
  exact and_congr_left fun _ => by omega

namespace CodeByte

/-- What the pass for one kind of constants makes of a byte. -/
def Passes (kind : ConstantKind) (value : CodeByte → Except BitError BitField)
    (byte after : CodeByte) : Prop :=
  if byte.kind = .constant ∧ byte.constantKind = kind then
    ∃ bits, value byte = .ok bits ∧ after = { byte with bits := bits }
  else after = byte

/-- The bits of a byte, given the addresses of labels and variables. -/
def constantBits (labels : List (String × Nat)) (places : List (String × Int))
    (byte : CodeByte) : Except BitError BitField :=
  if byte.kind = .constant then
    match byte.constantKind with
    | .label => byteBits ((labels.lookup byte.constant).getD 0)
    | .number => byteBits byte.number
    | .variable => byteBits ((places.lookup byte.constant).getD 0)
    | _ => .ok byte.bits
  else .ok byte.bits

/-- A byte after its constant is resolved. -/
def Resolves (labels : List (String × Nat)) (places : List (String × Int))
    (byte after : CodeByte) : Prop :=
  ∃ bits, byte.constantBits labels places = .ok bits ∧ after = { byte with bits := bits }

section

variable {kind : ConstantKind} {value : CodeByte → Except BitError BitField} {byte after : CodeByte}

theorem Passes.eq_of_ne (h : Passes kind value byte after) (hne : byte.constantKind ≠ kind) :
    after = byte := by
  rwa [Passes, if_neg fun hcon => hne hcon.2] at h

theorem Passes.eq_of_kind (h : Passes kind value byte after) (hne : byte.kind ≠ .constant) :
    after = byte := by
  rwa [Passes, if_neg fun hcon => hne hcon.1] at h

theorem Passes.erased_eq (h : Passes kind value byte after) : after.erased = byte.erased := by
  unfold Passes at h
  split at h
  · obtain ⟨bits, -, rfl⟩ := h
    rfl
  · rw [h]

end

theorem resolves_of_passes {labels : List (String × Nat)} {places : List (String × Int)}
    {byte first second third : CodeByte}
    (h₁ : Passes .label (fun byte => byteBits ((labels.lookup byte.constant).getD 0)) byte first)
    (h₂ : Passes .number (fun byte => byteBits byte.number) first second)
    (h₃ : Passes .variable (fun byte => byteBits ((places.lookup byte.constant).getD 0)) second third) :
    Resolves labels places byte third := by
  by_cases hkind : byte.kind = .constant
  · cases hconstant : byte.constantKind with
    | label =>
      rw [Passes, if_pos ⟨hkind, hconstant⟩] at h₁
      obtain ⟨bits, hbits, rfl⟩ := h₁
      obtain rfl := h₂.eq_of_ne (by simp [hconstant])
      obtain rfl := h₃.eq_of_ne (by simp [hconstant])
      exact ⟨bits, by simpa [constantBits, hkind, hconstant] using hbits, rfl⟩
    | number =>
      obtain rfl := h₁.eq_of_ne (by simp [hconstant])
      rw [Passes, if_pos ⟨hkind, hconstant⟩] at h₂
      obtain ⟨bits, hbits, rfl⟩ := h₂
      obtain rfl := h₃.eq_of_ne (by simp [hconstant])
      exact ⟨bits, by simpa [constantBits, hkind, hconstant] using hbits, rfl⟩
    | «variable» =>
      obtain rfl := h₁.eq_of_ne (by simp [hconstant])
      obtain rfl := h₂.eq_of_ne (by simp [hconstant])
      rw [Passes, if_pos ⟨hkind, hconstant⟩] at h₃
      obtain ⟨bits, hbits, rfl⟩ := h₃
      exact ⟨bits, by simpa [constantBits, hkind, hconstant] using hbits, rfl⟩
    | _ =>
      obtain rfl := h₁.eq_of_ne (by simp [hconstant])
      obtain rfl := h₂.eq_of_ne (by simp [hconstant])
      obtain rfl := h₃.eq_of_ne (by simp [hconstant])
      exact ⟨_, by simp [constantBits, hconstant], rfl⟩
  · obtain rfl := h₁.eq_of_kind hkind
    obtain rfl := h₂.eq_of_kind hkind
    obtain rfl := h₃.eq_of_kind hkind
    exact ⟨_, by simp [constantBits, hkind], rfl⟩

end CodeByte

namespace Line

def Passes (kind : ConstantKind) (value : CodeByte → Except BitError BitField) (line after : Line) :
    Prop :=
  ∃ bytes, List.Forall₂ (CodeByte.Passes kind value) line.bytes bytes ∧ after = line.withBytes bytes

def Resolves (labels : List (String × Nat)) (places : List (String × Int)) (line after : Line) :
    Prop :=
  ∃ bytes, List.Forall₂ (CodeByte.Resolves labels places) line.bytes bytes ∧
    after = line.withBytes bytes

theorem resolve_eq_ok {kind : ConstantKind} {value : CodeByte → Except BitError BitField}
    {line after : Line} : resolve kind value line = .ok after ↔ Passes kind value line after := by
  unfold resolve Passes
  rw [bind_eq_ok]
  refine exists_congr fun bytes => and_congr ?_ ?_
  · rw [mapM_eq_ok]
    refine Iff.of_eq (congrArg (fun R => List.Forall₂ R line.bytes bytes) ?_)
    funext byte new
    rw [eq_iff_iff, CodeByte.Passes]
    by_cases hpass : byte.kind = .constant ∧ byte.constantKind = kind
    · rw [if_pos hpass, if_pos (by simpa using hpass)]
      cases hvalue : value byte with
      | ok bits =>
        simp [eq_comm]
      | error e => simp
    · rw [if_neg hpass, if_neg (by simpa using hpass)]
      exact ⟨fun h => (Except.ok.inj h).symm, fun h => congrArg _ h.symm⟩
  · exact ⟨fun h => (Except.ok.inj h).symm, fun h => congrArg _ h.symm⟩

theorem resolve_isOk {kind : ConstantKind} {value : CodeByte → Except BitError BitField} {line : Line}
    (h : ∀ byte ∈ line.bytes, byte.constantKind = kind → ∃ bits, value byte = .ok bits) :
    ∃ after, resolve kind value line = .ok after := by
  have hbytes : ∃ bytes, List.Forall₂ (CodeByte.Passes kind value) line.bytes bytes := by
    generalize line.bytes = old at h
    induction old with
    | nil => exact ⟨[], .nil⟩
    | cons byte rest ih =>
      rw [List.forall_mem_cons] at h
      obtain ⟨bytes, hrest⟩ := ih h.2
      by_cases hpass : byte.kind = .constant ∧ byte.constantKind = kind
      · obtain ⟨bits, hbits⟩ := h.1 hpass.2
        refine ⟨{ byte with bits := bits } :: bytes, .cons ?_ hrest⟩
        rw [CodeByte.Passes, if_pos hpass]
        exact ⟨bits, hbits, rfl⟩
      · refine ⟨byte :: bytes, .cons ?_ hrest⟩
        rw [CodeByte.Passes, if_neg hpass]
  obtain ⟨bytes, hbytes⟩ := hbytes
  exact ⟨line.withBytes bytes, resolve_eq_ok.mpr ⟨bytes, hbytes, rfl⟩⟩

theorem Passes.erased_eq {kind : ConstantKind} {value : CodeByte → Except BitError BitField}
    {line after : Line} (h : Passes kind value line after) : after.erased = line.erased := by
  obtain ⟨bytes, hbytes, rfl⟩ := h
  apply erased_withBytes
  rw [← List.forall₂_eq_eq_eq, List.forall₂_map_left_iff, List.forall₂_map_right_iff]
  exact hbytes.flip.imp fun new byte (h : CodeByte.Passes kind value byte new) => h.erased_eq

theorem Passes.bytes_forall₂ {kind : ConstantKind} {value : CodeByte → Except BitError BitField}
    {line after : Line} (h : Passes kind value line after) :
    List.Forall₂ (CodeByte.Passes kind value) line.bytes after.bytes := by
  obtain ⟨bytes, hbytes, rfl⟩ := h
  rwa [bytes_withBytes hbytes.length_eq.symm]

theorem Resolves.bytes_forall₂ {labels : List (String × Nat)} {places : List (String × Int)}
    {line after : Line} (h : Resolves labels places line after) :
    List.Forall₂ (CodeByte.Resolves labels places) line.bytes after.bytes := by
  obtain ⟨bytes, hbytes, rfl⟩ := h
  rwa [bytes_withBytes hbytes.length_eq.symm]

theorem Resolves.erased_eq {labels : List (String × Nat)} {places : List (String × Int)}
    {line after : Line} (h : Resolves labels places line after) : after.erased = line.erased := by
  obtain ⟨bytes, hbytes, rfl⟩ := h
  apply erased_withBytes
  rw [← List.forall₂_eq_eq_eq, List.forall₂_map_left_iff, List.forall₂_map_right_iff]
  refine hbytes.flip.imp ?_
  rintro new byte ⟨bits, -, rfl⟩
  rfl

theorem resolves_of_passes {labels : List (String × Nat)} {places : List (String × Int)}
    {line first second third : Line}
    (h₁ : Passes .label (fun byte => byteBits ((labels.lookup byte.constant).getD 0)) line first)
    (h₂ : Passes .number (fun byte => byteBits byte.number) first second)
    (h₃ : Passes .variable (fun byte => byteBits ((places.lookup byte.constant).getD 0)) second third) :
    Resolves labels places line third := by
  refine ⟨third.bytes, ?_, ?_⟩
  · refine (forall₂_comp (forall₂_comp h₁.bytes_forall₂ h₂.bytes_forall₂) h₃.bytes_forall₂).imp ?_
    rintro byte last ⟨_, ⟨_, hfirst, hsecond⟩, hthird⟩
    exact CodeByte.resolves_of_passes hfirst hsecond hthird
  · obtain ⟨bytes₁, -, rfl⟩ := h₁
    obtain ⟨bytes₂, -, rfl⟩ := h₂
    obtain ⟨bytes₃, hforall, rfl⟩ := h₃
    rw [bytes_withBytes hforall.length_eq.symm, withBytes_withBytes, withBytes_withBytes]

end Line

/-! ## All passes -/

/-- A pass that keeps what lines are without the passes keeps it for the whole program. -/
theorem erased_eq_of_forall₂ {R : Line → Line → Prop} (hR : ∀ line after, R line after →
      after.erased = line.erased) {lines final : List Line} (h : List.Forall₂ R lines final) :
    final.map Line.erased = lines.map Line.erased := by
  rw [← List.forall₂_eq_eq_eq, List.forall₂_map_left_iff, List.forall₂_map_right_iff]
  exact h.flip.imp fun after line (h : R line after) => hR line after h

theorem flatMap_variableNames_erased (lines : List Line) :
    (lines.map Line.erased).flatMap Line.variableNames = lines.flatMap Line.variableNames := by
  rw [List.flatMap_map]
  congr 1
  funext line
  exact Content.variableNames_erased line.content

theorem variableAddresses_congr (start : Int) {lines lines' : List Line}
    (h : lines'.map Line.erased = lines.map Line.erased) :
    variableAddresses start lines' = variableAddresses start lines := by
  rw [variableAddresses, variableAddresses, variableNames_eq, variableNames_eq,
    ← flatMap_variableNames_erased lines', h, flatMap_variableNames_erased]

theorem exists_byte_of_erased {lines lines' : List Line}
    (h : lines'.map Line.erased = lines.map Line.erased) {line : Line} (hline : line ∈ lines')
    {byte : CodeByte} (hbyte : byte ∈ line.bytes) :
    ∃ old ∈ lines, ∃ oldByte ∈ old.bytes, oldByte.erased = byte.erased := by
  have hmem : line.erased ∈ lines.map Line.erased := h ▸ List.mem_map_of_mem hline
  obtain ⟨old, hold, herased⟩ := List.mem_map.mp hmem
  have hbytes : old.bytes.map CodeByte.erased = line.bytes.map CodeByte.erased := by
    rw [Line.bytes, Line.bytes, ← Content.bytes_erased, ← Content.bytes_erased]
    exact congrArg (fun line => line.content.bytes) herased
  have hmem' : byte.erased ∈ old.bytes.map CodeByte.erased := hbytes ▸ List.mem_map_of_mem hbyte
  exact ⟨old, hold, List.mem_map.mp hmem'⟩

theorem resolvePass_isOk {kind : ConstantKind} {value : CodeByte → Except BitError BitField}
    {lines : List Line} (h : ∀ line ∈ lines, ∀ byte ∈ line.bytes, byte.constantKind = kind →
      ∃ bits, value byte = .ok bits) :
    ∃ after, lines.mapM (Line.resolve kind value) = .ok after ∧
      List.Forall₂ (Line.Passes kind value) lines after := by
  obtain ⟨after, hafter⟩ := mapM_isOk fun line hline => Line.resolve_isOk (h line hline)
  exact ⟨after, hafter, (mapM_eq_ok.mp hafter).imp fun _ _ => Line.resolve_eq_ok.mp⟩

namespace Assembler

theorem resolve_spec {asm : Assembler} {lines final : List Line} (h : asm.resolve lines = .ok final) :
    List.Forall₂ (Line.Resolves (labelAddresses lines) (variableAddresses asm.variableStart lines))
      lines final := by
  unfold resolve at h
  obtain ⟨first, hfirst, h⟩ := bind_eq_ok.mp h
  obtain ⟨second, hsecond, hthird⟩ := bind_eq_ok.mp h
  have hpasses : ∀ {kind : ConstantKind} {value : CodeByte → Except BitError BitField}
      {lines after : List Line}, lines.mapM (Line.resolve kind value) = .ok after →
      List.Forall₂ (Line.Passes kind value) lines after := by
    intro kind value lines after h
    exact (mapM_eq_ok.mp h).imp fun _ _ => Line.resolve_eq_ok.mp
  have h₁ := hpasses hfirst
  have h₂ := hpasses hsecond
  have h₃ := hpasses hthird
  -- the variables are placed after two passes, which change none of them
  have herased : second.map Line.erased = lines.map Line.erased :=
    (erased_eq_of_forall₂ (fun _ _ h => h.erased_eq) h₂).trans
      (erased_eq_of_forall₂ (fun _ _ h => h.erased_eq) h₁)
  rw [variableAddresses_congr asm.variableStart herased] at h₃
  refine (forall₂_comp (forall₂_comp h₁ h₂) h₃).imp ?_
  rintro line last ⟨_, ⟨_, hline, hline'⟩, hline''⟩
  exact Line.resolves_of_passes hline hline' hline''

theorem resolve_isOk (asm : Assembler) {lines : List Line}
    (hlabels : ∀ name, ∃ bits, byteBits (((labelAddresses lines).lookup name).getD 0) = .ok bits)
    (hnumbers : ∀ line ∈ lines, ∀ byte ∈ line.bytes, byte.constantKind = .number →
      ∃ bits, byteBits byte.number = .ok bits)
    (hplaces : ∀ name, ∃ bits,
      byteBits (((variableAddresses asm.variableStart lines).lookup name).getD 0) = .ok bits) :
    ∃ final, asm.resolve lines = .ok final := by
  have hlabels' : ∀ line ∈ lines, ∀ byte ∈ line.bytes, byte.constantKind = .label →
      ∃ bits, byteBits (((labelAddresses lines).lookup byte.constant).getD 0) = .ok bits :=
    fun _ _ byte _ _ => hlabels byte.constant
  obtain ⟨first, hfirst, h₁⟩ := resolvePass_isOk hlabels'
  have herased₁ : first.map Line.erased = lines.map Line.erased :=
    erased_eq_of_forall₂ (fun _ _ h => h.erased_eq) h₁
  have hnumbers' : ∀ line ∈ first, ∀ byte ∈ line.bytes, byte.constantKind = .number →
      ∃ bits, byteBits byte.number = .ok bits := by
    intro line hline byte hbyte hkind
    obtain ⟨old, hold, oldByte, holdByte, heq⟩ := exists_byte_of_erased herased₁ hline hbyte
    have hkind' : oldByte.constantKind = .number := (congrArg CodeByte.constantKind heq).trans hkind
    have hnumber : oldByte.number = byte.number := by
      simpa only [CodeByte.erased] using congrArg CodeByte.number heq
    exact hnumber ▸ hnumbers old hold oldByte holdByte hkind'
  obtain ⟨second, hsecond, h₂⟩ := resolvePass_isOk hnumbers'
  have herased₂ : second.map Line.erased = lines.map Line.erased :=
    (erased_eq_of_forall₂ (fun _ _ h => h.erased_eq) h₂).trans herased₁
  have hplaces' : ∀ line ∈ second, ∀ byte ∈ line.bytes, byte.constantKind = .variable →
      ∃ bits, byteBits (((variableAddresses asm.variableStart second).lookup byte.constant).getD 0) =
        .ok bits := by
    intro line _ byte _ _
    rw [variableAddresses_congr asm.variableStart herased₂]
    exact hplaces byte.constant
  obtain ⟨third, hthird, -⟩ := resolvePass_isOk hplaces'
  exact ⟨third, bind_eq_ok.mpr ⟨first, hfirst, bind_eq_ok.mpr ⟨second, hsecond, hthird⟩⟩⟩

end Assembler

end Microcomputer
