import Mathlib
import Microcomputer.Bits.Number
import Microcomputer.Proofs.Bits

/-!
# Numbers in fields of any width

A field of `w` bits holds a number modulo `2 ^ w`, so that it can be read as an unsigned number and be written
as one or as a negative one. The bounds `-2 ^ (w - 1)` and `2 ^ w - 1` can be computed in 64-bit words that wrap
around: with 63 bits, `2 ^ 63` is the lowest number there is, and one less is the highest.

* `ofWord_eq_iff` : words with the same remainder give the same field;
* `fits_iff`, `ofNumber_eq_ok` : the numbers that can be written, `natCast_word` : the word that is written;
* `fitsWord`, `ofNumberWord`, `toNumberWord` : the same in words, `toInt_power` : a power of 2 that may wrap;
* `fitsWord_eq`, `ofNumberWord_eq`, `toNumberWord_eq` : it is the same;
* `toNumber_of_ofNumber`, `ofNumber_inj`, `ofNumber_of_toNumber` : writing and reading;
* `numbers_in_complement` : all of it.
-/

namespace Microcomputer.BitField

variable {f g : BitField} {value width : Int}

/-! ## Remainders -/

theorem word_ofWord (w : BitVec 64) (width : Nat) : (ofWord w width).word = w &&& mask width := by
  rw [word, ofWord, BitVec.and_assoc, BitVec.and_self]

theorem ofWord_eq_iff (v w : BitVec 64) (width : Nat) :
    ofWord v width = ofWord w width ↔ v.toNat % 2 ^ width = w.toNat % 2 ^ width := by
  rw [← toNat_and_mask, ← toNat_and_mask, BitVec.toNat_inj]
  constructor
  · intro h
    rw [← word_ofWord, h, word_ofWord]
  · intro h
    rw [ofWord, h, ← ofWord]

/-! ## Writing a number -/

theorem fits_iff : fits value width = true ↔ (1 ≤ width ∧ width ≤ 63) ∧
    -2 ^ (width - 1).toNat ≤ value ∧ value ≤ 2 ^ width.toNat - 1 := by
  have hcast : ∀ n : Nat, ((1 <<< n : Nat) : Int) = 2 ^ n := by
    intro n
    rw [Nat.shiftLeft_eq, one_mul]
    norm_cast
  simp only [fits, Bool.and_eq_true, decide_eq_true_eq]
  rw [hcast, hcast, maxWidth]
  omega

theorem ofNumber_eq_ok : ofNumber value width = .ok f ↔
    fits value width = true ∧ f = ofWord (BitVec.ofInt 64 value) width.toNat := by
  unfold ofNumber
  split
  · rename_i hfits
    exact ⟨fun e => ⟨hfits, (Except.ok.inj e).symm⟩, fun e => e.2 ▸ rfl⟩
  · rename_i hfits
    exact ⟨fun e => (nomatch e), fun e => absurd e.1 hfits⟩

theorem natCast_word {n : Nat} (hn : n ≤ 64) (value : Int) :
    ((ofWord (BitVec.ofInt 64 value) n).word.toNat : Int) = value % 2 ^ n := by
  have hdvd : (2 ^ n : Int) ∣ 2 ^ 64 := pow_dvd_pow 2 hn
  rw [word_ofWord, toNat_and_mask, BitVec.toNat_ofInt, Int.natCast_emod, Int.toNat_of_nonneg]
  · push_cast
    exact Int.emod_emod_of_dvd value hdvd
  · exact Int.emod_nonneg _ (by norm_num)

/-! ## In words -/

/-- Whether `width` bits hold `value`, with bounds that wrap around. -/
def fitsWord (value width : Int64) : Bool :=
  0 < width && width < 64 && -(1 <<< (width - 1)) ≤ value && value ≤ (1 <<< width) - 1

/-- The number `value` in `width` bits; a negative one is moved up by a power of 2. -/
def ofNumberWord (value width : Int64) : Except BitError BitField :=
  if fitsWord value width then
    .ok (ofWord (if value < 0 then value + 1 <<< width else value).toBitVec width.toInt.toNat)
  else .error (.numberRange value.toInt width.toInt)

/-- The number in a concrete field of less than 64 bits, as a signed word. -/
def toNumberWord (f : BitField) : Except BitError Int64 :=
  if f.isConcrete && f.width < maxWidth then .ok (.ofBitVec f.word) else .error .outOfRange

section

variable {v w : Int64}

theorem toBitVec_power (hw : 0 ≤ w.toInt) (hlt : w.toInt < 64) :
    ((1 : Int64) <<< w).toBitVec = 1#64 <<< w.toInt.toNat := by
  have hsmod : w.toBitVec.smod 64 = w.toBitVec := by
    apply BitVec.eq_of_toInt_eq
    rw [BitVec.toInt_smod, Int64.toInt_toBitVec, show (64 : BitVec 64).toInt = 64 from rfl,
      Int.fmod_eq_of_lt hw hlt]
  have hnat : w.toBitVec.toNat = w.toInt.toNat := by
    have hcond := BitVec.toInt_eq_toNat_cond w.toBitVec
    rw [Int64.toInt_toBitVec] at hcond
    split at hcond <;> omega
  rw [Int64.toBitVec_shiftLeft, hsmod, BitVec.shiftLeft_eq', hnat]
  rfl

theorem toNat_power {n : Nat} (hn : n < 64) : (1#64 <<< n).toNat = 2 ^ n := by
  rw [BitVec.toNat_shiftLeft, show (1#64).toNat = 1 from rfl, Nat.shiftLeft_eq, one_mul,
    Nat.mod_eq_of_lt (Nat.pow_lt_pow_right (by decide) hn)]

/-- A power of 2 as a signed word; `2 ^ 63` wraps around. -/
theorem toInt_power (hw : 0 ≤ w.toInt) (hlt : w.toInt < 64) :
    ((1 : Int64) <<< w).toInt = (2 ^ w.toInt.toNat : Int).bmod (2 ^ 64) := by
  rw [← Int64.toInt_toBitVec, toBitVec_power hw hlt, BitVec.toInt_eq_toNat_bmod, toNat_power (by omega)]
  push_cast
  rfl

theorem toInt_lower (hw : 1 ≤ w.toInt) (hle : w.toInt ≤ 63) :
    (-((1 : Int64) <<< (w - 1))).toInt = -2 ^ (w.toInt - 1).toNat := by
  have hpred : (w - 1).toInt = w.toInt - 1 := by
    rw [Int64.toInt_sub, Int64.toInt_one, Int.bmod_eq_of_le (by omega) (by omega)]
  have hpow : (2 : Int) ^ (w.toInt - 1).toNat ≤ 2 ^ 62 := pow_le_pow_right₀ (by decide) (by omega)
  have hpos : (0 : Int) < 2 ^ (w.toInt - 1).toNat := by positivity
  have hbound : ((2 : Int) ^ (w.toInt - 1).toNat).bmod (2 ^ 64) = 2 ^ (w.toInt - 1).toNat :=
    Int.bmod_eq_of_le (by omega) (by omega)
  rw [Int64.toInt_neg, toInt_power (by omega) (by omega), hpred, hbound, Int.bmod_eq_of_le (by omega) (by omega)]

theorem toInt_upper (hw : 1 ≤ w.toInt) (hle : w.toInt ≤ 63) :
    ((1 : Int64) <<< w - 1).toInt = 2 ^ w.toInt.toNat - 1 := by
  have hpow : (2 : Int) ^ w.toInt.toNat ≤ 2 ^ 63 := pow_le_pow_right₀ (by decide) (by omega)
  have hpos : (0 : Int) < 2 ^ w.toInt.toNat := by positivity
  rw [Int64.toInt_sub, toInt_power (by omega) (by omega), Int64.toInt_one, Int.bmod_sub_bmod,
    Int.bmod_eq_of_le (by omega) (by omega)]

/-- The bounds are right although they wrap around. -/
theorem fitsWord_eq (v w : Int64) : fitsWord v w = fits v.toInt w.toInt := by
  rw [Bool.eq_iff_iff, fits_iff, fitsWord]
  simp only [Bool.and_eq_true, decide_eq_true_eq, Int64.lt_iff_toInt_lt, Int64.le_iff_toInt_le]
  rw [show (0 : Int64).toInt = 0 from rfl, show (64 : Int64).toInt = 64 from rfl]
  by_cases hwidth : 1 ≤ w.toInt ∧ w.toInt ≤ 63
  · rw [toInt_lower hwidth.1 hwidth.2, toInt_upper hwidth.1 hwidth.2]
    omega
  · -- the bounds are not looked at
    constructor
    · rintro ⟨⟨⟨hpos, hlt⟩, -⟩, -⟩
      omega
    · rintro ⟨hinside, -⟩
      exact absurd hinside hwidth

theorem ofNumberWord_eq (v w : Int64) : ofNumberWord v w = ofNumber v.toInt w.toInt := by
  unfold ofNumberWord ofNumber
  rw [fitsWord_eq]
  split
  · rename_i hfits
    obtain ⟨⟨hpos, hle⟩, -⟩ := fits_iff.mp hfits
    have hdvd : 2 ^ w.toInt.toNat ∣ 2 ^ 64 := pow_dvd_pow 2 (show w.toInt.toNat ≤ 64 by omega)
    have hvalue : BitVec.ofInt 64 v.toInt = v.toBitVec := by rw [← Int64.toInt_toBitVec, BitVec.ofInt_toInt]
    congr 1
    rw [hvalue, ofWord_eq_iff]
    split
    · -- the lowest bits are those of the negative number
      rw [Int64.toBitVec_add, toBitVec_power (by omega) (by omega), BitVec.toNat_add, toNat_power (by omega),
        Nat.mod_mod_of_dvd _ hdvd, Nat.add_mod_right]
    · rfl
  · rfl

theorem word_lt_of_isConcrete (hconcrete : f.isConcrete = true) : f.word.toNat < 2 ^ f.width := by
  rw [word, show f.care = mask f.width from eq_of_beq hconcrete, toNat_and_mask]
  exact Nat.mod_lt _ (Nat.two_pow_pos _)

theorem toNumberWord_eq (f : BitField) :
    (toNumberWord f).map Int64.toInt = (toNumber f).map fun n => (n : Int) := by
  unfold toNumberWord toNumber
  split
  · rename_i hfits
    rw [Bool.and_eq_true, decide_eq_true_eq] at hfits
    have hlt : f.word.toNat < 2 ^ 63 :=
      (word_lt_of_isConcrete hfits.1).trans_le (Nat.pow_le_pow_right (by decide) (Nat.le_of_lt_succ hfits.2))
    show Except.ok (Int64.ofBitVec f.word).toInt = .ok (f.word.toNat : Int)
    rw [Int64.toInt_ofBitVec, BitVec.toInt_eq_toNat_of_lt (by omega)]
  · rfl

end

/-! ## Reading it back -/

theorem toNumber_of_ofNumber (e : ofNumber value width = .ok f) : f.Canonical ∧ f.isConcrete = true ∧
    f.width = width ∧ ∃ n, toNumber f = .ok n ∧ (n : Int) = value % 2 ^ width.toNat := by
  obtain ⟨hfits, rfl⟩ := ofNumber_eq_ok.mp e
  obtain ⟨⟨hpos, hle⟩, -⟩ := fits_iff.mp hfits
  have hconcrete : (ofWord (BitVec.ofInt 64 value) width.toNat).isConcrete = true := by simp [isConcrete, ofWord]
  refine ⟨canonical_ofWord _ _, hconcrete, Int.toNat_of_nonneg (by omega), _, ?_,
    natCast_word (show width.toNat ≤ 64 by omega) value⟩
  rw [toNumber, hconcrete, Bool.true_and, if_pos]
  show decide (width.toNat < 64) = true
  exact decide_eq_true (by omega)

/-- Numbers have one field exactly if they are the same modulo the power of 2. -/
theorem ofNumber_inj {other : Int} (e : ofNumber value width = .ok f) (e' : ofNumber other width = .ok g) :
    f = g ↔ value ≡ other [ZMOD 2 ^ width.toNat] := by
  obtain ⟨hfits, rfl⟩ := ofNumber_eq_ok.mp e
  obtain ⟨-, rfl⟩ := ofNumber_eq_ok.mp e'
  obtain ⟨⟨hpos, hle⟩, -⟩ := fits_iff.mp hfits
  have hn : width.toNat ≤ 64 := by omega
  rw [Int.ModEq, ← natCast_word hn, ← natCast_word hn, Nat.cast_inj, word_ofWord, word_ofWord, toNat_and_mask,
    toNat_and_mask, ofWord_eq_iff]

theorem ofNumber_of_toNumber (hf : f.Canonical) (hconcrete : f.isConcrete = true) (hpos : 1 ≤ f.width)
    (hle : f.width ≤ 63) : ∃ n : Nat, toNumber f = .ok n ∧ ofNumber n f.width = .ok f := by
  have hword : (f.word.toNat : Int) < 2 ^ f.width := by exact_mod_cast word_lt_of_isConcrete hconcrete
  refine ⟨f.word.toNat, ?_, ?_⟩
  · rw [toNumber, hconcrete, Bool.true_and, if_pos]
    exact decide_eq_true (Nat.lt_succ_of_le hle)
  · have hnonpos : -2 ^ ((f.width : Int) - 1).toNat ≤ (0 : Int) := by
      rw [neg_nonpos]
      positivity
    rw [ofNumber_eq_ok, fits_iff, Int.toNat_natCast]
    refine ⟨⟨⟨by omega, by omega⟩, by omega, by omega⟩, ?_⟩
    rw [BitVec.ofInt_natCast, BitVec.ofNat_toNat, BitVec.setWidth_eq]
    exact eq_ofWord hf hconcrete

/-- A number can be written in `w` bits exactly if `w` is between 1 and 63 and the number between
`-2 ^ (w - 1)` and `2 ^ w - 1`; otherwise it is named together with `w`. What is written is a concrete field of
`w` bits that is read as the number modulo `2 ^ w`, so numbers have the same field exactly if they are the same
modulo `2 ^ w`. The number that a concrete field of 1 to 63 bits is read as is written as that field. Words that
wrap around give the same answers. -/
theorem numbers_in_complement (value width : Int64) :
    (fitsWord value width = fits value.toInt width.toInt ∧
      ofNumberWord value width = ofNumber value.toInt width.toInt ∧
      ∀ f, (toNumberWord f).map Int64.toInt = (toNumber f).map fun n => (n : Int)) ∧
    ((∃ f, ofNumber value.toInt width.toInt = .ok f) ↔ (1 ≤ width.toInt ∧ width.toInt ≤ 63) ∧
      -2 ^ (width.toInt - 1).toNat ≤ value.toInt ∧ value.toInt ≤ 2 ^ width.toInt.toNat - 1) ∧
    ((¬ ∃ f, ofNumber value.toInt width.toInt = .ok f) →
      ofNumber value.toInt width.toInt = .error (.numberRange value.toInt width.toInt)) ∧
    (∀ f, ofNumber value.toInt width.toInt = .ok f →
      f.Canonical ∧ f.isConcrete = true ∧ f.width = width.toInt ∧
      (∃ n, toNumber f = .ok n ∧ (n : Int) = value.toInt % 2 ^ width.toInt.toNat) ∧
      ∀ (other : Int64) (g : BitField), ofNumber other.toInt width.toInt = .ok g →
        (f = g ↔ value.toInt ≡ other.toInt [ZMOD 2 ^ width.toInt.toNat])) ∧
    ∀ f : BitField, f.Canonical → f.isConcrete = true → 1 ≤ f.width → f.width ≤ 63 →
      ∃ n : Nat, toNumber f = .ok n ∧ ofNumber n f.width = .ok f := by
  have hwritten : (∃ f, ofNumber value.toInt width.toInt = .ok f) ↔ fits value.toInt width.toInt = true :=
    ⟨fun ⟨f, e⟩ => (ofNumber_eq_ok.mp e).1, fun hfits => ⟨_, ofNumber_eq_ok.mpr ⟨hfits, rfl⟩⟩⟩
  refine ⟨⟨fitsWord_eq value width, ofNumberWord_eq value width, toNumberWord_eq⟩, ?_, ?_, ?_,
    fun f => ofNumber_of_toNumber⟩
  · rw [hwritten, fits_iff]
  · intro hnone
    rw [hwritten] at hnone
    exact if_neg hnone
  · intro f e
    obtain ⟨hcanonical, hconcrete, hwidth, hread⟩ := toNumber_of_ofNumber e
    exact ⟨hcanonical, hconcrete, hwidth, hread, fun other g => ofNumber_inj e⟩

/-- In 63 bits, -1 and the highest word are the same field; one below the lowest number cannot be written, and
in 64 bits there is no number. -/
theorem numbers_in_complement_widest : ∃ f : BitField,
    ofNumberWord (-1) 63 = .ok f ∧ ofNumber (-1) 63 = .ok f ∧ ofNumber (2 ^ 63 - 1) 63 = .ok f ∧
    toNumber f = .ok (2 ^ 63 - 1) ∧
    ofNumber (-2 ^ 62 - 1) 63 = .error (.numberRange (-2 ^ 62 - 1) 63) ∧
    ofNumber 0 64 = .error (.numberRange 0 64) := by
  have hmax : (9223372036854775807 : Int64).toInt = 2 ^ 63 - 1 := by decide
  have hmin : (-4611686018427387905 : Int64).toInt = -2 ^ 62 - 1 := by decide
  have hw : (63 : Int64).toInt = 63 := by decide
  obtain ⟨⟨-, hwords, -⟩, hiff, -, hall, -⟩ := numbers_in_complement (-1) 63
  obtain ⟨f, hf⟩ := hiff.mpr (by decide)
  obtain ⟨-, -, -, ⟨n, hn, hvalue⟩, hsame⟩ := hall f hf
  obtain ⟨-, hiff', -⟩ := numbers_in_complement 9223372036854775807 63
  obtain ⟨g, hg⟩ := hiff'.mpr (by rw [hmax, hw]; decide)
  obtain ⟨-, hlow, hbelow, -⟩ := numbers_in_complement (-4611686018427387905) 63
  obtain ⟨-, hwide, hnone, -⟩ := numbers_in_complement 0 64
  have hfg : f = g := (hsame _ g hg).mpr (by rw [hmax, hw]; decide)
  rw [hmax, hw, ← hfg] at hg
  rw [hmin, hw] at hlow hbelow
  refine ⟨f, hwords.trans hf, hf, hg, ?_, hbelow ?_, hnone ?_⟩
  · have hnumber : (n : Int) = 2 ^ 63 - 1 := hvalue.trans (by decide)
    rw [hn, show n = 2 ^ 63 - 1 by omega]
  · rw [hlow]
    decide
  · rw [hwide]
    decide

end Microcomputer.BitField
