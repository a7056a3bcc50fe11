import Mathlib
import Microcomputer.Assembly.Assembler

/-!
# Literals as they are written

* `Literal.Writes base digits text` : the digits of a base; `Literal.numeral_eq_ofDigits` : each counts at
  its place;
* `Literal.Spells m text` : a literal of magnitude `m`; `Literal.digits?_of_spells`,
  `Literal.spells_of_digits?` : what is read as digits is a literal;
* `Literal.Gap` : what is passed over, `Literal.Faces` : what comes where nothing is;
  `Literal.skip_eq_iff` : every text is a gap and what comes behind it;
* `Literal.Holds n text` : a text that holds a literal of `n`, and around it only what is passed over;
  `Literal.value?_eq_some_iff` : these are the texts that have a value.
-/

namespace Microcomputer

namespace Literal

/-! ## Digits -/

/-- ASCII characters are few enough to be looked at one by one. -/
@[elab_as_elim]
theorem ascii_cases {motive : Char → Prop} (small : ∀ k < 128, motive (Char.ofNat k))
    (large : ∀ c : Char, 128 ≤ c.toNat → motive c) (c : Char) : motive c := by
  rcases Nat.lt_or_ge c.toNat 128 with hc | hc
  · have hsmall := small c.toNat hc
    rwa [Char.ofNat_toNat] at hsmall
  · exact large c hc

theorem digitValue_of_large {c : Char} (h : 128 ≤ c.toNat) : digitValue c = 16 := by
  have hdigit : c.isDigit = false := by
    simp only [Char.isDigit, Bool.and_eq_false_iff, decide_eq_false_iff_not, ge_iff_le,
      UInt32.le_iff_toNat_le]
    exact .inr (fun hle => absurd (h.trans hle) (by decide))
  have hlower : ¬ ('a' ≤ c ∧ c ≤ 'f') := fun hc => absurd (h.trans hc.2) (by decide)
  have hupper : ¬ ('A' ≤ c ∧ c ≤ 'F') := fun hc => absurd (h.trans hc.2) (by decide)
  simp [digitValue, hdigit, hlower, hupper]

theorem toLower_of_large {c : Char} (h : 128 ≤ c.toNat) : c.toLower = c := by
  unfold Char.toLower
  rw [dif_neg]
  intro hc
  exact absurd (h.trans hc.2) (by decide)

theorem digitValue_eq_iff {c : Char} {d : Nat} (hd : d < 16) :
    digitValue c = d ↔ c.toLower = d.digitChar := by
  induction c using ascii_cases with
  | small k hk =>
    have hall : ∀ k < 128, ∀ d < 16,
        (digitValue (Char.ofNat k) = d ↔ (Char.ofNat k).toLower = d.digitChar) := by decide +kernel
    exact hall k hk d hd
  | large c hc =>
    have hascii : ∀ d < 16, d.digitChar.toNat < 128 := by decide
    rw [digitValue_of_large hc, toLower_of_large hc]
    constructor
    · intro hcon
      omega
    · rintro rfl
      exact absurd (hascii d hd) (Nat.not_lt.mpr hc)

theorem isAlphanum_of_digitValue_lt {c : Char} (h : digitValue c < 16) : c.isAlphanum = true := by
  induction c using ascii_cases with
  | small k hk =>
    have hall : ∀ k < 128, digitValue (Char.ofNat k) < 16 → (Char.ofNat k).isAlphanum = true := by
      decide +kernel
    exact hall k hk h
  | large c hc =>
    rw [digitValue_of_large hc] at h
    omega

theorem map_digitValue_eq_iff {text : List Char} {digits : List Nat} (hdigits : ∀ d ∈ digits, d < 16) :
    text.map digitValue = digits ↔ text.map Char.toLower = digits.map Nat.digitChar := by
  induction text generalizing digits with
  | nil => cases digits <;> simp
  | cons c text ih =>
    cases digits with
    | nil => simp
    | cons d digits =>
      rw [List.forall_mem_cons] at hdigits
      simp only [List.map_cons, List.cons.injEq, digitValue_eq_iff hdigits.1, ih hdigits.2]

/-- The digits of a base, most significant first, letters in either case. -/
structure Writes (base : Nat) (digits : List Nat) (text : List Char) : Prop where
  nonempty : digits ≠ []
  lt_base : ∀ d ∈ digits, d < base
  text_eq : text.map Char.toLower = digits.map Nat.digitChar

theorem numeral_eq_ofDigits (base : Nat) (text : List Char) :
    numeral base text = Nat.ofDigits base (text.map digitValue).reverse := by
  have hstep : (fun (n : Nat) (d : Nat) => n * base + d) = fun n d => d + base * n := by
    funext n d
    ring
  calc numeral base text
      = (text.map digitValue).foldl (fun n d => n * base + d) 0 := by rw [List.foldl_map]; rfl
    _ = (text.map digitValue).reverse.foldr (fun d n => d + base * n) 0 := by
      rw [hstep, List.foldr_reverse]
    _ = Nat.ofDigits base (text.map digitValue).reverse := by rw [Nat.ofDigits_eq_foldr]; rfl

section

variable {base : Nat} (hbase : base ≤ 16)

include hbase

theorem Writes.map_eq {digits : List Nat} {text : List Char} (h : Writes base digits text) :
    text.map digitValue = digits :=
  (map_digitValue_eq_iff fun d hd => (h.lt_base d hd).trans_le hbase).mpr h.text_eq

theorem Writes.ne_nil {digits : List Nat} {text : List Char} (h : Writes base digits text) :
    text ≠ [] := by
  rintro rfl
  exact h.nonempty (h.map_eq hbase).symm

theorem Writes.digitValue_lt {digits : List Nat} {text : List Char} (h : Writes base digits text) :
    ∀ c ∈ text, digitValue c < base := by
  intro c hc
  apply h.lt_base
  rw [← h.map_eq hbase]
  exact List.mem_map_of_mem hc

theorem writes_of_digitValue_lt {text : List Char} (hne : text ≠ []) (h : ∀ c ∈ text, digitValue c < base) :
    Writes base (text.map digitValue) text := by
  have hlt : ∀ d ∈ text.map digitValue, d < base := List.forall_mem_map.mpr h
  refine ⟨by simpa using hne, hlt, ?_⟩
  exact (map_digitValue_eq_iff fun d hd => (hlt d hd).trans_le hbase).mp rfl

theorem Writes.span_eq {digits : List Nat} {text : List Char} (h : Writes base digits text)
    {rest : List Char} (hrest : ∀ c ∈ rest.head?, ¬ digitValue c < base) :
    (text ++ rest).takeWhile (digitValue · < base) = text ∧
      (text ++ rest).dropWhile (digitValue · < base) = rest := by
  have hall : ∀ c ∈ text, decide (digitValue c < base) = true := by
    simpa using h.digitValue_lt hbase
  rw [List.takeWhile_append_of_pos hall, List.dropWhile_append_of_pos hall]
  cases rest with
  | nil => simp
  | cons c rest =>
    have hc : decide (digitValue c < base) = false := by simpa using hrest c rfl
    rw [List.takeWhile_cons_of_neg (by simp [hc]), List.dropWhile_cons_of_neg (by simp [hc])]
    simp

theorem numeral?_of_writes {digits : List Nat} {text : List Char} (h : Writes base digits text)
    {rest : List Char} (hrest : ∀ c ∈ rest.head?, ¬ digitValue c < base) :
    numeral? base (text ++ rest) = some (Nat.ofDigits base digits.reverse, rest) := by
  obtain ⟨htake, hdrop⟩ := h.span_eq hbase hrest
  unfold numeral?
  rw [htake, hdrop]
  split
  · exact absurd rfl (h.ne_nil hbase)
  · rw [numeral_eq_ofDigits, h.map_eq hbase]

theorem writes_of_numeral? {text rest : List Char} {n : Nat} (h : numeral? base text = some (n, rest)) :
    ∃ digits front, text = front ++ rest ∧ Writes base digits front ∧
      n = Nat.ofDigits base digits.reverse := by
  unfold numeral? at h
  split at h
  · cases h
  · rename_i hne
    cases h
    have hlt : ∀ c ∈ text.takeWhile (digitValue · < base), digitValue c < base := by
      intro c hc
      simpa using List.mem_takeWhile_imp hc
    exact ⟨_, _, List.takeWhile_append_dropWhile.symm,
      writes_of_digitValue_lt hbase (fun hnil => hne hnil) hlt, numeral_eq_ofDigits base _⟩

end

/-! ## Literals -/

def marks : List (Char × Nat) := [('x', 16), ('X', 16), ('o', 8), ('O', 8), ('b', 2), ('B', 2)]

theorem base_le_of_mem_marks {mark : Char} {base : Nat} (h : (mark, base) ∈ marks) : base ≤ 16 := by
  have hall : ∀ entry ∈ marks, entry.2 ≤ 16 := by decide
  exact hall _ h

/-- A literal of a magnitude: decimal digits of which the first is not zero or all are, or the digits of
another base behind `0` and its mark. -/
inductive Spells : Nat → List Char → Prop
  | decimal {digits : List Nat} {text : List Char} : Writes 10 digits text →
      (digits.head? = some 0 → ∀ d ∈ digits, d = 0) → Spells (Nat.ofDigits 10 digits.reverse) text
  | based {mark : Char} {base : Nat} {digits : List Nat} {text : List Char} : (mark, base) ∈ marks →
      Writes base digits text → Spells (Nat.ofDigits base digits.reverse) ('0' :: mark :: text)

/-- The characters that start what is passed over around a literal. -/
def closers : List Char := ['\\', '\r', '\x00', '#']

theorem digitValue_of_mem_closers {c : Char} (h : c ∈ closers) : digitValue c = 16 := by
  fin_cases h <;> rfl

theorem not_digit_of_closer {rest : List Char} (hrest : ∀ c ∈ rest.head?, c ∈ closers) {base : Nat}
    (hbase : base ≤ 16) : ∀ c ∈ rest.head?, ¬ digitValue c < base := by
  intro c hc
  rw [digitValue_of_mem_closers (hrest c hc)]
  omega

theorem ofDigits_of_zeros {base : Nat} {digits : List Nat} (h : ∀ d ∈ digits, d = 0) :
    Nat.ofDigits base digits.reverse = 0 := by
  have hreplicate : digits = List.replicate digits.length 0 := List.eq_replicate_of_mem h
  rw [hreplicate, List.reverse_replicate, Nat.ofDigits_replicate_zero]

theorem digitValue_zero_iff {c : Char} : digitValue c = 0 ↔ c = '0' := by
  induction c using ascii_cases with
  | small k hk =>
    have hall : ∀ k < 128, (digitValue (Char.ofNat k) = 0 ↔ Char.ofNat k = '0') := by decide +kernel
    exact hall k hk
  | large c hc =>
    rw [digitValue_of_large hc]
    constructor
    · intro hcon
      omega
    · rintro rfl
      exact absurd hc (by decide)

theorem decimal?_of_writes {digits : List Nat} {text rest : List Char} (h : Writes 10 digits text)
    (hzero : digits.head? = some 0 → ∀ d ∈ digits, d = 0) (hrest : ∀ c ∈ rest.head?, c ∈ closers) :
    decimal? (text ++ rest) = some (Nat.ofDigits 10 digits.reverse, rest) := by
  have hstop := not_digit_of_closer hrest (by decide : 10 ≤ 16)
  obtain ⟨htake, hdrop⟩ := h.span_eq (by decide) hstop
  have hmap := h.map_eq (by decide)
  unfold decimal?
  rw [htake, hdrop]
  split
  · rename_i zeros
    have hall : ∀ d ∈ digits, d = 0 := hzero (by rw [← hmap]; rfl)
    have hzeros : zeros.all (· == '0') = true := by
      rw [List.all_eq_true]
      intro c hc
      rw [beq_iff_eq, ← digitValue_zero_iff]
      apply hall
      rw [← hmap]
      exact List.mem_map_of_mem (List.mem_cons_of_mem _ hc)
    rw [if_pos hzeros, ofDigits_of_zeros hall]
  · exact numeral?_of_writes (by decide) h hstop

theorem spells_of_decimal? {text rest : List Char} {n : Nat} (h : decimal? text = some (n, rest)) :
    ∃ front, text = front ++ rest ∧ Spells n front := by
  have hlt : ∀ c ∈ text.takeWhile (digitValue · < 10), digitValue c < 10 := by
    intro c hc
    simpa using List.mem_takeWhile_imp hc
  unfold decimal? at h
  split at h
  · rename_i zeros htake
    split at h
    · rename_i hzeros
      cases h
      have hwrites : Writes 10 (('0' :: zeros).map digitValue) ('0' :: zeros) := by
        rw [htake] at hlt
        exact writes_of_digitValue_lt (by decide) (by simp) hlt
      have hall : ∀ d ∈ ('0' :: zeros).map digitValue, d = 0 := by
        rw [List.forall_mem_map, List.forall_mem_cons]
        refine ⟨rfl, fun c hc => ?_⟩
        rw [digitValue_zero_iff]
        simpa using List.all_eq_true.mp hzeros c hc
      refine ⟨'0' :: zeros, ?_, ?_⟩
      · rw [← htake, List.takeWhile_append_dropWhile]
      · rw [← ofDigits_of_zeros hall]
        exact .decimal hwrites fun _ => hall
    · cases h
  · rename_i hfirst
    obtain ⟨digits, front, rfl, hwrites, rfl⟩ := writes_of_numeral? (by decide) h
    refine ⟨front, rfl, .decimal hwrites fun hhead => ?_⟩
    -- a first zero would have been the first digit that was taken
    exfalso
    have hmap := hwrites.map_eq (by decide)
    cases front with
    | nil => simp [← hmap] at hhead
    | cons c front =>
      have hc : c = '0' := by
        rw [← digitValue_zero_iff]
        simpa [← hmap] using hhead
      subst hc
      exact hfirst _ rfl

/-- Digits that stand second, and what may follow a single one, are no marks of a base. -/
theorem digits?_eq_decimal? {text : List Char} (h : ∀ c ∈ text[1]?, digitValue c < 10 ∨ c ∈ closers) :
    digits? text = decimal? text := by
  unfold digits?
  split
  · exact absurd (h 'x' rfl) (by decide)
  · exact absurd (h 'X' rfl) (by decide)
  · exact absurd (h 'o' rfl) (by decide)
  · exact absurd (h 'O' rfl) (by decide)
  · exact absurd (h 'b' rfl) (by decide)
  · exact absurd (h 'B' rfl) (by decide)
  · rfl

theorem digits?_of_spells {n : Nat} {text rest : List Char} (h : Spells n text)
    (hrest : ∀ c ∈ rest.head?, c ∈ closers) : digits? (text ++ rest) = some (n, rest) := by
  cases h with
  | based hmark hwrites =>
    have hbase := base_le_of_mem_marks hmark
    have hread := numeral?_of_writes hbase hwrites (not_digit_of_closer hrest hbase)
    fin_cases hmark <;> exact hread
  | decimal hwrites hzero =>
    rw [← decimal?_of_writes hwrites hzero hrest]
    apply digits?_eq_decimal?
    intro c hc
    have hpos : 0 < text.length := List.length_pos_iff.mpr (hwrites.ne_nil (by decide))
    rcases Nat.lt_or_ge 1 text.length with hlength | hlength
    · rw [List.getElem?_append_left hlength] at hc
      exact .inl (hwrites.digitValue_lt (by decide) c (List.mem_of_getElem? hc))
    · rw [List.getElem?_append_right hlength, show 1 - text.length = 0 by omega,
        ← List.head?_eq_getElem?] at hc
      exact .inr (hrest c hc)

theorem spells_of_digits? {text rest : List Char} {n : Nat} (h : digits? text = some (n, rest)) :
    ∃ front, text = front ++ rest ∧ Spells n front := by
  have hbased : ∀ mark base, (mark, base) ∈ marks → ∀ tail, numeral? base tail = some (n, rest) →
      ∃ front, '0' :: mark :: tail = front ++ rest ∧ Spells n front := by
    intro mark base hmark tail htail
    obtain ⟨digits, front, rfl, hwrites, rfl⟩ := writes_of_numeral? (base_le_of_mem_marks hmark) htail
    exact ⟨'0' :: mark :: front, rfl, .based hmark hwrites⟩
  unfold digits? at h
  split at h
  · exact hbased 'x' 16 (by decide) _ h
  · exact hbased 'X' 16 (by decide) _ h
  · exact hbased 'o' 8 (by decide) _ h
  · exact hbased 'O' 8 (by decide) _ h
  · exact hbased 'b' 2 (by decide) _ h
  · exact hbased 'B' 2 (by decide) _ h
  · exact spells_of_decimal? h

/-! ## What is passed over -/

/-- A comment up to where its line ends, or none. -/
inductive Remark : List Char → Prop
  | none : Remark []
  | comment {body : List Char} : (∀ c ∈ body, c ≠ '\r' ∧ c ≠ '\x00') → Remark ('#' :: body)

/-- Blank lines and continued lines, from a place that is the start of a line or is none to another. -/
inductive Gap : Bool → List Char → Bool → Prop
  | none {fresh : Bool} : Gap fresh [] fresh
  | blank {remark rest : List Char} {fresh : Bool} : Remark remark → Gap true rest fresh →
      Gap true (remark ++ '\r' :: rest) fresh
  | continued {rest : List Char} {before fresh : Bool} : Gap false rest fresh →
      Gap before ('\\' :: '\r' :: rest) fresh

inductive Stop : List Char → Prop
  | nothing {remark : List Char} : Remark remark → Stop remark
  | nul {remark rest : List Char} : Remark remark → Stop (remark ++ '\x00' :: rest)

/-- What comes at a place where nothing is passed over. -/
inductive Faces : Bool → List Char → Ahead → Prop
  | finish {text : List Char} {fresh : Bool} : Stop text → Faces fresh text .finish
  | lineEnd {remark rest : List Char} : Remark remark →
      Faces false (remark ++ '\r' :: rest) (.lineEnd rest)
  | character {c : Char} {rest : List Char} {fresh : Bool} : c ∉ closers →
      Faces fresh (c :: rest) (.character (c :: rest))
  | strayBackslash {rest : List Char} {fresh : Bool} : rest.head? ≠ some '\r' →
      Faces fresh ('\\' :: rest) .strayBackslash

theorem skip_return (fresh inComment : Bool) (rest : List Char) :
    skip fresh inComment ('\r' :: rest) = if fresh then skip true false rest else .lineEnd rest := by
  simp [skip]

theorem skip_nul (fresh inComment : Bool) (rest : List Char) :
    skip fresh inComment ('\x00' :: rest) = .finish := by
  simp [skip]

/-- A character that does not start a continued line is looked at alone. -/
theorem skip_cons (fresh inComment : Bool) {c : Char} {text : List Char}
    (h : c = '\\' → text.head? ≠ some '\r') : skip fresh inComment (c :: text) =
      if c = '\x00' then .finish
      else if c = '\r' then (if fresh then skip true false text else .lineEnd text)
      else if inComment then skip fresh true text
      else if c = '#' then skip fresh true text
      else if c = '\\' then .strayBackslash
      else .character (c :: text) := by
  rw [skip]
  rintro rest hc rfl
  exact h hc rfl

theorem skip_comment_cons (fresh : Bool) {c : Char} (hc : c ≠ '\r' ∧ c ≠ '\x00') (text : List Char) :
    skip fresh true (c :: text) = skip fresh true text := by
  -- in a comment, a backslash before the end of a line is a character like any other
  by_cases hcontinued : c = '\\' → text.head? ≠ some '\r'
  · rw [skip_cons _ _ hcontinued]
    simp [hc]
  · obtain ⟨rfl, hhead⟩ := Classical.not_imp.mp hcontinued
    obtain ⟨rest, rfl⟩ := List.head?_eq_some_iff.mp (not_not.mp hhead)
    rw [skip_return]
    simp [skip]

theorem skip_comment (fresh : Bool) {body : List Char} (hbody : ∀ c ∈ body, c ≠ '\r' ∧ c ≠ '\x00')
    (text : List Char) : skip fresh true (body ++ text) = skip fresh true text := by
  induction body with
  | nil => rfl
  | cons c body ih =>
    rw [List.forall_mem_cons] at hbody
    rw [List.cons_append, skip_comment_cons fresh hbody.1, ih hbody.2]

/-- A comment does not change what its line ends with. -/
theorem skip_remark (fresh : Bool) {remark : List Char} (h : Remark remark) {text : List Char}
    (htext : ∀ c ∈ text.head?, c = '\r' ∨ c = '\x00') :
    skip fresh false (remark ++ text) = skip fresh false text := by
  cases h with
  | none => rfl
  | comment hbody =>
    calc skip fresh false ('#' :: _ ++ text)
        = skip fresh true (_ ++ text) := by simp [skip]
      _ = skip fresh true text := skip_comment fresh hbody text
      _ = skip fresh false text := by
        cases text with
        | nil => rfl
        | cons c text =>
          obtain rfl | rfl := htext c rfl
          · rw [skip_return, skip_return]
          · rw [skip_nul, skip_nul]

theorem skip_gap {before fresh : Bool} {gap : List Char} (h : Gap before gap fresh) (text : List Char) :
    skip before false (gap ++ text) = skip fresh false text := by
  induction h with
  | none => rfl
  | blank hremark hgap ih =>
    rw [List.append_assoc, skip_remark true hremark (by simp), List.cons_append, skip_return, if_pos rfl, ih]
  | continued hgap ih => simpa [skip] using ih

theorem skip_of_faces {fresh : Bool} {text : List Char} {ahead : Ahead} (h : Faces fresh text ahead) :
    skip fresh false text = ahead := by
  cases h with
  | finish hstop =>
    cases hstop with
    | nothing hremark => simpa [skip] using @skip_remark fresh _ hremark [] (by simp)
    | nul hremark => rw [skip_remark fresh hremark (by simp), skip_nul]
  | lineEnd hremark => rw [skip_remark false hremark (by simp), skip_return, if_neg (by simp)]
  | character hc =>
    simp only [closers, List.mem_cons, List.not_mem_nil, or_false, not_or] at hc
    rw [skip_cons _ _ (by simp [hc])]
    simp [hc]
  | strayBackslash hrest =>
    rw [skip_cons _ _ fun _ => hrest]
    simp

theorem Remark.snoc {remark : List Char} (h : Remark remark) (hne : remark ≠ []) {c : Char}
    (hc : c ≠ '\r' ∧ c ≠ '\x00') : Remark (remark ++ [c]) := by
  cases h with
  | none => exact absurd rfl hne
  | comment hbody =>
    refine .comment fun d hd => ?_
    rcases List.mem_append.mp hd with hd | hd
    · exact hbody d hd
    · rwa [List.mem_singleton.mp hd]

/-- Every text is a gap and what stands behind it; a comment that was begun belongs to either. -/
theorem exists_gap_of_remark (before inComment : Bool) (text : List Char) :
    ∀ remark, Remark remark → (inComment = true ↔ remark ≠ []) →
      ∃ gap rest fresh, remark ++ text = gap ++ rest ∧ Gap before gap fresh ∧
        Faces fresh rest (skip before inComment text) := by
  -- cases 2 and 3 are a backslash that ends a comment, 4 one that continues a line; the comment grows in 8
  -- and starts in 9
  have hslash : '\\' ≠ '\r' ∧ '\\' ≠ '\x00' := by decide
  fun_induction skip before inComment text with
  | case1 before inComment =>
    intro remark hremark _
    exact ⟨[], remark, before, by simp, .none, .finish (.nothing hremark)⟩
  | case2 rest ih =>
    intro remark hremark hiff
    obtain ⟨gap, tail, fresh, htext, hgap, hfaces⟩ := ih [] .none (by simp)
    refine ⟨remark ++ ['\\'] ++ '\r' :: gap, tail, fresh, by simpa using htext, ?_, hfaces⟩
    exact .blank (hremark.snoc (hiff.mp rfl) hslash) hgap
  | case3 before rest hbefore =>
    intro remark hremark hiff
    obtain rfl : before = false := by simpa using hbefore
    refine ⟨[], remark ++ ['\\'] ++ '\r' :: rest, false, by simp, .none, ?_⟩
    exact .lineEnd (hremark.snoc (hiff.mp rfl) hslash)
  | case4 before inComment rest hin ih =>
    intro remark _ hiff
    obtain rfl : remark = [] := by simpa [hin] using hiff
    obtain ⟨gap, tail, fresh, htext, hgap, hfaces⟩ := ih [] .none (by simp)
    exact ⟨'\\' :: '\r' :: gap, tail, fresh, by simpa using htext, .continued hgap, hfaces⟩
  | case5 before inComment rest =>
    intro remark hremark _
    exact ⟨[], remark ++ '\x00' :: rest, before, by simp, .none, .finish (.nul hremark)⟩
  | case6 inComment rest _ _ ih =>
    intro remark hremark _
    obtain ⟨gap, tail, fresh, htext, hgap, hfaces⟩ := ih [] .none (by simp)
    exact ⟨remark ++ '\r' :: gap, tail, fresh, by simpa using htext, .blank hremark hgap, hfaces⟩
  | case7 before inComment rest hbefore =>
    intro remark hremark _
    obtain rfl : before = false := by simpa using hbefore
    exact ⟨[], remark ++ '\r' :: rest, false, by simp, .none, .lineEnd hremark⟩
  | case8 before c rest _ hnul hreturn ih =>
    intro remark hremark hiff
    obtain ⟨gap, tail, fresh, htext, hgap, hfaces⟩ :=
      ih (remark ++ [c]) (hremark.snoc (hiff.mp rfl) ⟨hreturn, hnul⟩) (by simp)
    exact ⟨gap, tail, fresh, by simpa using htext, hgap, hfaces⟩
  | case9 before inComment rest hin _ _ _ ih =>
    intro remark _ hiff
    obtain rfl : remark = [] := by simpa [hin] using hiff
    exact ih ['#'] (.comment (by simp)) (by simp)
  | case10 before inComment rest hin hcontinued =>
    intro remark _ hiff
    obtain rfl : remark = [] := by simpa [hin] using hiff
    refine ⟨[], '\\' :: rest, before, rfl, .none, .strayBackslash fun hrest => ?_⟩
    obtain ⟨tail, htail⟩ := List.head?_eq_some_iff.mp hrest
    exact hcontinued tail rfl htail
  | case11 before inComment c rest _ hnul hreturn hin hcomment hbackslash =>
    intro remark _ hiff
    obtain rfl : remark = [] := by simpa [hin] using hiff
    refine ⟨[], c :: rest, before, rfl, .none, .character ?_⟩
    simp [closers, hnul, hreturn, hcomment, hbackslash]

/-- What comes next is what stands behind a gap. -/
theorem skip_eq_iff {before : Bool} {text : List Char} {ahead : Ahead} :
    skip before false text = ahead ↔
      ∃ gap rest fresh, text = gap ++ rest ∧ Gap before gap fresh ∧ Faces fresh rest ahead := by
  constructor
  · rintro rfl
    exact exists_gap_of_remark before false text [] .none (by simp)
  · rintro ⟨gap, rest, fresh, rfl, hgap, hfaces⟩
    rw [skip_gap hgap, skip_of_faces hfaces]

theorem skip_eq_character_iff {before : Bool} {text rest : List Char} :
    skip before false text = .character rest ↔
      ∃ gap fresh, text = gap ++ rest ∧ Gap before gap fresh ∧ ∃ c ∈ rest.head?, c ∉ closers := by
  rw [skip_eq_iff]
  constructor
  · rintro ⟨gap, _, fresh, htext, hgap, hfaces⟩
    cases hfaces with
    | character hc => exact ⟨gap, fresh, htext, hgap, _, rfl, hc⟩
  · rintro ⟨gap, fresh, htext, hgap, c, hhead, hc⟩
    obtain ⟨tail, rfl⟩ := List.head?_eq_some_iff.mp hhead
    exact ⟨gap, c :: tail, fresh, htext, hgap, .character hc⟩

/-! ## Texts that hold a literal -/

/-- What may follow a literal: the end of the text, or the end of the line and then only blank lines. -/
inductive Trail : List Char → Prop
  | finish {gap stop : List Char} {fresh : Bool} : Gap false gap fresh → Stop stop → Trail (gap ++ stop)
  | line {gap remark blank stop : List Char} {fresh : Bool} : Gap false gap false → Remark remark →
      Gap true blank fresh → Stop stop → Trail (gap ++ (remark ++ '\r' :: (blank ++ stop)))

theorem skip_eq_finish_iff {before : Bool} {text : List Char} :
    skip before false text = .finish ↔
      ∃ gap stop fresh, text = gap ++ stop ∧ Gap before gap fresh ∧ Stop stop := by
  rw [skip_eq_iff]
  constructor
  · rintro ⟨gap, rest, fresh, htext, hgap, hfaces⟩
    cases hfaces with
    | finish hstop => exact ⟨gap, rest, fresh, htext, hgap, hstop⟩
  · rintro ⟨gap, stop, fresh, htext, hgap, hstop⟩
    exact ⟨gap, stop, fresh, htext, hgap, .finish hstop⟩

theorem ends_iff {text : List Char} : ends text = true ↔ Trail text := by
  constructor
  · intro h
    unfold ends at h
    split at h
    · rename_i hskip
      obtain ⟨gap, stop, fresh, rfl, hgap, hstop⟩ := skip_eq_finish_iff.mp hskip
      exact .finish hgap hstop
    · rename_i rest hskip
      obtain ⟨gap, _, _, rfl, hgap, hfaces⟩ := skip_eq_iff.mp hskip
      obtain ⟨blank, stop, fresh, rfl, hblank, hstop⟩ := skip_eq_finish_iff.mp (beq_iff_eq.mp h)
      cases hfaces with
      | lineEnd hremark => exact .line hgap hremark hblank hstop
    · cases h
  · intro h
    unfold ends
    cases h with
    | finish hgap hstop =>
      rw [skip_eq_finish_iff.mpr ⟨_, _, _, rfl, hgap, hstop⟩]
    | line hgap hremark hblank hstop =>
      rw [skip_eq_iff.mpr ⟨_, _, _, rfl, hgap, .lineEnd hremark⟩, beq_iff_eq]
      exact skip_eq_finish_iff.mpr ⟨_, _, _, rfl, hblank, hstop⟩

theorem Trail.head_mem_closers {text : List Char} (h : Trail text) : ∀ c ∈ text.head?, c ∈ closers := by
  intro c hhead
  by_contra hc
  obtain ⟨rest, rfl⟩ := List.head?_eq_some_iff.mp hhead
  have hends : ends (c :: rest) = true := ends_iff.mpr h
  rw [ends, skip_of_faces (.character hc)] at hends
  cases hends

theorem Spells.head {m : Nat} {text : List Char} (h : Spells m text) :
    ∃ c ∈ text.head?, digitValue c < 10 := by
  cases h with
  | decimal hwrites _ =>
    obtain ⟨c, rest, rfl⟩ := List.exists_cons_of_ne_nil (hwrites.ne_nil (by decide))
    exact ⟨c, rfl, hwrites.digitValue_lt (by decide) c (by simp)⟩
  | based => exact ⟨'0', rfl, by decide⟩

theorem not_mem_closers_of_digitValue_lt {c : Char} (h : digitValue c < 10) : c ∉ closers := by
  intro hc
  rw [digitValue_of_mem_closers hc] at h
  omega

theorem magnitude?_eq_some_iff {text : List Char} {m : Nat} :
    magnitude? text = some m ↔
      ∃ digits trail, text = digits ++ trail ∧ Spells m digits ∧ m ≤ largest ∧ Trail trail := by
  constructor
  · intro h
    unfold magnitude? at h
    split at h
    · rename_i n rest hdigits
      obtain ⟨hcond, hnm⟩ := Option.ite_none_right_eq_some.mp h
      cases hnm
      obtain ⟨digits, rfl, hspells⟩ := spells_of_digits? hdigits
      rw [Bool.and_eq_true, decide_eq_true_eq, ends_iff] at hcond
      exact ⟨digits, rest, rfl, hspells, hcond.1, hcond.2⟩
    · cases h
  · rintro ⟨digits, trail, rfl, hspells, hle, htrail⟩
    unfold magnitude?
    rw [digits?_of_spells hspells htrail.head_mem_closers]
    simp [hle, ends_iff.mpr htrail]

theorem head_of_magnitude? {text : List Char} {m : Nat} (h : magnitude? text = some m) :
    ∃ c ∈ text.head?, digitValue c < 10 := by
  obtain ⟨digits, trail, rfl, hspells, -, -⟩ := magnitude?_eq_some_iff.mp h
  obtain ⟨c, hhead, hc⟩ := hspells.head
  refine ⟨c, ?_, hc⟩
  obtain ⟨rest, rfl⟩ := List.head?_eq_some_iff.mp hhead
  rfl

theorem skip_of_magnitude? {before fresh : Bool} {gap text : List Char} {m : Nat}
    (hgap : Gap before gap fresh) (h : magnitude? text = some m) :
    skip before false (gap ++ text) = .character text := by
  obtain ⟨c, hhead, hc⟩ := head_of_magnitude? h
  exact skip_eq_character_iff.mpr ⟨gap, fresh, rfl, hgap, c, hhead, not_mem_closers_of_digitValue_lt hc⟩

theorem signed?_eq_some_iff {text : List Char} {m : Nat} :
    signed? text = some m ↔
      ∃ gap fresh rest, text = gap ++ rest ∧ Gap false gap fresh ∧ magnitude? rest = some m := by
  constructor
  · intro h
    unfold signed? at h
    split at h
    · rename_i rest hskip
      obtain ⟨gap, fresh, htext, hgap, -⟩ := skip_eq_character_iff.mp hskip
      exact ⟨gap, fresh, rest, htext, hgap, h⟩
    · cases h
  · rintro ⟨gap, fresh, rest, rfl, hgap, hrest⟩
    unfold signed?
    rw [skip_of_magnitude? hgap hrest]
    exact hrest

/-- A sign, the gap behind it, and what it makes of a magnitude. -/
inductive Signed : List Char → Nat → Int → Prop
  | bare {m : Nat} : Signed [] m m
  | plus {gap : List Char} {fresh : Bool} {m : Nat} : Gap false gap fresh → Signed ('+' :: gap) m m
  | minus {gap : List Char} {fresh : Bool} {m : Nat} : Gap false gap fresh → Signed ('-' :: gap) m (-m)

/-- A text that holds the literal of a number, and around it only what is passed over. -/
inductive Holds (n : Int) : List Char → Prop
  | intro {lead sign digits trail : List Char} {fresh : Bool} {m : Nat} : Gap true lead fresh →
      Signed sign m n → Spells m digits → m ≤ largest → Trail trail →
      Holds n (lead ++ (sign ++ (digits ++ trail)))

theorem holds_of_value? {text : List Char} {n : Int} (h : value? text = some n) : Holds n text := by
  unfold value? at h
  split at h
  · rename_i rest hskip
    obtain ⟨m, hm, rfl⟩ : ∃ m : Nat, signed? rest = some m ∧ -(m : Int) = n := by
      simpa [Option.bind_eq_some_iff] using h
    obtain ⟨gap, _, rest, rfl, hgap, hrest⟩ := signed?_eq_some_iff.mp hm
    obtain ⟨digits, trail, rfl, hspells, hle, htrail⟩ := magnitude?_eq_some_iff.mp hrest
    obtain ⟨lead, _, rfl, hlead, -⟩ := skip_eq_character_iff.mp hskip
    exact .intro hlead (.minus hgap) hspells hle htrail
  · rename_i rest hskip
    obtain ⟨m, hm, rfl⟩ : ∃ m : Nat, signed? rest = some m ∧ (m : Int) = n := by
      simpa [Option.bind_eq_some_iff] using h
    obtain ⟨gap, _, rest, rfl, hgap, hrest⟩ := signed?_eq_some_iff.mp hm
    obtain ⟨digits, trail, rfl, hspells, hle, htrail⟩ := magnitude?_eq_some_iff.mp hrest
    obtain ⟨lead, _, rfl, hlead, -⟩ := skip_eq_character_iff.mp hskip
    exact .intro hlead (.plus hgap) hspells hle htrail
  · rename_i rest _ _ hskip
    obtain ⟨m, hm, rfl⟩ : ∃ m : Nat, magnitude? rest = some m ∧ (m : Int) = n := by
      simpa [Option.bind_eq_some_iff] using h
    obtain ⟨digits, trail, rfl, hspells, hle, htrail⟩ := magnitude?_eq_some_iff.mp hm
    obtain ⟨lead, _, rfl, hlead, -⟩ := skip_eq_character_iff.mp hskip
    exact .intro hlead .bare hspells hle htrail
  · cases h

theorem value?_of_holds {text : List Char} {n : Int} (h : Holds n text) : value? text = some n := by
  obtain @⟨lead, sign, digits, trail, fresh, m, hlead, hsign, hspells, hle, htrail⟩ := h
  have hmagnitude : magnitude? (digits ++ trail) = some m :=
    magnitude?_eq_some_iff.mpr ⟨digits, trail, rfl, hspells, hle, htrail⟩
  unfold value?
  cases hsign with
  | bare =>
    rw [List.nil_append, skip_of_magnitude? hlead hmagnitude]
    obtain ⟨c, hhead, hc⟩ := head_of_magnitude? hmagnitude
    -- a digit comes first, so neither sign does
    split
    · rename_i heq
      rw [Ahead.character.inj heq] at hhead
      cases hhead
      exact absurd hc (by decide)
    · rename_i heq
      rw [Ahead.character.inj heq] at hhead
      cases hhead
      exact absurd hc (by decide)
    · rename_i heq
      rw [← Ahead.character.inj heq]
      simp [hmagnitude]
    · rename_i hcharacter
      exact absurd rfl (hcharacter _)
  | plus hgap =>
    rw [List.cons_append, skip_eq_character_iff.mpr ⟨lead, fresh, rfl, hlead, '+', rfl, by decide⟩]
    simp [signed?_eq_some_iff.mpr ⟨_, _, _, rfl, hgap, hmagnitude⟩]
  | minus hgap =>
    rw [List.cons_append, skip_eq_character_iff.mpr ⟨lead, fresh, rfl, hlead, '-', rfl, by decide⟩]
    simp [signed?_eq_some_iff.mpr ⟨_, _, _, rfl, hgap, hmagnitude⟩]

/-- The texts that have a value are those that hold the literal of it. -/
theorem value?_eq_some_iff {text : List Char} {n : Int} : value? text = some n ↔ Holds n text :=
  ⟨holds_of_value?, value?_of_holds⟩

theorem Spells.isAlphanum {m : Nat} {text : List Char} (h : Spells m text) :
    ∀ c ∈ text, c.isAlphanum = true := by
  cases h with
  | decimal hwrites _ =>
    intro c hc
    exact isAlphanum_of_digitValue_lt ((hwrites.digitValue_lt (by decide) c hc).trans (by decide))
  | based hmark hwrites =>
    have hletter : ∀ entry ∈ marks, entry.1.isAlphanum = true := by decide
    have hbase := base_le_of_mem_marks hmark
    rw [List.forall_mem_cons, List.forall_mem_cons]
    refine ⟨by decide, hletter _ hmark, fun c hc => ?_⟩
    exact isAlphanum_of_digitValue_lt ((hwrites.digitValue_lt hbase c hc).trans_le hbase)

theorem Gap.eq_nil {before fresh : Bool} {gap : List Char} (h : Gap before gap fresh)
    (hplain : ∀ c ∈ gap, c ∉ closers) : gap = [] := by
  cases h with
  | none => rfl
  | blank => exact absurd (by decide) (hplain '\r' (by simp))
  | continued => exact absurd (by decide) (hplain '\\' (by simp))

theorem Trail.eq_nil {trail : List Char} (h : Trail trail) (hplain : ∀ c ∈ trail, c ∉ closers) :
    trail = [] := by
  cases trail with
  | nil => rfl
  | cons c rest => exact absurd (h.head_mem_closers c rfl) (hplain c (by simp))

end Literal

end Microcomputer
