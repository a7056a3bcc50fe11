import Microcomputer.Bits.Number

/-!
# Bit fields from bit fields

* `BitField.merge` : overlay of fields of one width;
* `BitField.concat`, `BitField.extract` : joining and cutting;
* `BitField.fill`, `BitField.fillFrom` : giving the X bits a value;
* `BitField.variants` : how many concrete fields there are behind a field, `BitField.variant` : the
  one with a given number;
* `BitField.collapse` : all of them in order, `BitField.collapseTake` : the first few.

A field with `k` X bits stands for `2 ^ k` concrete ones. They are numbered by counting through the
X bits from the right, so their words increase.
-/

namespace Microcomputer.BitField

/-! ## Overlay -/

def overlay (f g : BitField) : Except BitError BitField :=
  if g.width ≠ f.width then .error .widthMismatch
  else if (f.value ^^^ g.value) &&& (f.care &&& g.care) ≠ 0#64 then .error .conflict
  else .ok ⟨f.width, f.value ||| (g.value &&& g.care), f.care ||| g.care⟩

/-- Overlays fields of one width, from first to last. -/
def merge : List BitField → Except BitError BitField
  | [] => .ok empty
  | f :: fs => (f :: fs).foldlM overlay (unknown f.width)

/-! ## Joining and cutting -/

def append (f g : BitField) : Except BitError BitField :=
  if maxWidth < f.width + g.width then .error .outOfRange
  else
    .ok ⟨f.width + g.width, f.value <<< g.width ||| (g.value &&& g.care),
      f.care <<< g.width ||| g.care⟩

/-- Joins fields, the first at the left end. -/
def concat (fs : List BitField) : Except BitError BitField := fs.foldlM append empty

/-- The bits from `high` down to `low`, both included. -/
def extract (f : BitField) (high low : Int) : Except BitError BitField :=
  if low < 0 ∨ high < low ∨ f.width ≤ high then .error .outOfRange
  else
    let width := (high - low + 1).toNat
    .ok ⟨width, (f.value >>> low.toNat) &&& mask width, (f.care >>> low.toNat) &&& mask width⟩

/-! ## Filling -/

def fill (f : BitField) (bit : Bool) : BitField :=
  let known := f.value &&& f.care
  ⟨f.width, if bit then known ||| (~~~f.care &&& mask f.width) else known, mask f.width⟩

/-- Gives every X bit the value of the same bit of `default`. -/
def fillFrom (f default : BitField) : Except BitError BitField :=
  if f.width ≠ default.width then .error .widthMismatch
  else
    .ok ⟨f.width, (f.value &&& f.care) ||| (default.value &&& default.care &&& ~~~f.care),
      f.care ||| default.care⟩

/-! ## The concrete fields behind a field -/

/-- The bits of `count`, from the lowest up, moved to the given positions. -/
def scatter : List Nat → Nat → Nat
  | [], _ => 0
  | p :: ps, count => (if count % 2 = 1 then 1 <<< p else 0) ||| scatter ps (count / 2)

/-- The number of concrete fields behind `f`. The count is a 64-bit word, so that 64 X bits leave
nothing. -/
def variants (f : BitField) : Nat :=
  let k := f.unknowns + (f.width - maxWidth)
  if k < 64 then 1 <<< k else 0

/-- The concrete field number `count` behind `f`, given the positions of its X bits. -/
def variantAt (f : BitField) (positions : List Nat) (count : Nat) : BitField :=
  ⟨f.width, f.word ||| BitVec.ofNat 64 (scatter positions count), mask f.width⟩

def variant (f : BitField) (count : Nat) : BitField := f.variantAt f.unknownPositions count

def collapseTake (f : BitField) (limit : Nat) : List BitField :=
  (List.range (min limit f.variants)).map f.variant

/-- Every concrete field behind `f`, in order of its word. -/
def collapse (f : BitField) : List BitField := (List.range f.variants).map f.variant

end Microcomputer.BitField
