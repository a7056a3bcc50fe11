import Microcomputer.Bits.Collapse
import Microcomputer.Operation.Standard
import Std.Data.TreeMap

/-!
# The microcode ROM and its chips

The ROM holds a control word for each microcode address. The words come from the templates of the
instruction set; no address may be claimed twice, and an address that nobody claims is idle. Control
words are spread over chips that are a byte wide. Chip 0 holds the lowest byte.

* `Rom.fetch` : the templates of the instruction fetch, the first steps of every instruction;
* `Rom.claim`, `Rom.claimAll` : put templates into a table of entries;
* `Rom.build` : the ROM of an instruction set, in order of address;
* `Rom.transcript` : what is logged on the way;
* `Rom.chips` : the contents of each chip, `Rom.chipListing` : the contents of all chips in writing.
-/

namespace Microcomputer

structure Entry where
  address : BitField
  data : BitField
deriving DecidableEq, Repr

namespace Rom

/-- The entries claimed so far, by the number of their address. -/
abbrev Table := Std.TreeMap Nat Entry

def fetchSteps : List (List Control) :=
  [[.pcOut, .marIn], [.ramSelectProgram, .ramOut, .irIn, .pcCount]]

/-- The templates of the steps of a fetch, the first being step `n`. -/
def fetchFrom (n : Nat) : List (List Control) → Except BitError (List Template)
  | [] => .ok []
  | lines :: rest => do
    let address ← BitField.merge [Layout.anyAddress, Layout.stepBits n]
    let data ← Control.wordOf lines
    return ⟨address, data⟩ :: (← fetchFrom (n + 1) rest)

def fetch : Except BitError (List Template) := fetchFrom 0 fetchSteps

def templates (ops : List Operation) : Except Failure (List Template) := do
  let first ← BitError.lift fetch
  let rest ← ops.mapM Operation.templates
  return first ++ rest.flatten

/-- Claims the next `remaining` addresses behind a pattern with X bits at `positions`, from number
`count` on. -/
def claimFrom (pattern data : BitField) (positions : List Nat) (remaining count : Nat)
    (table : Table) : Except Error Table :=
  match remaining with
  | 0 => .ok table
  | remaining + 1 =>
    let address := pattern.variantAt positions count
    let key := address.word.toNat
    if table.contains key then .error (.collision address)
    else claimFrom pattern data positions remaining (count + 1) (table.insert key ⟨address, data⟩)

/-- Claims every address of a template. Lines that the template leaves open are inactive. -/
def claim (table : Table) (template : Template) : Except Error Table :=
  match template.data.fillFrom Control.idleWord with
  | .error e => .error (.bits e)
  | .ok data =>
    let address := template.address
    claimFrom address data address.unknownPositions address.variants 0 table

def claimAll (templates : List Template) : Except Error Table := templates.foldlM claim ∅

/-- The entry of an address that no template claims. -/
def idleEntry (address : Nat) : Entry :=
  ⟨.ofWord (BitVec.ofNat 64 address) Layout.addressWidth, Control.idleWord⟩

def complete (table : Table) : Table :=
  (List.range microcodeSize).foldl (fun table n => table.insertIfNew n (idleEntry n)) table

def build (ops : List Operation) : Except Failure (List Entry) := do
  let templates ← templates ops
  let table ← (claimAll templates).mapError .error
  return (complete table).values

/-! ## The log -/

/-- The number of templates of each operation, up to the first that fails. -/
def templateLog : List Operation → List String
  | [] => []
  | op :: rest =>
    match op.templates with
    | .error _ => []
    | .ok templates => (op.mnemonic ++ ": " ++ toString templates.length ++ " templates") :: templateLog rest

def transcript (ops : List Operation) : List String :=
  templateLog ops ++
    match (templates ops).bind fun templates => (claimAll templates).mapError .error with
    | .error _ => []
    | .ok table => ["rom: " ++ toString table.size ++ " addresses from templates"]

/-! ## Chips -/

/-- The largest width, a 64-bit signed word. -/
def largestWidth : Nat := 9223372036854775807

/-- The number of chips for control words of a width. There are none for a width that cannot be
rounded up to whole bytes. -/
def chipCount (width : Nat) : Nat := if largestWidth < width + 7 then 0 else (width + 7) / 8

/-- The bytes of a control word that must have `width` bits, lowest first. -/
def laneBits (width : Nat) (data : BitField) : Except BitError (List BitField) := do
  if data.width ≠ width then .error .widthMismatch
  if chipCount width = 0 then return []
  let padded ← BitField.concat [.ofWord 0#64 (chipCount width * 8 - width), data]
  (List.range (chipCount width)).mapM fun (lane : Nat) =>
    padded.extract ((lane * 8 + 7 : Nat) : Int) ((lane * 8 : Nat) : Int)

/-- The contents of each chip, entry by entry as in the ROM. -/
def chips (rom : List Entry) : Except BitError (List (List Entry)) :=
  match rom with
  | [] => .ok []
  | first :: _ => do
    let rows ← rom.mapM fun (entry : Entry) =>
      (laneBits first.data.width entry.data).map fun lanes => (entry.address, lanes)
    return (List.range (chipCount first.data.width)).map fun lane =>
      rows.filterMap fun row => row.2[lane]?.map fun bits => ⟨row.1, bits⟩

def entryLine (entry : Entry) : String := entry.address.text ++ ": " ++ entry.data.text

def chipLines (n : Nat) (chip : List Entry) : List String :=
  ("# chip " ++ toString n) :: chip.map entryLine

/-- The contents of chips in writing, the first being chip `n`. -/
def chipListing (n : Nat) : List (List Entry) → List String
  | [] => []
  | chip :: rest => chipLines n chip ++ chipListing (n + 1) rest

end Rom

end Microcomputer
