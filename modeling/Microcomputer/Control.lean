import Microcomputer.Text

/-!
# Control lines

The machine is steered by 26 control lines. A control word has one bit for each; the line whose bit
is set is active during a clock cycle.

* `Control` : the lines, `Control.position` : the bit of a line, `Control.all` : all of them, by bit;
* `Control.isActive` : whether a control word asserts a line;
* `Control.activeNames` : the asserted lines of a word, for the log.
-/

namespace Microcomputer

/-- A control line. A line `…In` latches the bus, a line `…Out` drives it. -/
inductive Control where
  | aIn
  | aOut
  | bIn
  | bOut
  | cIn
  | cOut
  | accIn
  | accOut
  | spIn
  | spOut
  | pcIn
  | pcOut
  | pcCount
  | marIn
  | ramIn
  | ramOut
  | ramSelectProgram
  | irIn
  | aluSelect0
  | aluSelect1
  | aluSelect2
  | aluStoreResult
  | aluStoreFlags
  | aluOut
  | stepReset
  | halt
deriving DecidableEq, Repr

namespace Control

def all : List Control :=
  [.aIn, .aOut, .bIn, .bOut, .cIn, .cOut, .accIn, .accOut, .spIn, .spOut, .pcIn, .pcOut, .pcCount,
    .marIn, .ramIn, .ramOut, .ramSelectProgram, .irIn, .aluSelect0, .aluSelect1, .aluSelect2,
    .aluStoreResult, .aluStoreFlags, .aluOut, .stepReset, .halt]

def position : Control → Nat
  | .aIn => 0
  | .aOut => 1
  | .bIn => 2
  | .bOut => 3
  | .cIn => 4
  | .cOut => 5
  | .accIn => 6
  | .accOut => 7
  | .spIn => 8
  | .spOut => 9
  | .pcIn => 10
  | .pcOut => 11
  | .pcCount => 12
  | .marIn => 13
  | .ramIn => 14
  | .ramOut => 15
  | .ramSelectProgram => 16
  | .irIn => 17
  | .aluSelect0 => 18
  | .aluSelect1 => 19
  | .aluSelect2 => 20
  | .aluStoreResult => 21
  | .aluStoreFlags => 22
  | .aluOut => 23
  | .stepReset => 24
  | .halt => 25

def name : Control → String
  | .aIn => "A_IN"
  | .aOut => "A_OUT"
  | .bIn => "B_IN"
  | .bOut => "B_OUT"
  | .cIn => "C_IN"
  | .cOut => "C_OUT"
  | .accIn => "ACC_IN"
  | .accOut => "ACC_OUT"
  | .spIn => "SP_IN"
  | .spOut => "SP_OUT"
  | .pcIn => "PC_IN"
  | .pcOut => "PC_OUT"
  | .pcCount => "PC_COUNT"
  | .marIn => "MAR_IN"
  | .ramIn => "RAM_IN"
  | .ramOut => "RAM_OUT"
  | .ramSelectProgram => "RAM_SEL_PROG"
  | .irIn => "IR_IN"
  | .aluSelect0 => "ALU_S0"
  | .aluSelect1 => "ALU_S1"
  | .aluSelect2 => "ALU_S2"
  | .aluStoreResult => "ALU_STORE_RESULT"
  | .aluStoreFlags => "ALU_STORE_FLAGS"
  | .aluOut => "ALU_OUT"
  | .stepReset => "STEP_COUNTER_RESET"
  | .halt => "HALT"

def ofPosition? (n : Int) : Option Control := all.find? fun line => (line.position : Int) == n

/-- The name of the line of bit `n`; a number in brackets where there is no line. -/
def nameAt (n : Int) : String :=
  match ofPosition? n with
  | some line => line.name
  | none => Text.numbered "Control" n

/-- Whether a control word asserts a line. -/
def isActive (line : Control) (word : BitVec 64) : Bool := word.getLsbD line.position

/-- The names of the lines that a control word asserts, in the order of their bits. -/
def activeNames (word : BitVec 64) : String :=
  String.intercalate " " ((all.filter (·.isActive word)).map name)

end Control

end Microcomputer
