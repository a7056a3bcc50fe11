import Microcomputer.Control

/-!
# Registers and arguments

* `Register` : the registers that a program names, with their control lines;
* `Operand` : what a 3-bit operand code of an instruction byte stands for;
* `Argument` : a register or a constant, perhaps in square brackets;
* `Signature` : one legal combination of arguments of an operation, `Signature.text` : as it is shown
  to the user.
-/

namespace Microcomputer

/-- A register with a name in assembly source. -/
inductive Register where
  | acc
  | a
  | b
  | c
  | sp
  | pc
deriving DecidableEq, Repr

namespace Register

def all : List Register := [.acc, .a, .b, .c, .sp, .pc]

def name : Register → String
  | .acc => "ACC"
  | .a => "A"
  | .b => "B"
  | .c => "C"
  | .sp => "SP"
  | .pc => "PC"

def ofName? (text : String) : Option Register := all.find? fun r => r.name == text

def code : Register → Nat
  | .acc => 0
  | .a => 1
  | .b => 2
  | .c => 3
  | .sp => 4
  | .pc => 5

/-- The line that latches the bus into a register. -/
def input : Register → Control
  | .acc => .accIn
  | .a => .aIn
  | .b => .bIn
  | .c => .cIn
  | .sp => .spIn
  | .pc => .pcIn

/-- The line that drives a register onto the bus. -/
def output : Register → Control
  | .acc => .accOut
  | .a => .aOut
  | .b => .bOut
  | .c => .cOut
  | .sp => .spOut
  | .pc => .pcOut

end Register

/-- What the source or destination code of an instruction byte stands for. -/
inductive Operand where
  | register (r : Register)
  /-- The program byte after the instruction. -/
  | constant
  /-- The top of the stack. -/
  | stack
deriving DecidableEq, Repr

namespace Operand

def all : List Operand := Register.all.map .register ++ [.constant, .stack]

def code : Operand → Nat
  | .register r => r.code
  | .constant => 6
  | .stack => 7

def name : Operand → String
  | .register r => r.name
  | .constant => "CONST"
  | .stack => "STACK"

def ofCode? (n : Int) : Option Operand := all.find? fun o => (o.code : Int) == n

/-- The name of code `n`; a number in brackets where there is no operand. -/
def nameAt (n : Int) : String :=
  match ofCode? n with
  | some o => o.name
  | none => Text.numbered "Module" n

/-- The line that latches the bus into an operand; only registers have one. -/
def input? : Operand → Option Control
  | .register r => some r.input
  | _ => none

/-- The line that drives an operand onto the bus; only registers have one. -/
def output? : Operand → Option Control
  | .register r => some r.output
  | _ => none

end Operand

/-! ## Signatures -/

inductive ArgumentValue where
  | register (r : Register)
  | constant
deriving DecidableEq, Repr

structure Argument where
  value : ArgumentValue
  /-- The argument is written in square brackets and names a place in data memory. -/
  inMemory : Bool
deriving DecidableEq, Repr

namespace Argument

def register (r : Register) (inMemory : Bool) : Argument := ⟨.register r, inMemory⟩

def constant (inMemory : Bool) : Argument := ⟨.constant, inMemory⟩

def isConstant (arg : Argument) : Bool := arg.value == .constant

/-- The name of the register that an argument takes; empty for a constant. -/
def registerName (arg : Argument) : String :=
  match arg.value with
  | .register r => r.name
  | .constant => ""

def text (arg : Argument) : String :=
  let inner :=
    match arg.value with
    | .register r => r.name
    | .constant => "<constant>"
  if arg.inMemory then "[" ++ inner ++ "]" else inner

end Argument

/-- A legal combination of arguments. -/
abbrev Signature := List Argument

def Signature.text (sig : Signature) : String := String.intercalate " " (sig.map Argument.text)

end Microcomputer
