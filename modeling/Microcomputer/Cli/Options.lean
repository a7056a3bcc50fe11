import Microcomputer.Text

/-!
# Options of the command line

Options come before the command. They start with one or two dashes; a value follows after `=` or as
the next argument, only after `=` for a switch.

An integer is an optional sign and digits: binary after `0b`, octal after `0o` or `0`, hexadecimal
after `0x`, decimal otherwise. One underscore may divide two digits, or the digits from what stands
before them.

* `Integer.parse` : the value of an integer, `IntegerError` : why a text has none;
* `Options` : the options and the arguments after them;
* `Options.parse` : reads the arguments of the program;
* `Options.Stop` : why there is nothing to do, `Options.Stop.lines` : what the user is told then;
* `usage` : how the program is called.
-/

namespace Microcomputer

/-! ## Integers -/

inductive IntegerError where
  /-- The text is not written like an integer. -/
  | notWritten
  /-- The integer does not fit 64 bits. -/
  | outOfRange
deriving DecidableEq, Repr

def IntegerError.message : IntegerError → String
  | .notWritten => "parse error"
  | .outOfRange => "value out of range"

namespace Integer

/-- The value of a digit; letters count on from 10. -/
def digit? (c : Char) : Option Nat :=
  if c.isDigit then some (c.toNat - '0'.toNat)
  else if c.isLower then some (c.toNat - 'a'.toNat + 10)
  else if c.isUpper then some (c.toNat - 'A'.toNat + 10)
  else none

/-- Magnitudes are less than this. -/
def wordLimit : Nat := 18446744073709551616

/-- Reads the remaining digits of a magnitude, `n` being the value of those before. -/
def digits (base n : Nat) : List Char → Except IntegerError Nat
  | [] => .ok n
  | c :: cs =>
    if c = '_' then digits base n cs
    else
      match digit? c with
      | none => .error .notWritten
      | some d =>
        if base ≤ d then .error .notWritten
        else if wordLimit ≤ n * base + d then .error .outOfRange
        else digits base (n * base + d) cs

/-- The base of a magnitude and its digits. -/
def split : List Char → Nat × List Char
  | '0' :: c :: d :: rest =>
    if c = 'b' ∨ c = 'B' then (2, d :: rest)
    else if c = 'o' ∨ c = 'O' then (8, d :: rest)
    else if c = 'x' ∨ c = 'X' then (16, d :: rest)
    else (8, c :: d :: rest)
  | '0' :: rest => (8, rest)
  | text => (10, text)

/-- Whether every underscore stands after a digit and before one. `afterDigit` is whether a digit
was last. -/
def dividesDigits (afterDigit : Bool) : List Char → Bool
  | [] => true
  | '_' :: rest => afterDigit && !rest.isEmpty && dividesDigits false rest
  | _ :: rest => dividesDigits true rest

/-- Whether underscores only divide digits. What stands for the base counts as a digit. -/
def dividesAll : List Char → Bool
  | '0' :: c :: rest =>
    if "bBoOxX".toList.contains c then dividesDigits true rest else dividesDigits true (c :: rest)
  | text => dividesDigits false text

def magnitude (text : List Char) : Except IntegerError Nat :=
  if text.isEmpty then .error .notWritten
  else
    match digits (split text).1 0 (split text).2 with
    | .error e => .error e
    | .ok n => if dividesAll text then .ok n else .error .notWritten

def largest : Nat := 9223372036854775807

def parse (text : String) : Except IntegerError Int :=
  match text.toList with
  | '-' :: rest =>
    match magnitude rest with
    | .error e => .error e
    | .ok n => if n ≤ largest + 1 then .ok (-(n : Int)) else .error .outOfRange
  | cs =>
    match magnitude (if cs.head? = some '+' then cs.tail else cs) with
    | .error e => .error e
    | .ok n => if n ≤ largest then .ok (n : Int) else .error .outOfRange

end Integer

/-! ## Options -/

namespace Cli

def programName : String := "ebc"

def usage : List String :=
  ["usage: " ++ programName ++ " [flags] assemble|roms|run [file]",
    "  -o string",
    "    \tOutput file (default \"-\")",
    "  -offset int",
    "    \tFirst data address given to a variable",
    "  -v\tVerbose mode"]

structure Options where
  /-- The file for the output; `-` is standard output. -/
  output : String := "-"
  /-- The data address of the first variable. -/
  offset : Int := 0
  verbose : Bool := false
  arguments : List String := []
deriving DecidableEq, Repr

namespace Options

/-- Why the arguments ask for no command. -/
inductive Stop where
  /-- The user asks how the program is called. -/
  | help
  | badSyntax (arg : String)
  | undefined (name : String)
  | noValue (name : String)
  | badBoolean (value name : String)
  | badInteger (value name : String) (reason : IntegerError)
  /-- No command follows the options. -/
  | noCommand
deriving DecidableEq, Repr

def Stop.complaint : Stop → List String
  | .help => []
  | .badSyntax arg => ["bad flag syntax: " ++ arg]
  | .undefined name => ["flag provided but not defined: -" ++ name]
  | .noValue name => ["flag needs an argument: -" ++ name]
  | .badBoolean value name =>
    ["invalid boolean value " ++ Text.quoted value ++ " for -" ++ name ++ ": parse error"]
  | .badInteger value name reason =>
    ["invalid value " ++ Text.quoted value ++ " for flag -" ++ name ++ ": " ++ reason.message]
  | .noCommand => []

def Stop.lines (stop : Stop) : List String := stop.complaint ++ usage

def Stop.exitCode : Stop → UInt8
  | .help => 0
  | _ => 2

inductive Form where
  /-- The first argument after the options. -/
  | operand
  /-- The mark `--` that ends the options. -/
  | terminator
  | malformed
  /-- An option, with the value after its `=`. -/
  | option (name : String) (value : Option String)
deriving DecidableEq, Repr

/-- The form of an option without its dashes. -/
def Form.ofName : List Char → Form
  | [] => .malformed
  | c :: cs =>
    if c = '-' ∨ c = '=' then .malformed
    else
      let name := String.ofList (c :: cs.takeWhile (· != '='))
      match cs.dropWhile (· != '=') with
      | [] => .option name none
      | _ :: value => .option name (some (String.ofList value))

def Form.ofText (arg : String) : Form :=
  match arg.toList with
  | ['-', '-'] => .terminator
  | '-' :: '-' :: name => Form.ofName name
  | '-' :: c :: name => Form.ofName (c :: name)
  | _ => .operand

def boolean? (text : String) : Option Bool :=
  if ["1", "t", "T", "TRUE", "true", "True"].contains text then some true
  else if ["0", "f", "F", "FALSE", "false", "False"].contains text then some false
  else none

/-- Whether an option takes a value that may be the next argument. -/
def takesValue (name : String) : Bool := name == "o" || name == "offset"

/-- Sets an option that takes a value. -/
def assign (options : Options) (name value : String) : Except Stop Options :=
  if name = "o" then .ok { options with output := value }
  else
    match Integer.parse value with
    | .ok n => .ok { options with offset := n }
    | .error reason => .error (.badInteger value name reason)

/-- Sets an option that takes no further argument. -/
def switch (options : Options) (name : String) (value : Option String) : Except Stop Options :=
  if name = "v" then
    match value with
    | none => .ok { options with verbose := true }
    | some text =>
      match boolean? text with
      | some b => .ok { options with verbose := b }
      | none => .error (.badBoolean text name)
  else if name = "help" ∨ name = "h" then .error .help
  else .error (.undefined name)

def parseFrom (options : Options) : List String → Except Stop Options
  | [] => .ok options
  | arg :: rest =>
    match Form.ofText arg with
    | .operand => .ok { options with arguments := arg :: rest }
    | .terminator => .ok { options with arguments := rest }
    | .malformed => .error (.badSyntax arg)
    | .option name value =>
      if takesValue name then
        match value, rest with
        | some text, rest =>
          match options.assign name text with
          | .ok options => options.parseFrom rest
          | .error stop => .error stop
        | none, text :: rest =>
          match options.assign name text with
          | .ok options => options.parseFrom rest
          | .error stop => .error stop
        | none, [] => .error (.noValue name)
      else
        match options.switch name value with
        | .ok options => options.parseFrom rest
        | .error stop => .error stop

def parse (args : List String) : Except Stop Options := parseFrom {} args

end Options

end Cli

end Microcomputer
