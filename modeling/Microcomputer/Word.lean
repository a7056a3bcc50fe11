/-!
# Words of an assembly line

* `Literal.value?` : the value of a text that is one integer literal;
* `Word.isLabel` : `@name`, `Word.isVariable` : `$name`;
* `Word.number?` : the value of a number, an integer literal after an optional `#`;
* `Word.isConstant` : a label, a variable or a number;
* `Word.memoryOperand?` : the inside of `[…]`.

A literal is an optional sign and digits: decimal without leading zeros, hexadecimal after `0x`,
octal after `0o`, binary after `0b`. Comments from `#` on, line ends and continued lines may stand
around it, the line end being a carriage return here.
-/

namespace Microcomputer

/-! ## Integer literals -/

namespace Literal

/-- What comes after comments, blank lines and continued lines. -/
inductive Ahead where
  /-- The end of the text, or a NUL, which counts as the end. -/
  | finish
  /-- The end of a line that is not blank; the text goes on with `rest`. -/
  | lineEnd (rest : List Char)
  /-- Some other character, the first one of `rest`. -/
  | character (rest : List Char)
  /-- A backslash that continues no line. -/
  | strayBackslash
deriving DecidableEq, Repr

/-- Passes over blank lines, comments and continued lines. At the start of a line, a line end makes
the line a blank one, which is passed over; a line continued from another one is never blank. -/
def skip (lineStart inComment : Bool) : List Char → Ahead
  | [] => .finish
  | '\\' :: '\r' :: rest =>
    if inComment then (if lineStart then skip true false rest else .lineEnd rest)
    else skip false false rest
  | c :: rest =>
    if c = '\x00' then .finish
    else if c = '\r' then (if lineStart then skip true false rest else .lineEnd rest)
    else if inComment then skip lineStart true rest
    else if c = '#' then skip lineStart true rest
    else if c = '\\' then .strayBackslash
    else .character (c :: rest)

/-- The value of a digit, hexadecimal ones included. -/
def digitValue (c : Char) : Nat :=
  if c.isDigit then c.toNat - '0'.toNat
  else if 'a' ≤ c ∧ c ≤ 'f' then c.toNat - 'a'.toNat + 10
  else if 'A' ≤ c ∧ c ≤ 'F' then c.toNat - 'A'.toNat + 10
  else 16

def numeral (base : Nat) (digits : List Char) : Nat :=
  digits.foldl (fun n c => n * base + digitValue c) 0

/-- Reads at least one digit of a base; gives the number and the rest. -/
def numeral? (base : Nat) (text : List Char) : Option (Nat × List Char) :=
  match text.takeWhile (digitValue · < base) with
  | [] => none
  | digits => some (numeral base digits, text.dropWhile (digitValue · < base))

/-- Reads decimal digits. Only zeros follow a leading zero. -/
def decimal? (text : List Char) : Option (Nat × List Char) :=
  match text.takeWhile (digitValue · < 10) with
  | '0' :: digits =>
    if digits.all (· == '0') then some (0, text.dropWhile (digitValue · < 10)) else none
  | _ => numeral? 10 text

/-- Reads the digits of a literal; gives the number and the rest. -/
def digits? : List Char → Option (Nat × List Char)
  | '0' :: 'x' :: text => numeral? 16 text
  | '0' :: 'X' :: text => numeral? 16 text
  | '0' :: 'o' :: text => numeral? 8 text
  | '0' :: 'O' :: text => numeral? 8 text
  | '0' :: 'b' :: text => numeral? 2 text
  | '0' :: 'B' :: text => numeral? 2 text
  | text => decimal? text

/-- Whether only comments and blank lines follow the first line end, if there is one. -/
def ends (text : List Char) : Bool :=
  match skip false false text with
  | .finish => true
  | .lineEnd rest => skip true false rest == .finish
  | _ => false

def largest : Nat := 9223372036854775807

def magnitude? (text : List Char) : Option Nat :=
  match digits? text with
  | some (n, rest) => if n ≤ largest && ends rest then some n else none
  | none => none

def signed? (text : List Char) : Option Nat :=
  match skip false false text with
  | .character rest => magnitude? rest
  | _ => none

/-- The value of a text that holds one literal. -/
def value? (text : List Char) : Option Int :=
  match skip true false text with
  | .character ('-' :: rest) => (signed? rest).map fun n => -(n : Int)
  | .character ('+' :: rest) => (signed? rest).map fun n => (n : Int)
  | .character rest => (magnitude? rest).map fun n => (n : Int)
  | _ => none

end Literal

/-! ## Words -/

namespace Word

def isNameStart (c : Char) : Bool := c.isAlpha || c == '_'

def isNamePart (c : Char) : Bool := c.isAlphanum || c == '_'

/-- Whether a text is a sigil followed by a name. -/
def isSigiled (sigil : Char) : List Char → Bool
  | s :: c :: cs => s == sigil && isNameStart c && cs.all isNamePart
  | _ => false

def isLabel (word : String) : Bool := isSigiled '@' word.toList

def isVariable (word : String) : Bool := isSigiled '$' word.toList

/-- A text without the `#` that may stand before a number. -/
def dropMark : List Char → List Char
  | '#' :: text => text
  | text => text

def number? (word : String) : Option Int :=
  let text := dropMark word.toList
  if text.any fun c => c == ' ' || c == '\t' || c == '\n' then none else Literal.value? text

def isNumber (word : String) : Bool := (number? word).isSome

/-- Whether a word is a label, a variable or a number. -/
def isConstant (word : String) : Bool := isLabel word || isVariable word || isNumber word

/-- The inside of a word in square brackets, which is not empty. -/
def memoryOperand? (word : String) : Option String :=
  match word.toList with
  | '[' :: c :: rest =>
    if rest.getLast? = some ']' then some (String.ofList (c :: rest.dropLast)) else none
  | _ => none

end Word

end Microcomputer
