/-
  MuxHoist.Json.Text

  String literals: how a text is quoted, and how a quoted text is read, one
  character after the other. Reading takes every escape that JSON knows;
  writing escapes only what it must.
-/

namespace MuxHoist

namespace Json

/-! ## Hexadecimal digits -/

/-- The value of a hexadecimal digit, of either case. -/
def hexDigit? (c : Char) : Option Nat :=
  if '0' ≤ c ∧ c ≤ '9' then some (c.toNat - '0'.toNat)
  else if 'a' ≤ c ∧ c ≤ 'f' then some (c.toNat - 'a'.toNat + 10)
  else if 'A' ≤ c ∧ c ≤ 'F' then some (c.toNat - 'A'.toNat + 10)
  else none

/-- The small hexadecimal digit of a value below sixteen. -/
def hexDigit (n : Nat) : Char :=
  if n < 10 then Char.ofNat ('0'.toNat + n) else Char.ofNat ('a'.toNat + (n - 10))

/-! ## Characters that take two escapes -/

/-- The first half of a pair that stands for one character. -/
def isHighSurrogate (n : Nat) : Bool := 0xD800 ≤ n && n < 0xDC00

/-- The second half of such a pair. -/
def isLowSurrogate (n : Nat) : Bool := 0xDC00 ≤ n && n < 0xE000

/-- The character of a pair. -/
def joinSurrogates (high low : Nat) : Char :=
  Char.ofNat (0x10000 + (high - 0xD800) * 0x400 + (low - 0xDC00))

/-! ## Reading -/

/-- The character of an escape of one letter. -/
def shortEscape? : Char → Option Char
  | '"' => some '"'
  | '\\' => some '\\'
  | '/' => some '/'
  | 'b' => some '\x08'
  | 'f' => some '\x0c'
  | 'n' => some '\n'
  | 'r' => some '\r'
  | 't' => some '\t'
  | _ => none

/-- Where a string literal has been read to, between characters. -/
inductive Escape where
  /-- In no escape. -/
  | outside
  /-- After a backslash. -/
  | start
  /-- Within a numeric escape: how many digits were read, and their value. The
      escape may have to complete a pair. -/
  | digits (high : Option Nat) (count value : Nat)
  /-- After the first half of a pair: a backslash must follow. -/
  | half (high : Nat)
  /-- After that backslash: the letter of a numeric escape must follow. -/
  | halfStart (high : Nat)
  deriving Repr, DecidableEq, Inhabited

/-- A string literal that is being read: its characters so far, last first. -/
structure OpenText where
  done : List Char
  escape : Escape
  deriving Repr, DecidableEq, Inhabited

namespace OpenText

/-- A literal whose opening quote was read. -/
def empty : OpenText := ⟨[], .outside⟩

/-- One character more. -/
def push (t : OpenText) (c : Char) : OpenText := ⟨c :: t.done, .outside⟩

/-- The text so far. -/
def text (t : OpenText) : String := String.ofList t.done.reverse

/-- Takes the value of a numeric escape. The halves of a pair must stand
    together. -/
def number? (t : OpenText) : Option Nat → Nat → Option OpenText
  | none, n =>
    if isHighSurrogate n then some { t with escape := .half n }
    else if isLowSurrogate n then none
    else some (t.push (Char.ofNat n))
  | some high, n =>
    if isLowSurrogate n then some (t.push (joinSurrogates high n)) else none

/-- Takes a character that does not close the literal. A control character
    must be escaped. -/
def step? (t : OpenText) (c : Char) : Option OpenText :=
  match t.escape with
  | .outside =>
    if c = '\\' then some { t with escape := .start }
    else if c.toNat < 0x20 then none
    else some (t.push c)
  | .start =>
    if c = 'u' then some { t with escape := .digits none 0 0 }
    else (shortEscape? c).map t.push
  | .digits high count value =>
    match hexDigit? c with
    | none => none
    | some d =>
      if count < 3 then some { t with escape := .digits high (count + 1) (value * 16 + d) }
      else t.number? high (value * 16 + d)
  | .half high => if c = '\\' then some { t with escape := .halfStart high } else none
  | .halfStart high => if c = 'u' then some { t with escape := .digits (some high) 0 0 } else none

/-- Tells whether a character closes the literal. -/
def closes (t : OpenText) (c : Char) : Bool :=
  t.escape = .outside && c = '"'

end OpenText

/-! ## Writing -/

/-- The letter that escapes a character, if there is one that writing uses. -/
def escapeLetter? : Char → Option Char
  | '"' => some '"'
  | '\\' => some '\\'
  | '\x08' => some 'b'
  | '\x0c' => some 'f'
  | '\n' => some 'n'
  | '\r' => some 'r'
  | '\t' => some 't'
  | _ => none

/-- A character within quotes: by an escape of one letter, else a control
    character by its number, else as it is. -/
def quoteChar (c : Char) : List Char :=
  match escapeLetter? c with
  | some letter => ['\\', letter]
  | none =>
    if c.toNat < 0x20 then
      ['\\', 'u', '0', '0', hexDigit (c.toNat / 16), hexDigit (c.toNat % 16)]
    else [c]

/-- A text as a string literal. -/
def quote (s : String) : String :=
  String.ofList ('"' :: (s.toList.flatMap quoteChar ++ ['"']))

end Json

end MuxHoist
