/-
  MuxHoist.Json.Token

  The tokens of a JSON text: brackets, separators and scalars. A text is cut
  into tokens one character after the other; blanks between tokens are dropped.
  A scalar that is no string is a word, that is an unbroken run of letters,
  digits, signs and points.
-/
import MuxHoist.Json.Number
import MuxHoist.Json.Text

namespace MuxHoist

namespace Json

/-- A token of a JSON text. -/
inductive Token where
  | beginList | endList | beginObject | endObject
  | comma | colon
  | scalar (value : Scalar)
  deriving Repr, DecidableEq, Inhabited

/-! ## Characters -/

/-- The four characters that may stand between tokens. -/
def isBlank (c : Char) : Bool :=
  c = ' ' || c = '\t' || c = '\n' || c = '\r'

/-- The characters of which words are made. -/
def isWordChar (c : Char) : Bool :=
  c.isAlphanum || c = '+' || c = '-' || c = '.'

/-- The token that a character is by itself. -/
def punctuation? : Char → Option Token
  | '[' => some .beginList
  | ']' => some .endList
  | '\x7b' => some .beginObject
  | '\x7d' => some .endObject
  | ',' => some .comma
  | ':' => some .colon
  | _ => none

/-- The scalar that a word denotes. -/
def word? (cs : List Char) : Option Scalar :=
  if cs = ['n', 'u', 'l', 'l'] then some .null
  else if cs = ['t', 'r', 'u', 'e'] then some (.bool true)
  else if cs = ['f', 'a', 'l', 's', 'e'] then some (.bool false)
  else (Numeral.ofChars? cs).bind Numeral.scalar?

/-! ## Cutting a text into tokens -/

/-- What is being read between two characters. -/
inductive Lexer where
  /-- No token. -/
  | between
  /-- A word, its characters so far, last first. -/
  | word (done : List Char)
  /-- A string. -/
  | text (t : OpenText)
  deriving Repr, DecidableEq, Inhabited

namespace Lexer

/-- Takes a character where a token may start; tokens are gathered last first. -/
def start? (ts : List Token) (c : Char) : Option (Lexer × List Token) :=
  if isBlank c then some (.between, ts)
  else if isWordChar c then some (.word [c], ts)
  else if c = '"' then some (.text .empty, ts)
  else (punctuation? c).map fun t => (.between, t :: ts)

/-- Takes a character. -/
def step? (ts : List Token) (c : Char) : Lexer → Option (Lexer × List Token)
  | .between => start? ts c
  | .word done =>
    -- A word ends where a character follows that cannot belong to it.
    if isWordChar c then some (.word (c :: done), ts)
    else (word? done.reverse).bind fun v => start? (.scalar v :: ts) c
  | .text t =>
    if t.closes c then some (.between, .scalar (.str t.text) :: ts)
    else (t.step? c).map fun t => (.text t, ts)

/-- The tokens at the end of the text, first first. -/
def finish? (ts : List Token) : Lexer → Option (List Token)
  | .between => some ts.reverse
  | .word done => (word? done.reverse).map fun v => (.scalar v :: ts).reverse
  | .text _ => none

/-- Takes all characters of a text. -/
def run? : Lexer → List Token → List Char → Option (List Token)
  | l, ts, [] => l.finish? ts
  | l, ts, c :: cs =>
    match l.step? ts c with
    | none => none
    | some (l, ts) => run? l ts cs

end Lexer

/-- The tokens of a text; none if it has a part that is no token. -/
def tokens? (text : String) : Option (List Token) :=
  Lexer.run? .between [] text.toList

end Json

end MuxHoist
