/-
  MuxHoist.Json.Number

  Number literals. A literal without fraction and exponent is an integer if it
  fits into a 64-bit word, signed or unsigned; every other literal is a real
  number and must not be too large for binary64. Minus zero is a real number.
-/
import MuxHoist.Json.Basic

namespace MuxHoist

namespace Json

/-- A number literal, taken apart; digits are kept as written. -/
structure Numeral where
  negative : Bool
  whole : List Char
  /-- The digits after the point, if there is a point. -/
  fraction : Option (List Char)
  /-- The sign (`true` for minus) and the digits of the exponent, if there is
      one. -/
  exponent : Option (Bool × List Char)
  deriving Repr, DecidableEq

namespace Numeral

/-! ## Reading a literal, part by part -/

/-- The digits at the front, at least one, and the rest. -/
def digits? (cs : List Char) : Option (List Char × List Char) :=
  if cs.takeWhile Char.isDigit = [] then none
  else some (cs.takeWhile Char.isDigit, cs.dropWhile Char.isDigit)

/-- The whole part: a single zero, or digits that start with another one. -/
def whole? : List Char → Option (List Char × List Char)
  | '0' :: rest => some (['0'], rest)
  | cs => digits? cs

/-- The fraction: after a point at least one digit must follow. -/
def fraction? : List Char → Option (Option (List Char) × List Char)
  | '.' :: rest => (digits? rest).map fun (ds, rest) => (some ds, rest)
  | cs => some (none, cs)

/-- The sign of an exponent, plus if there is none. -/
def exponentSign : List Char → Bool × List Char
  | '-' :: rest => (true, rest)
  | '+' :: rest => (false, rest)
  | cs => (false, cs)

/-- The exponent: after the letter and a sign at least one digit must follow. -/
def exponent? : List Char → Option (Option (Bool × List Char) × List Char)
  | c :: rest =>
    if c = 'e' ∨ c = 'E' then
      let (negative, rest) := exponentSign rest
      (digits? rest).map fun (ds, rest) => (some (negative, ds), rest)
    else some (none, c :: rest)
  | [] => some (none, [])

/-- The sign of a literal. -/
def sign : List Char → Bool × List Char
  | '-' :: rest => (true, rest)
  | cs => (false, cs)

/-- The literal that a text is, to its last character. -/
def ofChars? (cs : List Char) : Option Numeral := do
  let (negative, cs) := sign cs
  let (whole, cs) ← whole? cs
  let (fraction, cs) ← fraction? cs
  let (exponent, cs) ← exponent? cs
  if cs = [] then return ⟨negative, whole, fraction, exponent⟩ else none

/-! ## The literal's text -/

/-- The text of the exponent's sign. -/
def signText (negative : Bool) : List Char :=
  if negative then ['-'] else []

/-- A text of the literal; the exponent is written with a small letter and
    without a plus. -/
def chars (n : Numeral) : List Char :=
  signText n.negative ++ n.whole
    ++ (match n.fraction with
        | none => []
        | some ds => '.' :: ds)
    ++ (match n.exponent with
        | none => []
        | some (negative, ds) => 'e' :: (signText negative ++ ds))

/-! ## The literal's value -/

/-- The value of a digit string. -/
def natOfDigits (ds : List Char) : Nat :=
  ds.foldl (fun n d => n * 10 + (d.toNat - '0'.toNat)) 0

/-- The integer that a literal denotes, if it is one: it has neither point nor
    exponent, is not minus zero, and fits into a 64-bit word, signed or
    unsigned. -/
def int? (n : Numeral) : Option Int :=
  match n.fraction, n.exponent with
  | none, none =>
    let size := natOfDigits n.whole
    let v : Int := if n.negative then -size else size
    if n.negative ∧ size = 0 then none
    else if Int64.minValue.toInt ≤ v ∧ v < UInt64.size then some v
    else none
  | _, _ => none

/-! ## The range of real literals -/

/-- Adds digits to a significand as long as it fits into 64 bits; gives the
    digits left over too. -/
def absorb : Nat → List Char → Nat × List Char
  | sig, [] => (sig, [])
  | sig, d :: ds =>
    let next := sig * 10 + (d.toNat - '0'.toNat)
    if next < UInt64.size then absorb next ds else (sig, d :: ds)

/-- The nearest number of 53 significant bits; of two the even one. -/
def round53 (n : Nat) : Nat :=
  let unit := 1 <<< (n.log2 + 1 - 53)
  let q := n / unit
  let r := n % unit
  if unit < 2 * r ∨ (unit = 2 * r ∧ q % 2 = 1) then (q + 1) * unit else q * unit

/-- The least number that binary64 rounds to infinity: the largest finite one
    plus half a unit of its last place. -/
def overflowBound : Nat := (1 <<< 1024) - (1 <<< 970)

/-- Tells whether a significand times a power of ten is too large for binary64,
    both factors being rounded before they are multiplied. -/
def tooLarge (sig : Nat) (exponent : Int) : Bool :=
  if sig = 0 ∨ exponent < 0 then false
  else if 308 < exponent then true
  else decide (overflowBound ≤ round53 sig * round53 (Nat.pow 10 exponent.toNat))

/-- Tells whether a literal is too large for binary64. Its value is taken as a
    significand of 64 bits, from the leading digits, and a power of ten; an
    exponent literal beyond 32 bits decides by its sign alone. -/
def outOfRange (n : Numeral) : Bool :=
  -- Digits before the point that do not fit still count for the power of ten;
  -- those after the point count for nothing.
  let (sig, left) := absorb 0 n.whole
  let fraction := n.fraction.getD []
  let (sig, unread) := absorb sig fraction
  let scale : Int := (left.length : Int) - (fraction.length - unread.length : Nat)
  match n.exponent with
  | none => tooLarge sig scale
  | some (negative, ds) =>
    let e := natOfDigits ds
    if Int32.maxValue.toInt < e then sig ≠ 0 && !negative
    else tooLarge sig (scale + if negative then -(e : Int) else e)

/-- The scalar that a literal denotes; none if it is out of range. -/
def scalar? (n : Numeral) : Option Scalar :=
  match n.int? with
  | some v => some (.int v)
  | none => if n.outOfRange then none else some (.real (String.ofList n.chars))

end Numeral

end Json

end MuxHoist
