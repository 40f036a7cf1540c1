/-
  MuxHoist.Json.Reader

  Reading JSON values from tokens, one token after the other. The reader holds
  a stack of the lists and objects that are still open, so the stack's height
  is the nesting reached, and the nesting allowed is a bound on it.
-/
import MuxHoist.Json.Token

namespace MuxHoist

namespace Json

/-- A list or an object that is still open, with what it holds so far, last
    first. -/
inductive Frame where
  | list (items : List Json)
  /-- The key is that of the member being read. -/
  | object (members : List (String × Json)) (key : String)
  deriving Repr, Inhabited

/-- What the reader is waiting for. -/
inductive Reader where
  /-- A value. -/
  | value (frames : List Frame)
  /-- The first item of a list, or its end. -/
  | firstItem (frames : List Frame)
  /-- The first key of an object, or its end. -/
  | firstKey (frames : List Frame)
  /-- A further key of an object. -/
  | nextKey (frames : List Frame) (members : List (String × Json))
  /-- The colon after a key. -/
  | colon (frames : List Frame) (members : List (String × Json)) (key : String)
  /-- What follows a complete value. -/
  | follow (frames : List Frame) (value : Json)
  deriving Repr, Inhabited

namespace Reader

/-- Starts a value: a list or an object may open only while fewer than `limit`
    are open. -/
def start? (limit : Nat) (frames : List Frame) : Token → Option Reader
  | .scalar v => some (.follow frames (.scalar v))
  | .beginList => if frames.length < limit then some (.firstItem frames) else none
  | .beginObject => if frames.length < limit then some (.firstKey frames) else none
  | _ => none

/-- Takes one token. -/
def step? (limit : Nat) : Reader → Token → Option Reader
  | .value frames, t => start? limit frames t
  | .firstItem frames, .endList => some (.follow frames (.list []))
  | .firstItem frames, t => start? limit (.list [] :: frames) t
  | .firstKey frames, .endObject => some (.follow frames (.object []))
  | .firstKey frames, .scalar (.str key) => some (.colon frames [] key)
  | .nextKey frames members, .scalar (.str key) => some (.colon frames members key)
  | .colon frames members key, .colon => some (.value (.object members key :: frames))
  | .follow (.list items :: frames) v, .comma => some (.value (.list (v :: items) :: frames))
  | .follow (.list items :: frames) v, .endList =>
    some (.follow frames (.list (v :: items).reverse))
  | .follow (.object members key :: frames) v, .comma =>
    some (.nextKey frames ((key, v) :: members))
  | .follow (.object members key :: frames) v, .endObject =>
    some (.follow frames (.object ((key, v) :: members).reverse))
  | _, _ => none

/-- The value read, once nothing is open. -/
def result? : Reader → Option Json
  | .follow [] v => some v
  | _ => none

/-- Takes tokens to the end. -/
def run? (limit : Nat) : Reader → List Token → Option Reader
  | r, [] => some r
  | r, t :: ts =>
    match step? limit r t with
    | none => none
    | some r => run? limit r ts

end Reader

/-- The value that a token sequence spells, if its nesting is at most `limit`. -/
def ofTokens? (limit : Nat) (ts : List Token) : Option Json :=
  (Reader.run? limit (.value []) ts).bind Reader.result?

/-- Reads a JSON text whose nesting is at most `limit`; gives the value in
    canonical form. -/
def read? (limit : Nat) (text : String) : Option Json :=
  ((tokens? text).bind (ofTokens? limit)).map canonical

end Json

end MuxHoist
