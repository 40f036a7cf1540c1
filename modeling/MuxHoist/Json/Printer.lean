/-
  MuxHoist.Json.Printer

  Writing JSON values: one item or member per line, each level of nesting two
  blanks further in, and nothing between the brackets of what is empty.
-/
import MuxHoist.Json.Basic
import MuxHoist.Json.Text

namespace MuxHoist

namespace Json

/-- The text of a scalar. -/
def Scalar.text : Scalar → String
  | .null => "null"
  | .bool true => "true"
  | .bool false => "false"
  | .int n => toString n
  | .real literal => literal
  | .str s => quote s

/-- A line break and the blanks of a nesting depth. -/
def newline (depth : Nat) : String :=
  String.ofList ('\n' :: List.replicate (2 * depth) ' ')

mutual

/-- The text of a value that stands at a nesting depth. -/
def pretty (depth : Nat) : Json → String
  | .scalar v => v.text
  | .list [] => "[]"
  | .list (j :: js) =>
    "[" ++ newline (depth + 1) ++ pretty (depth + 1) j ++ prettyItems (depth + 1) js
      ++ newline depth ++ "]"
  | .object [] => "\x7b\x7d"
  | .object ((k, j) :: ms) =>
    "\x7b" ++ newline (depth + 1) ++ quote k ++ ": " ++ pretty (depth + 1) j
      ++ prettyMembers (depth + 1) ms ++ newline depth ++ "\x7d"

/-- The text of the items after the first. -/
def prettyItems (depth : Nat) : List Json → String
  | [] => ""
  | j :: js => "," ++ newline depth ++ pretty depth j ++ prettyItems depth js

/-- The text of the members after the first. -/
def prettyMembers (depth : Nat) : List (String × Json) → String
  | [] => ""
  | (k, j) :: ms =>
    "," ++ newline depth ++ quote k ++ ": " ++ pretty depth j ++ prettyMembers depth ms

end

/-- The text of a value. -/
def write (j : Json) : String := j.pretty 0

end Json

end MuxHoist
