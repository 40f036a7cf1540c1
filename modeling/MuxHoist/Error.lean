/-
  MuxHoist.Error

  What can be wrong with a tree, and how each fault is reported. A fault is
  held as its cause; the wording is in `TreeError.message`.
-/
import MuxHoist.Expr.Equality
import MuxHoist.Expr.Text

namespace MuxHoist

/-- A reason why a tree cannot be read or hoisted. -/
inductive TreeError where
  /-- A bound of a part select is conditional once hoisted; holds the id of the
      part select and its hoisted parts. -/
  | conditionalBound (id : Option NodeId) (base msb lsb : Expr)
  /-- A node is tagged with a kind that does not exist. -/
  | unknownKind (kind : String)
  /-- The text is not a JSON document; holds what is wrong with it. -/
  | notJson (detail : String)
  /-- The document is not the spelling of a tree; holds what is wrong with it. -/
  | notTree (detail : String)
  deriving Repr, DecidableEq

/-- The three classes into which reports sort the faults. -/
inductive TreeError.Category where
  | format | definition | json
  deriving Repr, DecidableEq, Inhabited

namespace TreeError

/-- An optional id as error messages show it. -/
def idText : Option NodeId → String
  | none => "None"
  | some id => "Some(NodeId(" ++ toString id.val.toNat ++ "))"

/-- The class of a fault: reading faults are of the document as a whole. -/
def category : TreeError → Category
  | .conditionalBound .. => .format
  | .unknownKind _ => .definition
  | .notJson _ | .notTree _ => .json

/-- The wording of a fault. -/
def message : TreeError → String
  | .conditionalBound id base msb lsb =>
    "MSB and LSB of a Partselect must not be conditional; got msb: " ++ msb.kind.name
      ++ ", lsb: " ++ lsb.kind.name
      ++ " in " ++ base.text ++ "[" ++ msb.text ++ ":" ++ lsb.text ++ "]"
      ++ " (" ++ idText id ++ ")"
  | .unknownKind kind => "undefined node kind: " ++ kind
  | .notJson detail | .notTree detail => "failed to parse tree: " ++ detail

/-- The words that open a report of this class. -/
def Category.text : Category → String
  | .format => "format error: "
  | .definition => "definition error: "
  | .json => "json error: "

/-- The report of a fault: its class, then its wording. -/
def display (e : TreeError) : String := e.category.text ++ e.message

end TreeError

end MuxHoist
