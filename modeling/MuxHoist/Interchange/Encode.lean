/-
  MuxHoist.Interchange.Encode

  Trees as JSON values, and as texts. Of the spellings that reading takes,
  writing uses one: objects with their members in a fixed order, and every slot
  filled.
-/
import MuxHoist.Json.Printer
import MuxHoist.Interchange.Slots

namespace MuxHoist

namespace Interchange

/-- The object of a payload: its kind, then its slots in order. -/
def payload (k : Kind) (slots : List Json) : Json :=
  .object (("kind", Json.str k.name) :: k.slots.zip slots)

/-- The object of a node: its id, if it has one, then its payload. -/
def node : Option NodeId → Json → Json
  | none, payload => .object [("payload", payload)]
  | some id, payload => .object [("id", Json.int id.val.toNat), ("payload", payload)]

/-- The payload of a leaf. -/
def leafPayload : Leaf → Json
  | .constant value => payload .constant [Json.str value]
  | .terminal name => payload .terminal [Json.str name]
  | .evalValue value width =>
    payload .evalValue [Json.int value.toInt, Json.int width.toNat]
  | .undefined => payload .undefined []
  | .highImpedance => payload .highImpedance []

/-- The payload of a compound node. -/
def compoundPayload : Combiner → List Json → Json
  | .op o, xs => payload .operator [Json.str o.name, .list xs]
  | .concat, xs => payload .concat [.list xs]

mutual

/-- A tree as a value. -/
def ofExpr : Expr → Json
  | .leaf id v => node id (leafPayload v)
  | .branch id c t f => node id (payload .branch [ofExpr c, ofArm t, ofArm f])
  | .compound id k xs => node id (compoundPayload k (ofExprs xs))
  | .partselect id b m l => node id (payload .partselect [ofExpr b, ofExpr m, ofExpr l])
  | .pointer id b i => node id (payload .pointer [ofExpr b, ofExpr i])
  | .delay id e => node id (payload .delay [ofExpr e])

/-- An arm as a value: null if it is missing. -/
def ofArm : Option Expr → Json
  | none => Json.null
  | some e => ofExpr e

/-- Operands as values. -/
def ofExprs : List Expr → List Json
  | [] => []
  | e :: es => ofExpr e :: ofExprs es

end

/-- A tree that may be empty as a value: the empty tree is null. -/
def ofTree (tree : Option Expr) : Json := ofArm tree

/-- Writes a tree as a JSON text. -/
def write (tree : Option Expr) : String := (ofTree tree).write

end Interchange

end MuxHoist
