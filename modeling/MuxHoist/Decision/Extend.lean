/-
  MuxHoist.Decision.Extend

  Building further computation over decision trees, one step at a time. Each
  operation keeps the conditionals of its operands on top and computes at their
  leaves. An operand that is missing makes the result missing.
-/
import MuxHoist.Decision.Graft
import MuxHoist.Decision.Combine

namespace MuxHoist

namespace Expr

/-- Selects between two arms at each leaf of the condition's decision tree. -/
def select (cond : Expr) (onTrue onFalse : Option Expr) : Expr :=
  cond.graft fun l => .branch l.id l onTrue onFalse

/-- Applies a unary operator at each leaf. -/
def unary (o : Operator) (e : Expr) : Expr :=
  e.graft fun l => .compound l.id (.op o) [l]

/-- Applies a binary operator at each pair of leaves, the left operand's
    conditionals outermost; every application takes the id `id`. -/
def binary (o : Operator) (id : Option NodeId) (left right : Expr) : Expr :=
  left.graft fun l => right.graft fun r => .compound id (.op o) [l, r]

/-- Takes the bits `msb` down to `lsb` at each leaf. -/
def slice (base msb lsb : Expr) : Expr :=
  base.graft fun l => .partselect l.id l msb lsb

/-- Takes the element at `index` at each leaf. -/
def element (base index : Expr) : Expr :=
  base.graft fun l => .pointer l.id l index

end Expr

namespace Decision

/-- Selects between two arms by a condition that may be missing. -/
def select (cond onTrue onFalse : Option Expr) : Option Expr :=
  cond.map fun c => c.select onTrue onFalse

/-- Applies a unary operator to an operand that may be missing. -/
def unary (o : Operator) (base : Option Expr) : Option Expr :=
  base.map (Expr.unary o)

/-- Applies a binary operator to two operands that may be missing. -/
def binary (o : Operator) (id : Option NodeId) : (left right : Option Expr) → Option Expr
  | some l, some r => some (l.binary o id r)
  | _, _ => none

/-- Takes a range of bits of a base that may be missing. -/
def slice (base : Option Expr) (msb lsb : Expr) : Option Expr :=
  base.map fun b => b.slice msb lsb

/-- Takes an element of a base that may be missing. -/
def element (base : Option Expr) (index : Expr) : Option Expr :=
  base.map fun b => b.element index

/-- Applies an operator to any number of operands. -/
def operator (o : Operator) (id : Option NodeId) (operands : List Expr) : Expr :=
  combine (.op o) id operands

/-- Joins the bits of any number of operands. -/
def concat (id : Option NodeId) (operands : List Expr) : Expr :=
  combine .concat id operands

end Decision

end MuxHoist
