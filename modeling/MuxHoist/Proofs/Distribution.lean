/-
  MuxHoist.Proofs.Distribution

  Building over a selection. A step that builds over one tree (`Frame`) puts something at
  each leaf of its decision tree, and a selection has the leaves that its arms have; so
  what is built over a selection is a selection between what is built over the arms. Main
  statement: each such step distributes over a selection, down to the ids and the missing
  arms, and so do any number of steps one after the other (`plug_select`). For the step
  that selects again this is associativity of selection.
-/
import MuxHoist.Proofs.FixedArity

namespace MuxHoist

/-- A step of building with one place left open, for the tree that it builds over. -/
inductive Frame where
  | unary (operator : Operator)
  | slice (msb lsb : Expr)
  | element (index : Expr)
  | select (onTrue onFalse : Option Expr)
  /-- A binary operator whose right operand is there; the left one is open. -/
  | binary (operator : Operator) (id : Option NodeId) (right : Expr)
  deriving Repr, Inhabited

namespace Frame

/-- What the step makes of a tree in its open place, which may be missing. -/
def plug : Frame → Option Expr → Option Expr
  | .unary o, e => Decision.unary o e
  | .slice m l, e => Decision.slice e m l
  | .element i, e => Decision.element e i
  | .select t f, e => Decision.select e t f
  | .binary o id r, e => Decision.binary o id e (some r)

/-- What any number of steps make, each of what the one before it has made. -/
def plugAll (xs : List Frame) (e : Option Expr) : Option Expr :=
  xs.foldl (fun e x => x.plug e) e

/-- What the step puts at a leaf. -/
def atLeaf : Frame → Expr → Expr
  | .unary o, l => .compound l.id (.op o) [l]
  | .slice msb lsb, l => .partselect l.id l msb lsb
  | .element i, l => .pointer l.id l i
  | .select t f, l => .branch l.id l t f
  | .binary o id r, l => r.graft fun b => .compound id (.op o) [l, b]

/-- Every step is a graft; a missing tree stays missing. -/
theorem plug_eq_map (x : Frame) (e : Option Expr) :
    x.plug e = e.map (Expr.graft x.atLeaf) := by
  cases x with
  | binary o id r => exact Decision.binary_some_right e r
  | _ => rfl

/-- The conditionals of a selection's condition stay on top, and whatever is grafted onto
    the selection is grafted onto its arms. -/
theorem map_graft_select (g : Expr → Expr) (p q r : Option Expr) :
    (Decision.select p q r).map (Expr.graft g)
      = Decision.select p (q.map (Expr.graft g)) (r.map (Expr.graft g)) := by
  cases p with
  | none => rfl
  | some c =>
    have hleaf : ∀ l : Expr, (Expr.branch l.id l q r).graft g
        = .branch l.id l (q.map (Expr.graft g)) (r.map (Expr.graft g)) :=
      fun l => Expr.graft_branch g l.id l q r
    simp only [Decision.select, Option.map_some, Expr.select, Expr.graft_graft, hleaf]

/-- Step: building over a selection selects between what is built over its arms. -/
theorem plug_decision_select (x : Frame) (p q r : Option Expr) :
    x.plug (Decision.select p q r) = Decision.select p (x.plug q) (x.plug r) := by
  rw [plug_eq_map, plug_eq_map, plug_eq_map, map_graft_select]

/-- Run: the same of any number of steps. -/
theorem plugAll_decision_select (xs : List Frame) (p q r : Option Expr) :
    plugAll xs (Decision.select p q r) = Decision.select p (plugAll xs q) (plugAll xs r) := by
  induction xs generalizing q r with
  | nil => rfl
  | cons x xs ih =>
    rw [plugAll, List.foldl_cons, plug_decision_select]
    exact ih (x.plug q) (x.plug r)

/-- Unary and binary operators, ranges, elements and further selections distribute over a
    selection, whatever trees its condition and its arms are and whether they are there at
    all; and so does any sequence of such steps. -/
theorem plug_select (p q r : Option Expr) :
    (∀ x : Frame, x.plug (Decision.select p q r) = Decision.select p (x.plug q) (x.plug r)) ∧
      ∀ xs : List Frame, plugAll xs (Decision.select p q r)
        = Decision.select p (plugAll xs q) (plugAll xs r) :=
  ⟨fun x => plug_decision_select x p q r, fun xs => plugAll_decision_select xs p q r⟩

/-- The right operand of a binary operator is no such place: the conditionals of the left one
    stand outside those of the selection. -/
example :
    let c : Expr := .leaf none (.terminal "c")
    let d : Expr := .leaf none (.terminal "d")
    let left : Option Expr := some (.branch none c (some c) none)
    Decision.binary .plus none left (Decision.select (some d) (some c) none)
      ≠ Decision.select (some d) (Decision.binary .plus none left (some c)) none := by
  decide

end Frame

end MuxHoist
