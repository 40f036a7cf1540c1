/-
  MuxHoist.Decision.Guarded

  The leaves of a decision tree, each with the conditions that select it. The
  leaves of a true arm come before those of the false arm, and a missing arm
  gives none.
-/
import MuxHoist.Expr.Text

namespace MuxHoist

/-- A condition on the way to a leaf, and the arm taken there. -/
structure Guard where
  cond : Expr
  polarity : Bool
  deriving Repr

/-- A leaf of a decision tree with the conditions that select it, outermost
    first. -/
structure GuardedLeaf where
  guards : List Guard
  expr : Expr
  deriving Repr

namespace Guard

/-- The condition, negated on the way into a false arm. -/
def text (g : Guard) : String :=
  if g.polarity then g.cond.text else "!" ++ g.cond.text

end Guard

namespace GuardedLeaf

/-- The leaf under one more condition. -/
def under (g : Guard) (l : GuardedLeaf) : GuardedLeaf :=
  { l with guards := g :: l.guards }

/-- The conditions joined, or the constant one if there are none, and the
    leaf they select. -/
def text (l : GuardedLeaf) : String :=
  (if l.guards.isEmpty then "1'b1" else String.intercalate " && " (l.guards.map Guard.text))
    ++ " => " ++ l.expr.text

end GuardedLeaf

namespace Expr

mutual

/-- The leaves of the decision tree, true arms before false arms. -/
def guardedLeaves : Expr → List GuardedLeaf
  | .branch _ c t f =>
    (armLeaves t).map (.under ⟨c, true⟩) ++ (armLeaves f).map (.under ⟨c, false⟩)
  | e => [⟨[], e⟩]

/-- The leaves of an arm. -/
def armLeaves : Option Expr → List GuardedLeaf
  | none => []
  | some e => guardedLeaves e

end

/-- A tree that is not conditional is its own only leaf, under no condition. -/
theorem guardedLeaves_of_not_isBranch {e : Expr} (h : e.isBranch = false) :
    e.guardedLeaves = [⟨[], e⟩] := by
  cases e <;> simp_all [guardedLeaves, isBranch]

end Expr

end MuxHoist
