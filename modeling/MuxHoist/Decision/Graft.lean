/-
  MuxHoist.Decision.Graft

  The decision tree of an expression is made of the conditionals that its root
  reaches through arms alone; every other node at which such a path ends is a
  leaf of the decision tree. Grafting puts something else at each leaf. The
  conditions, the ids of the conditionals and the missing arms stay.
-/
import MuxHoist.Expr.Basic

namespace MuxHoist

namespace Expr

/-! ## Grafting -/

mutual

/-- Replaces each leaf `l` of the decision tree by `k l`. -/
def graft (k : Expr → Expr) : Expr → Expr
  | .branch id c t f => .branch id c (graftArm k t) (graftArm k f)
  | e => k e

/-- Grafts onto an arm; a missing arm stays missing. -/
def graftArm (k : Expr → Expr) : Option Expr → Option Expr
  | none => none
  | some e => some (graft k e)

end

theorem graftArm_eq_map (k : Expr → Expr) (a : Option Expr) :
    graftArm k a = a.map (graft k) := by
  cases a <;> rfl

@[simp] theorem graft_branch (k : Expr → Expr) (id : Option NodeId) (c : Expr)
    (t f : Option Expr) :
    graft k (.branch id c t f) = .branch id c (t.map (graft k)) (f.map (graft k)) := by
  simp [graft, graftArm_eq_map]

/-- A tree that is not conditional is its own only leaf. -/
theorem graft_of_not_isBranch {k : Expr → Expr} {e : Expr} (h : e.isBranch = false) :
    graft k e = k e := by
  cases e <;> simp_all [graft, isBranch]

/-- Grafts a computation onto a decision tree. The copy at a leaf takes the
    leaf's id; a tree that is not conditional gets one copy with the id `id`. -/
def computeOver (e : Expr) (id : Option NodeId) (k : Option NodeId → Expr → Expr) : Expr :=
  if e.isBranch then e.graft fun l => k l.id l else k id e

/-- With the tree's own id there is no difference between the two cases. -/
theorem computeOver_id (e : Expr) (k : Option NodeId → Expr → Expr) :
    e.computeOver e.id k = e.graft fun l => k l.id l := by
  unfold computeOver
  split
  · rfl
  · next h => rw [graft_of_not_isBranch (by simpa using h)]

end Expr

end MuxHoist
