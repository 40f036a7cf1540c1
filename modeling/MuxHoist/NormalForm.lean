/-
  MuxHoist.NormalForm

  The form that hoisting produces. A tree is hoisted if its conditionals form
  one decision tree at the root and, again, at the tree below each delay: none
  stands in a condition, an operand, a base, a bound or an index. A tree is
  branch-free if it holds no conditional at all.
-/
import MuxHoist.Expr.Basic

namespace MuxHoist

namespace Expr

/-! ## Hoisted trees -/

mutual

/-- Tells whether every conditional stands where it may. At the root of a
    region (`top`) conditionals may stand; arms go on with that permission,
    other parts lose it, and a delay starts a region of its own. -/
def wellPlaced (top : Bool) : Expr → Bool
  | .leaf .. => true
  | .branch _ c t f =>
    top && c.wellPlaced false && armWellPlaced top t && armWellPlaced top f
  | .compound _ _ xs => allWellPlaced false xs
  | .partselect _ b m l => b.wellPlaced false && m.wellPlaced false && l.wellPlaced false
  | .pointer _ b i => b.wellPlaced false && i.wellPlaced false
  -- A conditional never leaves the region of its delay.
  | .delay _ e => e.wellPlaced true

/-- The same of an arm; a missing arm places nothing. -/
def armWellPlaced (top : Bool) : Option Expr → Bool
  | none => true
  | some e => e.wellPlaced top

/-- The same of each operand. -/
def allWellPlaced (top : Bool) : List Expr → Bool
  | [] => true
  | e :: es => e.wellPlaced top && allWellPlaced top es

end

/-- A decision tree at the root and below each delay, and no other conditional. -/
def isHoisted (e : Expr) : Bool := e.wellPlaced true

/-- Hoisted and not conditional at its root: fit to be a condition or a leaf. -/
def isPlain (e : Expr) : Bool := e.wellPlaced false

theorem armWellPlaced_iff {top : Bool} {a : Option Expr} :
    armWellPlaced top a ↔ ∀ e ∈ a, e.wellPlaced top := by
  cases a <;> simp [armWellPlaced]

theorem allWellPlaced_iff {top : Bool} {es : List Expr} :
    allWellPlaced top es ↔ ∀ e ∈ es, e.wellPlaced top := by
  induction es with
  | nil => simp [allWellPlaced]
  | cons e es ih => simp [allWellPlaced, ih]

/-- Plain trees are the hoisted trees that are not conditional. -/
theorem isPlain_iff {e : Expr} : e.isPlain ↔ e.isHoisted ∧ e.isBranch = false := by
  cases e <;> simp [isPlain, isHoisted, wellPlaced, isBranch]

/-! ## Branch-free trees -/

mutual

/-- Tells whether no conditional occurs in the tree. -/
def isBranchFree : Expr → Bool
  | .leaf .. => true
  | .branch .. => false
  | .compound _ _ xs => allBranchFree xs
  | .partselect _ b m l => b.isBranchFree && m.isBranchFree && l.isBranchFree
  | .pointer _ b i => b.isBranchFree && i.isBranchFree
  | .delay _ e => e.isBranchFree

/-- The same of each operand. -/
def allBranchFree : List Expr → Bool
  | [] => true
  | e :: es => e.isBranchFree && allBranchFree es

end

theorem allBranchFree_iff {es : List Expr} :
    allBranchFree es ↔ ∀ e ∈ es, e.isBranchFree := by
  induction es with
  | nil => simp [allBranchFree]
  | cons e es ih => simp [allBranchFree, ih]

end Expr

end MuxHoist
