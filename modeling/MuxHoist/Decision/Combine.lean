/-
  MuxHoist.Decision.Combine

  Joining operands that may be conditional. The leftmost conditional operand
  comes outermost: it keeps its condition and id, and each arm it has takes its
  place among the operands, which are then joined in turn. Without a
  conditional operand the result is one flat node.
-/
import MuxHoist.Expr.Basic

namespace MuxHoist

/-! ## The leftmost conditional operand -/

/-- An operand list taken apart at a conditional operand. -/
structure BranchSplit where
  before : List Expr
  id : Option NodeId
  cond : Expr
  onTrue : Option Expr
  onFalse : Option Expr
  after : List Expr

namespace BranchSplit

/-- The operand list that was taken apart. -/
def operands (s : BranchSplit) : List Expr :=
  s.before ++ .branch s.id s.cond s.onTrue s.onFalse :: s.after

/-- The operand list with another operand in place of the conditional one. -/
def withArm (s : BranchSplit) (arm : Expr) : List Expr :=
  s.before ++ arm :: s.after

/-- Takes an operand list apart at its leftmost conditional operand. -/
def find? : List Expr → Option BranchSplit
  | [] => none
  | .branch id c t f :: rest => some ⟨[], id, c, t, f, rest⟩
  | x :: rest => (find? rest).map fun s => { s with before := x :: s.before }

/-- What is taken apart can be put together again. -/
theorem operands_of_find? {xs : List Expr} {s : BranchSplit} (h : find? xs = some s) :
    s.operands = xs := by
  induction xs generalizing s with
  | nil => simp [find?] at h
  | cons x rest ih =>
    cases x with
    | branch => simp [find?] at h; subst h; rfl
    | _ =>
      simp only [find?, Option.map_eq_some_iff] at h
      obtain ⟨r, hr, rfl⟩ := h
      simpa [operands] using ih hr

end BranchSplit

/-! ## Sizes, for termination -/

namespace Expr

theorem sizeAll_append (xs ys : List Expr) : sizeAll (xs ++ ys) = sizeAll xs + sizeAll ys := by
  induction xs with
  | nil => simp [sizeAll]
  | cons x xs ih => simp [sizeAll, ih, Nat.add_assoc]

end Expr

namespace BranchSplit

theorem sizeAll_onTrue_lt {xs : List Expr} {s : BranchSplit} {a : Expr}
    (h : find? xs = some s) (ha : s.onTrue = some a) :
    Expr.sizeAll (s.withArm a) < Expr.sizeAll xs := by
  rw [← operands_of_find? h]
  simp only [withArm, operands, Expr.sizeAll_append, Expr.sizeAll, Expr.size, ha, Expr.sizeArm]
  omega

theorem sizeAll_onFalse_lt {xs : List Expr} {s : BranchSplit} {a : Expr}
    (h : find? xs = some s) (ha : s.onFalse = some a) :
    Expr.sizeAll (s.withArm a) < Expr.sizeAll xs := by
  rw [← operands_of_find? h]
  simp only [withArm, operands, Expr.sizeAll_append, Expr.sizeAll, Expr.size, ha, Expr.sizeArm]
  omega

end BranchSplit

/-! ## Joining -/

namespace Decision

/-- Joins operands below all their conditionals, the leftmost outermost. A flat
    node takes the id of the arm chosen last, or `id` if no operand is
    conditional. -/
def combine (k : Combiner) (id : Option NodeId) (xs : List Expr) : Expr :=
  match h : BranchSplit.find? xs with
  | none => .compound id k xs
  | some s =>
    .branch s.id s.cond
      (match ht : s.onTrue with
        | none => none
        | some a =>
          have := BranchSplit.sizeAll_onTrue_lt h ht
          some (combine k a.id (s.withArm a)))
      (match hf : s.onFalse with
        | none => none
        | some a =>
          have := BranchSplit.sizeAll_onFalse_lt h hf
          some (combine k a.id (s.withArm a)))
termination_by Expr.sizeAll xs

/-- Operands without a conditional make one flat node. -/
theorem combine_of_find?_none {k : Combiner} {id : Option NodeId} {xs : List Expr}
    (h : BranchSplit.find? xs = none) : combine k id xs = .compound id k xs := by
  rw [combine]
  split
  · rfl
  · simp_all

/-- A conditional operand comes outermost, and its arms take its place. -/
theorem combine_of_find?_some {k : Combiner} {id : Option NodeId} {xs : List Expr}
    {s : BranchSplit} (h : BranchSplit.find? xs = some s) :
    combine k id xs =
      .branch s.id s.cond (s.onTrue.map fun a => combine k a.id (s.withArm a))
        (s.onFalse.map fun a => combine k a.id (s.withArm a)) := by
  rw [combine]
  split
  · simp_all
  · next r hr =>
    obtain rfl : r = s := by simpa [hr] using h
    congr 1
    · split <;> simp_all
    · split <;> simp_all

end Decision

end MuxHoist
