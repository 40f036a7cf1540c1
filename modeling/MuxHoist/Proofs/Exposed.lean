/-
  MuxHoist.Proofs.Exposed

  Which trees become conditional when they are hoisted, told from the tree as it
  stands. A node is exposed if it is a conditional or computes over an exposed
  part; a delay hides what is below it, and bounds are never looked at. Main
  statement: a tree that can be hoisted becomes conditional exactly if it is
  exposed (`isBranch_of_hoist`).
-/
import MuxHoist.Proofs.Derivation
import MuxHoist.Proofs.Scan

namespace MuxHoist

namespace Expr

/-! ## Exposed trees -/

mutual

/-- Tells whether a conditional of the tree can reach its root. -/
def isExposed : Expr → Bool
  | .leaf .. => false
  | .branch .. => true
  | .compound _ _ xs => anyExposed xs
  | .partselect _ b _ _ => b.isExposed
  | .pointer _ b i => b.isExposed || i.isExposed
  | .delay .. => false

/-- The same of some operand. -/
def anyExposed : List Expr → Bool
  | [] => false
  | e :: es => e.isExposed || anyExposed es

end

theorem anyExposed_eq_or (es : List Expr) : anyExposed es = (es.map isExposed).or := by
  induction es with
  | nil => rfl
  | cons e es ih => rw [anyExposed, List.map_cons, List.or_cons, ih]

/-! ## What operations build -/

@[simp] theorem isBranch_withId (id : Option NodeId) (e : Expr) :
    (e.withId id).isBranch = e.isBranch := by
  cases e <;> rfl

theorem isBranch_select (c : Expr) (t f : Option Expr) : (c.select t f).isBranch = true := by
  cases c <;> rfl

/-- A computation over a tree is conditional if the tree is, or if the one copy
    made without a conditional is. -/
theorem isBranch_computeOver (e : Expr) (id : Option NodeId)
    (g : Option NodeId → Expr → Expr) :
    (e.computeOver id g).isBranch = (e.isBranch || (g id e).isBranch) := by
  cases e with
  | branch => rw [computeOver_branch]; rfl
  | _ => rw [computeOver_of_not_isBranch rfl]; rfl

theorem isBranch_scan (k : Combiner) (id : Option NodeId) (done rest : List Expr) :
    (Decision.scan k id done rest).isBranch = (rest.map isBranch).or := by
  induction rest generalizing done with
  | nil => rfl
  | cons x rest ih => rw [Decision.scan, isBranch_computeOver, ih, List.map_cons, List.or_cons]

/-! ## Hoisting brings out what is exposed -/

/-- A hoisted tree is conditional exactly if the tree is exposed. -/
theorem isBranch_of_hoist {e u : Expr} (h : e.hoist = .ok u) : u.isBranch = e.isExposed := by
  induction h using hoist_induct with
  | leaf => rfl
  | branch => rw [isBranch_withId, isBranch_select, isExposed]
  | compound id k xs ys _ hxs =>
    have hmap : ys.map isBranch = xs.map isExposed :=
      map_eq_map_of_forall₂ (hxs.imp fun _ _ ⟨_, h⟩ => h)
    rw [Decision.combine_eq_scan, isBranch_scan, hmap, isExposed, anyExposed_eq_or]
  | partselect id b m l b' m' l' _ _ _ hb _ _ =>
    obtain ⟨_, hb⟩ := hb
    -- The copy without a conditional is a part select; the bounds have no say.
    rw [isBranch_computeOver, hb, isExposed]
    exact Bool.or_false _
  | pointer id b i b' i' _ hb hi =>
    obtain ⟨_, hb⟩ := hb
    obtain ⟨_, hi⟩ := hi
    rw [isBranch_computeOver, isBranch_computeOver, hb, hi, isExposed, Bool.or_comm]
    exact congrArg (· || i.isExposed) (Bool.or_false _)
  | delay => rfl

end Expr

end MuxHoist
