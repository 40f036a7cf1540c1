/-
  MuxHoist.Proofs.Scan

  Joining operands as a single pass from left to right. `Decision.combine`
  looks for the leftmost conditional operand again after every arm it puts in
  place; `Decision.scan` grafts the rest of the pass onto each operand's
  decision tree and never looks back. Main statement: the two agree on every
  operand list (`combine_eq_scan`).

  The pass recurses on the operand list alone, so a fact about joined operands
  follows from one about `Expr.computeOver` by induction on the list.
-/
import MuxHoist.Decision.Combine
import MuxHoist.Decision.Graft

namespace MuxHoist

/-! ## Computing over a tree -/

namespace Expr

/-- Onto a conditional a computation is grafted, each copy with its leaf's id. -/
@[simp] theorem computeOver_branch (j : Option NodeId) (c : Expr) (t f : Option Expr)
    (id : Option NodeId) (k : Option NodeId → Expr → Expr) :
    (branch j c t f).computeOver id k
      = .branch j c (t.map (graft fun l => k l.id l)) (f.map (graft fun l => k l.id l)) := by
  show graft _ (branch j c t f) = _
  rw [graft_branch]

/-- Without a conditional the computation is made once, under the given id. -/
theorem computeOver_of_not_isBranch {e : Expr} (h : e.isBranch = false) (id : Option NodeId)
    (k : Option NodeId → Expr → Expr) : e.computeOver id k = k id e := by
  rw [computeOver, if_neg (by rw [h]; exact Bool.false_ne_true)]

end Expr

/-! ## The leftmost conditional -/

namespace BranchSplit

/-- Operands are taken apart unless none of them is conditional. -/
theorem find?_eq_none_iff {xs : List Expr} :
    find? xs = none ↔ ∀ x ∈ xs, x.isBranch = false := by
  induction xs with
  | nil => simp [find?]
  | cons x xs ih => cases x <;> simp [find?, Expr.isBranch, ih]

/-- Operands are taken apart at the first conditional behind any others. -/
theorem find?_append_branch {done : List Expr} (h : ∀ x ∈ done, x.isBranch = false)
    (id : Option NodeId) (c : Expr) (t f : Option Expr) (rest : List Expr) :
    find? (done ++ .branch id c t f :: rest) = some ⟨done, id, c, t, f, rest⟩ := by
  induction done with
  | nil => rfl
  | cons x done ih =>
    have hx : x.isBranch = false := h x List.mem_cons_self
    have hrest := ih fun y hy => h y (List.mem_cons_of_mem x hy)
    cases x with
    | branch => exact absurd hx (by simp [Expr.isBranch])
    | _ => simp only [List.cons_append, find?, hrest, Option.map_some]

end BranchSplit

/-! ## The pass -/

namespace Decision

/-- Joins operands in one pass. `done` holds the operands already chosen; each
    further operand is decided before the next one is looked at, and the id is
    that of the last operand that was conditional. -/
def scan (k : Combiner) (id : Option NodeId) (done : List Expr) : List Expr → Expr
  | [] => .compound id k done
  | x :: rest => x.computeOver id fun id l => scan k id (done ++ [l]) rest

/-- Behind operands that are not conditional, a conditional comes outermost and
    each of its arms takes its place. -/
theorem combine_append_branch (k : Combiner) (id : Option NodeId) {done : List Expr}
    (h : ∀ x ∈ done, x.isBranch = false) (j : Option NodeId) (c : Expr) (t f : Option Expr)
    (rest : List Expr) :
    combine k id (done ++ .branch j c t f :: rest)
      = .branch j c (t.map fun e => combine k e.id (done ++ e :: rest))
          (f.map fun e => combine k e.id (done ++ e :: rest)) :=
  combine_of_find?_some (BranchSplit.find?_append_branch h j c t f rest)

theorem combine_append_eq_scan (k : Combiner) (id : Option NodeId) {done : List Expr}
    (h : ∀ x ∈ done, x.isBranch = false) (rest : List Expr) :
    combine k id (done ++ rest) = scan k id done rest := by
  induction rest generalizing done id with
  | nil =>
    rw [List.append_nil, combine_of_find?_none (BranchSplit.find?_eq_none_iff.mpr h), scan]
  | cons x rest ih =>
    rw [scan]
    -- Inside the decision tree of `x` the pass stands still: each arm takes the
    -- place of `x` until a leaf is reached, which joins the operands that are done.
    induction x generalizing id with
    | branch j c t f _ iht ihf =>
      rw [combine_append_branch k id h, Expr.computeOver_branch,
        Option.map_congr fun e he => (iht e he e.id).trans (e.computeOver_id _),
        Option.map_congr fun e he => (ihf e he e.id).trans (e.computeOver_id _)]
    | _ =>
      rw [Expr.computeOver_of_not_isBranch rfl, List.append_cons]
      refine ih id fun y hy => ?_
      rcases List.mem_append.mp hy with hy | hy
      · exact h y hy
      · rw [List.mem_singleton.mp hy]
        rfl

/-- Looking for the leftmost conditional again and again comes to one pass. -/
theorem combine_eq_scan (k : Combiner) (id : Option NodeId) (xs : List Expr) :
    combine k id xs = scan k id [] xs :=
  combine_append_eq_scan k id (fun _ h => absurd h List.not_mem_nil) xs

end Decision

end MuxHoist
