/-
  MuxHoist.Proofs.Selection

  The guards of a decision tree tell its cases apart. An assignment that decides
  the conditions one after the other is led to one leaf, or to none where it
  meets a condition or an arm that is missing (`Expr.reached`). Main statement:
  of the guarded leaves of a hoisted tree at most one has all its guards
  satisfied, it computes what the tree computed before it was hoisted, and
  without one the tree computes nothing (`guardedLeaves_partition`).
-/
import MuxHoist.Decision.Guarded
import MuxHoist.Proofs.Resolve

namespace MuxHoist

/-! ## Satisfied guards -/

/-- The condition has a value, and that is decided the way the guard asks. A
    condition that is missing satisfies neither polarity. -/
def Guard.holds (s : Assignment) (k : Nat) (g : Guard) : Bool :=
  match g.cond.resolve s k with
  | none => false
  | some v => s k v == g.polarity

/-- All guards of the leaf are satisfied. -/
def GuardedLeaf.selected (s : Assignment) (k : Nat) (l : GuardedLeaf) : Bool :=
  l.guards.all (Guard.holds s k)

section

variable (s : Assignment) (k : Nat)

theorem Guard.holds_of_resolve_eq_none {c : Expr} (h : c.resolve s k = none) (p : Bool) :
    Guard.holds s k ⟨c, p⟩ = false := by
  rw [Guard.holds, h]

theorem Guard.holds_of_resolve_eq_some {c : Expr} {v : Value} (h : c.resolve s k = some v)
    (p : Bool) : Guard.holds s k ⟨c, p⟩ = (s k v == p) := by
  rw [Guard.holds, h]

/-- Under a satisfied guard the same leaves are selected as without it, and under one
    that is not satisfied none is. -/
theorem filter_selected_map_under (g : Guard) (ls : List GuardedLeaf) :
    (ls.map (GuardedLeaf.under g)).filter (GuardedLeaf.selected s k)
      = if g.holds s k then (ls.filter (GuardedLeaf.selected s k)).map (GuardedLeaf.under g)
        else [] := by
  have hunder : ∀ l : GuardedLeaf,
      (l.under g).selected s k = (g.holds s k && l.selected s k) := fun _ => rfl
  rw [List.filter_map]
  cases hg : g.holds s k with
  | true =>
    rw [if_pos rfl]
    congr 1
    refine List.filter_congr fun l _ => ?_
    rw [Function.comp_apply, hunder, hg, Bool.true_and]
  | false =>
    rw [if_neg Bool.false_ne_true, List.map_eq_nil_iff, List.filter_eq_nil_iff]
    intro l _
    rw [Function.comp_apply, hunder, hg, Bool.false_and]
    exact Bool.false_ne_true

end

namespace Expr

/-! ## The leaf an assignment reaches -/

mutual

/-- Decides the conditions from the root on and follows the arms so selected, down to
    a leaf. A condition or an arm that is missing leads nowhere. -/
def reached (s : Assignment) (k : Nat) : Expr → Option GuardedLeaf
  | .branch _ c t f => do
    let v ← c.resolve s k
    if s k v then (reachedArm s k t).map (.under ⟨c, true⟩)
    else (reachedArm s k f).map (.under ⟨c, false⟩)
  | e => some ⟨[], e⟩

/-- The same in an arm. -/
def reachedArm (s : Assignment) (k : Nat) : Option Expr → Option GuardedLeaf
  | none => none
  | some e => e.reached s k

end

section

variable (s : Assignment) (k : Nat)

theorem reached_branch (id : Option NodeId) (c : Expr) (t f : Option Expr) :
    (branch id c t f).reached s k
      = (c.resolve s k).bind fun v =>
          if s k v then (reachedArm s k t).map (.under ⟨c, true⟩)
          else (reachedArm s k f).map (.under ⟨c, false⟩) := rfl

theorem reached_of_not_isBranch {e : Expr} (h : e.isBranch = false) :
    e.reached s k = some ⟨[], e⟩ := by
  cases e with
  | branch => cases h
  | _ => rfl

/-- The leaf reached is the one guarded leaf that is selected. -/
theorem filter_guardedLeaves (u : Expr) :
    u.guardedLeaves.filter (GuardedLeaf.selected s k) = (u.reached s k).toList := by
  induction u with
  | branch id c t f _ iht ihf =>
    have harm : ∀ a : Option Expr,
        (∀ e ∈ a, e.guardedLeaves.filter (GuardedLeaf.selected s k) = (e.reached s k).toList) →
        (armLeaves a).filter (GuardedLeaf.selected s k) = (reachedArm s k a).toList := by
      intro a ih
      cases a with
      | none => rfl
      | some e => exact ih e rfl
    rw [guardedLeaves, List.filter_append, filter_selected_map_under, filter_selected_map_under,
      harm t iht, harm f ihf, reached_branch]
    -- The two arms stand under opposite guards, so only one of them can be selected from.
    cases hc : c.resolve s k with
    | none =>
      rw [Guard.holds_of_resolve_eq_none s k hc, Guard.holds_of_resolve_eq_none s k hc]
      rfl
    | some v =>
      rw [Guard.holds_of_resolve_eq_some s k hc, Guard.holds_of_resolve_eq_some s k hc,
        Option.bind_some]
      by_cases hv : s k v = true
      · rw [if_pos hv, hv, Option.toList_map]
        exact List.append_nil _
      · rw [if_neg hv, eq_false_of_ne_true hv, Option.toList_map]
        rfl
  | _ => rw [guardedLeaves_of_not_isBranch rfl, reached_of_not_isBranch s k rfl]; rfl

/-- A decision tree computes what the leaf reached computes. -/
theorem resolve_eq_reached (u : Expr) :
    u.resolve s k = (u.reached s k).bind fun l => l.expr.resolve s k := by
  induction u with
  | branch id c t f _ iht ihf =>
    have harm : ∀ (p : Bool) (a : Option Expr),
        (∀ e ∈ a, e.resolve s k = (e.reached s k).bind fun l => l.expr.resolve s k) →
        resolveArm s k a
          = ((reachedArm s k a).map (GuardedLeaf.under ⟨c, p⟩)).bind
              fun l => l.expr.resolve s k := by
      intro p a ih
      cases a with
      | none => rfl
      | some e =>
        rw [Option.bind_map]
        exact ih e rfl
    rw [resolve, reached_branch, Option.bind_eq_bind]
    cases c.resolve s k with
    | none => rfl
    | some v =>
      rw [Option.bind_some, Option.bind_some]
      by_cases hv : s k v = true
      · rw [if_pos hv, if_pos hv]
        exact harm true t iht
      · rw [if_neg hv, if_neg hv]
        exact harm false f ihf
  | _ => rw [reached_of_not_isBranch s k rfl]; rfl

end

/-! ## Cases of a hoisted tree -/

/-- Under any assignment, either one guarded leaf of a hoisted tree has all its guards
    satisfied, and it computes what the tree computed before hoisting; or none has, and
    then the tree computed nothing. -/
theorem guardedLeaves_partition {e u : Expr} (h : e.hoist = .ok u) (s : Assignment) (k : Nat) :
    (u.guardedLeaves.filter (GuardedLeaf.selected s k) = [] ∧ e.resolve s k = none) ∨
      ∃ l, u.guardedLeaves.filter (GuardedLeaf.selected s k) = [l] ∧
        l.expr.resolve s k = e.resolve s k := by
  rw [filter_guardedLeaves, ← sameValue_of_hoist h s k, resolve_eq_reached]
  cases u.reached s k with
  | none => exact .inl ⟨rfl, rfl⟩
  | some l => exact .inr ⟨l, rfl, rfl⟩

/-- A sum of two conditionals on one condition, the second without a false arm. Its
    guarded leaves are under `c, c` and `!c, c`: with `c` true the first is selected,
    with `c` false neither is. -/
theorem guardedLeaves_partition_repeated :
    let c : Expr := .leaf none (.terminal "c")
    let a : Expr := .leaf (some ⟨1⟩) (.terminal "a")
    let b : Expr := .leaf (some ⟨2⟩) (.terminal "b")
    let d : Expr := .leaf (some ⟨3⟩) (.terminal "d")
    let plus (id : NodeId) (x y : Expr) : Expr := .compound (some id) (.op .plus) [x, y]
    let oneArm (e : Expr) : Expr := .branch (some ⟨5⟩) c (some e) none
    let sum : Expr := plus ⟨9⟩ (.branch (some ⟨4⟩) c (some a) (some b)) (oneArm d)
    let hoisted : Expr := .branch (some ⟨4⟩) c
      (some (oneArm (plus ⟨3⟩ a d))) (some (oneArm (plus ⟨3⟩ b d)))
    let yes : Assignment := fun _ _ => true
    let no : Assignment := fun _ _ => false
    sum.hoist = .ok hoisted ∧
      (∃ l, hoisted.guardedLeaves.filter (GuardedLeaf.selected yes 0) = [l] ∧
        l.expr.resolve yes 0
          = some (.compound (.op .plus) [.leaf (.terminal "a"), .leaf (.terminal "d")])) ∧
      hoisted.guardedLeaves.filter (GuardedLeaf.selected no 0) = [] ∧ sum.resolve no 0 = none := by
  intro c a b d plus oneArm sum hoisted yes no
  have hok : sum.hoist = .ok hoisted := by decide +kernel
  refine ⟨hok, ?_, ?_⟩
  · rcases guardedLeaves_partition hok yes 0 with ⟨-, hnone⟩ | ⟨l, hl, hvalue⟩
    · cases hnone
    · exact ⟨l, hl, hvalue⟩
  · rcases guardedLeaves_partition hok no 0 with hnil | ⟨l, hl, -⟩
    · exact hnil
    · cases hl

end Expr

end MuxHoist
