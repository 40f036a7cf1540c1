/-
  MuxHoist.Proofs.Congruence

  Hoisting sees the parts of a tree only through their hoisted forms. Where a
  subtree is replaced by one that hoists to the same result, be that a tree or a
  fault, the whole keeps its result (`hoist_replace`). Main statement: hoisting
  some subtrees beforehand, each where it stands, changes nothing about the
  hoisted tree or the fault (`hoist_replaceAll`).
-/
import MuxHoist.Proofs.NormalForm
import MuxHoist.Proofs.Position

namespace MuxHoist

namespace Expr

/-! ## One part -/

theorem hoistAll_set {xs : List Expr} {i : Nat} {x u : Expr} (hx : xs[i]? = some x)
    (h : u.hoist = x.hoist) : hoistAll (xs.set i u) = hoistAll xs := by
  induction xs generalizing i with
  | nil => rfl
  | cons y ys ih =>
    cases i with
    | zero =>
      cases hx
      rw [List.set_cons_zero, hoistAll, hoistAll, h]
    | succ i => rw [List.set_cons_succ, hoistAll, hoistAll, ih hx]

/-- Step: a node keeps its result when a part is replaced by one of the same result. -/
theorem hoist_setPart {e c u : Expr} {i : Nat} (hc : e.part? i = some c)
    (h : u.hoist = c.hoist) : (e.setPart i u).hoist = e.hoist := by
  cases hc using part_cases with
  | cond => rw [setPart, hoist, hoist, h]
  | onTrue => rw [setPart, Option.map_some, hoist, hoist, hoistArm, hoistArm, h]
  | onFalse => rw [setPart, Option.map_some, hoist, hoist, hoistArm, hoistArm, h]
  | operand => rw [setPart, hoist, hoist, hoistAll_set hc h]
  | base => rw [setPart, hoist, hoist, h]
  | msb => rw [setPart, hoist, hoist, h]
  | lsb => rw [setPart, hoist, hoist, h]
  | pointee => rw [setPart, hoist, hoist, h]
  | index => rw [setPart, hoist, hoist, h]
  | inner => rw [setPart, hoist, hoist, h]

/-! ## One subtree -/

/-- A tree keeps its result when a subtree is replaced by one of the same result. -/
theorem hoist_replace {e d u : Expr} {p : Position} (hd : e.subtree? p = some d)
    (h : u.hoist = d.hoist) : (e.replace u p).hoist = e.hoist := by
  induction p generalizing e with
  | nil =>
    cases hd
    exact h
  | cons i p ih =>
    obtain ⟨c, hc, hd⟩ := subtree?_cons_eq_some_iff.mp hd
    rw [replace_cons_of_part? hc]
    exact hoist_setPart hc (ih hd)

/-- The hoisted form of a tree has the result of the tree. -/
theorem hoist_eq_of_hoist {d u : Expr} (h : d.hoist = .ok u) : u.hoist = d.hoist := by
  rw [h]
  exact hoist_of_isHoisted (isHoisted_of_hoist h)

/-! ## Several subtrees -/

/-- Puts a tree at each of several positions. -/
def replaceAll (e : Expr) (rs : List (Position × Expr)) : Expr :=
  rs.foldl (fun e r => e.replace r.2 r.1) e

/-- Subtrees hoisted beforehand: at positions apart from each other, each subtree that
    can be hoisted gives way to its hoisted form. The tree so changed and the tree as
    it was have one result: the same tree with the same ids, or the same fault. -/
theorem hoist_replaceAll {e : Expr} {rs : List (Position × Expr)}
    (hapart : rs.Pairwise fun r q => r.1.Apart q.1)
    (hrs : ∀ r ∈ rs, ∃ d, e.subtree? r.1 = some d ∧ d.hoist = .ok r.2) :
    (e.replaceAll rs).hoist = e.hoist := by
  induction rs generalizing e with
  | nil => rfl
  | cons r rs ih =>
    obtain ⟨hr, hapart⟩ := List.pairwise_cons.mp hapart
    obtain ⟨d, hd, hu⟩ := hrs r List.mem_cons_self
    have hstep : (e.replace r.2 r.1).hoist = e.hoist := hoist_replace hd (hoist_eq_of_hoist hu)
    -- The positions still to come are apart from this one, so they hold what they held.
    have hrest : ∀ q ∈ rs, ∃ d, (e.replace r.2 r.1).subtree? q.1 = some d ∧
        d.hoist = .ok q.2 := by
      intro q hq
      rw [subtree?_replace_of_apart e r.2 (hr q hq)]
      exact hrs q (List.mem_cons_of_mem r hq)
    exact (ih hapart hrest).trans hstep

/-- A part select that fails on its conditional bound, with its base and that bound
    hoisted beforehand: the fault is the same, and so are the parts that it reports. -/
theorem hoist_replaceAll_range :
    let c : Expr := .leaf none (.terminal "c")
    let a : Expr := .leaf (some ⟨2⟩) (.terminal "a")
    let minus (id : NodeId) (x : Expr) : Expr := .compound (some id) (.op .uminus) [x]
    let choice (x : Expr) : Expr := .branch (some ⟨4⟩) c (some x) none
    let range (m : Expr) (d : Expr) : Expr := .partselect (some ⟨9⟩) (.delay none d) m a
    let given : Expr := range (minus ⟨5⟩ (choice a)) (minus ⟨6⟩ (choice a))
    let prepared : Expr := range (choice (minus ⟨2⟩ a)) (choice (minus ⟨2⟩ a))
    let rs : List (Position × Expr) := [([1], choice (minus ⟨2⟩ a)), ([0, 0], choice (minus ⟨2⟩ a))]
    given.replaceAll rs = prepared ∧ prepared.hoist = given.hoist ∧
      given.hoist = .error (.conditionalBound (some ⟨9⟩) (.delay none (choice (minus ⟨2⟩ a)))
        (choice (minus ⟨2⟩ a)) a) := by
  intro c a minus choice range given prepared rs
  have hapart : rs.Pairwise fun r q => r.1.Apart q.1 := by
    simp [rs, Position.Apart]
  have hrs : ∀ r ∈ rs, ∃ d, given.subtree? r.1 = some d ∧ d.hoist = .ok r.2 := by
    intro r hr
    rcases List.mem_cons.mp hr with rfl | hr
    · exact ⟨_, rfl, by decide +kernel⟩
    · rw [List.mem_singleton.mp hr]
      exact ⟨_, rfl, by decide +kernel⟩
  exact ⟨rfl, hoist_replaceAll hapart hrs, by decide +kernel⟩

end Expr

end MuxHoist
