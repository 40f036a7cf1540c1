/-
  MuxHoist.Proofs.Failure

  Which trees cannot be hoisted. Hoisting a node hoists all of its parts, so a
  fault anywhere in a tree is a fault of the tree; and the only fault a node can
  add is that of a part select with a conditional bound. Main statement: a tree
  fails exactly if a part select with an exposed bound occurs in it, and always
  with a fault of format (`hoist_eq_error_iff`).
-/
import MuxHoist.Proofs.Exposed
import MuxHoist.Proofs.Position

namespace MuxHoist

namespace Expr

/-- A part select of which a bound becomes conditional. -/
def hasExposedBound : Expr → Bool
  | .partselect _ _ m l => m.isExposed || l.isExposed
  | _ => false

/-! ## Success reaches every part -/

theorem exists_hoist_of_mem_arm {a a' : Option Expr} (h : hoistArm a = .ok a') {e : Expr}
    (he : e ∈ a) : ∃ u, e.hoist = .ok u := by
  cases hoistArm_eq_ok.mp h with
  | none => cases he
  | some hu =>
    cases he
    exact ⟨_, hu⟩

/-- Step: a node can be hoisted only if each of its parts can. -/
theorem exists_hoist_of_part? {e u c : Expr} {i : Nat} (h : e.hoist = .ok u)
    (hc : e.part? i = some c) : ∃ c', c.hoist = .ok c' := by
  cases hc using part_cases with
  | cond =>
    obtain ⟨_, _, c', -, -, hc, -⟩ := hoist_branch_eq_ok.mp h
    exact ⟨c', hc⟩
  | onTrue =>
    obtain ⟨_, _, _, ht, -, -, -⟩ := hoist_branch_eq_ok.mp h
    exact exists_hoist_of_mem_arm ht rfl
  | onFalse =>
    obtain ⟨_, _, _, -, hf, -, -⟩ := hoist_branch_eq_ok.mp h
    exact exists_hoist_of_mem_arm hf rfl
  | operand =>
    obtain ⟨ys, hys, -⟩ := hoist_compound_eq_ok.mp h
    obtain ⟨c', -, hc'⟩ :=
      exists_forall₂_of_mem (hoistAll_eq_ok.mp hys).flip (List.mem_of_getElem? hc)
    exact ⟨c', hc'⟩
  | base =>
    obtain ⟨_, _, b', -, -, hb, -, -⟩ := hoist_partselect_eq_ok.mp h
    exact ⟨b', hb⟩
  | msb =>
    obtain ⟨m', _, _, hm, -, -, -, -⟩ := hoist_partselect_eq_ok.mp h
    exact ⟨m', hm⟩
  | lsb =>
    obtain ⟨_, l', _, -, hl, -, -, -⟩ := hoist_partselect_eq_ok.mp h
    exact ⟨l', hl⟩
  | pointee =>
    obtain ⟨_, b', -, hb, -⟩ := hoist_pointer_eq_ok.mp h
    exact ⟨b', hb⟩
  | index =>
    obtain ⟨i', _, hi, -, -⟩ := hoist_pointer_eq_ok.mp h
    exact ⟨i', hi⟩
  | inner =>
    obtain ⟨e', he, -⟩ := hoist_delay_eq_ok.mp h
    exact ⟨e', he⟩

/-- Run: whatever occurs in a tree that can be hoisted can itself be hoisted. -/
theorem exists_hoist_of_occurs {d e u : Expr} (h : e.hoist = .ok u) (hd : Occurs d e) :
    ∃ d', d.hoist = .ok d' := by
  have hpart : ∀ (e : Expr) (i : Nat) (c : Expr), (∃ u, e.hoist = .ok u) → e.part? i = some c →
      ∃ c', c.hoist = .ok c' := by
    rintro e i c ⟨u, hu⟩ hc
    exact exists_hoist_of_part? hu hc
  exact of_occurs hpart ⟨u, h⟩ hd

/-- The bounds of a part select that can be hoisted are not exposed. -/
theorem hasExposedBound_of_hoist {d u : Expr} (h : d.hoist = .ok u) :
    d.hasExposedBound = false := by
  cases d with
  | partselect id b m l =>
    obtain ⟨m', l', b', hm, hl, -, ⟨hmb, hlb⟩, -⟩ := hoist_partselect_eq_ok.mp h
    rw [hasExposedBound, ← isBranch_of_hoist hm, ← isBranch_of_hoist hl, hmb, hlb]
    rfl
  | _ => rfl

/-! ## Where a fault comes from -/

/-- The fault that a part select adds: its parts can be hoisted, a bound comes out
    conditional, and the report holds the hoisted parts and the node's own id. -/
def Raises (d : Expr) (err : TreeError) : Prop :=
  ∃ id b m l b' m' l', d = .partselect id b m l ∧
    b.hoist = .ok b' ∧ m.hoist = .ok m' ∧ l.hoist = .ok l' ∧
    (m'.isBranch || l'.isBranch) = true ∧ err = .conditionalBound id b' m' l'

theorem hasExposedBound_of_raises {d : Expr} {err : TreeError} (h : d.Raises err) :
    d.hasExposedBound = true := by
  obtain ⟨id, b, m, l, b', m', l', rfl, -, hm, hl, hcond, -⟩ := h
  rw [hasExposedBound, ← isBranch_of_hoist hm, ← isBranch_of_hoist hl]
  exact hcond

theorem category_of_raises {d : Expr} {err : TreeError} (h : d.Raises err) :
    err.category = .format := by
  obtain ⟨id, b, m, l, b', m', l', -, -, -, -, -, rfl⟩ := h
  rfl

theorem hoistArm_eq_error {a : Option Expr} {err : TreeError} (h : hoistArm a = .error err) :
    ∃ e, a = some e ∧ e.hoist = .error err := by
  cases a with
  | none => cases h
  | some e =>
    rw [hoistArm, bind_eq_error] at h
    rcases h with he | ⟨_, -, h⟩
    · exact ⟨e, rfl, he⟩
    · cases h

theorem hoistAll_eq_error {xs : List Expr} {err : TreeError} (h : hoistAll xs = .error err) :
    ∃ (i : Nat) (x : Expr), xs[i]? = some x ∧ x.hoist = .error err := by
  induction xs with
  | nil => cases h
  | cons x xs ih =>
    simp only [hoistAll, bind_eq_error] at h
    rcases h with hx | ⟨_, -, hxs | ⟨_, -, h⟩⟩
    · exact ⟨0, x, rfl, hx⟩
    · obtain ⟨i, y, hy, hyerr⟩ := ih hxs
      exact ⟨i + 1, y, hy, hyerr⟩
    · cases h

/-- Step: a fault of a node is a fault of one of its parts, or the node raises it. -/
theorem hoist_eq_error_step {e : Expr} {err : TreeError} (h : e.hoist = .error err) :
    (∃ i c, e.part? i = some c ∧ c.hoist = .error err) ∨ e.Raises err := by
  cases e with
  | leaf => cases h
  | branch id c t f =>
    simp only [hoist, bind_eq_error] at h
    left
    rcases h with ht | ⟨_, -, hf | ⟨_, -, hc | ⟨_, -, h⟩⟩⟩
    · obtain ⟨a, rfl, ha⟩ := hoistArm_eq_error ht
      exact ⟨1, a, rfl, ha⟩
    · obtain ⟨a, rfl, ha⟩ := hoistArm_eq_error hf
      exact ⟨2, a, rfl, ha⟩
    · exact ⟨0, c, rfl, hc⟩
    · cases h
  | compound id k xs =>
    simp only [hoist, bind_eq_error] at h
    left
    rcases h with hxs | ⟨_, -, h⟩
    · exact hoistAll_eq_error hxs
    · cases h
  | partselect id b m l =>
    simp only [hoist, bind_eq_error] at h
    rcases h with hm | ⟨m', hm, hl | ⟨l', hl, hb | ⟨b', hb, h⟩⟩⟩
    · exact .inl ⟨1, m, rfl, hm⟩
    · exact .inl ⟨2, l, rfl, hl⟩
    · exact .inl ⟨0, b, rfl, hb⟩
    · -- All parts can be hoisted; what is left is the check of the bounds.
      by_cases hcond : (m'.isBranch || l'.isBranch) = true
      · rw [if_pos hcond] at h
        cases h
        exact .inr ⟨id, b, m, l, b', m', l', rfl, hb, hm, hl, hcond, rfl⟩
      · rw [if_neg hcond] at h
        cases h
  | pointer id b x =>
    simp only [hoist, bind_eq_error] at h
    left
    rcases h with hx | ⟨_, -, hb | ⟨_, -, h⟩⟩
    · exact ⟨1, x, rfl, hx⟩
    · exact ⟨0, b, rfl, hb⟩
    · cases h
  | delay id e =>
    simp only [hoist, bind_eq_error] at h
    left
    rcases h with he | ⟨_, -, h⟩
    · exact ⟨0, e, rfl, he⟩
    · cases h

/-- Run: every fault of a tree is raised by a node that occurs in it. -/
theorem exists_raises_of_hoist {e : Expr} {err : TreeError} (h : e.hoist = .error err) :
    ∃ d, Occurs d e ∧ d.Raises err := by
  induction e using part_induct with
  | node e ih =>
    rcases hoist_eq_error_step h with ⟨i, c, hc, herr⟩ | hraises
    · obtain ⟨d, hd, hraises⟩ := ih i c hc herr
      exact ⟨d, occurs_of_part? hc hd, hraises⟩
    · exact ⟨e, occurs_self e, hraises⟩

/-! ## Success and failure -/

/-- A tree fails exactly if a part select with an exposed bound occurs in it. Every
    fault is one of format, and a tree that does not fail becomes conditional exactly
    if it is exposed. -/
theorem hoist_eq_error_iff (e : Expr) :
    ((∃ err, e.hoist = .error err) ↔ ∃ d, Occurs d e ∧ d.hasExposedBound = true) ∧
      (∀ err, e.hoist = .error err → err.category = .format) ∧
      ∀ u, e.hoist = .ok u → u.isBranch = e.isExposed := by
  refine ⟨⟨?_, ?_⟩, ?_, fun u h => isBranch_of_hoist h⟩
  · rintro ⟨err, herr⟩
    obtain ⟨d, hd, hraises⟩ := exists_raises_of_hoist herr
    exact ⟨d, hd, hasExposedBound_of_raises hraises⟩
  · rintro ⟨d, hd, hbound⟩
    cases he : e.hoist with
    | error err => exact ⟨err, rfl⟩
    | ok u =>
      -- The part select could be hoisted with the tree, and then no bound is exposed.
      obtain ⟨d', hd'⟩ := exists_hoist_of_occurs he hd
      rw [hasExposedBound_of_hoist hd'] at hbound
      cases hbound
  · intro err herr
    obtain ⟨d, -, hraises⟩ := exists_raises_of_hoist herr
    exact category_of_raises hraises

/-- A bound over a conditional fails the tree also below a delay and beside a
    conditional without arms; as an index the same operand makes its node
    conditional. -/
theorem hoist_eq_error_iff_delayed :
    let c : Expr := .leaf none (.terminal "c")
    let v : Expr := .leaf (some ⟨2⟩) (.terminal "v")
    let a : Expr := .leaf (some ⟨3⟩) (.terminal "a")
    let minus (x : Expr) : Expr := .compound (some ⟨5⟩) (.op .uminus) [x]
    let choice : Expr := .branch (some ⟨4⟩) c (some a) none
    let range : Expr := .partselect (some ⟨9⟩) v a (minus choice)
    let beside (e : Expr) : Expr := .compound none .concat [.branch none c none none, .delay none e]
    let fault : TreeError := .conditionalBound (some ⟨9⟩) v a
      (.branch (some ⟨4⟩) c (some (.compound (some ⟨3⟩) (.op .uminus) [a])) none)
    let hoisted : Expr := .branch (some ⟨4⟩) c
      (some (.pointer (some ⟨3⟩) v (.compound (some ⟨3⟩) (.op .uminus) [a]))) none
    (∃ d, Occurs d (beside range) ∧ d.hasExposedBound = true) ∧
      (beside range).hoist = .error fault ∧ fault.category = .format ∧
      (pointer (some ⟨9⟩) v (minus choice)).hoist = .ok hoisted ∧
      hoisted.isBranch = (pointer (some ⟨9⟩) v (minus choice)).isExposed := by
  intro c v a minus choice range beside fault hoisted
  have herr : (beside range).hoist = .error fault := by decide +kernel
  have hok : (pointer (some ⟨9⟩) v (minus choice)).hoist = .ok hoisted := by decide +kernel
  obtain ⟨hiff, hformat, -⟩ := hoist_eq_error_iff (beside range)
  obtain ⟨-, -, hexposed⟩ := hoist_eq_error_iff (pointer (some ⟨9⟩) v (minus choice))
  exact ⟨hiff.mp ⟨fault, herr⟩, herr, hformat fault herr, hok, hexposed hoisted hok⟩

end Expr

end MuxHoist
