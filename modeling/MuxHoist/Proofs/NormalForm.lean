/-
  MuxHoist.Proofs.NormalForm

  Hoisting reaches the hoisted form and stops there. Each operation that builds
  over decision trees keeps the form: grafting what is hoisted onto plain leaves
  (`isHoisted_graft`), joining operands in one pass (`isHoisted_scan`). Main
  statements: what hoisting returns is hoisted, and no conditional is left in a
  guard or in a leaf (`hoist_normal_form`); the hoisted trees are exactly those
  that hoisting leaves as they are, down to the ids (`hoist_fixed_iff`).
-/
import MuxHoist.Decision.Guarded
import MuxHoist.NormalForm
import MuxHoist.Proofs.Derivation
import MuxHoist.Proofs.Scan

namespace MuxHoist

namespace Expr

/-! ## Hoisted trees by kind of node -/

theorem isHoisted_branch_iff {id : Option NodeId} {c : Expr} {t f : Option Expr} :
    (branch id c t f).isHoisted ↔
      c.isPlain ∧ (∀ a ∈ t, a.isHoisted) ∧ (∀ a ∈ f, a.isHoisted) := by
  simp only [isHoisted, isPlain, wellPlaced, Bool.true_and, Bool.and_eq_true, armWellPlaced_iff,
    and_assoc]

theorem isPlain_compound_iff {id : Option NodeId} {k : Combiner} {xs : List Expr} :
    (compound id k xs).isPlain ↔ ∀ x ∈ xs, x.isPlain := by
  simp only [isPlain, wellPlaced, allWellPlaced_iff]

theorem isPlain_partselect_iff {id : Option NodeId} {b m l : Expr} :
    (partselect id b m l).isPlain ↔ b.isPlain ∧ m.isPlain ∧ l.isPlain := by
  simp only [isPlain, wellPlaced, Bool.and_eq_true, and_assoc]

theorem isPlain_pointer_iff {id : Option NodeId} {b i : Expr} :
    (pointer id b i).isPlain ↔ b.isPlain ∧ i.isPlain := by
  simp only [isPlain, wellPlaced, Bool.and_eq_true]

theorem isPlain_delay_iff {id : Option NodeId} {e : Expr} :
    (delay id e).isPlain ↔ e.isHoisted := Iff.rfl

theorem isHoisted_of_isPlain {e : Expr} (h : e.isPlain) : e.isHoisted :=
  (isPlain_iff.mp h).1

theorem isBranch_of_isPlain {e : Expr} (h : e.isPlain) : e.isBranch = false :=
  (isPlain_iff.mp h).2

/-- A hoisted tree that is not conditional is plain. -/
theorem isPlain_of_isHoisted {e : Expr} (h : e.isHoisted) (hb : e.isBranch = false) :
    e.isPlain :=
  isPlain_iff.mpr ⟨h, hb⟩

@[simp] theorem isHoisted_withId (id : Option NodeId) (e : Expr) :
    (e.withId id).isHoisted = e.isHoisted := by
  cases e <;> rfl

/-! ## Operations keep the hoisted form -/

/-- Hoisted trees grafted onto the plain leaves of a hoisted tree. -/
theorem isHoisted_graft {g : Expr → Expr} (hg : ∀ l, l.isPlain → (g l).isHoisted) {e : Expr}
    (he : e.isHoisted) : (e.graft g).isHoisted := by
  induction e with
  | branch id c t f _ iht ihf =>
    obtain ⟨hc, ht, hf⟩ := isHoisted_branch_iff.mp he
    have harm : ∀ a : Option Expr, (∀ e ∈ a, e.isHoisted → (e.graft g).isHoisted) →
        (∀ e ∈ a, e.isHoisted) → ∀ e ∈ a.map (graft g), e.isHoisted := by
      intro a ih ha e he
      obtain ⟨e', he', rfl⟩ := Option.map_eq_some_iff.mp he
      exact ih e' he' (ha e' he')
    rw [graft_branch]
    exact isHoisted_branch_iff.mpr ⟨hc, harm t iht ht, harm f ihf hf⟩
  | _ =>
    rw [graft_of_not_isBranch rfl]
    exact hg _ (isPlain_of_isHoisted he rfl)

theorem isHoisted_computeOver {g : Option NodeId → Expr → Expr}
    (hg : ∀ id l, l.isPlain → (g id l).isHoisted) (id : Option NodeId) {e : Expr}
    (he : e.isHoisted) : (e.computeOver id g).isHoisted := by
  unfold computeOver
  split
  · exact isHoisted_graft (fun l => hg l.id l) he
  · next h => exact hg id e (isPlain_of_isHoisted he (by simpa using h))

/-- The operands passed so far are plain, and those still to come are hoisted. -/
theorem isHoisted_scan (k : Combiner) (id : Option NodeId) {done rest : List Expr}
    (hdone : ∀ d ∈ done, d.isPlain) (hrest : ∀ x ∈ rest, x.isHoisted) :
    (Decision.scan k id done rest).isHoisted := by
  induction rest generalizing id done with
  | nil => exact isHoisted_of_isPlain (isPlain_compound_iff.mpr hdone)
  | cons x rest ih =>
    rw [Decision.scan]
    refine isHoisted_computeOver (fun id l hl => ?_) id (hrest x List.mem_cons_self)
    -- A leaf of `x` is plain, so it may join the operands that are done.
    refine ih id (fun d hd => ?_) fun y hy => hrest y (List.mem_cons_of_mem x hy)
    rcases List.mem_append.mp hd with hd | hd
    · exact hdone d hd
    · rw [List.mem_singleton.mp hd]
      exact hl

/-- What hoisting returns is hoisted. -/
theorem isHoisted_of_hoist {e u : Expr} (h : e.hoist = .ok u) : u.isHoisted := by
  induction h using hoist_induct with
  | leaf id v => rfl
  | branch id c t f c' t' f' _ hc ht hf =>
    obtain ⟨_, hc⟩ := hc
    have harm : ∀ {a a' : Option Expr},
        Option.Rel (fun e u => ∃ _ : e.hoist = .ok u, u.isHoisted = true) a a' →
        ∀ u ∈ a', u.isHoisted := by
      intro a a' ha u hu
      obtain ⟨_, _, _, h⟩ := exists_rel_of_mem ha hu
      exact h
    rw [isHoisted_withId]
    exact isHoisted_graft
      (fun l hl => isHoisted_branch_iff.mpr ⟨hl, harm ht, harm hf⟩) hc
  | compound id k xs ys _ hxs =>
    rw [Decision.combine_eq_scan]
    refine isHoisted_scan k id (fun _ hd => absurd hd List.not_mem_nil) fun y hy => ?_
    obtain ⟨_, _, _, h⟩ := exists_forall₂_of_mem hxs hy
    exact h
  | partselect id b m l b' m' l' _ hmb hlb hb hm hl =>
    obtain ⟨_, hb⟩ := hb
    obtain ⟨_, hm⟩ := hm
    obtain ⟨_, hl⟩ := hl
    refine isHoisted_computeOver (fun id v hv => ?_) id hb
    -- The check has passed: the bounds are hoisted and not conditional, hence plain.
    exact isHoisted_of_isPlain (isPlain_partselect_iff.mpr
      ⟨hv, isPlain_of_isHoisted hm hmb, isPlain_of_isHoisted hl hlb⟩)
  | pointer id b i b' i' _ hb hi =>
    obtain ⟨_, hb⟩ := hb
    obtain ⟨_, hi⟩ := hi
    refine isHoisted_computeOver (fun id j hj => ?_) id hi
    refine isHoisted_computeOver (fun id v hv => ?_) id hb
    exact isHoisted_of_isPlain (isPlain_pointer_iff.mpr ⟨hv, hj⟩)
  | delay id e e' _ he =>
    obtain ⟨_, he⟩ := he
    exact isHoisted_of_isPlain (isPlain_delay_iff.mpr he)

/-! ## Conditionals in a region -/

/-- A node stands in the region of a tree if it is the root, or below it with no
    delay in between; the delays that end the region belong to it. -/
inductive InRegion (d : Expr) : Expr → Prop
  | root : InRegion d d
  | child {e c : Expr} : e.kind ≠ .delay → c ∈ e.children → InRegion d c → InRegion d e

/-- No conditional stands in the region of the tree, and below each delay that
    ends the region stands a hoisted tree. -/
def Unconditional (e : Expr) : Prop :=
  ∀ d, InRegion d e → d.isBranch = false ∧ ∀ id x, d = .delay id x → x.isHoisted

theorem isPlain_of_mem_children {e c : Expr} (h : e.isPlain) (hd : e.kind ≠ .delay)
    (hc : c ∈ e.children) : c.isPlain := by
  cases e with
  | leaf => cases hc
  | branch => cases h
  | compound => exact isPlain_compound_iff.mp h c hc
  | partselect =>
    obtain ⟨hb, hm, hl⟩ := isPlain_partselect_iff.mp h
    simp only [children, List.mem_cons, List.not_mem_nil, or_false] at hc
    rcases hc with rfl | rfl | rfl <;> assumption
  | pointer =>
    obtain ⟨hb, hi⟩ := isPlain_pointer_iff.mp h
    simp only [children, List.mem_cons, List.not_mem_nil, or_false] at hc
    rcases hc with rfl | rfl <;> assumption
  | delay => exact absurd rfl hd

/-- Plain trees have no conditional in their region. -/
theorem unconditional_of_isPlain {e : Expr} (h : e.isPlain) : e.Unconditional := by
  intro d hd
  induction hd with
  | root =>
    refine ⟨isBranch_of_isPlain h, ?_⟩
    rintro id x rfl
    exact isPlain_delay_iff.mp h
  | child hkind hc _ ih => exact ih (isPlain_of_mem_children h hkind hc)

theorem exists_mem_of_mem_armLeaves {a : Option Expr} {l : GuardedLeaf}
    (h : l ∈ armLeaves a) : ∃ e ∈ a, l ∈ e.guardedLeaves := by
  cases a with
  | none => cases h
  | some e => exact ⟨e, rfl, h⟩

/-- The leaves of a hoisted tree and the conditions that select them are plain. -/
theorem isPlain_of_mem_guardedLeaves {u : Expr} (hu : u.isHoisted) {l : GuardedLeaf}
    (hl : l ∈ u.guardedLeaves) : l.expr.isPlain ∧ ∀ g ∈ l.guards, g.cond.isPlain := by
  induction u generalizing l with
  | branch id c t f _ iht ihf =>
    obtain ⟨hc, ht, hf⟩ := isHoisted_branch_iff.mp hu
    -- On the way into an arm a leaf comes under one more condition, which is plain.
    have hunder : ∀ {p : Bool} {l : GuardedLeaf},
        (l.expr.isPlain ∧ ∀ g ∈ l.guards, g.cond.isPlain) →
        (l.under ⟨c, p⟩).expr.isPlain ∧ ∀ g ∈ (l.under ⟨c, p⟩).guards, g.cond.isPlain :=
      fun h => ⟨h.1, List.forall_mem_cons.mpr ⟨hc, h.2⟩⟩
    rw [guardedLeaves, List.mem_append, List.mem_map, List.mem_map] at hl
    rcases hl with ⟨l, hl, rfl⟩ | ⟨l, hl, rfl⟩
    · obtain ⟨e, he, hl⟩ := exists_mem_of_mem_armLeaves hl
      exact hunder (iht e he (ht e he) hl)
    · obtain ⟨e, he, hl⟩ := exists_mem_of_mem_armLeaves hl
      exact hunder (ihf e he (hf e he) hl)
  | _ =>
    rw [guardedLeaves_of_not_isBranch rfl, List.mem_singleton] at hl
    rw [hl]
    exact ⟨isPlain_of_isHoisted hu rfl, fun _ hg => absurd hg List.not_mem_nil⟩

/-- What hoisting returns is hoisted: none of the conditions of its decision tree
    and none of the leaves has a conditional left in its region. -/
theorem hoist_normal_form {e u : Expr} (h : e.hoist = .ok u) :
    u.isHoisted ∧ ∀ l ∈ u.guardedLeaves,
      l.expr.Unconditional ∧ ∀ g ∈ l.guards, g.cond.Unconditional := by
  have hu := isHoisted_of_hoist h
  refine ⟨hu, fun l hl => ?_⟩
  obtain ⟨hexpr, hguards⟩ := isPlain_of_mem_guardedLeaves hu hl
  exact ⟨unconditional_of_isPlain hexpr, fun g hg => unconditional_of_isPlain (hguards g hg)⟩

/-- An element of a conditional base at a conditional index: the leaf under both
    true arms and both of its conditions have no conditional left. -/
theorem hoist_normal_form_element :
    let c : Expr := .leaf none (.terminal "c")
    let d : Expr := .leaf none (.terminal "d")
    let m : Expr := .leaf (some ⟨2⟩) (.terminal "m")
    let n : Expr := .leaf (some ⟨3⟩) (.terminal "n")
    let i : Expr := .leaf (some ⟨6⟩) (.terminal "i")
    let hoisted : Expr := .branch (some ⟨8⟩) d
      (some (.branch (some ⟨4⟩) c (some (.pointer (some ⟨2⟩) m i)) (some (.pointer (some ⟨3⟩) n i))))
      none
    (pointer (some ⟨9⟩) (.branch (some ⟨4⟩) c (some m) (some n))
        (.branch (some ⟨8⟩) d (some i) none)).hoist = .ok hoisted ∧
      hoisted.isHoisted ∧ (pointer (some ⟨2⟩) m i).Unconditional ∧ c.Unconditional := by
  intro c d m n i hoisted
  have hok : (pointer (some ⟨9⟩) (.branch (some ⟨4⟩) c (some m) (some n))
      (.branch (some ⟨8⟩) d (some i) none)).hoist = .ok hoisted := by decide +kernel
  obtain ⟨hu, hleaves⟩ := hoist_normal_form hok
  obtain ⟨hexpr, hguards⟩ :=
    hleaves ⟨[⟨d, true⟩, ⟨c, true⟩], pointer (some ⟨2⟩) m i⟩ (List.Mem.head _)
  exact ⟨hok, hu, hexpr, hguards ⟨c, true⟩ (.tail _ (.head _))⟩

/-! ## Hoisted trees stay as they are -/

/-- A hoisted tree can be hoisted, and nothing in it moves. -/
theorem hoist_of_isHoisted {e : Expr} (h : e.isHoisted) : e.hoist = .ok e := by
  induction e with
  | leaf id v => rfl
  | branch id c t f ihc iht ihf =>
    obtain ⟨hc, ht, hf⟩ := isHoisted_branch_iff.mp h
    have harm : ∀ a : Option Expr, (∀ e ∈ a, e.isHoisted → e.hoist = .ok e) →
        (∀ e ∈ a, e.isHoisted) → hoistArm a = .ok a := by
      intro a ih ha
      cases a with
      | none => rfl
      | some e => exact hoistArm_eq_ok.mpr (.some (ih e rfl (ha e rfl)))
    refine hoist_branch_eq_ok.mpr
      ⟨t, f, c, harm t iht ht, harm f ihf hf, ihc (isHoisted_of_isPlain hc), ?_⟩
    -- A plain condition is its own only leaf, and the root takes back its own id.
    rw [select, graft_of_not_isBranch (isBranch_of_isPlain hc)]
    rfl
  | compound id k xs ih =>
    have hxs : ∀ x ∈ xs, x.isPlain := isPlain_compound_iff.mp (isPlain_of_isHoisted h rfl)
    refine hoist_compound_eq_ok.mpr ⟨xs, hoistAll_eq_ok.mpr ?_, ?_⟩
    · exact List.forall₂_same.mpr fun x hx => ih x hx (isHoisted_of_isPlain (hxs x hx))
    · -- No operand is conditional, so all of them make one flat node.
      have hnone := BranchSplit.find?_eq_none_iff.mpr fun x hx => isBranch_of_isPlain (hxs x hx)
      exact (Decision.combine_of_find?_none hnone).symm
  | partselect id b m l ihb ihm ihl =>
    obtain ⟨hb, hm, hl⟩ := isPlain_partselect_iff.mp (isPlain_of_isHoisted h rfl)
    refine hoist_partselect_eq_ok.mpr ⟨m, l, b, ihm (isHoisted_of_isPlain hm),
      ihl (isHoisted_of_isPlain hl), ihb (isHoisted_of_isPlain hb),
      ⟨isBranch_of_isPlain hm, isBranch_of_isPlain hl⟩, ?_⟩
    rw [computeOver_of_not_isBranch (isBranch_of_isPlain hb)]
  | pointer id b i ihb ihi =>
    obtain ⟨hb, hi⟩ := isPlain_pointer_iff.mp (isPlain_of_isHoisted h rfl)
    refine hoist_pointer_eq_ok.mpr
      ⟨i, b, ihi (isHoisted_of_isPlain hi), ihb (isHoisted_of_isPlain hb), ?_⟩
    rw [computeOver_of_not_isBranch (isBranch_of_isPlain hi),
      computeOver_of_not_isBranch (isBranch_of_isPlain hb)]
  | delay id e ih =>
    exact hoist_delay_eq_ok.mpr ⟨e, ih (isPlain_delay_iff.mp (isPlain_of_isHoisted h rfl)), rfl⟩

theorem hoistArm_of_isHoisted {a : Option Expr} (h : ∀ e ∈ a, e.isHoisted) :
    hoistArm a = .ok a := by
  cases a with
  | none => rfl
  | some e => exact hoistArm_eq_ok.mpr (.some (hoist_of_isHoisted (h e rfl)))

theorem hoistAll_of_isHoisted {xs : List Expr} (h : ∀ x ∈ xs, x.isHoisted) :
    hoistAll xs = .ok xs :=
  hoistAll_eq_ok.mpr (List.forall₂_same.mpr fun x hx => hoist_of_isHoisted (h x hx))

/-- The hoisted trees are exactly those that hoisting returns unchanged; so what
    it has returned can be hoisted again, and stays the same down to the ids. -/
theorem hoist_fixed_iff (e : Expr) :
    (e.isHoisted ↔ e.hoist = .ok e) ∧ ∀ u, e.hoist = .ok u → u.hoist = .ok u :=
  ⟨⟨hoist_of_isHoisted, isHoisted_of_hoist⟩, fun _ h => hoist_of_isHoisted (isHoisted_of_hoist h)⟩

/-- A range of a conditional base changes when it is hoisted, and not again. -/
theorem hoist_fixed_iff_range :
    let c : Expr := .leaf none (.terminal "c")
    let a : Expr := .leaf (some ⟨2⟩) (.terminal "a")
    let bound : Expr := .leaf none (.constant "0")
    let range : Expr := .partselect (some ⟨9⟩) (.branch (some ⟨3⟩) c (some a) none) bound bound
    let hoisted : Expr := .branch (some ⟨3⟩) c (some (.partselect (some ⟨2⟩) a bound bound)) none
    range.hoist = .ok hoisted ∧ ¬ range.isHoisted ∧ hoisted.hoist = .ok hoisted := by
  intro c a bound range hoisted
  have hok : range.hoist = .ok hoisted := by decide +kernel
  exact ⟨hok, by decide, (hoist_fixed_iff range).2 hoisted hok⟩

end Expr

end MuxHoist
