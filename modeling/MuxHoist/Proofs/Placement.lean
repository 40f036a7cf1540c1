/-
  MuxHoist.Proofs.Placement

  Where the conditionals of a tree may stand, told from the way that leads to them. A way
  is the list of steps down from the root; a delay on it starts anew, so that only the
  steps behind the last delay count (`sinceDelay`). Main statement: in a hoisted tree these
  steps enter arms and nothing else, for every conditional that occurs; in a branch-free
  tree no conditional occurs; and where no delay stands the two queries differ by the root
  alone (`isHoisted_isBranchFree_iff`).
-/
import MuxHoist.Proofs.NormalForm
import MuxHoist.Proofs.Position
import Mathlib.Data.List.DropRight

namespace MuxHoist

/-! ## The way to a position -/

/-- A step down: the node it leaves, and the number of the part it enters. -/
structure Descent where
  node : Expr
  part : Nat
  deriving Repr

namespace Descent

/-- The step leads from a conditional into one of its arms. -/
def intoArm : Descent → Bool
  | ⟨.branch .., 1⟩ => true
  | ⟨.branch .., 2⟩ => true
  | _ => false

/-- The step leaves a delay, into what it delays. -/
def leavesDelay (s : Descent) : Bool := decide (s.node.kind = .delay)

end Descent

namespace Expr

/-- The steps down to a position, from the root on. -/
def way (e : Expr) : Position → List Descent
  | [] => []
  | i :: p =>
    ⟨e, i⟩ ::
      match e.part? i with
      | none => []
      | some c => c.way p

/-- The steps of the way behind the last delay on it, or all of them if there is none. -/
def sinceDelay (e : Expr) (p : Position) : List Descent :=
  (e.way p).rtakeWhile fun s => !s.leavesDelay

/-- A delay stands on the way, above the position. -/
def PassesDelay (e : Expr) (p : Position) : Prop := ∃ s ∈ e.way p, s.leavesDelay

section

variable {e c : Expr} {i : Nat} {p : Position}

theorem way_cons (h : e.part? i = some c) (p : Position) :
    e.way (i :: p) = ⟨e, i⟩ :: c.way p := by
  rw [way, h]

theorem passesDelay_cons_iff (h : e.part? i = some c) :
    e.PassesDelay (i :: p) ↔ (⟨e, i⟩ : Descent).leavesDelay ∨ c.PassesDelay p := by
  simp only [PassesDelay, way_cons h, List.mem_cons, exists_eq_or_imp]

/-- A node on the way occurs in the tree. -/
theorem occurs_of_mem_way {s : Descent} (h : s ∈ e.way p) : Occurs s.node e := by
  induction p generalizing e with
  | nil => cases h
  | cons i p ih =>
    cases hc : e.part? i with
    | none =>
      rw [way, hc, List.mem_singleton] at h
      rw [h]
      exact occurs_self e
    | some c =>
      rw [way_cons hc, List.mem_cons] at h
      rcases h with rfl | h
      · exact occurs_self e
      · exact occurs_of_part? hc (ih h)

theorem sinceDelay_of_not_passesDelay (h : ¬ e.PassesDelay p) : e.sinceDelay p = e.way p := by
  rw [sinceDelay, List.rtakeWhile_eq_self_iff]
  intro s hs
  rw [Bool.not_eq_true']
  exact eq_false_of_ne_true fun hd => h ⟨s, hs, hd⟩

/-- With a delay on the way the first step does not count: either it leaves the delay, or
    the delay stands further down. -/
theorem sinceDelay_cons_of_passesDelay (hc : e.part? i = some c) (h : e.PassesDelay (i :: p)) :
    e.sinceDelay (i :: p) = c.sinceDelay p := by
  rw [passesDelay_cons_iff hc] at h
  rw [sinceDelay, sinceDelay, way_cons hc, List.rtakeWhile, List.rtakeWhile, List.reverse_cons,
    List.takeWhile_append]
  -- Counted from below, the first step comes last, and only if all others count.
  split
  · next hall =>
    -- Then no delay is passed further down, so it is the first step that leaves one.
    have hself := (List.takeWhile_prefix _).eq_of_length hall
    have hc' : ¬ c.PassesDelay p := by
      rintro ⟨s, hs, hd⟩
      have hs' := List.takeWhile_eq_self_iff.mp hself s (List.mem_reverse.mpr hs)
      rw [hd] at hs'
      cases hs'
    have hfirst := h.resolve_right hc'
    rw [hself, List.takeWhile_cons_of_neg (by simp [hfirst]), List.append_nil]
  · rfl

/-- The steps that count enter arms, first of all the step from the root if no delay takes
    it off the count. -/
theorem forall_sinceDelay_cons_iff (hc : e.part? i = some c) :
    (∀ s ∈ e.sinceDelay (i :: p), s.intoArm) ↔
      (∀ s ∈ c.sinceDelay p, s.intoArm) ∧
        (e.PassesDelay (i :: p) ∨ (⟨e, i⟩ : Descent).intoArm) := by
  by_cases h : e.PassesDelay (i :: p)
  · rw [sinceDelay_cons_of_passesDelay hc h]
    exact (and_iff_left (.inl h)).symm
  · have hc' : ¬ c.PassesDelay p := fun hp => h ((passesDelay_cons_iff hc).mpr (.inr hp))
    rw [sinceDelay_of_not_passesDelay h, sinceDelay_of_not_passesDelay hc', way_cons hc,
      List.forall_mem_cons, or_iff_right h]
    exact and_comm

/-- Below a node that is not conditional no conditional is reached through arms alone, so a
    delay stands on the way to it. -/
theorem passesDelay_of_isBranch {d : Expr} (he : e.isBranch = false)
    (hp : e.subtree? p = some d) (hd : d.isBranch = true)
    (harms : ∀ s ∈ e.sinceDelay p, s.intoArm) : e.PassesDelay p := by
  by_contra h
  rw [sinceDelay_of_not_passesDelay h] at harms
  cases p with
  | nil =>
    rw [← Option.some.inj hp, he] at hd
    cases hd
  | cons i p =>
    obtain ⟨c, hc, -⟩ := subtree?_cons_eq_some_iff.mp hp
    rw [way_cons hc] at harms
    have hfirst := harms ⟨e, i⟩ List.mem_cons_self
    cases e with
    | branch => cases he
    | _ => cases hfirst

end

/-! ## Hoisted trees -/

/-- A node is hoisted when its parts are, and none of them is conditional but the arms and
    what a delay holds. -/
theorem isHoisted_iff_part {e : Expr} :
    e.isHoisted ↔ ∀ i c, e.part? i = some c → c.isHoisted ∧
      ((⟨e, i⟩ : Descent).leavesDelay ∨ (⟨e, i⟩ : Descent).intoArm ∨ c.isBranch = false) := by
  constructor
  · intro h i c hc
    have hplain : ∀ {c : Expr} {r r' : Prop}, c.isPlain →
        c.isHoisted ∧ (r ∨ r' ∨ c.isBranch = false) :=
      fun h => (isPlain_iff.mp h).imp_right fun hb => .inr (.inr hb)
    cases hc using part_cases with
    | cond => exact hplain (isHoisted_branch_iff.mp h).1
    | onTrue => exact ⟨(isHoisted_branch_iff.mp h).2.1 _ rfl, .inr (.inl rfl)⟩
    | onFalse => exact ⟨(isHoisted_branch_iff.mp h).2.2 _ rfl, .inr (.inl rfl)⟩
    | operand =>
      have hxs := isPlain_compound_iff.mp (isPlain_of_isHoisted h rfl)
      exact hplain (hxs _ (List.mem_of_getElem? hc))
    | base => exact hplain (isPlain_partselect_iff.mp (isPlain_of_isHoisted h rfl)).1
    | msb => exact hplain (isPlain_partselect_iff.mp (isPlain_of_isHoisted h rfl)).2.1
    | lsb => exact hplain (isPlain_partselect_iff.mp (isPlain_of_isHoisted h rfl)).2.2
    | pointee => exact hplain (isPlain_pointer_iff.mp (isPlain_of_isHoisted h rfl)).1
    | index => exact hplain (isPlain_pointer_iff.mp (isPlain_of_isHoisted h rfl)).2
    | inner => exact ⟨isPlain_delay_iff.mp (isPlain_of_isHoisted h rfl), .inl rfl⟩
  · intro h
    have hpart : ∀ i c, e.part? i = some c → (⟨e, i⟩ : Descent).leavesDelay = false →
        (⟨e, i⟩ : Descent).intoArm = false → c.isPlain := by
      intro i c hc hdelay harm
      obtain ⟨hhoisted, hstep⟩ := h i c hc
      rw [hdelay, harm] at hstep
      exact isPlain_of_isHoisted hhoisted (by simpa using hstep)
    cases e with
    | leaf => rfl
    | branch id c t f =>
      exact isHoisted_branch_iff.mpr
        ⟨hpart 0 c rfl rfl rfl, fun a ha => (h 1 a ha).1, fun a ha => (h 2 a ha).1⟩
    | compound id k xs =>
      refine isHoisted_of_isPlain (isPlain_compound_iff.mpr fun x hx => ?_)
      obtain ⟨i, hi⟩ := List.mem_iff_getElem?.mp hx
      exact hpart i x hi (by cases k <;> rfl) rfl
    | partselect id b m l =>
      exact isHoisted_of_isPlain (isPlain_partselect_iff.mpr
        ⟨hpart 0 b rfl rfl rfl, hpart 1 m rfl rfl rfl, hpart 2 l rfl rfl rfl⟩)
    | pointer id b i =>
      exact isHoisted_of_isPlain (isPlain_pointer_iff.mpr
        ⟨hpart 0 b rfl rfl rfl, hpart 1 i rfl rfl rfl⟩)
    | delay id d => exact isHoisted_of_isPlain (isPlain_delay_iff.mpr (h 0 d rfl).1)

theorem isHoisted_of_part? {e c : Expr} {i : Nat} (h : e.isHoisted) (hc : e.part? i = some c) :
    c.isHoisted :=
  (isHoisted_iff_part.mp h i c hc).1

/-- A tree is hoisted exactly if every conditional in it is reached through arms alone, from
    the root or from what the last delay on the way holds. -/
theorem isHoisted_iff_sinceDelay {e : Expr} :
    e.isHoisted ↔ ∀ p d, e.subtree? p = some d → d.isBranch = true →
      ∀ s ∈ e.sinceDelay p, s.intoArm := by
  -- By parts: a step into an arm goes on with the count, a step out of a delay starts it
  -- anew, and behind any other step a delay has to come first.
  induction e using part_induct with
  | node e ih =>
    rw [isHoisted_iff_part]
    constructor
    · intro h p d hp hd
      cases p with
      | nil => exact fun s hs => absurd hs List.not_mem_nil
      | cons i p =>
        obtain ⟨c, hc, hp⟩ := subtree?_cons_eq_some_iff.mp hp
        obtain ⟨hhoisted, hstep⟩ := h i c hc
        have harms := (ih i c hc).mp hhoisted p d hp hd
        refine (forall_sinceDelay_cons_iff hc).mpr ⟨harms, ?_⟩
        rcases hstep with hdelay | harm | hb
        · exact .inl ((passesDelay_cons_iff hc).mpr (.inl hdelay))
        · exact .inr harm
        · have hdelay := passesDelay_of_isBranch hb hp hd harms
          exact .inl ((passesDelay_cons_iff hc).mpr (.inr hdelay))
    · intro h i c hc
      have hway : ∀ p d, c.subtree? p = some d → d.isBranch = true →
          (∀ s ∈ c.sinceDelay p, s.intoArm) ∧
            (e.PassesDelay (i :: p) ∨ (⟨e, i⟩ : Descent).intoArm) :=
        fun p d hp hd => (forall_sinceDelay_cons_iff hc).mp
          (h (i :: p) d (subtree?_cons_eq_some_iff.mpr ⟨c, hc, hp⟩) hd)
      refine ⟨(ih i c hc).mpr fun p d hp hd => (hway p d hp hd).1, ?_⟩
      cases hb : c.isBranch with
      | false => exact .inr (.inr rfl)
      | true =>
        -- The part is itself one of the conditionals, so the step to it is the last one.
        rcases (hway [] c rfl hb).2 with hdelay | harm
        · refine .inl (((passesDelay_cons_iff hc).mp hdelay).resolve_right ?_)
          rintro ⟨s, hs, -⟩
          cases hs
        · exact .inr (.inl harm)

/-! ## Branch-free trees -/

theorem isBranchFree_iff_children {e : Expr} :
    e.isBranchFree ↔ e.isBranch = false ∧ ∀ c ∈ e.children, c.isBranchFree := by
  cases e with
  | compound id k xs => simp [isBranchFree, isBranch, children, allBranchFree_iff]
  | _ => simp [isBranchFree, isBranch, children, and_assoc]

/-- A tree is branch-free exactly if no conditional occurs in it. -/
theorem isBranchFree_iff_occurs {e : Expr} :
    e.isBranchFree ↔ ∀ d, Occurs d e → d.isBranch = false := by
  constructor
  · intro h d hd
    have hpart : ∀ (e : Expr) i c, e.isBranchFree = true → e.part? i = some c →
        c.isBranchFree = true :=
      fun e i c he hc => (isBranchFree_iff_children.mp he).2 c (mem_children_iff.mpr ⟨i, hc⟩)
    exact (isBranchFree_iff_children.mp (of_occurs hpart h hd)).1
  · intro h
    induction e using part_induct with
    | node e ih =>
      refine isBranchFree_iff_children.mpr ⟨h e (occurs_self e), fun c hc => ?_⟩
      obtain ⟨i, hi⟩ := mem_children_iff.mp hc
      exact ih i c hi fun d hd => h d (occurs_of_part? hi hd)

/-- Without a delay, a tree is branch-free when it is hoisted and not conditional itself. -/
theorem isBranchFree_iff_isHoisted {e : Expr} (h : ∀ d, Occurs d e → d.kind ≠ .delay) :
    e.isBranchFree ↔ e.isHoisted ∧ e.isBranch = false := by
  rw [isBranchFree_iff_occurs]
  constructor
  · intro hfree
    refine ⟨isHoisted_iff_sinceDelay.mpr fun p d hp hd => ?_, hfree e (occurs_self e)⟩
    rw [hfree d ⟨p, hp⟩] at hd
    cases hd
  · rintro ⟨he, hb⟩ d ⟨p, hp⟩
    by_contra hd
    rw [Bool.not_eq_false] at hd
    -- Any conditional would stand below a delay.
    obtain ⟨s, hs, hdelay⟩ :=
      passesDelay_of_isBranch hb hp hd (isHoisted_iff_sinceDelay.mp he p d hp hd)
    exact h s.node (occurs_of_mem_way hs) (of_decide_eq_true hdelay)

/-- A tree is hoisted exactly if the way to every conditional in it, from the root or from
    what the nearest delay above it holds, goes from conditionals into arms only. It is
    branch-free exactly if no conditional occurs in it, not even below a delay. For a tree
    without delays, branch-free means hoisted and not conditional itself. -/
theorem isHoisted_isBranchFree_iff (e : Expr) :
    (e.isHoisted ↔ ∀ p d, e.subtree? p = some d → d.isBranch = true →
        ∀ s ∈ e.sinceDelay p, s.intoArm) ∧
      (e.isBranchFree ↔ ∀ d, Occurs d e → d.isBranch = false) ∧
      ((∀ d, Occurs d e → d.kind ≠ .delay) →
        (e.isBranchFree ↔ e.isHoisted ∧ e.isBranch = false)) :=
  ⟨isHoisted_iff_sinceDelay, isBranchFree_iff_occurs, isBranchFree_iff_isHoisted⟩

/-- A conditional may stand below a delay, even one inside a condition, and there as an arm
    again: the steps since the delay lead into arms. As an index it may not, though a delay
    stands beside it. A sum of signals holds none. -/
theorem isHoisted_isBranchFree_iff_delayed :
    let c : Expr := .leaf none (.terminal "c")
    let a : Expr := .leaf (some ⟨2⟩) (.terminal "a")
    let choice : Expr := .branch (some ⟨4⟩) c (some a) none
    let nested : Expr := .branch (some ⟨5⟩) a none (some choice)
    let sum (x y : Expr) : Expr := .compound (some ⟨6⟩) (.op .plus) [x, y]
    let held : Expr := .delay none nested
    let placed : Expr := .branch (some ⟨7⟩) (sum a held) (some choice) none
    let misplaced : Expr := .pointer (some ⟨8⟩) held choice
    (placed.subtree? [0, 1, 0, 2] = some choice ∧ placed.isHoisted ∧
        ∀ s ∈ placed.sinceDelay [0, 1, 0, 2], s.intoArm) ∧
      (misplaced.subtree? [1] = some choice ∧ ¬ misplaced.isHoisted) ∧
      (∀ d, Occurs d (sum a c) → d.kind ≠ .delay) ∧ (sum a c).isBranchFree := by
  intro c a choice nested sum held placed misplaced
  have hnodelay : ∀ d, Occurs d (sum a c) → d.kind ≠ .delay := by
    simp [sum, a, c, occurs_iff (e := .compound _ _ _), occurs_iff (e := .leaf _ _), children,
      kind, Combiner.kind, Leaf.kind]
  obtain ⟨hplaced, -⟩ := isHoisted_isBranchFree_iff placed
  obtain ⟨hmisplaced, -⟩ := isHoisted_isBranchFree_iff misplaced
  obtain ⟨-, -, hsum⟩ := isHoisted_isBranchFree_iff (sum a c)
  refine ⟨⟨rfl, by decide, ?_⟩, ⟨rfl, fun h => ?_⟩, hnodelay, (hsum hnodelay).mpr ⟨by decide, rfl⟩⟩
  · exact hplaced.mp (by decide) [0, 1, 0, 2] choice rfl rfl
  · -- The only step leads into the index, and it leaves no delay.
    cases hmisplaced.mp h [1] choice rfl rfl ⟨misplaced, 1⟩ (List.mem_singleton_self _)

end Expr

end MuxHoist
