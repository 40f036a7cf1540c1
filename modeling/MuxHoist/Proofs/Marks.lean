/-
  MuxHoist.Proofs.Marks

  Which delays and which missing arms a hoisted tree has. A mark picks delays, leaves and
  conditionals among the nodes of a tree; of a conditional it sees only which arms are
  missing. No operation on decision trees marks a node that was not marked, and none
  loses what is marked in an operand, unless a missing arm dropped it and that arm is
  still to be seen. Hoisting inherits both (`in_of_hoist`, `in_or_gap_of_hoist`). Main
  statements: the delays of a hoisted tree are the hoisted delays of the tree
  (`delay_hoist`), and it lacks an arm exactly if the tree does (`lacksArm_hoist_iff`).
-/
import MuxHoist.Proofs.Failure

namespace MuxHoist

/-! ## Marks -/

/-- A choice of delays, by their id and what they delay, of conditionals, by which of
    their arms are missing, and of leaves, none of them unless it is said which. -/
structure Mark where
  onDelay : Option NodeId → Expr → Prop
  onBranch : (trueMissing falseMissing : Bool) → Prop
  onLeaf : Option NodeId → Leaf → Prop := fun _ _ => False

namespace Mark

/-- The node at the root is marked. -/
def On (m : Mark) : Expr → Prop
  | .leaf id v => m.onLeaf id v
  | .branch _ _ t f => m.onBranch t.isNone f.isNone
  | .delay id e => m.onDelay id e
  | _ => False

/-- A marked node occurs in the tree. -/
def In (m : Mark) (e : Expr) : Prop := ∃ d, Expr.Occurs d e ∧ m.On d

/-- The mark on the delays for which `p` holds of their id and of what they delay. -/
def delays (p : Option NodeId → Expr → Prop) : Mark where
  onDelay := p
  onBranch _ _ := False

/-- The mark on conditionals that lack an arm. -/
def gap : Mark where
  onDelay _ _ := False
  onBranch t f := (t || f) = true

/-- Among the marked nodes are all conditionals that lack an arm. -/
def SeesGaps (m : Mark) : Prop := ∀ t f, (t || f) = true → m.onBranch t f

/-- The mark with all conditionals that lack an arm. -/
def orGap (m : Mark) : Mark where
  onDelay := m.onDelay
  onBranch t f := m.onBranch t f ∨ (t || f) = true
  onLeaf := m.onLeaf

section

variable {m : Mark}

/-- A tree is marked at its root, or in a child of it. -/
theorem in_iff {e : Expr} : m.In e ↔ m.On e ∨ ∃ c ∈ e.children, m.In c := by
  constructor
  · rintro ⟨d, hd, hm⟩
    rcases Expr.occurs_iff.mp hd with rfl | ⟨c, hc, hd⟩
    · exact .inl hm
    · exact .inr ⟨c, hc, d, hd, hm⟩
  · rintro (hm | ⟨c, hc, d, hd, hm⟩)
    · exact ⟨e, Expr.occurs_self e, hm⟩
    · exact ⟨d, Expr.occurs_iff.mpr (.inr ⟨c, hc, hd⟩), hm⟩

theorem in_leaf_iff {id : Option NodeId} {v : Leaf} : m.In (.leaf id v) ↔ m.onLeaf id v := by
  simp [in_iff (e := .leaf id v), On, Expr.children]

theorem not_in_leaf {id : Option NodeId} {v : Leaf} (h : ¬ m.onLeaf id v) :
    ¬ m.In (.leaf id v) :=
  fun hin => h (in_leaf_iff.mp hin)

theorem in_branch_iff {id : Option NodeId} {c : Expr} {t f : Option Expr} :
    m.In (.branch id c t f) ↔
      m.onBranch t.isNone f.isNone ∨ m.In c ∨ (∃ a ∈ t, m.In a) ∨ ∃ a ∈ f, m.In a := by
  rw [in_iff]
  simp only [On, Expr.children, List.mem_cons, List.mem_append, Option.mem_toList, or_and_right,
    exists_or, exists_eq_left, Option.mem_def]

theorem in_compound_iff {id : Option NodeId} {k : Combiner} {xs : List Expr} :
    m.In (.compound id k xs) ↔ ∃ x ∈ xs, m.In x := by
  simp [in_iff (e := .compound id k xs), On, Expr.children]

theorem in_partselect_iff {id : Option NodeId} {b h l : Expr} :
    m.In (.partselect id b h l) ↔ m.In b ∨ m.In h ∨ m.In l := by
  simp [in_iff (e := .partselect id b h l), On, Expr.children]

theorem in_pointer_iff {id : Option NodeId} {b i : Expr} :
    m.In (.pointer id b i) ↔ m.In b ∨ m.In i := by
  simp [in_iff (e := .pointer id b i), On, Expr.children]

theorem in_delay_iff {id : Option NodeId} {e : Expr} :
    m.In (.delay id e) ↔ m.onDelay id e ∨ m.In e := by
  simp [in_iff (e := .delay id e), On, Expr.children]

/-- The id of a conditional has no say. -/
theorem in_withId_iff {e : Expr} (he : e.isBranch = true) (id : Option NodeId) :
    m.In (e.withId id) ↔ m.In e := by
  cases e with
  | branch => exact in_branch_iff.trans in_branch_iff.symm
  | _ => cases he

theorem seesGaps_orGap (m : Mark) : m.orGap.SeesGaps := fun _ _ => .inr

theorem in_orGap_iff {e : Expr} : m.orGap.In e ↔ m.In e ∨ gap.In e := by
  have hon : ∀ d, m.orGap.On d ↔ m.On d ∨ gap.On d := by
    intro d
    cases d <;> simp [On, orGap, gap]
  simp only [In, hon, and_or_left, exists_or]

end

/-! ## What operations bring in -/

section

variable {m : Mark} {r : Prop}

/-- What is marked in a grafted tree was marked in the tree, or comes in with a copy. -/
theorem in_of_graft {g : Expr → Expr} (hg : ∀ l, m.In (g l) → m.In l ∨ r) {e : Expr}
    (h : m.In (e.graft g)) : m.In e ∨ r := by
  induction e with
  | branch id c t f _ iht ihf =>
    have harm : ∀ a : Option Expr, (∀ e ∈ a, m.In (e.graft g) → m.In e ∨ r) →
        (∃ u ∈ a.map (Expr.graft g), m.In u) → (∃ e ∈ a, m.In e) ∨ r := by
      rintro a ih ⟨u, hu, hm⟩
      obtain ⟨e, he, rfl⟩ := Option.map_eq_some_iff.mp hu
      exact (ih e he hm).imp_left fun h => ⟨e, he, h⟩
    rw [Expr.graft_branch, in_branch_iff, Option.isNone_map, Option.isNone_map] at h
    rw [in_branch_iff]
    rcases h with h | h | h | h
    · exact .inl (.inl h)
    · exact .inl (.inr (.inl h))
    · exact (harm t iht h).imp_left fun h => .inr (.inr (.inl h))
    · exact (harm f ihf h).imp_left fun h => .inr (.inr (.inr h))
  | _ => exact hg _ h

theorem in_of_computeOver {g : Option NodeId → Expr → Expr}
    (hg : ∀ id l, m.In (g id l) → m.In l ∨ r) {id : Option NodeId} {e : Expr}
    (h : m.In (e.computeOver id g)) : m.In e ∨ r := by
  unfold Expr.computeOver at h
  split at h
  · exact in_of_graft (fun l => hg l.id l) h
  · exact hg id e h

/-- What is marked in a joined tree was marked in an operand. -/
theorem in_of_scan {k : Combiner} {id : Option NodeId} {done rest : List Expr}
    (h : m.In (Decision.scan k id done rest)) :
    (∃ x ∈ done, m.In x) ∨ ∃ x ∈ rest, m.In x := by
  induction rest generalizing id done with
  | nil => exact .inl (in_compound_iff.mp h)
  | cons x rest ih =>
    have hcopy : ∀ id l, m.In (Decision.scan k id (done ++ [l]) rest) →
        m.In l ∨ ((∃ x ∈ done, m.In x) ∨ ∃ x ∈ rest, m.In x) := by
      intro id l h
      rcases ih h with ⟨y, hy, hm⟩ | h
      · rcases List.mem_append.mp hy with hy | hy
        · exact .inr (.inl ⟨y, hy, hm⟩)
        · rw [List.mem_singleton.mp hy] at hm
          exact .inl hm
      · exact .inr (.inr h)
    rcases in_of_computeOver hcopy h with h | h | ⟨y, hy, hm⟩
    · exact .inr ⟨x, List.mem_cons_self, h⟩
    · exact .inl h
    · exact .inr ⟨y, List.mem_cons_of_mem x hy, hm⟩

end

/-! ## What operations keep -/

section

variable {m : Mark}

/-- What is marked in a tree is marked in the grafted tree, if copies keep it. -/
theorem in_graft_of_in {g : Expr → Expr} (hg : ∀ l, m.In l → m.In (g l)) {e : Expr}
    (h : m.In e) : m.In (e.graft g) := by
  induction e with
  | branch id c t f _ iht ihf =>
    have harm : ∀ a : Option Expr, (∀ e ∈ a, m.In e → m.In (e.graft g)) →
        (∃ e ∈ a, m.In e) → ∃ u ∈ a.map (Expr.graft g), m.In u := by
      rintro a ih ⟨e, he, hm⟩
      exact ⟨e.graft g, Option.mem_map_of_mem (Expr.graft g) he, ih e he hm⟩
    rw [Expr.graft_branch, in_branch_iff, Option.isNone_map, Option.isNone_map]
    rw [in_branch_iff] at h
    rcases h with h | h | h | h
    · exact .inl h
    · exact .inr (.inl h)
    · exact .inr (.inr (.inl (harm t iht h)))
    · exact .inr (.inr (.inr (harm f ihf h)))
  | _ => exact hg _ h

/-- Where every copy is marked, so is the grafted tree: a decision tree without a leaf to
    copy onto lacks an arm. -/
theorem in_graft (hgap : m.SeesGaps) {g : Expr → Expr} (hg : ∀ l, m.In (g l)) (e : Expr) :
    m.In (e.graft g) := by
  induction e with
  | branch id c t f _ iht _ =>
    rw [Expr.graft_branch, in_branch_iff]
    -- One arm is enough: if it is there, it leads to a copy, and if not, it is itself a gap.
    cases t with
    | none => exact .inl (hgap true _ rfl)
    | some a => exact .inr (.inr (.inl ⟨a.graft g, rfl, iht a rfl⟩))
  | _ => exact hg _

theorem in_computeOver_of_in {g : Option NodeId → Expr → Expr}
    (hg : ∀ id l, m.In l → m.In (g id l)) {e : Expr} (h : m.In e) (id : Option NodeId) :
    m.In (e.computeOver id g) := by
  unfold Expr.computeOver
  split
  · exact in_graft_of_in (fun l => hg l.id l) h
  · exact hg id e h

theorem in_computeOver (hgap : m.SeesGaps) {g : Option NodeId → Expr → Expr}
    (hg : ∀ id l, m.In (g id l)) (id : Option NodeId) (e : Expr) :
    m.In (e.computeOver id g) := by
  unfold Expr.computeOver
  split
  · exact in_graft hgap (fun l => hg l.id l) e
  · exact hg id e

/-- What is marked in any of the operands is marked in the joined tree. -/
theorem in_scan (hgap : m.SeesGaps) {k : Combiner} {id : Option NodeId} {done rest : List Expr}
    (h : (∃ x ∈ done, m.In x) ∨ ∃ x ∈ rest, m.In x) : m.In (Decision.scan k id done rest) := by
  induction rest generalizing id done with
  | nil =>
    rcases h with h | ⟨_, hx, _⟩
    · exact in_compound_iff.mpr h
    · cases hx
  | cons x rest ih =>
    rw [Decision.scan]
    rcases h with ⟨y, hy, hm⟩ | ⟨y, hy, hm⟩
    · exact in_computeOver hgap
        (fun id l => ih (.inl ⟨y, List.mem_append_left [l] hy, hm⟩)) id x
    · rcases List.mem_cons.mp hy with rfl | hy
      · -- The mark is kept with the conditions of `x`, or with a leaf that is chosen.
        exact in_computeOver_of_in
          (fun id l hl => ih (.inl ⟨l, List.mem_append_right done (List.mem_singleton_self l), hl⟩))
          hm id
      · exact in_computeOver hgap (fun id l => ih (.inr ⟨y, hy, hm⟩)) id x

end

/-! ## Hoisting -/

section

variable {m m' : Mark}

/-- Hoisting brings in no mark. Where a delay is marked in the hoisted tree, the delay
    that it was hoisted from has to be marked in the tree. Both marks are taken to agree
    on leaves, unless it is said how they differ. -/
theorem in_of_hoist (hbranch : ∀ t f, m'.onBranch t f → m.onBranch t f)
    (hdelay : ∀ id (e v : Expr), e.hoist = .ok v → m'.onDelay id v → m.onDelay id e) {e u : Expr}
    (h : e.hoist = .ok u) (hu : m'.In u)
    (hleaf : ∀ id v, m'.onLeaf id v → m.onLeaf id v := by exact fun _ _ h => h) : m.In e := by
  induction h using Expr.hoist_induct with
  | leaf id v => exact in_leaf_iff.mpr (hleaf id v (in_leaf_iff.mp hu))
  | branch id c t f c' t' f' _ hc ht hf =>
    obtain ⟨_, hc⟩ := hc
    have harm : ∀ {a a' : Option Expr},
        Option.Rel (fun e u => ∃ _ : e.hoist = .ok u, m'.In u → m.In e) a a' →
        (∃ u ∈ a', m'.In u) → ∃ e ∈ a, m.In e :=
      fun ha => exists_of_rel (fun _ _ ⟨_, h⟩ => h) (rel_flip ha)
    -- A copy has its leaf for a condition, and beside it what all copies share.
    have hcopy : ∀ l : Expr, m'.In (.branch l.id l t' f') →
        m'.In l ∨ (m'.onBranch t'.isNone f'.isNone ∨ (∃ a ∈ t', m'.In a) ∨ ∃ a ∈ f', m'.In a) :=
      fun l hl => or_left_comm.mp (in_branch_iff.mp hl)
    rw [in_withId_iff (Expr.isBranch_select c' t' f')] at hu
    rw [in_branch_iff, ← isNone_eq_of_rel ht, ← isNone_eq_of_rel hf]
    rcases in_of_graft hcopy hu with h | h | h | h
    · exact .inr (.inl (hc h))
    · exact .inl (hbranch _ _ h)
    · exact .inr (.inr (.inl (harm ht h)))
    · exact .inr (.inr (.inr (harm hf h)))
  | compound id k xs ys _ hxs =>
    rw [Decision.combine_eq_scan] at hu
    rcases in_of_scan hu with ⟨_, hy, _⟩ | ⟨y, hy, hm⟩
    · cases hy
    · obtain ⟨x, hx, _, h⟩ := exists_forall₂_of_mem hxs hy
      exact in_compound_iff.mpr ⟨x, hx, h hm⟩
  | partselect id b h l b' h' l' _ _ _ hb hh hl =>
    obtain ⟨_, hb⟩ := hb
    obtain ⟨_, hh⟩ := hh
    obtain ⟨_, hl⟩ := hl
    rw [in_partselect_iff]
    exact (in_of_computeOver (fun _ _ => in_partselect_iff.mp) hu).imp hb (Or.imp hh hl)
  | pointer id b i b' i' _ hb hi =>
    obtain ⟨_, hb⟩ := hb
    obtain ⟨_, hi⟩ := hi
    have hcopy : ∀ id j, m'.In (b'.computeOver id fun id b => .pointer id b j) →
        m'.In j ∨ m'.In b' :=
      fun _ _ hj => (in_of_computeOver (fun _ _ => in_pointer_iff.mp) hj).symm
    rw [in_pointer_iff]
    exact (in_of_computeOver hcopy hu).symm.imp hb hi
  | delay id e e' _ he =>
    obtain ⟨hok, he⟩ := he
    rw [in_delay_iff] at hu ⊢
    exact hu.imp (hdelay id e e' hok) he

/-- Hoisting loses no mark, if those of the hoisted tree take in all conditionals that
    lack an arm. -/
theorem in_hoist (hgap : m'.SeesGaps) (hbranch : ∀ t f, m.onBranch t f → m'.onBranch t f)
    (hdelay : ∀ id (e v : Expr), e.hoist = .ok v → m.onDelay id e → m'.onDelay id v)
    (hleaf : ∀ id v, m.onLeaf id v → m'.onLeaf id v) {e u : Expr} (h : e.hoist = .ok u) :
    m.In e → m'.In u := by
  induction h using Expr.hoist_induct with
  | leaf id v => exact fun he => in_leaf_iff.mpr (hleaf id v (in_leaf_iff.mp he))
  | branch id c t f c' t' f' _ hc ht hf =>
    intro he
    obtain ⟨_, hc⟩ := hc
    have harm : ∀ {a a' : Option Expr},
        Option.Rel (fun e u => ∃ _ : e.hoist = .ok u, m.In e → m'.In u) a a' →
        (∃ e ∈ a, m.In e) → ∃ u ∈ a', m'.In u :=
      fun ha => exists_of_rel (fun _ _ ⟨_, h⟩ => h) ha
    rw [in_withId_iff (Expr.isBranch_select c' t' f')]
    rw [in_branch_iff, ← isNone_eq_of_rel ht, ← isNone_eq_of_rel hf] at he
    rcases he with h | h | h | h
    · exact in_graft hgap (fun l => in_branch_iff.mpr (.inl (hbranch _ _ h))) c'
    · exact in_graft_of_in (fun l hl => in_branch_iff.mpr (.inr (.inl hl))) (hc h)
    · exact in_graft hgap (fun l => in_branch_iff.mpr (.inr (.inr (.inl (harm ht h))))) c'
    · exact in_graft hgap (fun l => in_branch_iff.mpr (.inr (.inr (.inr (harm hf h))))) c'
  | compound id k xs ys _ hxs =>
    intro he
    obtain ⟨x, hx, hm⟩ := in_compound_iff.mp he
    obtain ⟨y, hy, _, h⟩ := exists_forall₂_of_mem hxs.flip hx
    rw [Decision.combine_eq_scan]
    exact in_scan hgap (.inr ⟨y, hy, h hm⟩)
  | partselect id b h l b' h' l' _ _ _ hb hh hl =>
    intro he
    obtain ⟨_, hb⟩ := hb
    obtain ⟨_, hh⟩ := hh
    obtain ⟨_, hl⟩ := hl
    rcases in_partselect_iff.mp he with he | he
    · exact in_computeOver_of_in (fun _ _ hv => in_partselect_iff.mpr (.inl hv)) (hb he) id
    · -- The bounds go with every copy.
      have hbounds := he.imp hh hl
      exact in_computeOver hgap (fun _ _ => in_partselect_iff.mpr (.inr hbounds)) id b'
  | pointer id b i b' i' _ hb hi =>
    intro he
    obtain ⟨_, hb⟩ := hb
    obtain ⟨_, hi⟩ := hi
    -- The index is decided first, and each of its leaves gets a copy of the base.
    rcases in_pointer_iff.mp he with he | he
    · refine in_computeOver hgap (fun id j => ?_) id i'
      exact in_computeOver_of_in (fun _ _ hv => in_pointer_iff.mpr (.inl hv)) (hb he) id
    · refine in_computeOver_of_in (fun id j hj => ?_) (hi he) id
      exact in_computeOver hgap (fun _ _ => in_pointer_iff.mpr (.inr hj)) id b'
  | delay id e e' _ he =>
    obtain ⟨hok, he⟩ := he
    rw [in_delay_iff, in_delay_iff]
    exact Or.imp (hdelay id e e' hok) he

/-- What is marked in a tree stays, and can vanish from the hoisted tree only where that
    lacks an arm. -/
theorem in_or_gap_of_hoist (hbranch : ∀ t f, m.onBranch t f → m'.onBranch t f)
    (hdelay : ∀ id (e v : Expr), e.hoist = .ok v → m.onDelay id e → m'.onDelay id v) {e u : Expr}
    (h : e.hoist = .ok u) (he : m.In e)
    (hleaf : ∀ id v, m.onLeaf id v → m'.onLeaf id v := by exact fun _ _ h => h) :
    m'.In u ∨ gap.In u := by
  have hu : m'.orGap.In u :=
    in_hoist (seesGaps_orGap m') (fun t f ht => .inl (hbranch t f ht)) hdelay hleaf h he
  exact in_orGap_iff.mp hu

end

end Mark

namespace Expr

/-! ## Missing arms -/

/-- A conditional without one of its arms, or without both. -/
def lacksArm : Expr → Bool
  | .branch _ _ t f => t.isNone || f.isNone
  | _ => false

theorem in_gap_iff {e : Expr} : Mark.gap.In e ↔ ∃ d, Occurs d e ∧ d.lacksArm = true := by
  have hon : ∀ d, Mark.gap.On d ↔ d.lacksArm = true := by
    intro d
    cases d <;> simp [Mark.On, Mark.gap, lacksArm]
  simp only [Mark.In, hon]

theorem not_in_gap_iff {e : Expr} :
    ¬ Mark.gap.In e ↔ ∀ d, Occurs d e → d.lacksArm = false := by
  simp only [in_gap_iff, not_exists, not_and, Bool.not_eq_true]

theorem in_gap_of_hoist {e u : Expr} (h : e.hoist = .ok u) (hu : Mark.gap.In u) :
    Mark.gap.In e :=
  Mark.in_of_hoist (fun _ _ h => h) (fun _ _ _ _ h => h) h hu

/-- A conditional that lacks an arm occurs in the hoisted tree exactly if one occurs in
    the tree, be it in a condition, in what a missing arm drops or below a delay. -/
theorem lacksArm_hoist_iff {e u : Expr} (h : e.hoist = .ok u) :
    (∃ d, Occurs d u ∧ d.lacksArm = true) ↔ ∃ d, Occurs d e ∧ d.lacksArm = true := by
  rw [← in_gap_iff, ← in_gap_iff]
  refine ⟨in_gap_of_hoist h, fun he => ?_⟩
  exact or_self_iff.mp (Mark.in_or_gap_of_hoist (fun _ _ h => h) (fun _ _ _ _ h => h) h he)

/-- A sum over two conditionals: the one that lacks its false arm vanishes, but only since
    the other one has no arm at all. -/
theorem lacksArm_hoist_iff_vanishing :
    let c : Expr := .leaf none (.terminal "c")
    let a : Expr := .leaf (some ⟨2⟩) (.terminal "a")
    let empty : Expr := .branch (some ⟨4⟩) c none none
    let partly : Expr := .branch (some ⟨5⟩) c (some a) none
    let sum : Expr := .compound (some ⟨9⟩) (.op .plus) [empty, partly]
    sum.hoist = .ok empty ∧ Occurs partly sum ∧ partly.lacksArm = true ∧
      ∃ d, Occurs d empty ∧ d.lacksArm = true := by
  intro c a empty partly sum
  have hok : sum.hoist = .ok empty := by decide +kernel
  have hpartly : Occurs partly sum := ⟨[1], rfl⟩
  exact ⟨hok, hpartly, rfl, (lacksArm_hoist_iff hok).mpr ⟨partly, hpartly, rfl⟩⟩

/-! ## Delays -/

theorem in_delays_iff {p : Option NodeId → Expr → Prop} {e : Expr} :
    (Mark.delays p).In e ↔ ∃ id w, Occurs (delay id w) e ∧ p id w := by
  constructor
  · rintro ⟨d, hd, hm⟩
    cases d with
    | delay id w => exact ⟨id, w, hd, hm⟩
    | _ => cases hm
  · rintro ⟨id, w, hd, hp⟩
    exact ⟨delay id w, hd, hp⟩

theorem hoist_delay {id : Option NodeId} {w v : Expr} (h : w.hoist = .ok v) :
    (delay id w).hoist = .ok (delay id v) :=
  hoist_delay_eq_ok.mpr ⟨v, h, rfl⟩

/-- Delays move as a whole. Every delay in a hoisted tree is the hoisted form of a delay
    in the tree: it has the same id, and what it delays is what that delays, hoisted. If
    no conditional in the tree lacks an arm, the hoisted form of every delay in the tree is
    in the hoisted tree. -/
theorem delay_hoist {e u : Expr} (h : e.hoist = .ok u) :
    (∀ id v, Occurs (delay id v) u →
        ∃ w, Occurs (delay id w) e ∧ (delay id w).hoist = .ok (delay id v) ∧ w.hoist = .ok v) ∧
      ((∀ d, Occurs d e → d.lacksArm = false) → ∀ id w, Occurs (delay id w) e →
        ∃ v, (delay id w).hoist = .ok (delay id v) ∧ w.hoist = .ok v ∧ Occurs (delay id v) u) := by
  refine ⟨fun id v hv => ?_, fun hfull id w hw => ?_⟩
  · -- Mark this one delay in the hoisted tree, and in the tree all that come to it.
    have hu : (Mark.delays fun j x => j = id ∧ x = v).In u :=
      in_delays_iff.mpr ⟨id, v, hv, rfl, rfl⟩
    have he : (Mark.delays fun j w => j = id ∧ w.hoist = .ok v).In e := by
      refine Mark.in_of_hoist (fun _ _ => False.elim) ?_ h hu
      rintro j w x hx ⟨rfl, rfl⟩
      exact ⟨rfl, hx⟩
    obtain ⟨_, w, hw, rfl, hok⟩ := in_delays_iff.mp he
    exact ⟨w, hw, hoist_delay hok, hok⟩
  · -- Mark this one delay in the tree, and in the hoisted tree what it comes to.
    have he : (Mark.delays fun j x => j = id ∧ x = w).In e :=
      in_delays_iff.mpr ⟨id, w, hw, rfl, rfl⟩
    have hu : (Mark.delays fun j v => j = id ∧ w.hoist = .ok v).In u ∨ Mark.gap.In u := by
      refine Mark.in_or_gap_of_hoist (fun _ _ => False.elim) ?_ h he
      rintro j x v hx ⟨rfl, rfl⟩
      exact ⟨rfl, hx⟩
    rcases hu with hu | hgap
    · obtain ⟨_, v, hv, rfl, hok⟩ := in_delays_iff.mp hu
      exact ⟨v, hoist_delay hok, hok, hv⟩
    · -- A missing arm in the hoisted tree would be one of the tree, which has none.
      exact absurd (in_gap_of_hoist h hgap) (not_in_gap_iff.mpr hfull)

/-- An element of a delayed delay at an index that the same delay decides: each arm has its
    own copy, and below every delay the conditional has come out on top. -/
theorem delay_hoist_copied :
    let c : Expr := .leaf none (.terminal "c")
    let a : Expr := .leaf (some ⟨2⟩) (.terminal "a")
    let b : Expr := .leaf (some ⟨3⟩) (.terminal "b")
    let minus (id : NodeId) (x : Expr) : Expr := .compound (some id) (.op .uminus) [x]
    let choice (x y : Expr) : Expr := .branch (some ⟨4⟩) c (some x) (some y)
    let before : Expr := minus ⟨6⟩ (choice a b)
    let settled : Expr := choice (minus ⟨2⟩ a) (minus ⟨3⟩ b)
    let past (x : Expr) : Expr := .delay (some ⟨5⟩) x
    let element : Expr := .pointer (some ⟨9⟩) (.delay (some ⟨7⟩) (past before))
      (.branch (some ⟨8⟩) (past before) (some a) (some b))
    let copy (id : NodeId) (i : Expr) : Expr :=
      .pointer (some id) (.delay (some ⟨7⟩) (past settled)) i
    let hoisted : Expr := .branch (some ⟨8⟩) (past settled) (some (copy ⟨2⟩ a)) (some (copy ⟨3⟩ b))
    element.hoist = .ok hoisted ∧
      (∃ w, Occurs (past w) element ∧ (past w).hoist = .ok (past settled)) ∧
      ∃ v, (past before).hoist = .ok v ∧ Occurs (.delay (some ⟨7⟩) v) hoisted := by
  intro c a b minus choice before settled past element copy hoisted
  have hok : element.hoist = .ok hoisted := by decide +kernel
  have hfull : ∀ d, Occurs d element → d.lacksArm = false := by
    rw [← not_in_gap_iff]
    simp [element, past, before, minus, choice, a, b, c, Mark.in_pointer_iff, Mark.in_delay_iff,
      Mark.in_compound_iff, Mark.in_branch_iff, Mark.not_in_leaf, Mark.gap]
  obtain ⟨hfrom, hto⟩ := delay_hoist hok
  obtain ⟨w, hw, hpast, -⟩ := hfrom (some ⟨5⟩) settled ⟨[0], rfl⟩
  obtain ⟨v, -, hv, hcopy⟩ := hto hfull (some ⟨7⟩) (past before) ⟨[0], rfl⟩
  exact ⟨hok, ⟨w, hw, hpast⟩, v, hv, hcopy⟩

end Expr

end MuxHoist
