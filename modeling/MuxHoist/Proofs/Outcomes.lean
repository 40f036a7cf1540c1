/-
  MuxHoist.Proofs.Outcomes

  What a tree may compute, case by case, told from the tree as it stands.
  `Expr.outcomes` lists the expressions between which the conditionals of a tree
  choose, each with the conditions that choose it: the choices of a condition
  come before those of the arm it selects, the choices of one operand before
  those of the next, and those of an index before those of its base. Main
  statement: the guarded leaves of the hoisted tree are exactly these, in this
  order, with every id (`guardedLeaves_of_hoist`).

  An id is that of the node itself unless a conditional reaches the node; then
  it is that of the expression chosen for the part that is decided last.
-/
import MuxHoist.Decision.Guarded
import MuxHoist.Proofs.Exposed

namespace MuxHoist

/-! ## Choices -/

/-- Every way to take one element of each list, the first list varying slowest. -/
def choices {α : Type} : List (List α) → List (List α)
  | [] => [[]]
  | l :: ls => l.flatMap fun a => (choices ls).map (a :: ·)

namespace GuardedLeaf

/-- The leaf under further conditions, outside its own. -/
def after (gs : List Guard) (l : GuardedLeaf) : GuardedLeaf :=
  { l with guards := gs ++ l.guards }

theorem map_after_nil (ls : List GuardedLeaf) : ls.map (after []) = ls :=
  List.map_id ls

@[simp] theorem after_after (gs hs : List Guard) (l : GuardedLeaf) :
    (l.after hs).after gs = l.after (gs ++ hs) := by
  rw [after, after, after, List.append_assoc]

/-- The id of the expression chosen for the last part that is exposed; `id` if
    none is. -/
def lastExposedId (id : Option NodeId) (exposed : List Bool) (chosen : List GuardedLeaf) :
    Option NodeId :=
  match ((exposed.zip chosen).filter (·.1)).getLast? with
  | none => id
  | some (_, l) => l.expr.id

/-- An exposed part replaces the id, and the parts behind it may do so again. -/
theorem lastExposedId_cons (id : Option NodeId) (b : Bool) (bs : List Bool) (l : GuardedLeaf)
    (ls : List GuardedLeaf) :
    lastExposedId id (b :: bs) (l :: ls)
      = lastExposedId (if b then l.expr.id else id) bs ls := by
  cases b with
  | false => rfl
  | true =>
    unfold lastExposedId
    rw [List.zip_cons_cons, List.filter_cons_of_pos rfl, List.getLast?_cons]
    cases (List.filter (·.1) (bs.zip ls)).getLast? <;> rfl

end GuardedLeaf

namespace Expr

/-! ## Outcomes -/

/-- The hoisted form of a tree; what cannot be hoisted stands for itself. -/
def hoistedForm (e : Expr) : Expr :=
  match e.hoist with
  | .ok u => u
  | .error _ => e

theorem hoistedForm_of_hoist {e u : Expr} (h : e.hoist = .ok u) : e.hoistedForm = u := by
  rw [hoistedForm, h]

mutual

/-- The expressions that a tree may come to, each with the conditions on which it
    does so. Bounds and delayed parts are no choice: they are hoisted where they
    stand. -/
def outcomes : Expr → List GuardedLeaf
  | .leaf id v => [⟨[], .leaf id v⟩]
  | .branch _ c t f => c.outcomes.flatMap fun l =>
      (armOutcomes t).map (.after (l.guards ++ [⟨l.expr, true⟩]))
        ++ (armOutcomes f).map (.after (l.guards ++ [⟨l.expr, false⟩]))
  | .compound id k xs => (choices (operandOutcomes xs)).map fun ls =>
      ⟨ls.flatMap (·.guards), .compound (GuardedLeaf.lastExposedId id (xs.map isExposed) ls) k
        (ls.map (·.expr))⟩
  | .partselect id b m l => b.outcomes.map fun v =>
      ⟨v.guards, .partselect (if b.isExposed then v.expr.id else id) v.expr
        m.hoistedForm l.hoistedForm⟩
  | .pointer id b i => i.outcomes.flatMap fun j => b.outcomes.map fun v =>
      ⟨j.guards ++ v.guards, .pointer
        (if b.isExposed then v.expr.id else if i.isExposed then j.expr.id else id)
        v.expr j.expr⟩
  | .delay id e => [⟨[], .delay id e.hoistedForm⟩]

/-- The outcomes of an arm; a missing arm has none. -/
def armOutcomes : Option Expr → List GuardedLeaf
  | none => []
  | some e => e.outcomes

/-- The outcomes of each operand. -/
def operandOutcomes : List Expr → List (List GuardedLeaf)
  | [] => []
  | e :: es => e.outcomes :: operandOutcomes es

end

theorem operandOutcomes_eq_map (es : List Expr) : operandOutcomes es = es.map outcomes := by
  induction es with
  | nil => rfl
  | cons e es ih => rw [operandOutcomes, List.map_cons, ih]

/-! ## Leaves of decision trees -/

theorem guardedLeaves_branch (id : Option NodeId) (c : Expr) (t f : Option Expr) :
    (branch id c t f).guardedLeaves
      = (armLeaves t).map (.after [⟨c, true⟩]) ++ (armLeaves f).map (.after [⟨c, false⟩]) := rfl

theorem guardedLeaves_withId {e : Expr} (h : e.isBranch = true) (id : Option NodeId) :
    (e.withId id).guardedLeaves = e.guardedLeaves := by
  cases e with
  | branch => rfl
  | _ => cases h

/-- Grafting puts the leaves of each copy where the leaf was, under its guards. -/
theorem guardedLeaves_graft (g : Expr → Expr) (e : Expr) :
    (e.graft g).guardedLeaves
      = e.guardedLeaves.flatMap fun l => (g l.expr).guardedLeaves.map (.after l.guards) := by
  induction e with
  | branch id c t f _ iht ihf =>
    have harm : ∀ (p : Bool) (a : Option Expr),
        (∀ e ∈ a, (e.graft g).guardedLeaves
          = e.guardedLeaves.flatMap fun l => (g l.expr).guardedLeaves.map (.after l.guards)) →
        (armLeaves (a.map (graft g))).map (GuardedLeaf.after [⟨c, p⟩])
          = ((armLeaves a).map (GuardedLeaf.after [⟨c, p⟩])).flatMap fun l =>
              (g l.expr).guardedLeaves.map (GuardedLeaf.after l.guards) := by
      intro p a ih
      cases a with
      | none => rfl
      | some e =>
        show (e.graft g).guardedLeaves.map _ = (e.guardedLeaves.map _).flatMap _
        rw [ih e rfl, List.map_flatMap, List.flatMap_map]
        simp only [List.map_map, Function.comp_def, GuardedLeaf.after_after]
        rfl
    rw [graft_branch, guardedLeaves_branch, guardedLeaves_branch, List.flatMap_append,
      harm true t iht, harm false f ihf]
  | _ =>
    rw [graft_of_not_isBranch rfl]
    exact ((List.flatMap_singleton _ _).trans (GuardedLeaf.map_after_nil _)).symm

/-- The same of a computation whose copies take ids. -/
theorem guardedLeaves_computeOver (e : Expr) (id : Option NodeId)
    (g : Option NodeId → Expr → Expr) :
    (e.computeOver id g).guardedLeaves
      = e.guardedLeaves.flatMap fun l =>
          (g (if e.isBranch then l.expr.id else id) l.expr).guardedLeaves.map
            (.after l.guards) := by
  cases he : e.isBranch with
  | true =>
    rw [computeOver, if_pos he, guardedLeaves_graft]
    rfl
  | false =>
    rw [computeOver_of_not_isBranch he, guardedLeaves_of_not_isBranch he,
      List.flatMap_singleton]
    exact (GuardedLeaf.map_after_nil _).symm

/-- A node that is not conditional keeps the guards of the leaf it stands for. -/
theorem flatMap_guardedLeaves (g : GuardedLeaf → Expr) (h : ∀ l, (g l).isBranch = false)
    (ls : List GuardedLeaf) :
    (ls.flatMap fun l => (g l).guardedLeaves.map (GuardedLeaf.after l.guards))
      = ls.map fun l => (⟨l.guards, g l⟩ : GuardedLeaf) := by
  rw [List.map_eq_flatMap]
  congr 1
  funext l
  rw [guardedLeaves_of_not_isBranch (h l), List.map_singleton]
  simp only [GuardedLeaf.after, List.append_nil]

/-- Operands joined in one pass: the leaves of the operands are chosen in every
    way, and each choice makes one flat node. -/
theorem guardedLeaves_scan (k : Combiner) (id : Option NodeId) (done rest : List Expr) :
    (Decision.scan k id done rest).guardedLeaves
      = (choices (rest.map guardedLeaves)).map fun ls =>
          ⟨ls.flatMap (·.guards), .compound (GuardedLeaf.lastExposedId id (rest.map isBranch) ls) k
            (done ++ ls.map (·.expr))⟩ := by
  induction rest generalizing id done with
  | nil =>
    simp only [List.map_nil, choices, List.map_singleton, List.append_nil]
    rfl
  | cons x rest ih =>
    rw [Decision.scan, guardedLeaves_computeOver, List.map_cons, List.map_cons, choices,
      List.map_flatMap]
    -- Each leaf `l` of `x` starts a pass over the rest, with its guards in front of
    -- those still to come and its id in hand if `x` is conditional.
    congr 1
    funext l
    rw [ih, List.map_map, List.map_map]
    congr 1
    funext ls
    simp only [Function.comp_apply, GuardedLeaf.after, GuardedLeaf.lastExposedId_cons,
      List.append_assoc, List.flatMap_cons, List.map_cons, List.singleton_append]

/-! ## Hoisting lists the outcomes -/

theorem armLeaves_of_hoist {t t' : Option Expr}
    (h : Option.Rel (fun e u => ∃ _ : e.hoist = .ok u, u.guardedLeaves = e.outcomes) t t') :
    armLeaves t' = armOutcomes t := by
  cases h with
  | none => rfl
  | some h => exact h.2

/-- The guarded leaves of a hoisted tree are the outcomes of the tree, in their
    order, each with its conditions and ids. -/
theorem guardedLeaves_of_hoist {e u : Expr} (h : e.hoist = .ok u) :
    u.guardedLeaves = e.outcomes := by
  induction h using hoist_induct with
  | leaf => rfl
  | branch id c t f c' t' f' _ hc ht hf =>
    obtain ⟨_, hc⟩ := hc
    rw [guardedLeaves_withId (isBranch_select c' t' f'), select, guardedLeaves_graft, hc,
      outcomes]
    -- At each leaf of the condition stand both arms, under the guards of that leaf.
    congr 1
    funext l
    rw [guardedLeaves_branch, armLeaves_of_hoist ht, armLeaves_of_hoist hf, List.map_append,
      List.map_map, List.map_map]
    simp only [Function.comp_def, GuardedLeaf.after_after]
  | compound id k xs ys _ hxs =>
    have hleaves : ys.map guardedLeaves = xs.map outcomes :=
      map_eq_map_of_forall₂ (hxs.imp fun _ _ ⟨_, h⟩ => h)
    have hbranch : ys.map isBranch = xs.map isExposed :=
      map_eq_map_of_forall₂ (hxs.imp fun _ _ ⟨h, _⟩ => isBranch_of_hoist h)
    rw [Decision.combine_eq_scan, guardedLeaves_scan, hleaves, hbranch, outcomes,
      operandOutcomes_eq_map]
    rfl
  | partselect id b m l b' m' l' _ _ _ hb hm hl =>
    obtain ⟨hb, hbl⟩ := hb
    obtain ⟨hm, _⟩ := hm
    obtain ⟨hl, _⟩ := hl
    rw [guardedLeaves_computeOver, hbl, isBranch_of_hoist hb, outcomes,
      hoistedForm_of_hoist hm, hoistedForm_of_hoist hl]
    exact flatMap_guardedLeaves
      (fun v => .partselect (if b.isExposed then v.expr.id else id) v.expr m' l')
      (fun _ => rfl) b.outcomes
  | pointer id b i b' i' _ hb hi =>
    obtain ⟨hb, hbl⟩ := hb
    obtain ⟨hi, hil⟩ := hi
    rw [guardedLeaves_computeOver, hil, isBranch_of_hoist hi, outcomes]
    -- For each index chosen the base is decided, and its id wins over that of the index.
    congr 1
    funext j
    have hnode := flatMap_guardedLeaves (fun v => .pointer (if b.isExposed then v.expr.id
      else if i.isExposed then j.expr.id else id) v.expr j.expr) (fun _ => rfl) b.outcomes
    rw [guardedLeaves_computeOver, hbl, isBranch_of_hoist hb, hnode, List.map_map]
    rfl
  | delay id e e' _ he =>
    obtain ⟨he, _⟩ := he
    rw [outcomes, hoistedForm_of_hoist he]
    rfl

/-- A sum of a signal, a conditional without a false arm and one with both: two
    outcomes, each with the id of what the last operand comes to. -/
theorem guardedLeaves_of_hoist_sum :
    let c : Expr := .leaf none (.terminal "c")
    let d : Expr := .leaf none (.terminal "d")
    let x : Expr := .leaf (some ⟨5⟩) (.terminal "x")
    let a : Expr := .leaf (some ⟨1⟩) (.terminal "a")
    let b : Expr := .leaf (some ⟨6⟩) (.terminal "b")
    let e : Expr := .leaf (some ⟨7⟩) (.terminal "e")
    let plus (id : NodeId) (xs : List Expr) : Expr := .compound (some id) (.op .plus) xs
    let sum : Expr := plus ⟨9⟩
      [x, .branch (some ⟨4⟩) c (some a) none, .branch (some ⟨8⟩) d (some b) (some e)]
    let hoisted : Expr := .branch (some ⟨4⟩) c
      (some (.branch (some ⟨8⟩) d (some (plus ⟨6⟩ [x, a, b])) (some (plus ⟨7⟩ [x, a, e])))) none
    sum.hoist = .ok hoisted ∧ hoisted.guardedLeaves = sum.outcomes ∧
      sum.outcomes = [⟨[⟨c, true⟩, ⟨d, true⟩], plus ⟨6⟩ [x, a, b]⟩,
        ⟨[⟨c, true⟩, ⟨d, false⟩], plus ⟨7⟩ [x, a, e]⟩] :=
  ⟨by decide +kernel, guardedLeaves_of_hoist (by decide +kernel), rfl⟩

end Expr

end MuxHoist
