/-
  MuxHoist.Proofs.Extension

  Building over decision trees one step at a time, compared with putting plain
  nodes together. An extension is one step with its arguments; what it makes is
  `Extension.result`, and `Extension.plain?` is the node that says the same
  without hoisting anything. Main statements: over hoisted trees a step gives
  what hoisting the plain node gives, so that a tree built in steps stays hoisted
  (`hoist_plain_extension`); over any trees, hoisted or not, it computes what the
  plain node computes (`resolve_extension`).
-/
import MuxHoist.Decision.Extend
import MuxHoist.Proofs.NormalForm
import MuxHoist.Proofs.Resolve

namespace MuxHoist

/-! ## Steps -/

/-- A step of building, with what it builds over. The binary operator is not among
    the steps: it gives all its copies one id, which no hoisting does. -/
inductive Extension where
  | select (cond onTrue onFalse : Option Expr)
  | unary (operator : Operator) (base : Option Expr)
  | operator (operator : Operator) (id : Option NodeId) (operands : List Expr)
  | concat (id : Option NodeId) (operands : List Expr)
  | slice (base : Option Expr) (msb lsb : Expr)
  | element (base : Option Expr) (index : Expr)
  deriving Repr, Inhabited

namespace Extension

/-- What the step makes; nothing if what it builds over is missing. -/
def result : Extension → Option Expr
  | .select c t f => Decision.select c t f
  | .unary o b => Decision.unary o b
  | .operator o id xs => some (Decision.operator o id xs)
  | .concat id xs => some (Decision.concat id xs)
  | .slice b m l => Decision.slice b m l
  | .element b i => Decision.element b i

/-- The plain node over the same arguments. Where the step is given no id, the node
    carries that of its base. -/
def plain? : Extension → Option Expr
  | .select c t f => c.map fun c => .branch c.id c t f
  | .unary o b => b.map fun b => .compound b.id (.op o) [b]
  | .operator o id xs => some (.compound id (.op o) xs)
  | .concat id xs => some (.compound id .concat xs)
  | .slice b m l => b.map fun b => .partselect b.id b m l
  | .element b i => b.map fun b => .pointer b.id b i

/-- The trees that the step is given. -/
def parts : Extension → List Expr
  | .select c t f => c.toList ++ t.toList ++ f.toList
  | .unary _ b => b.toList
  | .operator _ _ xs => xs
  | .concat _ xs => xs
  | .slice b m l => m :: l :: b.toList
  | .element b i => i :: b.toList

/-- Of these, the bounds and the index: they are taken over into each leaf as they
    are. -/
def bounds : Extension → List Expr
  | .slice _ m l => [m, l]
  | .element _ i => [i]
  | _ => []

end Extension

/-! ## Steps over hoisted trees -/

namespace Expr

/-- Selecting by a decision tree keeps the id of its root. -/
theorem id_select (c : Expr) (t f : Option Expr) : (c.select t f).id = c.id := by
  cases c <;> rfl

/-- Over a single operand, joining is applying a unary operator. -/
theorem combine_singleton (o : Operator) (e : Expr) :
    Decision.combine (.op o) e.id [e] = e.unary o := by
  rw [Decision.combine_eq_scan, Decision.scan, computeOver_id]
  rfl

theorem hoist?_some_eq_ok {e u : Expr} (h : e.hoist = .ok u) :
    hoist? (some e) = .ok (some u) :=
  hoistArm_eq_ok.mpr (.some h)

section

variable {b c : Expr}

theorem hoist_branch_of_isHoisted {t f : Option Expr} (hc : c.isHoisted)
    (ht : ∀ e ∈ t, e.isHoisted) (hf : ∀ e ∈ f, e.isHoisted) :
    (branch c.id c t f).hoist = .ok (c.select t f) := by
  refine hoist_branch_eq_ok.mpr ⟨t, f, c, hoistArm_of_isHoisted ht, hoistArm_of_isHoisted hf,
    hoist_of_isHoisted hc, ?_⟩
  rw [← id_select c t f, withId_id]

theorem hoist_compound_of_isHoisted {k : Combiner} {xs : List Expr} (id : Option NodeId)
    (hxs : ∀ x ∈ xs, x.isHoisted) :
    (compound id k xs).hoist = .ok (Decision.combine k id xs) :=
  hoist_compound_eq_ok.mpr ⟨xs, hoistAll_of_isHoisted hxs, rfl⟩

theorem hoist_unary_of_isHoisted (o : Operator) (hb : b.isHoisted) :
    (compound b.id (.op o) [b]).hoist = .ok (b.unary o) := by
  have hbs : ∀ x ∈ [b], x.isHoisted := List.forall_mem_singleton.mpr hb
  rw [hoist_compound_of_isHoisted b.id hbs, combine_singleton]

theorem hoist_partselect_of_isHoisted {m l : Expr} (hb : b.isHoisted) (hm : m.isHoisted)
    (hl : l.isHoisted) (hm' : m.isBranch = false) (hl' : l.isBranch = false) :
    (partselect b.id b m l).hoist = .ok (b.slice m l) := by
  refine hoist_partselect_eq_ok.mpr ⟨m, l, b, hoist_of_isHoisted hm, hoist_of_isHoisted hl,
    hoist_of_isHoisted hb, ⟨hm', hl'⟩, ?_⟩
  rw [computeOver_id]
  rfl

theorem hoist_pointer_of_isHoisted {i : Expr} (hb : b.isHoisted) (hi : i.isHoisted)
    (hi' : i.isBranch = false) : (pointer b.id b i).hoist = .ok (b.element i) := by
  refine hoist_pointer_eq_ok.mpr ⟨i, b, hoist_of_isHoisted hi, hoist_of_isHoisted hb, ?_⟩
  -- The index is no decision tree, so only the base distributes.
  rw [computeOver_of_not_isBranch hi', computeOver_id]
  rfl

end

end Expr

namespace Extension

/-- Step: over hoisted trees, and with bounds that are not conditional, building
    gives what hoisting the plain node gives. -/
theorem hoist?_plain? {x : Extension} (hparts : ∀ e ∈ x.parts, e.isHoisted)
    (hbounds : ∀ e ∈ x.bounds, e.isBranch = false) : Expr.hoist? x.plain? = .ok x.result := by
  cases x with
  | select c t f =>
    cases c with
    | none => rfl
    | some c =>
      simp only [parts, List.mem_append, Option.mem_toList, or_imp, forall_and] at hparts
      obtain ⟨⟨hc, ht⟩, hf⟩ := hparts
      exact Expr.hoist?_some_eq_ok (Expr.hoist_branch_of_isHoisted (hc c rfl) ht hf)
  | unary o b =>
    cases b with
    | none => rfl
    | some b =>
      have hb : b.isHoisted := hparts b List.mem_cons_self
      exact Expr.hoist?_some_eq_ok (Expr.hoist_unary_of_isHoisted o hb)
  | operator o id xs =>
    exact Expr.hoist?_some_eq_ok (Expr.hoist_compound_of_isHoisted id hparts)
  | concat id xs =>
    exact Expr.hoist?_some_eq_ok (Expr.hoist_compound_of_isHoisted id hparts)
  | slice b m l =>
    cases b with
    | none => rfl
    | some b =>
      simp only [parts, bounds, Option.toList_some, List.forall_mem_cons] at hparts hbounds
      obtain ⟨hm, hl, hb, -⟩ := hparts
      obtain ⟨hm', hl', -⟩ := hbounds
      exact Expr.hoist?_some_eq_ok (Expr.hoist_partselect_of_isHoisted hb hm hl hm' hl')
  | element b i =>
    cases b with
    | none => rfl
    | some b =>
      simp only [parts, bounds, Option.toList_some, List.forall_mem_cons] at hparts hbounds
      obtain ⟨hi, hb, -⟩ := hparts
      exact Expr.hoist?_some_eq_ok (Expr.hoist_pointer_of_isHoisted hb hi hbounds.1)

/-- The result of a step over hoisted trees is hoisted. -/
theorem isHoisted_result {x : Extension} (hparts : ∀ e ∈ x.parts, e.isHoisted)
    (hbounds : ∀ e ∈ x.bounds, e.isBranch = false) {u : Expr} (hu : u ∈ x.result) :
    u.isHoisted := by
  have hstep := Expr.hoistArm_eq_ok.mp (hoist?_plain? hparts hbounds)
  obtain ⟨_, _, h⟩ := exists_rel_of_mem hstep hu
  exact Expr.isHoisted_of_hoist h

end Extension

/-! ## Sequences of steps -/

/-- A tree that some steps make of given trees, each step of trees that are given or
    made before. -/
inductive Built (given : Expr → Prop) : Expr → Prop
  | given {e : Expr} : given e → Built given e
  | step {x : Extension} {u : Expr} : (∀ e ∈ x.parts, Built given e) →
      (∀ e ∈ x.bounds, e.isBranch = false) → u ∈ x.result → Built given u

/-- Run: what any number of steps makes of hoisted trees is hoisted. -/
theorem Built.isHoisted {given : Expr → Prop} (hgiven : ∀ e, given e → e.isHoisted) {u : Expr}
    (h : Built given u) : u.isHoisted := by
  induction h with
  | given h => exact hgiven _ h
  | step _ hbounds hu ih => exact Extension.isHoisted_result ih hbounds hu

/-- Over hoisted trees every step gives what hoisting the plain node gives, ids and
    missing arms included, and that is hoisted again; so is, then, whatever any
    sequence of steps makes of hoisted trees. -/
theorem hoist_plain_extension :
    (∀ x : Extension, (∀ e ∈ x.parts, e.isHoisted) → (∀ e ∈ x.bounds, e.isBranch = false) →
        Expr.hoist? x.plain? = .ok x.result ∧ ∀ u ∈ x.result, u.isHoisted) ∧
      ∀ given : Expr → Prop, (∀ e, given e → e.isHoisted) → ∀ u, Built given u → u.isHoisted :=
  ⟨fun _ hparts hbounds => ⟨Extension.hoist?_plain? hparts hbounds,
      fun _ hu => Extension.isHoisted_result hparts hbounds hu⟩,
    fun _ hgiven _ hu => hu.isHoisted hgiven⟩

/-- A range of a decision tree with a missing arm, and that range chosen or not by
    another condition. The first step is the hoisted range; the second builds on it. -/
theorem hoist_plain_extension_range :
    let c : Expr := .leaf (some ⟨1⟩) (.terminal "c")
    let a : Expr := .leaf (some ⟨2⟩) (.terminal "a")
    let n : Expr := .leaf none (.constant "0")
    let d : Expr := .branch (some ⟨4⟩) c (some a) none
    let range : Expr := .branch (some ⟨4⟩) c (some (.partselect (some ⟨2⟩) a n n)) none
    let chosen : Expr := .branch (some ⟨4⟩) c (some (.branch (some ⟨2⟩) a (some range) none)) none
    let slice : Extension := .slice (some d) n n
    let select : Extension := .select (some d) (some range) none
    slice.plain? = some (.partselect (some ⟨4⟩) d n n) ∧
      Expr.hoist? slice.plain? = .ok (some range) ∧
      select.result = some chosen ∧ chosen.isHoisted := by
  intro c a n d range chosen slice select
  have hrange : Built (fun e => e = d ∨ e = n) range := by
    refine .step (x := slice) ?_ (by decide) rfl
    simp only [slice, Extension.parts, Option.toList_some, List.forall_mem_cons]
    exact ⟨.given (.inr rfl), .given (.inr rfl), .given (.inl rfl), by simp⟩
  have hchosen : Built (fun e => e = d ∨ e = n) chosen := by
    refine .step (x := select) ?_ (by decide) rfl
    simp only [select, Extension.parts, Option.toList_some, Option.toList_none, List.append_nil,
      List.singleton_append, List.forall_mem_cons]
    exact ⟨.given (.inl rfl), hrange, by simp⟩
  refine ⟨rfl, (hoist_plain_extension.1 slice (by decide) (by decide)).1, rfl,
    hoist_plain_extension.2 _ ?_ chosen hchosen⟩
  rintro e (rfl | rfl)
  · decide
  · decide

/-! ## Values -/

namespace Expr

section

variable (s : Assignment) (k : Nat)

/-- An operator at each leaf computes the operator of the decision tree's value. -/
theorem resolve_unary (o : Operator) (id : Option NodeId) (e : Expr) :
    (e.unary o).resolve s k = (compound id (.op o) [e]).resolve s k := by
  have hnode : ∀ id l, (compound id (.op o) [l]).resolve s k
      = (l.resolve s k).bind fun v => some (.compound (.op o) [v]) := by
    intro id l
    rw [resolve, resolveAll, resolveAll]
    cases l.resolve s k <;> rfl
  rw [unary, resolve_graft s k fun l => hnode l.id l, hnode]

/-- An operator at each pair of leaves computes the operator of both values; it is
    missing if either value is. -/
theorem resolve_binary (o : Operator) (id : Option NodeId) (left right : Expr) :
    (left.binary o id right).resolve s k = (compound id (.op o) [left, right]).resolve s k := by
  have hnode : ∀ l r, (compound id (.op o) [l, r]).resolve s k
      = (l.resolve s k).bind fun v => (r.resolve s k).bind fun w =>
          some (.compound (.op o) [v, w]) := by
    intro l r
    rw [resolve, resolveAll, resolveAll, resolveAll]
    cases l.resolve s k <;> cases r.resolve s k <;> rfl
  -- The left leaf is fixed while the right tree is followed; the values may be read
  -- in either order.
  have hright : ∀ l, (right.graft fun r => compound id (.op o) [l, r]).resolve s k
      = (l.resolve s k).bind fun v => (right.resolve s k).bind fun w =>
          some (.compound (.op o) [v, w]) := by
    intro l
    rw [Option.bind_comm]
    refine resolve_graft s k (fun r => ?_) right
    rw [hnode, Option.bind_comm]
  rw [binary, resolve_graft s k hright, hnode]

/-- A range at each leaf computes the range of the decision tree's value. -/
theorem resolve_slice (id : Option NodeId) (b m l : Expr) :
    (b.slice m l).resolve s k = (partselect id b m l).resolve s k :=
  resolve_graft s k (fun _ => rfl) b

/-- An element at each leaf computes the element of the decision tree's value. -/
theorem resolve_element (id : Option NodeId) (b i : Expr) :
    (b.element i).resolve s k = (pointer id b i).resolve s k :=
  resolve_graft s k (fun _ => rfl) b

end

end Expr

/-- Whatever trees a step is given, hoisted or not, it computes what the plain node over
    them computes, and is missing when that is; so does the binary operator, for which
    a missing operand makes the result missing. -/
theorem resolve_extension (s : Assignment) (k : Nat) :
    (∀ x : Extension, Expr.resolveArm s k x.result = Expr.resolveArm s k x.plain?) ∧
      ∀ (o : Operator) (id : Option NodeId) (left right : Option Expr),
        Expr.resolveArm s k (Decision.binary o id left right)
          = left.bind fun l => right.bind fun r => (Expr.compound id (.op o) [l, r]).resolve s k := by
  refine ⟨fun x => ?_, fun o id left right => ?_⟩
  · cases x with
    | select c t f =>
      cases c with
      | none => rfl
      | some c => exact Expr.resolve_select s k c t f
    | unary o b =>
      cases b with
      | none => rfl
      | some b => exact Expr.resolve_unary s k o b.id b
    | operator o id xs => exact Expr.resolve_combine s k (.op o) id xs
    | concat id xs => exact Expr.resolve_combine s k .concat id xs
    | slice b m l =>
      cases b with
      | none => rfl
      | some b => exact Expr.resolve_slice s k b.id b m l
    | element b i =>
      cases b with
      | none => rfl
      | some b => exact Expr.resolve_element s k b.id b i
  · cases left with
    | none => rfl
    | some l =>
      cases right with
      | none => rfl
      | some r => exact Expr.resolve_binary s k o id l r

end MuxHoist
