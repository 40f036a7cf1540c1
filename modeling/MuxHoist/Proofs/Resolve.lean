/-
  MuxHoist.Proofs.Resolve

  What a tree computes once every condition is decided. An assignment decides a
  condition by its value and by the clock it belongs to, counted in the delays
  above it; `Expr.resolve` follows the arms so decided and keeps neither ids nor
  conditionals. A condition, an operand or a selected arm that is missing makes
  the whole missing. Main statement: hoisting changes nothing of this, under any
  assignment and at any depth (`resolve_hoist`).
-/
import MuxHoist.Proofs.Derivation
import MuxHoist.Proofs.Scan

namespace MuxHoist

/-! ## Values -/

/-- An expression without conditionals and without ids. -/
inductive Value where
  | leaf (value : Leaf)
  | compound (combiner : Combiner) (operands : List Value)
  | partselect (base msb lsb : Value)
  | pointer (base index : Value)
  | delay (inner : Value)
  deriving Repr, Inhabited

/-- Decides a condition by the number of delays above it and by its value. -/
abbrev Assignment := Nat → Value → Bool

namespace Expr

mutual

/-- The value of a tree below `k` delays. A part below one more delay belongs to
    an earlier clock, where the same condition may be decided otherwise. -/
def resolve (s : Assignment) (k : Nat) : Expr → Option Value
  | .leaf _ v => some (.leaf v)
  | .branch _ c t f => do
    let v ← c.resolve s k
    if s k v then resolveArm s k t else resolveArm s k f
  | .compound _ o xs => do
    let vs ← resolveAll s k xs
    return .compound o vs
  | .partselect _ b m l => do
    let b ← b.resolve s k
    let m ← m.resolve s k
    let l ← l.resolve s k
    return .partselect b m l
  | .pointer _ b i => do
    let b ← b.resolve s k
    let i ← i.resolve s k
    return .pointer b i
  | .delay _ e => do
    let v ← e.resolve s (k + 1)
    return .delay v

/-- The value of an arm; that of a missing arm is missing. -/
def resolveArm (s : Assignment) (k : Nat) : Option Expr → Option Value
  | none => none
  | some e => e.resolve s k

/-- The values of all operands, none of which may be missing. -/
def resolveAll (s : Assignment) (k : Nat) : List Expr → Option (List Value)
  | [] => some []
  | e :: es => do
    let v ← e.resolve s k
    let vs ← resolveAll s k es
    return v :: vs

end

section

variable (s : Assignment) (k : Nat)

/-- An id is no part of the value. -/
@[simp] theorem resolve_withId (id : Option NodeId) (e : Expr) :
    (e.withId id).resolve s k = e.resolve s k := by
  cases e <;> simp only [withId, resolve]

/-- An operand list is missing if one operand is, wherever that stands. -/
theorem resolveAll_append_cons (done : List Expr) (x : Expr) (rest : List Expr) :
    resolveAll s k (done ++ x :: rest)
      = (x.resolve s k).bind fun v => (resolveAll s k done).bind fun vs =>
          (resolveAll s k rest).map fun ws => vs ++ v :: ws := by
  induction done with
  | nil =>
    rw [List.nil_append, resolveAll, resolveAll]
    cases x.resolve s k <;> cases resolveAll s k rest <;> rfl
  | cons d done ih =>
    rw [List.cons_append, resolveAll, resolveAll, ih]
    cases d.resolve s k <;> cases x.resolve s k <;> cases resolveAll s k done <;>
      cases resolveAll s k rest <;> rfl

/-! ## Values of decision trees -/

/-- What computes `w` of its leaf's value at every leaf computes `w` of the
    decision tree's value. -/
theorem resolve_graft {g : Expr → Expr} {w : Value → Option Value}
    (h : ∀ l, (g l).resolve s k = (l.resolve s k).bind w) (e : Expr) :
    (e.graft g).resolve s k = (e.resolve s k).bind w := by
  induction e with
  | branch id c t f _ iht ihf =>
    have harm : ∀ a : Option Expr,
        (∀ e ∈ a, (e.graft g).resolve s k = (e.resolve s k).bind w) →
        resolveArm s k (a.map (graft g)) = (resolveArm s k a).bind w := by
      intro a ih
      cases a with
      | none => rfl
      | some e => exact ih e rfl
    rw [graft_branch, resolve, resolve, harm t iht, harm f ihf]
    -- The condition stays, so both sides select the same arm or are missing with it.
    cases c.resolve s k with
    | none => rfl
    | some v => cases hv : s k v <;> simp [hv]
  | _ => rw [graft_of_not_isBranch rfl, h]

/-- The same of a computation whose copies take ids. -/
theorem resolve_computeOver {g : Option NodeId → Expr → Expr} {w : Value → Option Value}
    (h : ∀ id l, (g id l).resolve s k = (l.resolve s k).bind w) (id : Option NodeId)
    (e : Expr) : (e.computeOver id g).resolve s k = (e.resolve s k).bind w := by
  unfold computeOver
  split
  · exact resolve_graft s k (fun l => h l.id l) e
  · exact h id e

/-- Selecting by a decision tree computes what selecting by its value does. -/
theorem resolve_select (c : Expr) (t f : Option Expr) :
    (c.select t f).resolve s k
      = (c.resolve s k).bind fun v => if s k v then resolveArm s k t else resolveArm s k f :=
  resolve_graft s k (fun _ => rfl) c

/-- A range of a decision tree computes the range of its value. -/
theorem resolve_computeOver_partselect (id : Option NodeId) (b m l : Expr) :
    (b.computeOver id fun id b => .partselect id b m l).resolve s k
      = (partselect id b m l).resolve s k :=
  resolve_computeOver s k (fun _ _ => rfl) id b

/-- An element of a decision tree at a decision tree computes the element of
    the one value at the other. -/
theorem resolve_computeOver_pointer (id : Option NodeId) (b i : Expr) :
    (i.computeOver id fun id i => b.computeOver id fun id b => .pointer id b i).resolve s k
      = (pointer id b i).resolve s k := by
  -- The tree decides the index first and the value reads the base first; neither
  -- depends on the other, and one that is missing is missing in both orders.
  have hbase : ∀ id l, (b.computeOver id fun id b => .pointer id b l).resolve s k
      = (l.resolve s k).bind fun j => (b.resolve s k).bind fun v => some (.pointer v j) := by
    intro id l
    rw [Option.bind_comm]
    exact resolve_computeOver s k (fun _ _ => rfl) id b
  rw [resolve_computeOver s k hbase, Option.bind_comm]
  rfl

/-- Operands joined in one pass compute the flat node over all their values. -/
theorem resolve_scan (o : Combiner) (id : Option NodeId) (done rest : List Expr) :
    (Decision.scan o id done rest).resolve s k
      = (resolveAll s k (done ++ rest)).map (Value.compound o) := by
  induction rest generalizing id done with
  | nil =>
    rw [Decision.scan, resolve, List.append_nil]
    cases resolveAll s k done <;> rfl
  | cons x rest ih =>
    -- At a leaf `l` of `x` the pass goes on with `l` among the operands that are done.
    have hcopy : ∀ id l, (Decision.scan o id (done ++ [l]) rest).resolve s k
        = (l.resolve s k).bind fun v => (resolveAll s k done).bind fun vs =>
            (resolveAll s k rest).map fun ws => .compound o (vs ++ v :: ws) := by
      intro id l
      rw [ih, List.append_assoc, List.singleton_append, resolveAll_append_cons]
      simp only [Option.map_bind, Option.map_map, Function.comp_def]
    rw [Decision.scan, resolve_computeOver s k hcopy, resolveAll_append_cons]
    simp only [Option.map_bind, Option.map_map, Function.comp_def]

/-- Operands joined below their conditionals compute the flat node over their values. -/
theorem resolve_combine (o : Combiner) (id : Option NodeId) (xs : List Expr) :
    (Decision.combine o id xs).resolve s k = (compound id o xs).resolve s k := by
  rw [Decision.combine_eq_scan, resolve_scan, List.nil_append, resolve]
  cases resolveAll s k xs <;> rfl

end

/-! ## Hoisting keeps values -/

/-- Arms of equal values are missing together and have equal values. -/
theorem resolveArm_congr {s : Assignment} {k : Nat} {t t' : Option Expr}
    (h : Option.Rel (fun e u => u.resolve s k = e.resolve s k) t t') :
    resolveArm s k t' = resolveArm s k t := by
  cases h with
  | none => rfl
  | some h => exact h

theorem resolveAll_congr {s : Assignment} {k : Nat} {xs ys : List Expr}
    (h : List.Forall₂ (fun e u => u.resolve s k = e.resolve s k) xs ys) :
    resolveAll s k ys = resolveAll s k xs := by
  induction h with
  | nil => rfl
  | cons hx _ ih => rw [resolveAll, resolveAll, hx, ih]

/-- Two trees have the same value under every assignment and below any number of
    delays, or are missing together. -/
def SameValue (e u : Expr) : Prop := ∀ s k, u.resolve s k = e.resolve s k

/-- Hoisting builds every node of parts that have the values they had. -/
theorem sameValue_of_hoist {e u : Expr} (h : e.hoist = .ok u) : SameValue e u := by
  intro s k
  induction h using hoist_induct generalizing k with
  | leaf id v => rfl
  | branch id c t f c' t' f' _ hc ht hf =>
    obtain ⟨_, hc⟩ := hc
    have ht : resolveArm s k t' = resolveArm s k t :=
      resolveArm_congr (rel_imp (fun _ _ ⟨_, h⟩ => h k) ht)
    have hf : resolveArm s k f' = resolveArm s k f :=
      resolveArm_congr (rel_imp (fun _ _ ⟨_, h⟩ => h k) hf)
    rw [resolve_withId, resolve_select, hc k, ht, hf]
    rfl
  | compound id o xs ys _ hxs =>
    have hxs : resolveAll s k ys = resolveAll s k xs :=
      resolveAll_congr (hxs.imp fun _ _ ⟨_, h⟩ => h k)
    rw [resolve_combine, resolve, hxs, resolve]
  | partselect id b m l b' m' l' _ _ _ hb hm hl =>
    obtain ⟨_, hb⟩ := hb
    obtain ⟨_, hm⟩ := hm
    obtain ⟨_, hl⟩ := hl
    rw [resolve_computeOver_partselect, resolve, hb k, hm k, hl k, resolve]
  | pointer id b i b' i' _ hb hi =>
    obtain ⟨_, hb⟩ := hb
    obtain ⟨_, hi⟩ := hi
    rw [resolve_computeOver_pointer, resolve, hb k, hi k, resolve]
  | delay id e e' _ he =>
    obtain ⟨_, he⟩ := he
    -- No conditional has crossed the delay, so each is still decided one clock earlier.
    rw [resolve, resolve, he (k + 1)]

/-- A hoisted tree computes what the tree computes, or is missing with it, under
    any assignment and below any number of delays. -/
theorem resolve_hoist {e u : Expr} (h : e.hoist = .ok u) (s : Assignment) (k : Nat) :
    u.resolve s k = e.resolve s k :=
  sameValue_of_hoist h s k

/-- The same condition is true now and was false a clock ago: a sum over it takes
    its true arm, and the false arm of the delayed conditional. -/
theorem resolve_hoist_delayed :
    let c : Expr := .leaf none (.terminal "c")
    let now : Expr := .branch (some ⟨4⟩) c (some (.leaf (some ⟨1⟩) (.terminal "a"))) none
    let past : Expr := .delay none
      (.branch none c (some (.leaf none .undefined)) (some (.leaf none (.terminal "b"))))
    let sum : Expr := .compound (some ⟨9⟩) (.op .plus) [now, past]
    let hoisted : Expr := .branch (some ⟨4⟩) c
      (some (.compound (some ⟨1⟩) (.op .plus) [.leaf (some ⟨1⟩) (.terminal "a"), past])) none
    let s : Assignment := fun k _ => k == 0
    sum.hoist = .ok hoisted ∧ hoisted.resolve s 0 = sum.resolve s 0 ∧
      sum.resolve s 0 = some (.compound (.op .plus)
        [.leaf (.terminal "a"), .delay (.leaf (.terminal "b"))]) :=
  ⟨by decide +kernel, resolve_hoist (by decide +kernel) _ 0, rfl⟩

end Expr

end MuxHoist
