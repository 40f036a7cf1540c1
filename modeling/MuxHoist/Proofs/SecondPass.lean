/-
  MuxHoist.Proofs.SecondPass

  Hoisting a conditional index one conditional at a time. The arms of the hoisted
  index are put back, each as the index of a new node over the hoisted base, and
  the new nodes are hoisted in their turn (`pass`). Such a node is no part of the
  tree, and may be larger than the tree. Yet the calls always come to an end
  (`wellFounded_calls`), because over hoisted parts only the index is opened
  further; and what they return is what `Expr.hoist` returns (`pass_hoist`). Main
  statement: the second pass ends, never fails, and makes a copy of the base at
  each leaf of the index (`hoist_pointer_second_pass`).
-/
import MuxHoist.Proofs.Congruence
import MuxHoist.Proofs.Placement

namespace MuxHoist

namespace Expr

/-! ## One call -/

/-- An arm by a further call; a missing arm asks for none. -/
def passArm (again : Expr → Except TreeError Expr) : Option Expr → Except TreeError (Option Expr)
  | none => .ok none
  | some e => do
    let e ← again e
    return some e

/-- Operands by further calls, from left to right. -/
def passAll (again : Expr → Except TreeError Expr) : List Expr → Except TreeError (List Expr)
  | [] => .ok []
  | e :: es => do
    let e ← again e
    let es ← passAll again es
    return e :: es

/-- One call of hoisting, given what further calls return. -/
def pass (again : Expr → Except TreeError Expr) : Expr → Except TreeError Expr
  | .leaf id v => .ok (.leaf id v)
  | .branch id c t f => do
    let t ← passArm again t
    let f ← passArm again f
    let c ← again c
    return (c.select t f).withId id
  | .compound id k xs => do
    let xs ← passAll again xs
    return Decision.combine k id xs
  | .partselect id b m l => do
    let m ← again m
    let l ← again l
    let b ← again b
    if m.isBranch || l.isBranch then
      throw (.conditionalBound id b m l)
    return b.computeOver id fun id b => .partselect id b m l
  | .pointer id b i => do
    let i ← again i
    let b ← again b
    match i with
    | .branch j c t f =>
      -- The base may be conditional as well, so each arm is hoisted a second time.
      let t ← passArm (fun a => again (.pointer a.id b a)) t
      let f ← passArm (fun a => again (.pointer a.id b a)) f
      return .branch j c t f
    | i => return b.computeOver id fun id b => .pointer id b i
  | .delay id e => do
    let e ← again e
    return .delay id e

/-- The trees that a call for `e` asks to have hoisted. -/
inductive Calls : Expr → Expr → Prop
  | part {e c : Expr} {i : Nat} : e.part? i = some c → Calls c e
  /-- An arm of the hoisted index, as an index into the hoisted base. -/
  | again {id j : Option NodeId} {b₀ i₀ b c a : Expr} {t f : Option Expr} :
      b₀.hoist = .ok b → i₀.hoist = .ok (.branch j c t f) → a ∈ t ∨ a ∈ f →
      Calls (.pointer a.id b a) (.pointer id b₀ i₀)

/-! ## Arms of a hoisted index -/

/-- Over hoisted parts an index puts a copy of the base at each of its leaves; the id of
    the index takes the place of the node's own. -/
theorem hoist_pointer_id_of_isHoisted {b a : Expr} (hb : b.isHoisted) (ha : a.isHoisted) :
    (pointer a.id b a).hoist
      = .ok (a.graft fun l => b.computeOver l.id fun id x => .pointer id x l) := by
  refine hoist_pointer_eq_ok.mpr ⟨a, b, hoist_of_isHoisted ha, hoist_of_isHoisted hb, ?_⟩
  rw [computeOver_id]

theorem passArm_pointer {b : Expr} (hb : b.isHoisted) {a : Option Expr}
    (ha : ∀ e ∈ a, e.isHoisted) :
    passArm (fun e => (pointer e.id b e).hoist) a
      = .ok (a.map (graft fun l => b.computeOver l.id fun id x => .pointer id x l)) := by
  cases a with
  | none => rfl
  | some e =>
    simp only [passArm, hoist_pointer_id_of_isHoisted hb (ha e rfl)]
    rfl

/-! ## What the calls return -/

theorem passArm_congr {g h : Expr → Except TreeError Expr} {a : Option Expr}
    (hgh : ∀ e ∈ a, g e = h e) : passArm g a = passArm h a := by
  cases a with
  | none => rfl
  | some e => rw [passArm, passArm, hgh e rfl]

theorem passAll_congr {g h : Expr → Except TreeError Expr} {xs : List Expr}
    (hgh : ∀ x ∈ xs, g x = h x) : passAll g xs = passAll h xs := by
  induction xs with
  | nil => rfl
  | cons x xs ih =>
    obtain ⟨hx, hxs⟩ := List.forall_mem_cons.mp hgh
    rw [passAll, passAll, hx, ih hxs]

theorem passArm_hoist (a : Option Expr) : passArm hoist a = hoistArm a := by
  cases a <;> rfl

theorem passAll_hoist (xs : List Expr) : passAll hoist xs = hoistAll xs := by
  induction xs with
  | nil => rfl
  | cons x xs ih => rw [passAll, ih, hoistAll]

/-- A call uses nothing but what the calls it makes return. -/
theorem pass_congr {g : Expr → Except TreeError Expr} {e : Expr}
    (h : ∀ d, Calls d e → g d = d.hoist) : pass g e = pass hoist e := by
  have hpart : ∀ i c, e.part? i = some c → g c = c.hoist := fun i c hc => h c (.part hc)
  cases e with
  | leaf => rfl
  | branch id c t f =>
    have ht : ∀ a ∈ t, g a = a.hoist := by
      rintro a rfl
      exact hpart 1 a rfl
    have hf : ∀ a ∈ f, g a = a.hoist := by
      rintro a rfl
      exact hpart 2 a rfl
    rw [pass, pass, passArm_congr ht, passArm_congr hf, hpart 0 c rfl]
  | compound id k xs =>
    have hxs : ∀ x ∈ xs, g x = x.hoist := by
      intro x hx
      obtain ⟨i, hi⟩ := List.mem_iff_getElem?.mp hx
      exact hpart i x hi
    rw [pass, pass, passAll_congr hxs]
  | partselect id b m l =>
    rw [pass, pass, hpart 0 b rfl, hpart 1 m rfl, hpart 2 l rfl]
  | pointer id b₀ i₀ =>
    rw [pass, pass, hpart 0 b₀ rfl, hpart 1 i₀ rfl]
    refine bind_congr_ok fun i hi => bind_congr_ok fun b hb => ?_
    cases i with
    | branch j c t f =>
      have ht : ∀ a ∈ t, g (.pointer a.id b a) = (pointer a.id b a).hoist :=
        fun a ha => h _ (.again hb hi (.inl ha))
      have hf : ∀ a ∈ f, g (.pointer a.id b a) = (pointer a.id b a).hoist :=
        fun a ha => h _ (.again hb hi (.inr ha))
      simp only [passArm_congr ht, passArm_congr hf]
    | _ => rfl
  | delay id e => rw [pass, pass, hpart 0 e rfl]

/-- What hoisting returns, a call returns that has hoisting itself for its further calls. -/
theorem pass_hoist (e : Expr) : pass hoist e = e.hoist := by
  cases e with
  | leaf => rfl
  | branch => rw [pass, hoist, passArm_hoist, passArm_hoist]
  | compound => rw [pass, hoist, passAll_hoist]
  | partselect => rw [pass, hoist]
  | pointer id b₀ i₀ =>
    rw [pass, hoist]
    refine bind_congr_ok fun i hi => bind_congr_ok fun b hb => ?_
    cases i with
    | branch j c t f =>
      obtain ⟨-, ht, hf⟩ := isHoisted_branch_iff.mp (isHoisted_of_hoist hi)
      have hbase := isHoisted_of_hoist hb
      simp only [passArm_pointer hbase ht, passArm_pointer hbase hf, computeOver_branch]
      rfl
    | _ => rw [computeOver_of_not_isBranch rfl]
  | delay => rw [pass, hoist]

/-! ## The calls come to an end -/

/-- A call for a hoisted tree only goes down into its parts. -/
theorem acc_of_isHoisted {e : Expr} (h : e.isHoisted) : Acc Calls e := by
  induction e using part_induct with
  | node e ih =>
    refine .intro e fun d hd => ?_
    cases hd with
    | part hc => exact ih _ _ hc (isHoisted_of_part? h hc)
    | @again _ _ _ i₀ _ _ _ _ _ hb hi ha =>
      -- The index of a hoisted tree is plain, so it does not come out conditional.
      have hindex := (isPlain_pointer_iff.mp (isPlain_of_isHoisted h rfl)).2
      have hfixed := hoist_of_isHoisted (isHoisted_of_isPlain hindex)
      rw [Except.ok.inj (hfixed.symm.trans hi)] at hindex
      cases isBranch_of_isPlain hindex

/-- Over hoisted parts the index is used up: each further call has one of its arms. -/
theorem acc_pointer {b i : Expr} (hb : b.isHoisted) (hi : i.isHoisted) (id : Option NodeId) :
    Acc Calls (pointer id b i) := by
  induction i using part_induct generalizing id with
  | node i ih =>
    refine .intro _ fun d hd => ?_
    cases hd with
    | part hc =>
      cases hc using part_cases with
      | pointee => exact acc_of_isHoisted hb
      | index => exact acc_of_isHoisted hi
    | @again _ j _ _ b' c a t f hb' hi' ha =>
      obtain rfl := Except.ok.inj ((hoist_of_isHoisted hb).symm.trans hb')
      obtain rfl := Except.ok.inj ((hoist_of_isHoisted hi).symm.trans hi')
      obtain ⟨-, ht, hf⟩ := isHoisted_branch_iff.mp hi
      rcases ha with rfl | rfl
      · exact ih 1 a rfl (ht a rfl) a.id
      · exact ih 2 a rfl (hf a rfl) a.id

/-- No tree leads to an endless row of calls. -/
theorem wellFounded_calls : WellFounded Calls := by
  refine ⟨fun e => ?_⟩
  induction e using part_induct with
  | node e ih =>
    refine .intro e fun d hd => ?_
    cases hd with
    | part hc => exact ih _ _ hc
    | again hb hi ha =>
      obtain ⟨-, ht, hf⟩ := isHoisted_branch_iff.mp (isHoisted_of_hoist hi)
      exact acc_pointer (isHoisted_of_hoist hb) (ha.elim (ht _) (hf _)) _

/-! ## The second pass -/

/-- Where base and index can be hoisted, so can the node that points by the one into the
    other. Each leaf of a conditional index gets a copy of the base, or of its decision
    tree; the conditionals of both keep their conditions, their ids and their missing
    arms. The second pass over an arm of the index changes neither base nor arm, and it
    succeeds. No tree leads to an endless row of calls, a call returns what hoisting
    returns once its own calls do, and so nothing but hoisting satisfies the rules of a
    call. -/
theorem hoist_pointer_second_pass {b₀ i₀ b i : Expr} (hb : b₀.hoist = .ok b)
    (hi : i₀.hoist = .ok i) (id : Option NodeId) :
    (pointer id b₀ i₀).hoist = .ok
        (if i.isBranch then
          i.graft fun l => if b.isBranch then b.element l else .pointer l.id b l
        else if b.isBranch then b.element i
        else .pointer id b i) ∧
      (∀ j c t f, i = .branch j c t f → b.hoist = .ok b ∧
        ∀ a, a ∈ t ∨ a ∈ f → a.hoist = .ok a ∧ ∃ u, (pointer a.id b a).hoist = .ok u) ∧
      WellFounded Calls ∧
      (∀ e g, (∀ d, Calls d e → g d = d.hoist) → pass g e = e.hoist) ∧
      ∀ g, (∀ e, g e = pass g e) → ∀ e, g e = e.hoist := by
  have hbase := isHoisted_of_hoist hb
  have hcall : ∀ e g, (∀ d, Calls d e → g d = d.hoist) → pass g e = e.hoist := by
    intro e g h
    rw [pass_congr h, pass_hoist]
  refine ⟨?_, ?_, wellFounded_calls, hcall, ?_⟩
  · refine hoist_pointer_eq_ok.mpr ⟨i, b, hi, hb, ?_⟩
    cases hindex : i.isBranch with
    | true =>
      cases hcond : b.isBranch with
      | true => simp only [computeOver, hindex, hcond, element, if_true]
      | false => simp only [computeOver, hindex, hcond, Bool.false_eq_true, if_true, if_false]
    | false =>
      cases hcond : b.isBranch with
      | true =>
        simp only [computeOver, hindex, hcond, element, Bool.false_eq_true, if_true, if_false]
      | false => simp only [computeOver, hindex, hcond, Bool.false_eq_true, if_false]
  · rintro j c t f rfl
    obtain ⟨-, ht, hf⟩ := isHoisted_branch_iff.mp (isHoisted_of_hoist hi)
    refine ⟨hoist_of_isHoisted hbase, fun a ha => ?_⟩
    have harm : a.isHoisted := ha.elim (ht a) (hf a)
    exact ⟨hoist_of_isHoisted harm, _, hoist_pointer_id_of_isHoisted hbase harm⟩
  · intro g hg e
    induction e using wellFounded_calls.induction with
    | h e ih => rw [hg, hcall e g ih]

/-- A conditional index, its condition conditional too, into a base that becomes
    conditional. In the second pass a node over the hoisted base has for its index what
    is left of the index under the first condition. -/
theorem hoist_pointer_second_pass_nested :
    let c : Expr := .leaf (some ⟨1⟩) (.terminal "c")
    let d : Expr := .leaf none (.terminal "d")
    let a : Expr := .leaf (some ⟨2⟩) (.terminal "a")
    let n : Expr := .leaf (some ⟨3⟩) (.terminal "n")
    let minus (id : NodeId) (x : Expr) : Expr := .compound (some id) (.op .uminus) [x]
    let choice (id : NodeId) (x : Expr) : Expr := .branch (some id) c (some x) none
    let base : Expr := minus ⟨5⟩ (choice ⟨4⟩ a)
    let index : Expr := .branch (some ⟨7⟩) (.branch (some ⟨6⟩) d (some c) none) (some n) none
    let arm : Expr := choice ⟨1⟩ n
    base.hoist = .ok (choice ⟨4⟩ (minus ⟨2⟩ a)) ∧
      index.hoist = .ok (.branch (some ⟨7⟩) d (some arm) none) ∧
      (pointer (some ⟨9⟩) base index).hoist = .ok (.branch (some ⟨7⟩) d
        (some (choice ⟨1⟩ (choice ⟨4⟩ (.pointer (some ⟨2⟩) (minus ⟨2⟩ a) n)))) none) ∧
      ∃ u, (pointer (some ⟨1⟩) (choice ⟨4⟩ (minus ⟨2⟩ a)) arm).hoist = .ok u := by
  intro c d a n minus choice base index arm
  have hb : base.hoist = .ok (choice ⟨4⟩ (minus ⟨2⟩ a)) := by decide +kernel
  have hi : index.hoist = .ok (.branch (some ⟨7⟩) d (some arm) none) := by decide +kernel
  obtain ⟨hresult, hagain, -⟩ := hoist_pointer_second_pass hb hi (some ⟨9⟩)
  obtain ⟨-, hsecond⟩ := (hagain _ _ _ _ rfl).2 arm (.inl rfl)
  exact ⟨hb, hi, hresult, hsecond⟩

end Expr

end MuxHoist
