/-
  MuxHoist.Proofs.Derivation

  What it takes for a tree to be hoisted. Each kind of node has one equation
  that names the hoisted parts and the tree built of them; together they give
  an induction over successful hoists (`hoist_induct`), by which a relation
  between trees and their hoisted forms is proved kind by kind.
-/
import MuxHoist.Hoist
import Mathlib.Data.List.Forall2

namespace MuxHoist

/-! ## Successful steps -/

/-- Two steps succeed together when the first succeeds and the second does so
    on its result. -/
theorem bind_eq_ok {ε α β : Type} {x : Except ε α} {k : α → Except ε β} {b : β} :
    (x >>= k) = .ok b ↔ ∃ a, x = .ok a ∧ k a = .ok b := by
  cases x with
  | error e =>
    constructor
    · intro h
      cases h
    · rintro ⟨a, h, _⟩
      cases h
  | ok a =>
    constructor
    · intro h
      exact ⟨a, rfl, h⟩
    · rintro ⟨_, ⟨⟩, h⟩
      exact h

/-- Two steps fail together when the first one fails, or the second one does so on
    its result. -/
theorem bind_eq_error {ε α β : Type} {x : Except ε α} {k : α → Except ε β} {err : ε} :
    (x >>= k) = .error err ↔ x = .error err ∨ ∃ a, x = .ok a ∧ k a = .error err := by
  cases x with
  | error e =>
    constructor
    · intro h
      cases h
      exact .inl rfl
    · rintro (h | ⟨_, h, _⟩)
      · cases h
        rfl
      · cases h
  | ok a =>
    constructor
    · intro h
      exact .inr ⟨a, rfl, h⟩
    · rintro (h | ⟨_, ⟨⟩, h⟩)
      · cases h
      · exact h

/-- Two steps agree if they go on alike wherever the first one succeeds. -/
theorem bind_congr_ok {ε α β : Type} {x : Except ε α} {k k' : α → Except ε β}
    (h : ∀ a, x = .ok a → k a = k' a) : (x >>= k) = (x >>= k') := by
  cases x with
  | error e => rfl
  | ok a => exact h a rfl

theorem pure_eq_ok {ε α : Type} {a b : α} : (pure a : Except ε α) = .ok b ↔ b = a :=
  ⟨fun h => (Except.ok.inj h).symm, fun h => congrArg Except.ok h.symm⟩

/-! ## Related parts -/

section

variable {α β : Type} {r : α → β → Prop}

theorem rel_imp {q : α → β → Prop} (h : ∀ a b, r a b → q a b) {x : Option α} {y : Option β}
    (hxy : Option.Rel r x y) : Option.Rel q x y := by
  cases hxy with
  | none => exact .none
  | some hab => exact .some (h _ _ hab)

/-- Related arms are missing together. -/
theorem isNone_eq_of_rel {x : Option α} {y : Option β} (hxy : Option.Rel r x y) :
    y.isNone = x.isNone := by
  cases hxy <;> rfl

theorem rel_flip {x : Option α} {y : Option β} (hxy : Option.Rel r x y) :
    Option.Rel (flip r) y x := by
  cases hxy with
  | none => exact .none
  | some hab => exact .some hab

/-- Each arm on the right is related to the one on the left. -/
theorem exists_rel_of_mem {x : Option α} {y : Option β} (hxy : Option.Rel r x y) {b : β}
    (hb : b ∈ y) : ∃ a ∈ x, r a b := by
  cases hxy with
  | none => cases hb
  | some hab =>
    cases hb
    exact ⟨_, rfl, hab⟩

/-- What holds of some arm on the left holds, carried along the relation, of one on the
    right. -/
theorem exists_of_rel {p : α → Prop} {q : β → Prop} (hpq : ∀ a b, r a b → p a → q b)
    {x : Option α} {y : Option β} (hxy : Option.Rel r x y) (h : ∃ a ∈ x, p a) : ∃ b ∈ y, q b := by
  obtain ⟨a, ha, hp⟩ := h
  obtain ⟨b, hb, hab⟩ := exists_rel_of_mem (rel_flip hxy) ha
  exact ⟨b, hb, hpq a b hab hp⟩

/-- Each operand on the right is related to one on the left. -/
theorem exists_forall₂_of_mem {xs : List α} {ys : List β} (hxy : List.Forall₂ r xs ys) {b : β}
    (hb : b ∈ ys) : ∃ a ∈ xs, r a b := by
  induction hxy with
  | nil => exact absurd hb List.not_mem_nil
  | cons hab _ ih =>
    rcases List.mem_cons.mp hb with rfl | hb
    · exact ⟨_, List.mem_cons_self, hab⟩
    · obtain ⟨a, ha, hr⟩ := ih hb
      exact ⟨a, List.mem_cons_of_mem _ ha, hr⟩

theorem map_eq_map_of_forall₂ {γ : Type} {f : α → γ} {g : β → γ} {xs : List α} {ys : List β}
    (h : List.Forall₂ (fun a b => g b = f a) xs ys) : ys.map g = xs.map f := by
  induction h with
  | nil => rfl
  | cons hab _ ih => rw [List.map_cons, List.map_cons, hab, ih]

end

namespace Expr

/-! ## Hoisted parts -/

/-- An arm is hoisted as a tree, and missing if it was missing. -/
theorem hoistArm_eq_ok {t t' : Option Expr} :
    hoistArm t = .ok t' ↔ Option.Rel (fun e u => e.hoist = .ok u) t t' := by
  cases t with
  | none =>
    constructor
    · intro h
      rw [← Except.ok.inj h]
      exact .none
    · rintro ⟨⟩
      rfl
  | some e =>
    rw [hoistArm, bind_eq_ok]
    constructor
    · rintro ⟨u, hu, h⟩
      rw [pure_eq_ok.mp h]
      exact .some hu
    · rintro (⟨hu⟩ | _)
      exact ⟨_, hu, rfl⟩

/-- Operands are hoisted one by one and keep their places. -/
theorem hoistAll_eq_ok {xs ys : List Expr} :
    hoistAll xs = .ok ys ↔ List.Forall₂ (fun e u => e.hoist = .ok u) xs ys := by
  induction xs generalizing ys with
  | nil =>
    rw [List.forall₂_nil_left_iff]
    exact pure_eq_ok
  | cons x xs ih =>
    simp only [hoistAll, bind_eq_ok, pure_eq_ok, ih, List.forall₂_cons_left_iff]
    constructor
    · rintro ⟨u, hu, us, hus, rfl⟩
      exact ⟨u, us, hu, hus, rfl⟩
    · rintro ⟨u, us, hu, hus, rfl⟩
      exact ⟨u, hu, us, hus, rfl⟩

/-! ## Hoisted nodes -/

theorem hoist_leaf_eq_ok {id : Option NodeId} {v : Leaf} {u : Expr} :
    (leaf id v).hoist = .ok u ↔ u = .leaf id v := by
  rw [hoist]
  exact pure_eq_ok

theorem hoist_branch_eq_ok {id : Option NodeId} {c u : Expr} {t f : Option Expr} :
    (branch id c t f).hoist = .ok u ↔
      ∃ t' f' c', hoistArm t = .ok t' ∧ hoistArm f = .ok f' ∧ c.hoist = .ok c' ∧
        u = (c'.select t' f').withId id := by
  simp only [hoist, bind_eq_ok, pure_eq_ok, exists_and_left]

theorem hoist_compound_eq_ok {id : Option NodeId} {k : Combiner} {xs : List Expr} {u : Expr} :
    (compound id k xs).hoist = .ok u ↔
      ∃ ys, hoistAll xs = .ok ys ∧ u = Decision.combine k id ys := by
  simp only [hoist, bind_eq_ok, pure_eq_ok]

/-- A part select is hoisted when its parts are and neither bound becomes
    conditional. -/
theorem hoist_partselect_eq_ok {id : Option NodeId} {b m l u : Expr} :
    (partselect id b m l).hoist = .ok u ↔
      ∃ m' l' b', m.hoist = .ok m' ∧ l.hoist = .ok l' ∧ b.hoist = .ok b' ∧
        (m'.isBranch = false ∧ l'.isBranch = false) ∧
        u = b'.computeOver id fun id b => .partselect id b m' l' := by
  simp only [hoist, bind_eq_ok, exists_and_left]
  refine exists_congr fun m' => and_congr_right fun _ => exists_congr fun l' =>
    and_congr_right fun _ => exists_congr fun b' => and_congr_right fun _ => ?_
  -- All parts are hoisted on both sides; what is left is the check of the bounds.
  by_cases h : (m'.isBranch || l'.isBranch) = true
  · rw [if_pos h]
    constructor
    · intro hu
      cases hu
    · rintro ⟨⟨hm, hl⟩, -⟩
      rw [hm, hl] at h
      cases h
  · rw [if_neg h, pure_eq_ok]
    rw [Bool.not_eq_true, Bool.or_eq_false_iff] at h
    exact (and_iff_right h).symm

theorem hoist_pointer_eq_ok {id : Option NodeId} {b i u : Expr} :
    (pointer id b i).hoist = .ok u ↔
      ∃ i' b', i.hoist = .ok i' ∧ b.hoist = .ok b' ∧
        u = i'.computeOver id fun id i => b'.computeOver id fun id b => .pointer id b i := by
  simp only [hoist, bind_eq_ok, pure_eq_ok, exists_and_left]

theorem hoist_delay_eq_ok {id : Option NodeId} {e u : Expr} :
    (delay id e).hoist = .ok u ↔ ∃ e', e.hoist = .ok e' ∧ u = .delay id e' := by
  simp only [hoist, bind_eq_ok, pure_eq_ok]

/-! ## Induction -/

/-- To relate every tree that can be hoisted with its hoisted form, relate a
    node of each kind with what is built of the hoisted parts, given that its
    parts are related with theirs. -/
@[elab_as_elim]
theorem hoist_induct {motive : (e u : Expr) → e.hoist = .ok u → Prop}
    (leaf : ∀ id v h, motive (.leaf id v) (.leaf id v) h)
    (branch : ∀ id c t f c' t' f' h,
      (∃ hc, motive c c' hc) → Option.Rel (fun e u => ∃ he, motive e u he) t t' →
      Option.Rel (fun e u => ∃ he, motive e u he) f f' →
      motive (.branch id c t f) ((c'.select t' f').withId id) h)
    (compound : ∀ id k xs ys h, List.Forall₂ (fun e u => ∃ he, motive e u he) xs ys →
      motive (.compound id k xs) (Decision.combine k id ys) h)
    (partselect : ∀ id b m l b' m' l' h, m'.isBranch = false → l'.isBranch = false →
      (∃ hb, motive b b' hb) → (∃ hm, motive m m' hm) → (∃ hl, motive l l' hl) →
      motive (.partselect id b m l)
        (b'.computeOver id fun id b => .partselect id b m' l') h)
    (pointer : ∀ id b i b' i' h, (∃ hb, motive b b' hb) → (∃ hi, motive i i' hi) →
      motive (.pointer id b i)
        (i'.computeOver id fun id i => b'.computeOver id fun id b => .pointer id b i) h)
    (delay : ∀ id e e' h, (∃ he, motive e e' he) → motive (.delay id e) (.delay id e') h)
    {e u : Expr} (h : e.hoist = .ok u) : motive e u h := by
  induction e generalizing u with
  | leaf id v =>
    obtain rfl := hoist_leaf_eq_ok.mp h
    exact leaf id v h
  | branch id c t f ihc iht ihf =>
    obtain ⟨t', f', c', ht, hf, hc, rfl⟩ := hoist_branch_eq_ok.mp h
    -- `Expr.induct` speaks of the arms that are there; a missing one has no hoisted form.
    have harm : ∀ {a a' : Option Expr}, (∀ e ∈ a, ∀ {u} (h : e.hoist = .ok u), motive e u h) →
        hoistArm a = .ok a' → Option.Rel (fun e u => ∃ he, motive e u he) a a' := by
      intro a a' ih ha
      cases hoistArm_eq_ok.mp ha with
      | none => exact .none
      | some hu => exact .some ⟨hu, ih _ rfl hu⟩
    exact branch id c t f c' t' f' h ⟨hc, ihc hc⟩ (harm iht ht) (harm ihf hf)
  | compound id k xs ih =>
    obtain ⟨ys, hys, rfl⟩ := hoist_compound_eq_ok.mp h
    refine compound id k xs ys h ?_
    have hall := hoistAll_eq_ok.mp hys
    -- From here on only the pairs count: the run over the whole list is of no use for its tail.
    clear hys h
    induction hall with
    | nil => exact .nil
    | cons hu _ ihs =>
      exact .cons ⟨hu, ih _ List.mem_cons_self hu⟩
        (ihs fun x hx => ih x (List.mem_cons_of_mem _ hx))
  | partselect id b m l ihb ihm ihl =>
    obtain ⟨m', l', b', hm, hl, hb, ⟨hm', hl'⟩, rfl⟩ := hoist_partselect_eq_ok.mp h
    exact partselect id b m l b' m' l' h hm' hl' ⟨hb, ihb hb⟩ ⟨hm, ihm hm⟩ ⟨hl, ihl hl⟩
  | pointer id b i ihb ihi =>
    obtain ⟨i', b', hi, hb, rfl⟩ := hoist_pointer_eq_ok.mp h
    exact pointer id b i b' i' h ⟨hb, ihb hb⟩ ⟨hi, ihi hi⟩
  | delay id e ih =>
    obtain ⟨e', he, rfl⟩ := hoist_delay_eq_ok.mp h
    exact delay id e e' h ⟨he, ih he⟩

end Expr

end MuxHoist
