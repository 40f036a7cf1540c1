/-
  MuxHoist.Proofs.Position

  Where a tree stands in another. A node has numbered parts, and a position is
  the list of the numbers on the way down from the root. One tree occurs in
  another if it stands at some position there.

  Replacing the subtree at a position touches nothing at the positions apart
  from it (`subtree?_replace_of_apart`).
-/
import MuxHoist.Expr.Basic

namespace MuxHoist

/-- The way down from a root: at each node, the number of the part to enter. -/
abbrev Position := List Nat

/-- Neither position lies on the way to the other. -/
def Position.Apart (p q : Position) : Prop := ¬ p <+: q ∧ ¬ q <+: p

namespace Expr

/-! ## Parts of a node -/

/-- The part of a node by its number. An arm has its number also when the other
    one is missing. -/
def part? : Expr → Nat → Option Expr
  | .branch _ c _ _, 0 => some c
  | .branch _ _ t _, 1 => t
  | .branch _ _ _ f, 2 => f
  | .compound _ _ xs, i => xs[i]?
  | .partselect _ b _ _, 0 => some b
  | .partselect _ _ m _, 1 => some m
  | .partselect _ _ _ l, 2 => some l
  | .pointer _ b _, 0 => some b
  | .pointer _ _ x, 1 => some x
  | .delay _ e, 0 => some e
  | _, _ => none

/-- The node with another tree as its part of that number; a node without such a
    part stays as it is. -/
def setPart : Expr → Nat → Expr → Expr
  | .branch id _ t f, 0, u => .branch id u t f
  | .branch id c t f, 1, u => .branch id c (t.map fun _ => u) f
  | .branch id c t f, 2, u => .branch id c t (f.map fun _ => u)
  | .compound id k xs, i, u => .compound id k (xs.set i u)
  | .partselect id _ m l, 0, u => .partselect id u m l
  | .partselect id b _ l, 1, u => .partselect id b u l
  | .partselect id b m _, 2, u => .partselect id b m u
  | .pointer id _ x, 0, u => .pointer id u x
  | .pointer id b _, 1, u => .pointer id b u
  | .delay id _, 0, u => .delay id u
  | e, _, _ => e

/-- The parts that a node can have, kind by kind. -/
@[elab_as_elim]
theorem part_cases {motive : (e : Expr) → (i : Nat) → (c : Expr) → e.part? i = some c → Prop}
    (cond : ∀ id c t f, motive (.branch id c t f) 0 c rfl)
    (onTrue : ∀ id c t f, motive (.branch id c (some t) f) 1 t rfl)
    (onFalse : ∀ id c t f, motive (.branch id c t (some f)) 2 f rfl)
    (operand : ∀ id k xs i x (h : xs[i]? = some x), motive (.compound id k xs) i x h)
    (base : ∀ id b m l, motive (.partselect id b m l) 0 b rfl)
    (msb : ∀ id b m l, motive (.partselect id b m l) 1 m rfl)
    (lsb : ∀ id b m l, motive (.partselect id b m l) 2 l rfl)
    (pointee : ∀ id b x, motive (.pointer id b x) 0 b rfl)
    (index : ∀ id b x, motive (.pointer id b x) 1 x rfl)
    (inner : ∀ id e, motive (.delay id e) 0 e rfl)
    {e : Expr} {i : Nat} {c : Expr} (h : e.part? i = some c) : motive e i c h := by
  cases e with
  | leaf => cases h
  | branch id d t f =>
    rcases i with _ | _ | _ | i
    · cases h
      exact cond _ _ _ _
    · cases t with
      | none => cases h
      | some t =>
        cases h
        exact onTrue _ _ _ _
    · cases f with
      | none => cases h
      | some f =>
        cases h
        exact onFalse _ _ _ _
    · cases h
  | compound id k xs => exact operand id k xs i c h
  | partselect id b m l =>
    rcases i with _ | _ | _ | i
    · cases h
      exact base _ _ _ _
    · cases h
      exact msb _ _ _ _
    · cases h
      exact lsb _ _ _ _
    · cases h
  | pointer id b x =>
    rcases i with _ | _ | i
    · cases h
      exact pointee _ _ _
    · cases h
      exact index _ _ _
    · cases h
  | delay id e =>
    rcases i with _ | i
    · cases h
      exact inner _ _
    · cases h

/-- The children of a node are its parts. -/
theorem mem_children_iff {e c : Expr} : c ∈ e.children ↔ ∃ i, e.part? i = some c := by
  constructor
  · intro h
    cases e with
    | leaf => exact absurd h List.not_mem_nil
    | branch id d t f =>
      simp only [children, List.mem_cons, List.mem_append, Option.mem_toList] at h
      rcases h with rfl | rfl | rfl
      · exact ⟨0, rfl⟩
      · exact ⟨1, rfl⟩
      · exact ⟨2, rfl⟩
    | compound id k xs => exact List.mem_iff_getElem?.mp h
    | partselect id b m l =>
      simp only [children, List.mem_cons, List.not_mem_nil, or_false] at h
      rcases h with rfl | rfl | rfl
      · exact ⟨0, rfl⟩
      · exact ⟨1, rfl⟩
      · exact ⟨2, rfl⟩
    | pointer id b x =>
      simp only [children, List.mem_cons, List.not_mem_nil, or_false] at h
      rcases h with rfl | rfl
      · exact ⟨0, rfl⟩
      · exact ⟨1, rfl⟩
    | delay id d =>
      rw [List.mem_singleton.mp h]
      exact ⟨0, rfl⟩
  · rintro ⟨i, h⟩
    cases h using part_cases with
    | operand _ _ _ _ _ h => exact List.mem_of_getElem? h
    | _ => simp [children]

/-- To prove a property of all trees, prove it of a node from the same property
    of its parts. -/
theorem part_induct {motive : Expr → Prop}
    (node : ∀ e, (∀ i c, e.part? i = some c → motive c) → motive e) (e : Expr) : motive e := by
  have hpart : ∀ e : Expr, (∀ c ∈ e.children, motive c) → ∀ i c, e.part? i = some c → motive c :=
    fun e hall i c hc => hall c (mem_children_iff.mpr ⟨i, hc⟩)
  induction e with
  | leaf => exact node _ (hpart _ (by simp [children]))
  | branch _ c t f ihc iht ihf =>
    refine node _ (hpart _ ?_)
    simp only [children, List.mem_cons, List.mem_append, Option.mem_toList, forall_eq_or_imp]
    exact ⟨ihc, fun a ha => ha.elim (iht a) (ihf a)⟩
  | compound _ _ xs ih => exact node _ (hpart _ ih)
  | partselect _ b m l ihb ihm ihl => exact node _ (hpart _ (by simp [children, ihb, ihm, ihl]))
  | pointer _ b x ihb ihx => exact node _ (hpart _ (by simp [children, ihb, ihx]))
  | delay _ e ih => exact node _ (hpart _ (by simp [children, ih]))

theorem part?_setPart_self {e c : Expr} {i : Nat} (h : e.part? i = some c) (u : Expr) :
    (e.setPart i u).part? i = some u := by
  cases h using part_cases with
  | operand =>
    obtain ⟨hi, -⟩ := List.getElem?_eq_some_iff.mp h
    exact List.getElem?_set_self hi
  | _ => rfl

theorem part?_setPart_of_ne (e u : Expr) {i j : Nat} (hij : i ≠ j) :
    (e.setPart i u).part? j = e.part? j := by
  cases e with
  | compound id k xs => exact List.getElem?_set_ne hij
  | _ => rcases i with _ | _ | _ | i <;> rcases j with _ | _ | _ | j <;> simp_all [setPart, part?]

/-! ## Subtrees -/

/-- The subtree at a position, if the position lies in the tree. -/
def subtree? (e : Expr) : Position → Option Expr
  | [] => some e
  | i :: p => (e.part? i).bind fun c => c.subtree? p

/-- The tree with another subtree at a position; nothing changes if the position
    does not lie in the tree. -/
def replace (e : Expr) (u : Expr) : Position → Expr
  | [] => u
  | i :: p =>
    match e.part? i with
    | none => e
    | some c => e.setPart i (c.replace u p)

theorem subtree?_cons_eq_some_iff {e d : Expr} {i : Nat} {p : Position} :
    e.subtree? (i :: p) = some d ↔ ∃ c, e.part? i = some c ∧ c.subtree? p = some d := by
  rw [subtree?, Option.bind_eq_some_iff]

theorem replace_cons_of_part? {e c : Expr} {i : Nat} (h : e.part? i = some c) (u : Expr)
    (p : Position) : e.replace u (i :: p) = e.setPart i (c.replace u p) := by
  rw [replace, h]

/-- Positions apart from a replaced subtree hold what they held. -/
theorem subtree?_replace_of_apart (e u : Expr) {p q : Position} (h : p.Apart q) :
    (e.replace u p).subtree? q = e.subtree? q := by
  obtain ⟨hpq, hqp⟩ := h
  induction p generalizing e q with
  | nil => exact absurd List.nil_prefix hpq
  | cons i p ih =>
    cases q with
    | nil => exact absurd List.nil_prefix hqp
    | cons j q =>
      cases hc : e.part? i with
      | none => rw [replace, hc]
      | some c =>
        rw [replace_cons_of_part? hc, subtree?, subtree?]
        by_cases hij : i = j
        · -- Both positions enter the same part, so they part ways further down.
          subst hij
          rw [List.cons_prefix_cons] at hpq hqp
          rw [part?_setPart_self hc, hc]
          exact ih c (fun h => hpq ⟨rfl, h⟩) (fun h => hqp ⟨rfl, h⟩)
        · rw [part?_setPart_of_ne _ _ hij]

/-! ## Occurrences -/

/-- The tree stands somewhere in the other, in a condition, an arm, a bound or below a
    delay just as well as at the root. -/
def Occurs (d e : Expr) : Prop := ∃ p, e.subtree? p = some d

theorem occurs_self (e : Expr) : Occurs e e := ⟨[], rfl⟩

theorem occurs_of_part? {d e c : Expr} {i : Nat} (hc : e.part? i = some c) (h : Occurs d c) :
    Occurs d e := by
  obtain ⟨p, hp⟩ := h
  exact ⟨i :: p, subtree?_cons_eq_some_iff.mpr ⟨c, hc, hp⟩⟩

/-- What occurs in a tree is the tree, or occurs in a child of its root. -/
theorem occurs_iff {d e : Expr} : Occurs d e ↔ d = e ∨ ∃ c ∈ e.children, Occurs d c := by
  constructor
  · rintro ⟨p, hp⟩
    cases p with
    | nil => exact .inl (Option.some.inj hp).symm
    | cons i p =>
      obtain ⟨c, hc, hp⟩ := subtree?_cons_eq_some_iff.mp hp
      exact .inr ⟨c, mem_children_iff.mpr ⟨i, hc⟩, p, hp⟩
  · rintro (rfl | ⟨c, hc, hd⟩)
    · exact occurs_self d
    · obtain ⟨i, hi⟩ := mem_children_iff.mp hc
      exact occurs_of_part? hi hd

/-- What passes from a node to its parts reaches everything that occurs in a tree. -/
theorem of_occurs {r : Expr → Prop} (hpart : ∀ e i c, r e → e.part? i = some c → r c) {d e : Expr}
    (he : r e) (h : Occurs d e) : r d := by
  obtain ⟨p, hp⟩ := h
  induction p generalizing e with
  | nil =>
    cases hp
    exact he
  | cons i p ih =>
    obtain ⟨c, hc, hp⟩ := subtree?_cons_eq_some_iff.mp hp
    exact ih (hpart e i c he hc) hp

end Expr

end MuxHoist
