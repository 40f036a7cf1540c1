/-
  MuxHoist.Proofs.FixedArity

  Operators that are built for one operand or for two, compared with the operator over
  any number of them. Grafting makes the unary one, and the binary one is determined by
  taking both operands apart, the left one first (`IsTwoSided`). Main statement: both
  make the decision tree that the operator over a list makes; a binary operator differs
  in the ids of its leaves, and in nothing else (`unary_binary_eq_operator`).
-/
import MuxHoist.Proofs.Extension

namespace MuxHoist

namespace Expr

/-! ## Grafting onto copies -/

/-- Grafting onto a grafted tree is grafting onto each of the copies. -/
theorem graft_graft (g h : Expr → Expr) (e : Expr) :
    (e.graft g).graft h = e.graft fun l => (g l).graft h := by
  induction e with
  | branch id c t f _ iht ihf =>
    rw [graft_branch, graft_branch, graft_branch, Option.map_map, Option.map_map]
    exact congrArg₂ (branch id c) (Option.map_congr iht) (Option.map_congr ihf)
  | _ => rfl

/-- Where grafting onto a copy makes up for the id that the copy took, it does not matter
    which id a computation was given. -/
theorem graft_computeOver {g : Option NodeId → Expr → Expr} {h w : Expr → Expr}
    (hw : ∀ id l, (g id l).graft h = w l) (id : Option NodeId) (e : Expr) :
    (e.computeOver id g).graft h = e.graft w := by
  cases he : e.isBranch with
  | true =>
    rw [computeOver, if_pos he, graft_graft]
    simp only [hw]
  | false => rw [computeOver_of_not_isBranch he, hw, graft_of_not_isBranch he]

/-- The decision tree with one id on all of its leaves. The conditionals keep theirs, and
    so does everything below the leaves. -/
def withLeafIds (id : Option NodeId) (e : Expr) : Expr :=
  e.graft (withId id)

/-- Two operands are joined as by the binary operator, up to the ids of the leaves. -/
theorem withLeafIds_combine (o : Operator) (x id : Option NodeId) (l r : Expr) :
    (Decision.combine (.op o) x [l, r]).withLeafIds id = l.binary o id r := by
  have hright : ∀ x a, (Decision.scan (.op o) x [a] [r]).graft (withId id)
      = r.graft fun b => .compound id (.op o) [a, b] :=
    fun x a => graft_computeOver (g := fun x b => .compound x (.op o) [a, b]) (fun _ _ => rfl) x r
  rw [Decision.combine_eq_scan, withLeafIds]
  exact graft_computeOver hright x l

end Expr

/-! ## Taking two operands apart -/

namespace Decision

/-- The laws of an operation that takes two operands apart, the left one first. A
    conditional operand gives way to each of its arms; an operand that is missing, as
    such an arm may be, makes the result missing. -/
structure IsTwoSided (o : Operator) (id : Option NodeId)
    (go : Option Expr → Option Expr → Option Expr) : Prop where
  missingLeft : ∀ r, go none r = none
  missingRight : ∀ l, go l none = none
  left : ∀ j c t f r, go (some (.branch j c t f)) (some r)
    = some (.branch j c (go t (some r)) (go f (some r)))
  right : ∀ l j c t f, l.isBranch = false → go (some l) (some (.branch j c t f))
    = some (.branch j c (go (some l) t) (go (some l) f))
  leaves : ∀ l r, l.isBranch = false → r.isBranch = false →
    go (some l) (some r) = some (.compound id (.op o) [l, r])

section

variable {o : Operator} {id : Option NodeId}

theorem binary_of_not_isBranch {l : Expr} (hl : l.isBranch = false) (r : Option Expr) :
    binary o id (some l) r = r.map (Expr.graft fun b => .compound id (.op o) [l, b]) := by
  cases r with
  | none => rfl
  | some r =>
    show some (l.binary o id r) = some _
    rw [Expr.binary, Expr.graft_of_not_isBranch hl]

theorem binary_some_right (l : Option Expr) (r : Expr) :
    binary o id l (some r) = l.map fun l => l.binary o id r := by
  cases l <;> rfl

theorem isTwoSided_binary (o : Operator) (id : Option NodeId) :
    IsTwoSided o id (binary o id) where
  missingLeft _ := rfl
  missingRight l := by cases l <;> rfl
  left j c t f r := by
    rw [binary_some_right, binary_some_right, binary_some_right, Option.map_some, Expr.binary,
      Expr.graft_branch]
    rfl
  right l j c t f hl := by
    rw [binary_of_not_isBranch hl, binary_of_not_isBranch hl, binary_of_not_isBranch hl,
      Option.map_some, Expr.graft_branch]
  leaves l r hl hr := by
    rw [binary_of_not_isBranch hl, Option.map_some, Expr.graft_of_not_isBranch hr]

/-- Two operations that obey the laws agree on a left operand that is not conditional. -/
theorem IsTwoSided.eq_of_not_isBranch {go go' : Option Expr → Option Expr → Option Expr}
    (h : IsTwoSided o id go) (h' : IsTwoSided o id go') {l : Expr} (hl : l.isBranch = false)
    (r : Expr) : go (some l) (some r) = go' (some l) (some r) := by
  induction r with
  | branch j c t f _ iht ihf =>
    have harm : ∀ a : Option Expr, (∀ e ∈ a, go (some l) (some e) = go' (some l) (some e)) →
        go (some l) a = go' (some l) a := by
      intro a ih
      cases a with
      | none => rw [h.missingRight, h'.missingRight]
      | some e => exact ih e rfl
    rw [h.right l j c t f hl, h'.right l j c t f hl, harm t iht, harm f ihf]
  | _ => rw [h.leaves l _ hl rfl, h'.leaves l _ hl rfl]

/-- The laws determine the operation. -/
theorem IsTwoSided.unique {go go' : Option Expr → Option Expr → Option Expr}
    (h : IsTwoSided o id go) (h' : IsTwoSided o id go') : go = go' := by
  funext left right
  cases left with
  | none => rw [h.missingLeft, h'.missingLeft]
  | some l =>
    cases right with
    | none => rw [h.missingRight, h'.missingRight]
    | some r =>
      -- Only where the left operand has come to a leaf is the right one taken apart.
      induction l with
      | branch j c t f _ iht ihf =>
        have harm : ∀ a : Option Expr, (∀ e ∈ a, go (some e) (some r) = go' (some e) (some r)) →
            go a (some r) = go' a (some r) := by
          intro a ih
          cases a with
          | none => rw [h.missingLeft, h'.missingLeft]
          | some e => exact ih e rfl
        rw [h.left, h'.left, harm t iht, harm f ihf]
      | _ => exact h.eq_of_not_isBranch h' rfl r

end

/-- A unary operator is the operator over a list of one, with the operand's own id. A
    binary operator is the operator over a list of two, whatever id that is given, once
    all leaves of its decision tree have the binary operator's id; and it is the one
    operation that takes its operands apart by the laws. -/
theorem unary_binary_eq_operator (o : Operator) :
    (∀ b, unary o (some b) = some (operator o b.id [b])) ∧
      ∀ id, (∀ x l r, binary o id (some l) (some r)
          = some ((operator o x [l, r]).withLeafIds id)) ∧
        ∀ go, IsTwoSided o id go ↔ go = binary o id := by
  refine ⟨fun b => ?_, fun id => ⟨fun x l r => ?_, fun go => ⟨fun h => ?_, ?_⟩⟩⟩
  · exact congrArg some (Expr.combine_singleton o b).symm
  · exact congrArg some (Expr.withLeafIds_combine o x id l r).symm
  · exact h.unique (isTwoSided_binary o id)
  · rintro rfl
    exact isTwoSided_binary o id

/-- Over two conditionals the binary operator gives its id to every leaf; the operator over
    the list of both has at each leaf the id of what the right one comes to. -/
theorem unary_binary_eq_operator_conditional :
    let c : Expr := .leaf none (.terminal "c")
    let x (n : UInt64) : Expr := .leaf (some ⟨n⟩) (.terminal "x")
    let left : Expr := .branch (some ⟨4⟩) c (some (x 1)) none
    let right : Expr := .branch (some ⟨8⟩) c (some (x 2)) (some (x 3))
    let joined (y z : NodeId) : Expr := .branch (some ⟨4⟩) c
      (some (.branch (some ⟨8⟩) c (some (.compound (some y) (.op .xor) [x 1, x 2]))
        (some (.compound (some z) (.op .xor) [x 1, x 3])))) none
    operator .xor (some ⟨7⟩) [left, right] = joined ⟨2⟩ ⟨3⟩ ∧
      binary .xor (some ⟨9⟩) (some left) (some right) = some (joined ⟨9⟩ ⟨9⟩) := by
  intro c x left right joined
  have hlist : operator .xor (some ⟨7⟩) [left, right] = joined ⟨2⟩ ⟨3⟩ := by decide +kernel
  obtain ⟨-, hbinary⟩ := unary_binary_eq_operator .xor
  obtain ⟨hleaves, -⟩ := hbinary (some ⟨9⟩)
  refine ⟨hlist, ?_⟩
  rw [hleaves (some ⟨7⟩), hlist]
  rfl

end Decision

end MuxHoist
