/-
  MuxHoist.Expr.Equality

  Equality of expression trees, ids included, as a test that runs. Main
  statement: the test holds exactly of equal trees, which makes equality of
  trees decidable.
-/
import MuxHoist.Expr.Basic

namespace MuxHoist

namespace Expr

mutual

/-- Compares two trees node by node, ids included. -/
def same : Expr → Expr → Bool
  | .leaf i v, .leaf j w => i = j && v = w
  | .branch i c t f, .branch j d u g => i = j && c.same d && sameArm t u && sameArm f g
  | .compound i k xs, .compound j l ys => i = j && k = l && sameAll xs ys
  | .partselect i b m l, .partselect j c n k => i = j && b.same c && m.same n && l.same k
  | .pointer i b x, .pointer j c y => i = j && b.same c && x.same y
  | .delay i e, .delay j d => i = j && e.same d
  | _, _ => false

/-- Compares two arms; missing arms are equal. -/
def sameArm : Option Expr → Option Expr → Bool
  | none, none => true
  | some a, some b => a.same b
  | _, _ => false

/-- Compares two operand lists. -/
def sameAll : List Expr → List Expr → Bool
  | [], [] => true
  | a :: as, b :: bs => a.same b && sameAll as bs
  | _, _ => false

end

private theorem sameArm_iff_of {t : Option Expr} (ih : ∀ a ∈ t, ∀ b, a.same b ↔ a = b)
    (u : Option Expr) : sameArm t u ↔ t = u := by
  cases t <;> cases u <;> simp_all [sameArm]

private theorem sameAll_iff_of {xs : List Expr} (ih : ∀ a ∈ xs, ∀ b, a.same b ↔ a = b)
    (ys : List Expr) : sameAll xs ys ↔ xs = ys := by
  induction xs generalizing ys with
  | nil => cases ys <;> simp [sameAll]
  | cons x xs ihs => cases ys <;> simp_all [sameAll]

/-- The test holds exactly of equal trees. -/
theorem same_iff (a b : Expr) : a.same b ↔ a = b := by
  induction a generalizing b with
  | leaf => cases b <;> simp [same]
  | branch _ _ _ _ ihc iht ihf =>
    cases b <;> simp [same, ihc, sameArm_iff_of iht, sameArm_iff_of ihf, and_assoc]
  | compound _ _ _ ih => cases b <;> simp [same, sameAll_iff_of ih, and_assoc]
  | partselect _ _ _ _ ihb ihm ihl => cases b <;> simp [same, ihb, ihm, ihl, and_assoc]
  | pointer _ _ _ ihb ihi => cases b <;> simp [same, ihb, ihi, and_assoc]
  | delay _ _ ih => cases b <;> simp [same, ih]

end Expr

instance : DecidableEq Expr := fun a b => decidable_of_iff _ (Expr.same_iff a b)

end MuxHoist
