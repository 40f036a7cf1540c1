/-
  MuxHoist.Proofs.Signals

  Which constants, signals and other leaves a hoisted tree has. Copies are made of leaves,
  they move from arm to arm and into conditions, and nodes take over their ids; but each
  copy has the value and the id of a leaf of the tree. Main statement: every leaf of a
  hoisted tree is one of the tree, and every leaf of the tree stays, unless a conditional
  of the tree lacks an arm (`leaf_hoist`).
-/
import MuxHoist.Proofs.Marks

namespace MuxHoist

/-- The mark on the leaves with this id and this value. -/
def Mark.leaf (id : Option NodeId) (v : Leaf) : Mark where
  onDelay _ _ := False
  onBranch _ _ := False
  onLeaf j w := j = id ∧ w = v

namespace Expr

theorem in_leafMark_iff {id : Option NodeId} {v : Leaf} {e : Expr} :
    (Mark.leaf id v).In e ↔ Occurs (leaf id v) e := by
  constructor
  · rintro ⟨d, hd, hm⟩
    cases d with
    | leaf =>
      obtain ⟨rfl, rfl⟩ := hm
      exact hd
    | _ => cases hm
  · intro h
    exact ⟨leaf id v, h, rfl, rfl⟩

/-- A leaf of the tree is in the hoisted tree, or what was computed over it has been dropped
    for an arm that is missing there. -/
theorem occurs_leaf_or_gap_of_hoist {e u : Expr} (h : e.hoist = .ok u) {id : Option NodeId}
    {v : Leaf} (he : Occurs (leaf id v) e) : Occurs (leaf id v) u ∨ Mark.gap.In u := by
  have hu : (Mark.leaf id v).In u ∨ Mark.gap.In u :=
    Mark.in_or_gap_of_hoist (fun _ _ => False.elim) (fun _ _ _ _ => False.elim) h
      (in_leafMark_iff.mpr he)
  exact hu.imp_left in_leafMark_iff.mp

/-- No leaf is invented, and none is lost. Every leaf in a hoisted tree is in the tree, with
    the same id and the same value; and if no conditional in the tree lacks an arm, every
    leaf in the tree is in the hoisted tree. -/
theorem leaf_hoist {e u : Expr} (h : e.hoist = .ok u) :
    (∀ id v, Occurs (leaf id v) u → Occurs (leaf id v) e) ∧
      ((∀ d, Occurs d e → d.lacksArm = false) →
        ∀ id v, Occurs (leaf id v) e → Occurs (leaf id v) u) := by
  refine ⟨fun id v hv => ?_, fun hfull id v hv => ?_⟩
  · exact in_leafMark_iff.mp
      (Mark.in_of_hoist (fun _ _ => False.elim) (fun _ _ _ _ => False.elim) h
        (in_leafMark_iff.mpr hv))
  · rcases occurs_leaf_or_gap_of_hoist h hv with hu | hgap
    · exact hu
    · -- A missing arm in the hoisted tree would be one of the tree, which has none.
      exact absurd (in_gap_of_hoist h hgap) (not_in_gap_iff.mpr hfull)

/-- An element of a range, with a conditional base and a conditional index. The bounds are
    copied to four places, the condition and the leaves of the base to two, and every copy
    takes its id from a leaf of the base; the leaves are still those of the tree. -/
theorem leaf_hoist_element :
    let signal (n : UInt64) (name : String) : Expr := .leaf (some ⟨n⟩) (.terminal name)
    let high : Expr := .leaf none (.evalValue 7 32)
    let low : Expr := .leaf none (.constant "0")
    let unknown : Expr := .leaf (some ⟨6⟩) .undefined
    let driven : Expr := .delay (some ⟨5⟩) (signal 5 "d")
    let range (id : NodeId) (b : Expr) : Expr := .partselect (some id) b high low
    let element : Expr := .pointer (some ⟨9⟩)
      (range ⟨8⟩ (.branch (some ⟨4⟩) (signal 1 "c") (some (signal 2 "a")) (some (signal 3 "b"))))
      (.branch (some ⟨7⟩) driven (some unknown) (some (.leaf none .highImpedance)))
    let chosen (i : Expr) : Expr := .branch (some ⟨4⟩) (signal 1 "c")
      (some (.pointer (some ⟨2⟩) (range ⟨2⟩ (signal 2 "a")) i))
      (some (.pointer (some ⟨3⟩) (range ⟨3⟩ (signal 3 "b")) i))
    let hoisted : Expr := .branch (some ⟨7⟩) driven
      (some (chosen unknown)) (some (chosen (.leaf none .highImpedance)))
    element.hoist = .ok hoisted ∧
      ∀ id v, Occurs (leaf id v) hoisted ↔ Occurs (leaf id v) element := by
  intro signal high low unknown driven range element chosen hoisted
  have hok : element.hoist = .ok hoisted := by decide +kernel
  have hfull : ∀ d, Occurs d element → d.lacksArm = false := by
    rw [← not_in_gap_iff]
    simp [element, range, driven, unknown, high, low, signal, Mark.in_pointer_iff,
      Mark.in_partselect_iff, Mark.in_delay_iff, Mark.in_branch_iff, Mark.not_in_leaf, Mark.gap]
  obtain ⟨hfrom, hto⟩ := leaf_hoist hok
  exact ⟨hok, fun id v => ⟨hfrom id v, hto hfull id v⟩⟩

end Expr

end MuxHoist
