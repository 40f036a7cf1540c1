/-
  MuxHoist.Proofs.FirstFault

  Which fault is reported where a tree has several. Hoisting visits the parts of a
  node in an order of its own, not that in which they are written, and then the
  node itself; the first part select with an exposed bound on this walk ends it.
  Main statement: the fault of a tree is the one that the first such part select
  raises, told from its hoisted parts and its own id (`hoist_eq_error_iff_first`).
-/
import MuxHoist.Proofs.Failure

namespace MuxHoist

namespace Expr

/-! ## The walk -/

mutual

/-- The nodes of a tree as hoisting visits them, each after its parts. The arms come
    before the condition, the bounds before the base, and the index before what it
    points into. -/
def walk : Expr → List Expr
  | .leaf id v => [.leaf id v]
  | .branch id c t f => armWalk t ++ (armWalk f ++ (c.walk ++ [.branch id c t f]))
  | .compound id k xs => operandsWalk xs ++ [.compound id k xs]
  | .partselect id b m l => m.walk ++ (l.walk ++ (b.walk ++ [.partselect id b m l]))
  | .pointer id b i => i.walk ++ (b.walk ++ [.pointer id b i])
  | .delay id e => e.walk ++ [.delay id e]

/-- The nodes of an arm, none if it is missing. -/
def armWalk : Option Expr → List Expr
  | none => []
  | some e => e.walk

/-- The nodes of operands, from left to right. -/
def operandsWalk : List Expr → List Expr
  | [] => []
  | e :: es => e.walk ++ operandsWalk es

end

/-! ## What a walk settles -/

/-- The walk decides the result: a success if no part select on it has an exposed
    bound, and otherwise the fault that the first of them raises. -/
def Settles {α : Type} (visited : List Expr) (x : Except TreeError α) : Prop :=
  match visited.find? hasExposedBound with
  | none => ∃ a, x = .ok a
  | some d => ∃ err, x = .error err ∧ d.Raises err

section

variable {α β : Type} {visited : List Expr} {x : Except TreeError α}

theorem settles_ok (a : α) : Settles [] (.ok a) := ⟨a, rfl⟩

/-- A walk goes on only as long as it has met no fault. -/
theorem settles_bind {k : α → Except TreeError β} {next : List Expr} (hx : Settles visited x)
    (hk : ∀ a, x = .ok a → Settles next (k a)) : Settles (visited ++ next) (x >>= k) := by
  unfold Settles at hx ⊢
  rw [List.find?_append]
  cases hfirst : visited.find? hasExposedBound with
  | none =>
    rw [hfirst] at hx
    obtain ⟨a, rfl⟩ := hx
    exact hk a rfl
  | some d =>
    rw [hfirst] at hx
    obtain ⟨err, rfl, hraises⟩ := hx
    exact ⟨err, rfl, hraises⟩

/-- A node whose bounds are not exposed adds no fault to the walk. -/
theorem settles_node {e : Expr} (he : e.hasExposedBound = false) (a : α) :
    Settles [e] (.ok a) := by
  unfold Settles
  rw [List.find?_cons_of_neg (by rw [he]; exact Bool.false_ne_true), List.find?_nil]
  exact ⟨a, rfl⟩

end

/-! ## Nodes -/

/-- Once its parts are hoisted, a part select settles its own check of the bounds. -/
theorem settles_checkBounds (id : Option NodeId) {b m l b' m' l' : Expr} (hb : b.hoist = .ok b')
    (hm : m.hoist = .ok m') (hl : l.hoist = .ok l') (u : Expr) :
    Settles [partselect id b m l]
      (if m'.isBranch || l'.isBranch then .error (.conditionalBound id b' m' l') else .ok u) := by
  have hbound : (partselect id b m l).hasExposedBound = (m'.isBranch || l'.isBranch) := by
    rw [hasExposedBound, isBranch_of_hoist hm, isBranch_of_hoist hl]
  by_cases hcond : (m'.isBranch || l'.isBranch) = true
  · rw [if_pos hcond]
    unfold Settles
    rw [List.find?_cons_of_pos (hbound.trans hcond)]
    exact ⟨_, rfl, id, b, m, l, b', m', l', rfl, hb, hm, hl, hcond, rfl⟩
  · rw [if_neg hcond]
    exact settles_node (hbound.trans (Bool.not_eq_true _ ▸ hcond)) u

theorem settles_hoistArm {a : Option Expr} (ih : ∀ e ∈ a, Settles e.walk e.hoist) :
    Settles (armWalk a) (hoistArm a) := by
  cases a with
  | none => exact settles_ok none
  | some e =>
    have hstep := settles_bind (ih e rfl) fun u _ => settles_ok (some u)
    rw [List.append_nil] at hstep
    exact hstep

theorem settles_hoistAll {xs : List Expr} (ih : ∀ x ∈ xs, Settles x.walk x.hoist) :
    Settles (operandsWalk xs) (hoistAll xs) := by
  induction xs with
  | nil => exact settles_ok []
  | cons x xs ihs =>
    obtain ⟨hx, hxs⟩ := List.forall_mem_cons.mp ih
    have hrest : ∀ u, Settles (operandsWalk xs) (hoistAll xs >>= fun us => .ok (u :: us)) := by
      intro u
      have hstep := settles_bind (ihs hxs) fun us _ => settles_ok (u :: us)
      rw [List.append_nil] at hstep
      exact hstep
    exact settles_bind hx fun u _ => hrest u

/-- The walk of a tree decides its result. -/
theorem settles_hoist (e : Expr) : Settles e.walk e.hoist := by
  induction e with
  | leaf id v => exact settles_node rfl _
  | branch id c t f ihc iht ihf =>
    exact settles_bind (settles_hoistArm iht) fun _ _ =>
      settles_bind (settles_hoistArm ihf) fun _ _ => settles_bind ihc fun _ _ => settles_node rfl _
  | compound id k xs ih => exact settles_bind (settles_hoistAll ih) fun _ _ => settles_node rfl _
  | partselect id b m l ihb ihm ihl =>
    exact settles_bind ihm fun _ hm => settles_bind ihl fun _ hl => settles_bind ihb fun _ hb =>
      settles_checkBounds id hb hm hl _
  | pointer id b i ihb ihi =>
    exact settles_bind ihi fun _ _ => settles_bind ihb fun _ _ => settles_node rfl _
  | delay id e ih => exact settles_bind ih fun _ _ => settles_node rfl _

/-! ## The fault of a tree -/

/-- A tree fails with a fault exactly if, of the part selects with an exposed bound, the
    first one on the walk raises it. All parts of that one can be hoisted; the fault is
    one of format and reports the hoisted parts and the part select's own id. -/
theorem hoist_eq_error_iff_first (e : Expr) (err : TreeError) :
    e.hoist = .error err ↔
      ∃ id b m l b' m' l',
        e.walk.find? hasExposedBound = some (.partselect id b m l) ∧
        b.hoist = .ok b' ∧ m.hoist = .ok m' ∧ l.hoist = .ok l' ∧
        (m'.isBranch || l'.isBranch) = true ∧
        err = .conditionalBound id b' m' l' ∧ err.category = .format ∧
        err.message = "MSB and LSB of a Partselect must not be conditional; got msb: "
          ++ m'.kind.name ++ ", lsb: " ++ l'.kind.name
          ++ " in " ++ b'.text ++ "[" ++ m'.text ++ ":" ++ l'.text ++ "]"
          ++ " (" ++ TreeError.idText id ++ ")" := by
  have hsettles := settles_hoist e
  unfold Settles at hsettles
  constructor
  · intro herr
    cases hfirst : e.walk.find? hasExposedBound with
    | none =>
      rw [hfirst] at hsettles
      obtain ⟨u, hu⟩ := hsettles
      rw [hu] at herr
      cases herr
    | some d =>
      rw [hfirst] at hsettles
      obtain ⟨err', herr', id, b, m, l, b', m', l', rfl, hb, hm, hl, hcond, rfl⟩ := hsettles
      obtain rfl : TreeError.conditionalBound id b' m' l' = err :=
        Except.error.inj (herr'.symm.trans herr)
      exact ⟨id, b, m, l, b', m', l', rfl, hb, hm, hl, hcond, rfl, rfl, rfl⟩
  · rintro ⟨id, b, m, l, b', m', l', hfirst, hb, hm, hl, -, rfl, -, -⟩
    rw [hfirst] at hsettles
    obtain ⟨err', herr, id, b, m, l, b₁, m₁, l₁, heq, hb₁, hm₁, hl₁, -, rfl⟩ := hsettles
    -- The parts that the fault reports are what hoisting made of the parts.
    cases heq
    cases hb.symm.trans hb₁
    cases hm.symm.trans hm₁
    cases hl.symm.trans hl₁
    exact herr

/-- Of four faulty part selects the one in an arm of the index is met first: before that
    in the condition beside it, that in the base, and that around them all. -/
example :
    let x (n : UInt64) : Expr := .leaf (some ⟨n⟩) (.terminal "x")
    let choice (n : UInt64) : Expr := .branch (some ⟨n⟩) (x 1) (some (x 2)) none
    let faulty (n : UInt64) (b : Expr) : Expr := .partselect (some ⟨n⟩) b (x 3) (choice n)
    let index : Expr := .branch none (faulty 6 (x 4)) none (some (faulty 7 (x 4)))
    (faulty 9 (.pointer none (faulty 8 (x 5)) index)).hoist
      = .error (.conditionalBound (some ⟨7⟩) (x 4) (x 3) (choice 7)) := by
  decide +kernel

end Expr

end MuxHoist
