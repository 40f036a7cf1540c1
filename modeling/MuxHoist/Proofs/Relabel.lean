/-
  MuxHoist.Proofs.Relabel

  Ids, operators and leaf values are opaque to hoisting. A relabelling maps each
  of them by a function of its own, which may send different ones to the same.
  It moves no node, so it commutes with every operation on decision trees, and
  with hoisting as a whole, faults included (`hoist_relabel`). Main statement:
  a relabelled tree hoists to the relabelled result and fails with the relabelled
  fault, and no id is in a result that was not in the tree (`hoist_opaque`).
-/
import MuxHoist.Proofs.Failure

namespace MuxHoist

/-- New ids, operators and leaf values for old ones. A node without an id may get
    one, and may lose the one it has. -/
structure Relabelling where
  onId : Option NodeId → Option NodeId
  onOperator : Operator → Operator
  onLeaf : Leaf → Leaf

namespace Relabelling

/-- The relabelling that changes ids only. -/
def ids (f : Option NodeId → Option NodeId) : Relabelling := ⟨f, id, id⟩

/-- The combiner with its operator mapped. -/
def combiner (r : Relabelling) : Combiner → Combiner
  | .op o => .op (r.onOperator o)
  | .concat => .concat

end Relabelling

namespace Expr

mutual

/-- The tree with every id, operator and leaf value mapped. -/
def relabel (r : Relabelling) : Expr → Expr
  | .leaf id v => .leaf (r.onId id) (r.onLeaf v)
  | .branch id c t f => .branch (r.onId id) (c.relabel r) (relabelArm r t) (relabelArm r f)
  | .compound id k xs => .compound (r.onId id) (r.combiner k) (relabelAll r xs)
  | .partselect id b m l => .partselect (r.onId id) (b.relabel r) (m.relabel r) (l.relabel r)
  | .pointer id b x => .pointer (r.onId id) (b.relabel r) (x.relabel r)
  | .delay id e => .delay (r.onId id) (e.relabel r)

/-- The arm relabelled; a missing arm stays missing. -/
def relabelArm (r : Relabelling) : Option Expr → Option Expr
  | none => none
  | some e => some (e.relabel r)

/-- All operands relabelled. -/
def relabelAll (r : Relabelling) : List Expr → List Expr
  | [] => []
  | e :: es => e.relabel r :: relabelAll r es

end

section

variable (r : Relabelling)

theorem relabelArm_eq_map (a : Option Expr) : relabelArm r a = a.map (relabel r) := by
  cases a <;> rfl

theorem relabelAll_eq_map (es : List Expr) : relabelAll r es = es.map (relabel r) := by
  induction es with
  | nil => rfl
  | cons e es ih => rw [relabelAll, ih, List.map_cons]

@[simp] theorem id_relabel (e : Expr) : (e.relabel r).id = r.onId e.id := by
  cases e <;> rfl

@[simp] theorem isBranch_relabel (e : Expr) : (e.relabel r).isBranch = e.isBranch := by
  cases e <;> rfl

theorem withId_relabel (id : Option NodeId) (e : Expr) :
    (e.relabel r).withId (r.onId id) = (e.withId id).relabel r := by
  cases e <;> rfl

/-- The part of a relabelled node is the part relabelled. -/
theorem part?_relabel (e : Expr) (i : Nat) :
    (e.relabel r).part? i = (e.part? i).map (relabel r) := by
  cases e with
  | compound id k xs =>
    rw [relabel, relabelAll_eq_map]
    exact List.getElem?_map
  | branch id c t f =>
    rcases i with _ | _ | _ | i
    · rfl
    · exact relabelArm_eq_map r t
    · exact relabelArm_eq_map r f
    · rfl
  | _ => rcases i with _ | _ | _ | i <;> rfl

theorem subtree?_relabel (e : Expr) (p : Position) :
    (e.relabel r).subtree? p = (e.subtree? p).map (relabel r) := by
  induction p generalizing e with
  | nil => rfl
  | cons i p ih =>
    rw [subtree?, subtree?, part?_relabel]
    cases e.part? i with
    | none => rfl
    | some c => exact ih c

/-! ## Operations on decision trees -/

theorem graft_relabel {g g' : Expr → Expr} (h : ∀ l, g' (l.relabel r) = (g l).relabel r)
    (e : Expr) : (e.relabel r).graft g' = (e.graft g).relabel r := by
  induction e with
  | branch id c t f _ iht ihf =>
    have harm : ∀ a : Option Expr,
        (∀ e ∈ a, (e.relabel r).graft g' = (e.graft g).relabel r) →
        (relabelArm r a).map (graft g') = relabelArm r (a.map (graft g)) := by
      intro a ih
      cases a with
      | none => rfl
      | some e => exact congrArg some (ih e rfl)
    rw [graft_branch, relabel, relabel, graft_branch, harm t iht, harm f ihf]
  | _ => exact h _

theorem computeOver_relabel {g g' : Option NodeId → Expr → Expr}
    (h : ∀ id l, g' (r.onId id) (l.relabel r) = (g id l).relabel r) (id : Option NodeId)
    (e : Expr) : (e.relabel r).computeOver (r.onId id) g' = (e.computeOver id g).relabel r := by
  unfold computeOver
  rw [isBranch_relabel]
  split
  · refine graft_relabel r (fun l => ?_) e
    rw [id_relabel]
    exact h l.id l
  · exact h id e

theorem select_relabel (c : Expr) (t f : Option Expr) :
    (c.relabel r).select (relabelArm r t) (relabelArm r f) = (c.select t f).relabel r := by
  refine graft_relabel r (fun l => ?_) c
  rw [id_relabel, relabel]

theorem scan_relabel (k : Combiner) (id : Option NodeId) (done rest : List Expr) :
    Decision.scan (r.combiner k) (r.onId id) (relabelAll r done) (relabelAll r rest)
      = (Decision.scan k id done rest).relabel r := by
  induction rest generalizing id done with
  | nil => rfl
  | cons x rest ih =>
    rw [relabelAll, Decision.scan, Decision.scan]
    refine computeOver_relabel r (fun id l => ?_) id x
    rw [← ih, relabelAll_eq_map r (done ++ [l]), List.map_append, relabelAll_eq_map r done]
    rfl

end

end Expr

/-! ## Results -/

/-- The fault with the ids, operators and leaf values that it reports mapped. -/
def TreeError.relabel (r : Relabelling) : TreeError → TreeError
  | .conditionalBound id b m l =>
    .conditionalBound (r.onId id) (b.relabel r) (m.relabel r) (l.relabel r)
  | err => err

namespace Relabelling

/-- The result of a step relabelled, where `g` relabels what the step yields. -/
def result {α : Type} (r : Relabelling) (g : α → α) : Except TreeError α → Except TreeError α
  | .ok a => .ok (g a)
  | .error err => .error (err.relabel r)

/-- Two steps commute with a relabelling when each of them does. -/
theorem result_bind {α β : Type} {r : Relabelling} {g : α → α} {h : β → β}
    {x x' : Except TreeError α} {k k' : α → Except TreeError β} (hx : x' = r.result g x)
    (hk : ∀ a, k' (g a) = r.result h (k a)) : (x' >>= k') = r.result h (x >>= k) := by
  subst hx
  cases x with
  | error err => rfl
  | ok a => exact hk a

end Relabelling

namespace Expr

section

variable (r : Relabelling)

theorem hoistArm_relabel {a : Option Expr}
    (h : ∀ e ∈ a, (e.relabel r).hoist = r.result (relabel r) e.hoist) :
    hoistArm (relabelArm r a) = r.result (relabelArm r) (hoistArm a) := by
  cases a with
  | none => rfl
  | some e => exact Relabelling.result_bind (h e rfl) fun _ => rfl

theorem hoistAll_relabel {xs : List Expr}
    (h : ∀ x ∈ xs, (x.relabel r).hoist = r.result (relabel r) x.hoist) :
    hoistAll (relabelAll r xs) = r.result (relabelAll r) (hoistAll xs) := by
  induction xs with
  | nil => rfl
  | cons x xs ih =>
    refine Relabelling.result_bind (h x List.mem_cons_self) fun _ => ?_
    exact Relabelling.result_bind (ih fun y hy => h y (List.mem_cons_of_mem x hy)) fun _ => rfl

/-- Hoisting commutes with relabelling: a relabelled tree has the result of the tree,
    relabelled. -/
theorem hoist_relabel (e : Expr) : (e.relabel r).hoist = r.result (relabel r) e.hoist := by
  induction e with
  | leaf id v => rfl
  | branch id c t f ihc iht ihf =>
    refine Relabelling.result_bind (hoistArm_relabel r iht) fun t' => ?_
    refine Relabelling.result_bind (hoistArm_relabel r ihf) fun f' => ?_
    refine Relabelling.result_bind ihc fun c' => congrArg Except.ok ?_
    rw [select_relabel, withId_relabel]
  | compound id k xs ih =>
    refine Relabelling.result_bind (hoistAll_relabel r ih) fun ys => congrArg Except.ok ?_
    rw [Decision.combine_eq_scan, Decision.combine_eq_scan]
    exact scan_relabel r k id [] ys
  | partselect id b m l ihb ihm ihl =>
    refine Relabelling.result_bind ihm fun m' => ?_
    refine Relabelling.result_bind ihl fun l' => ?_
    refine Relabelling.result_bind ihb fun b' => ?_
    -- Relabelling makes no bound conditional, so the check falls out the same.
    rw [isBranch_relabel, isBranch_relabel]
    cases hcond : m'.isBranch || l'.isBranch with
    | true => rfl
    | false => exact congrArg Except.ok (computeOver_relabel r (fun _ _ => rfl) id b')
  | pointer id b x ihb ihx =>
    refine Relabelling.result_bind ihx fun x' => ?_
    refine Relabelling.result_bind ihb fun b' => congrArg Except.ok ?_
    refine computeOver_relabel r (fun id x => ?_) id x'
    exact computeOver_relabel r (fun _ _ => rfl) id b'
  | delay id e ih => exact Relabelling.result_bind ih fun _ => rfl

end

/-! ## Changes of ids -/

section

variable (f : Option NodeId → Option NodeId)

@[simp] theorem combiner_ids (k : Combiner) : (Relabelling.ids f).combiner k = k := by
  cases k <;> rfl

theorem kind_relabel_ids (e : Expr) : (e.relabel (.ids f)).kind = e.kind := by
  cases e with
  | compound id k xs => exact congrArg Combiner.kind (combiner_ids f k)
  | _ => rfl

/-- Ids are not shown. -/
theorem text_relabel_ids (e : Expr) : (e.relabel (.ids f)).text = e.text := by
  induction e with
  | leaf => rfl
  | branch id c t g ihc iht ihg =>
    have harm : ∀ a : Option Expr, (∀ e ∈ a, (e.relabel (.ids f)).text = e.text) →
        armText (relabelArm (.ids f) a) = armText a := by
      intro a ih
      cases a with
      | none => rfl
      | some e => exact ih e rfl
    rw [relabel, text, text, ihc, harm t iht, harm g ihg]
  | compound id k xs ih =>
    have hxs : (relabelAll (.ids f) xs).map text = xs.map text := by
      rw [relabelAll_eq_map, List.map_map]
      exact List.map_congr_left ih
    rw [relabel, text, text, texts_eq_map, texts_eq_map, hxs, combiner_ids]
  | partselect id b m l ihb ihm ihl => rw [relabel, text, text, ihb, ihm, ihl]
  | pointer id b x ihb ihx => rw [relabel, text, text, ihb, ihx]
  | delay id e ih => rw [relabel, text, text, ih]

/-- Step: of a node whose parts are kept, a change of ids changes the id alone. -/
theorem relabel_ids_eq_withId {e : Expr}
    (hpart : ∀ i c, e.part? i = some c → c.relabel (.ids f) = c) :
    e.relabel (.ids f) = e.withId (f e.id) := by
  cases e with
  | leaf => rfl
  | branch id c t g =>
    have harm : ∀ a : Option Expr, (∀ e, a = some e → e.relabel (.ids f) = e) →
        relabelArm (.ids f) a = a := by
      intro a ha
      cases a with
      | none => rfl
      | some e => exact congrArg some (ha e rfl)
    rw [relabel, hpart 0 c rfl, harm t (hpart 1), harm g (hpart 2)]
    rfl
  | compound id k xs =>
    have hxs : relabelAll (.ids f) xs = xs := by
      rw [relabelAll_eq_map]
      refine (List.map_congr_left fun x hx => ?_).trans (List.map_id xs)
      obtain ⟨i, hi⟩ := List.mem_iff_getElem?.mp hx
      exact hpart i x hi
    rw [relabel, hxs, combiner_ids]
    rfl
  | partselect id b m l =>
    rw [relabel, hpart 0 b rfl, hpart 1 m rfl, hpart 2 l rfl]
    rfl
  | pointer id b x =>
    rw [relabel, hpart 0 b rfl, hpart 1 x rfl]
    rfl
  | delay id e =>
    rw [relabel, hpart 0 e rfl]
    rfl

/-- Run: a change of ids that keeps every id in a tree keeps the tree. -/
theorem relabel_ids_eq_self {e : Expr} (h : ∀ d, Occurs d e → f d.id = d.id) :
    e.relabel (.ids f) = e := by
  induction e using part_induct with
  | node e ih =>
    have hpart : ∀ i c, e.part? i = some c → c.relabel (.ids f) = c :=
      fun i c hc => ih i c hc fun d hd => h d (occurs_of_part? hc hd)
    rw [relabel_ids_eq_withId f hpart, h e (occurs_self e), withId_id]

/-- A relabelling that keeps a tree keeps every id in it. -/
theorem onId_id_of_relabel_eq_self {r : Relabelling} {e d : Expr} (h : e.relabel r = e)
    (hd : Occurs d e) : r.onId d.id = d.id := by
  obtain ⟨p, hp⟩ := hd
  have hsub : (e.relabel r).subtree? p = some (d.relabel r) := by
    rw [subtree?_relabel, hp, Option.map_some]
  rw [h, hp] at hsub
  have hfix : d = d.relabel r := Option.some.inj hsub
  rw [← id_relabel, ← hfix]

end

/-- No id is in a hoisted tree that was not in the tree. -/
theorem exists_occurs_id_of_hoist {e u d : Expr} (h : e.hoist = .ok u) (hd : Occurs d u) :
    ∃ c, Occurs c e ∧ c.id = d.id := by
  by_contra hnone
  -- Give the root's id to everything whose id is not in the tree. This keeps the tree,
  -- hence the hoisted tree too, although it would change the id of `d`.
  have hkeeps : ∃ f : Option NodeId → Option NodeId,
      (∀ c, Occurs c e → f c.id = c.id) ∧ f d.id = e.id := by
    classical
    refine ⟨fun i => if ∃ c, Occurs c e ∧ c.id = i then i else e.id, fun c hc => ?_, ?_⟩
    · exact if_pos ⟨c, hc, rfl⟩
    · exact if_neg hnone
  obtain ⟨f, hf, hfd⟩ := hkeeps
  have hu : u.relabel (.ids f) = u := by
    have hrel := hoist_relabel (.ids f) e
    rw [relabel_ids_eq_self f hf, h] at hrel
    exact (Except.ok.inj hrel).symm
  have hd' : f d.id = d.id := onId_id_of_relabel_eq_self hu hd
  exact hnone ⟨e, occurs_self e, hfd.symm.trans hd'⟩

end Expr

/-! ## Reports -/

namespace TreeError

/-- What a report of conditional bounds says before the id. -/
def boundWords (base msb lsb : Expr) : String :=
  "MSB and LSB of a Partselect must not be conditional; got msb: " ++ msb.kind.name
    ++ ", lsb: " ++ lsb.kind.name
    ++ " in " ++ base.text ++ "[" ++ msb.text ++ ":" ++ lsb.text ++ "]" ++ " ("

theorem message_conditionalBound (id : Option NodeId) (b m l : Expr) :
    (conditionalBound id b m l).message = boundWords b m l ++ idText id ++ ")" := by
  unfold message boundWords
  with_reducible rfl

theorem boundWords_relabel_ids (f : Option NodeId → Option NodeId) (b m l : Expr) :
    boundWords (b.relabel (.ids f)) (m.relabel (.ids f)) (l.relabel (.ids f))
      = boundWords b m l := by
  unfold boundWords
  rw [Expr.kind_relabel_ids, Expr.kind_relabel_ids, Expr.text_relabel_ids,
    Expr.text_relabel_ids, Expr.text_relabel_ids]

end TreeError

namespace Expr

/-- Hoisting does not look at ids, operators and leaf values. Whatever they are mapped to,
    a tree still fails or still succeeds, with the relabelled result; a change of ids
    shows in the report of a fault only where that prints the id; and every id in a
    hoisted tree is that of a node of the tree. -/
theorem hoist_opaque (r : Relabelling) (e : Expr) :
    ((∃ err, e.hoist = .error err) ↔ ∃ err, (e.relabel r).hoist = .error err) ∧
      (∀ u, e.hoist = .ok u → (e.relabel r).hoist = .ok (u.relabel r)) ∧
      (∀ err, e.hoist = .error err → ∃ id b m l words, err = .conditionalBound id b m l ∧
        err.message = words ++ TreeError.idText id ++ ")" ∧
        ∀ f, ∃ err', (e.relabel (.ids f)).hoist = .error err' ∧ err'.category = .format ∧
          err'.message = words ++ TreeError.idText (f id) ++ ")") ∧
      ∀ u, e.hoist = .ok u → ∀ d, Occurs d u → ∃ c, Occurs c e ∧ c.id = d.id := by
  refine ⟨⟨?_, ?_⟩, ?_, ?_, fun u h d hd => exists_occurs_id_of_hoist h hd⟩
  · rintro ⟨err, herr⟩
    exact ⟨err.relabel r, by rw [hoist_relabel, herr, Relabelling.result]⟩
  · rintro ⟨err, herr⟩
    rw [hoist_relabel] at herr
    cases he : e.hoist with
    | error err => exact ⟨err, rfl⟩
    | ok u =>
      rw [he] at herr
      cases herr
  · intro u hu
    rw [hoist_relabel, hu, Relabelling.result]
  · intro err herr
    obtain ⟨d, -, id, _, _, _, b, m, l, -, -, -, -, -, rfl⟩ := exists_raises_of_hoist herr
    refine ⟨id, b, m, l, TreeError.boundWords b m l, rfl,
      TreeError.message_conditionalBound id b m l, fun f => ?_⟩
    refine ⟨.conditionalBound (f id) (b.relabel (.ids f)) (m.relabel (.ids f))
      (l.relabel (.ids f)), ?_, rfl, ?_⟩
    · rw [hoist_relabel, herr]
      rfl
    · rw [TreeError.message_conditionalBound, TreeError.boundWords_relabel_ids]

/-- A sum over a conditional with all its labels merged into one, and a range with a
    conditional bound under new ids. -/
theorem hoist_opaque_merged :
    let c : Expr := .leaf none (.terminal "c")
    let a : Expr := .leaf (some ⟨2⟩) (.terminal "a")
    let choice : Expr := .branch (some ⟨4⟩) c (some a) none
    let sum : Expr := .compound (some ⟨9⟩) (.op .plus) [c, choice]
    let flat : Expr := .compound (some ⟨2⟩) (.op .plus) [c, a]
    let hoisted : Expr := .branch (some ⟨4⟩) c (some flat) none
    let range : Expr := .partselect (some ⟨9⟩) a choice c
    let merge : Relabelling := ⟨fun _ => none, fun _ => .and, fun _ => .undefined⟩
    sum.hoist = .ok hoisted ∧ (sum.relabel merge).hoist = .ok (hoisted.relabel merge) ∧
      (∃ d, Occurs d sum ∧ d.id = some ⟨2⟩) ∧
      range.hoist = .error (.conditionalBound (some ⟨9⟩) a choice c) ∧
      (∃ err, (range.relabel merge).hoist = .error err) ∧
      ∃ err words, (range.relabel (.ids fun _ => none)).hoist = .error err ∧
        err.message = words ++ "None)" ∧
        (TreeError.conditionalBound (some ⟨9⟩) a choice c).message
          = words ++ TreeError.idText (some ⟨9⟩) ++ ")" := by
  intro c a choice sum flat hoisted range merge
  have hok : sum.hoist = .ok hoisted := by decide +kernel
  have herr : range.hoist = .error (.conditionalBound (some ⟨9⟩) a choice c) := by decide +kernel
  obtain ⟨-, hrelabel, -, hids⟩ := hoist_opaque merge sum
  obtain ⟨hfails, -, hreport, -⟩ := hoist_opaque merge range
  obtain ⟨id, b, m, l, words, heq, hwords, hother⟩ := hreport _ herr
  obtain ⟨err, herr', -, hmessage⟩ := hother fun _ => none
  refine ⟨hok, hrelabel hoisted hok, hids hoisted hok flat ⟨[1], rfl⟩, herr,
    hfails.mp ⟨_, herr⟩, err, words, herr', ?_, ?_⟩
  · rw [hmessage, TreeError.idText, String.append_assoc]
    rfl
  · cases heq
    exact hwords

end Expr

end MuxHoist
