/-
  MuxHoist.Proofs.SinglePass

  What it means to join operands in one pass from left to right. The laws of such a
  pass (`IsPass`) leave room for one function only, `Decision.scan`; by it the
  conditionals, the flat nodes and the missing arms of the joined tree are told from
  those of the operands. Main statement: operators and concatenations over any
  operands, hoisted or not, are joined in such a pass (`operator_concat_single_pass`).
-/
import MuxHoist.Decision.Extend
import MuxHoist.Proofs.Outcomes

namespace MuxHoist

/-! ## Missing arms -/

namespace Expr

mutual

/-- For each missing arm of the decision tree the conditions that lead to it, outermost
    first. -/
def gaps : Expr → List (List Guard)
  | .branch _ c t f => (armGaps t).map (⟨c, true⟩ :: ·) ++ (armGaps f).map (⟨c, false⟩ :: ·)
  | _ => []

/-- The same of an arm; a missing arm is reached under no further condition. -/
def armGaps : Option Expr → List (List Guard)
  | none => [[]]
  | some e => e.gaps

end

/-- A tree that is not conditional has no arm to miss. -/
theorem gaps_of_not_isBranch {e : Expr} (h : e.isBranch = false) : e.gaps = [] := by
  cases e with
  | branch => cases h
  | _ => rfl

/-- Grafting keeps the missing arms, and each copy has those of its own behind the
    conditions that lead to it. -/
theorem mem_gaps_graft (g : Expr → Expr) (e : Expr) (gs : List Guard) :
    gs ∈ (e.graft g).gaps ↔
      gs ∈ e.gaps ∨ ∃ l ∈ e.guardedLeaves, ∃ hs ∈ (g l.expr).gaps, gs = l.guards ++ hs := by
  induction e generalizing gs with
  | branch id c t f _ iht ihf =>
    -- Behind an arm's own condition comes what is missing in the arm, or in a copy there.
    have harm : ∀ (p : Bool) (a : Option Expr),
        (∀ e ∈ a, ∀ gs, gs ∈ (e.graft g).gaps ↔
          gs ∈ e.gaps ∨ ∃ l ∈ e.guardedLeaves, ∃ hs ∈ (g l.expr).gaps, gs = l.guards ++ hs) →
        (gs ∈ (armGaps (a.map (graft g))).map (⟨c, p⟩ :: ·) ↔
          gs ∈ (armGaps a).map (⟨c, p⟩ :: ·) ∨
            ∃ l ∈ (armLeaves a).map (GuardedLeaf.after [⟨c, p⟩]), ∃ hs ∈ (g l.expr).gaps,
              gs = l.guards ++ hs) := by
      intro p a ih
      cases a with
      | none => simp [armGaps, armLeaves]
      | some e =>
        simp only [Option.map_some, armGaps, armLeaves, List.mem_map, ih e rfl]
        constructor
        · rintro ⟨gs, hgs | ⟨l, hl, hs, hhs, rfl⟩, rfl⟩
          · exact .inl ⟨gs, hgs, rfl⟩
          · exact .inr ⟨l.after [⟨c, p⟩], ⟨l, hl, rfl⟩, hs, hhs, rfl⟩
        · rintro (⟨gs, hgs, rfl⟩ | ⟨_, ⟨l, hl, rfl⟩, hs, hhs, rfl⟩)
          · exact ⟨gs, .inl hgs, rfl⟩
          · exact ⟨l.guards ++ hs, .inr ⟨l, hl, hs, hhs, rfl⟩, rfl⟩
    rw [graft_branch, gaps, gaps, guardedLeaves_branch, List.mem_append, List.mem_append,
      harm true t iht, harm false f ihf]
    simp only [List.mem_append, or_and_right, exists_or]
    exact or_or_or_comm
  | _ =>
    rw [graft_of_not_isBranch rfl, guardedLeaves_of_not_isBranch rfl]
    simp [gaps]

/-- The same of a computation whose copies take ids. -/
theorem mem_gaps_computeOver (e : Expr) (id : Option NodeId) (g : Option NodeId → Expr → Expr)
    (gs : List Guard) :
    gs ∈ (e.computeOver id g).gaps ↔
      gs ∈ e.gaps ∨ ∃ l ∈ e.guardedLeaves,
        ∃ hs ∈ (g (if e.isBranch then l.expr.id else id) l.expr).gaps, gs = l.guards ++ hs := by
  cases he : e.isBranch with
  | true =>
    rw [computeOver, if_pos he, mem_gaps_graft]
    rfl
  | false =>
    rw [computeOver_of_not_isBranch he, gaps_of_not_isBranch he, guardedLeaves_of_not_isBranch he]
    simp

end Expr

/-! ## Laws of a pass -/

namespace Decision

/-- The laws of a pass from left to right. It has in hand an id and the operands that are
    chosen, and takes the others one by one; where none is left, it makes a flat node of
    what it has. -/
structure IsPass (k : Combiner) (go : Option NodeId → List Expr → List Expr → Expr) : Prop where
  nil : ∀ id done, go id done [] = .compound id k done
  /-- An operand that is not conditional is chosen as it stands. -/
  plain : ∀ id done x rest, x.isBranch = false → go id done (x :: rest) = go id (done ++ [x]) rest
  /-- A conditional operand stays a decision tree with its conditions, ids and missing
      arms. The pass goes on at each of its leaves, with that leaf chosen and its id in
      hand. -/
  conditional : ∀ id done x rest, x.isBranch = true →
    go id done (x :: rest) = x.graft fun l => go l.id (done ++ [l]) rest

theorem isPass_scan (k : Combiner) : IsPass k (scan k) where
  nil _ _ := rfl
  plain id done x rest hx := by rw [scan, Expr.computeOver_of_not_isBranch hx]
  conditional id done x rest hx := by rw [scan, Expr.computeOver, if_pos hx]

/-- The laws determine the pass. -/
theorem isPass_iff {k : Combiner} {go : Option NodeId → List Expr → List Expr → Expr} :
    IsPass k go ↔ go = scan k := by
  constructor
  · intro h
    funext id done rest
    -- The operands to come are used up one by one, whatever is in hand by then.
    induction rest generalizing id done with
    | nil => rw [h.nil, scan]
    | cons x rest ih =>
      cases hx : x.isBranch with
      | true =>
        rw [h.conditional id done x rest hx, (isPass_scan k).conditional id done x rest hx]
        simp only [ih]
      | false => rw [h.plain id done x rest hx, (isPass_scan k).plain id done x rest hx, ih]
  · rintro rfl
    exact isPass_scan k

/-! ## What a pass comes to -/

/-- Operands that are not conditional are chosen one after the other. -/
theorem scan_append_of_not_isBranch (k : Combiner) (id : Option NodeId) (done : List Expr)
    {before : List Expr} (h : ∀ x ∈ before, x.isBranch = false) (rest : List Expr) :
    scan k id done (before ++ rest) = scan k id (done ++ before) rest := by
  induction before generalizing done with
  | nil => rw [List.append_nil, List.nil_append]
  | cons x before ih =>
    obtain ⟨hx, hbefore⟩ := List.forall_mem_cons.mp h
    rw [List.cons_append, (isPass_scan k).plain id done x _ hx, ih _ hbefore, List.append_assoc,
      List.singleton_append]

/-- An arm is missing exactly where, leaves being chosen from some operands, the decision
    tree of the next one lacks an arm. -/
theorem mem_gaps_scan (k : Combiner) (id : Option NodeId) (done rest : List Expr)
    (gs : List Guard) :
    gs ∈ (scan k id done rest).gaps ↔
      ∃ before x after, rest = before ++ x :: after ∧
        ∃ ls ∈ choices (before.map Expr.guardedLeaves), ∃ hs ∈ x.gaps,
          gs = ls.flatMap (·.guards) ++ hs := by
  induction rest generalizing id done gs with
  | nil => simp [scan, Expr.gaps]
  | cons x rest ih =>
    rw [scan, Expr.mem_gaps_computeOver]
    simp only [ih]
    constructor
    · rintro (hgs | ⟨l, hl, hs, ⟨before, y, after, rfl, ls, hls, hs, hhs, rfl⟩, rfl⟩)
      · exact ⟨[], x, rest, rfl, [], List.mem_singleton_self [], gs, hgs, rfl⟩
      · refine ⟨x :: before, y, after, rfl, l :: ls, ?_, hs, hhs, ?_⟩
        · exact List.mem_flatMap.mpr ⟨l, hl, List.mem_map_of_mem hls⟩
        · rw [List.flatMap_cons, List.append_assoc]
    · rintro ⟨before, y, after, hsplit, ls, hls, hs, hhs, rfl⟩
      -- Either `x` itself lacks the arm, or a leaf of `x` is among those chosen before.
      cases before with
      | nil =>
        cases hsplit
        rw [List.mem_singleton.mp hls]
        exact .inl hhs
      | cons b before =>
        cases hsplit
        obtain ⟨l, hl, hmap⟩ := List.mem_flatMap.mp hls
        obtain ⟨ls', hls', rfl⟩ := List.mem_map.mp hmap
        refine .inr ⟨l, hl, _, ⟨before, y, after, rfl, ls', hls', hs, hhs, rfl⟩, ?_⟩
        rw [List.flatMap_cons, List.append_assoc]

/-- The tree that one pass over operands makes. -/
structure SinglePass (k : Combiner) (id : Option NodeId) (xs : List Expr) (u : Expr) : Prop where
  /-- The pass starts with the given id and nothing chosen. -/
  eq_scan : u = scan k id [] xs
  /-- The leftmost conditional operand comes outermost. Nothing behind it is looked at
      before its own decision tree is exhausted. -/
  outermost : ∀ before j c t f rest, xs = before ++ .branch j c t f :: rest →
    (∀ x ∈ before, x.isBranch = false) →
    u = .branch j c (t.map (Expr.graft fun l => scan k l.id (before ++ [l]) rest))
      (f.map (Expr.graft fun l => scan k l.id (before ++ [l]) rest))
  /-- The flat nodes are made of a leaf of each operand, in every way and each leaf in its
      operand's place. A flat node stands below the conditions of its leaves, those of the
      first operand outermost, and has the id of the leaf chosen from the rightmost
      conditional operand. -/
  leaves : u.guardedLeaves = (choices (xs.map Expr.guardedLeaves)).map fun ls =>
    ⟨ls.flatMap (·.guards),
      .compound (GuardedLeaf.lastExposedId id (xs.map Expr.isBranch) ls) k (ls.map (·.expr))⟩
  /-- An arm is missing exactly where the tree of an operand lacks one, below the
      conditions of the leaves that are chosen from the operands before it. -/
  missing : ∀ gs, gs ∈ u.gaps ↔
    ∃ before x after, xs = before ++ x :: after ∧
      ∃ ls ∈ choices (before.map Expr.guardedLeaves), ∃ hs ∈ x.gaps,
        gs = ls.flatMap (·.guards) ++ hs

theorem singlePass_combine (k : Combiner) (id : Option NodeId) (xs : List Expr) :
    SinglePass k id xs (combine k id xs) where
  eq_scan := combine_eq_scan k id xs
  outermost := by
    rintro before j c t f rest rfl hbefore
    rw [combine_eq_scan, scan_append_of_not_isBranch k id [] hbefore, scan,
      Expr.computeOver_branch, List.nil_append]
  leaves := by
    rw [combine_eq_scan, Expr.guardedLeaves_scan]
    rfl
  missing gs := by rw [combine_eq_scan, mem_gaps_scan]

/-- Operators and concatenations join any operands, hoisted or not, in one pass from left
    to right, and the laws of such a pass admit no other result. -/
theorem operator_concat_single_pass :
    (∀ k go, IsPass k go ↔ go = scan k) ∧
      ∀ id xs, (∀ o, SinglePass (.op o) id xs (operator o id xs)) ∧
        SinglePass .concat id xs (concat id xs) :=
  ⟨fun _ _ => isPass_iff, fun id xs =>
    ⟨fun o => singlePass_combine (.op o) id xs, singlePass_combine .concat id xs⟩⟩

/-- The tree of the second operand is exhausted, down to the condition `d`, before the third
    is looked at, and where it lacks an arm nothing is joined. Each flat node has the id
    of its third operand. -/
theorem operator_concat_single_pass_nested :
    let c : Expr := .leaf none (.terminal "c")
    let d : Expr := .leaf none (.terminal "d")
    let x (n : UInt64) : Expr := .leaf (some ⟨n⟩) (.terminal "x")
    let nested : Expr := .branch (some ⟨4⟩) c (some (.branch (some ⟨5⟩) d (some (x 1)) none)) none
    let last : Expr := .branch (some ⟨6⟩) c (some (x 2)) (some (x 3))
    let bits (n : UInt64) : Expr := .compound (some ⟨n⟩) .concat [x 7, x 1, x n]
    let joined : Expr := concat (some ⟨9⟩) [x 7, nested, last]
    joined = .branch (some ⟨4⟩) c (some (.branch (some ⟨5⟩) d
        (some (.branch (some ⟨6⟩) c (some (bits 2)) (some (bits 3)))) none)) none ∧
      joined.guardedLeaves = [⟨[⟨c, true⟩, ⟨d, true⟩, ⟨c, true⟩], bits 2⟩,
        ⟨[⟨c, true⟩, ⟨d, true⟩, ⟨c, false⟩], bits 3⟩] ∧
      [⟨c, true⟩, ⟨d, false⟩] ∈ joined.gaps := by
  intro c d x nested last bits joined
  obtain ⟨-, hpass⟩ := operator_concat_single_pass
  obtain ⟨-, hjoined⟩ := hpass (some ⟨9⟩) [x 7, nested, last]
  refine ⟨hjoined.outermost [x 7] _ _ _ _ [last] rfl (by decide), hjoined.leaves, ?_⟩
  -- The missing arm is the false one of `d`, in the operand behind the first.
  exact (hjoined.missing _).mpr
    ⟨[x 7], nested, [last], rfl, [⟨[], x 7⟩], List.mem_singleton_self _, _, .head _, rfl⟩

end Decision

end MuxHoist
