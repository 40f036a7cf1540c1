/-
  MuxHoist.Proofs.Recovery

  What an enumeration keeps of a decision tree. The guarded leaves tell its conditions and
  its leaves in order, and the gaps tell its missing arms; only the ids of its conditionals
  are told by neither. Main statements: leaves and gaps together determine the tree up to
  those ids (`withoutBranchIds_eq_iff`), and where no arm is missing the guarded leaves do
  so alone (`guardedLeaves_eq_iff`).
-/
import MuxHoist.Proofs.SinglePass

namespace MuxHoist

/-! ## Joined lists -/

/-- Where a test tells the images of one function from those of another, two lists of such
    images, one after the other, are told apart again. -/
theorem map_append_map_inj {α β : Type} {g h : α → β} (test : β → Bool)
    (hg : ∀ a, test (g a) = true) (hh : ∀ a, test (h a) = false) (hginj : g.Injective)
    (hhinj : h.Injective) {xs xs' ys ys' : List α}
    (heq : xs.map g ++ ys.map h = xs'.map g ++ ys'.map h) : xs = xs' ∧ ys = ys' := by
  have hfirst : ∀ xs ys : List α, (xs.map g ++ ys.map h).filter test = xs.map g := by
    intro xs ys
    simp [List.filter_append, List.filter_map, Function.comp_def, hg, hh]
  have hxs : xs.map g = xs'.map g := by rw [← hfirst xs ys, heq, hfirst]
  rw [hxs] at heq
  exact ⟨List.map_injective_iff.mpr hginj hxs,
    List.map_injective_iff.mpr hhinj (List.append_cancel_left heq)⟩

theorem GuardedLeaf.under_injective (g : Guard) : (GuardedLeaf.under g).Injective := by
  rintro ⟨gs, e⟩ ⟨hs, d⟩ h
  simpa [GuardedLeaf.under] using h

namespace Expr

/-! ## Ids of conditionals -/

mutual

/-- The tree without the ids of the conditionals of its decision tree. Its conditions and
    its leaves stay as they are. -/
def withoutBranchIds : Expr → Expr
  | .branch _ c t f => .branch none c (armWithoutBranchIds t) (armWithoutBranchIds f)
  | e => e

/-- The same of an arm; a missing arm stays missing. -/
def armWithoutBranchIds : Option Expr → Option Expr
  | none => none
  | some e => some e.withoutBranchIds

end

/-- No guard, no leaf and no gap has the id of a conditional of the decision tree. -/
theorem leaves_gaps_withoutBranchIds (e : Expr) :
    e.withoutBranchIds.guardedLeaves = e.guardedLeaves ∧ e.withoutBranchIds.gaps = e.gaps := by
  induction e with
  | branch id c t f _ iht ihf =>
    have harm : ∀ a : Option Expr,
        (∀ e ∈ a, e.withoutBranchIds.guardedLeaves = e.guardedLeaves ∧
          e.withoutBranchIds.gaps = e.gaps) →
        armLeaves (armWithoutBranchIds a) = armLeaves a ∧
          armGaps (armWithoutBranchIds a) = armGaps a := by
      intro a ih
      cases a with
      | none => exact ⟨rfl, rfl⟩
      | some e => exact ih e rfl
    obtain ⟨hlt, hgt⟩ := harm t iht
    obtain ⟨hlf, hgf⟩ := harm f ihf
    rw [withoutBranchIds, guardedLeaves, guardedLeaves, gaps, gaps, hlt, hgt, hlf, hgf]
    exact ⟨rfl, rfl⟩
  | _ => exact ⟨rfl, rfl⟩

/-! ## Routes -/

/-- The conditions that lead to each leaf of the decision tree, and to each missing arm. -/
def routes (e : Expr) : List (List Guard) := e.guardedLeaves.map GuardedLeaf.guards ++ e.gaps

theorem routes_of_not_isBranch {e : Expr} (h : e.isBranch = false) : e.routes = [[]] := by
  rw [routes, guardedLeaves_of_not_isBranch h, gaps_of_not_isBranch h]
  rfl

/-- Every route from a conditional starts at its condition. -/
theorem exists_of_mem_routes_branch {id : Option NodeId} {c : Expr} {t f : Option Expr}
    {gs : List Guard} (h : gs ∈ (branch id c t f).routes) : ∃ p hs, gs = ⟨c, p⟩ :: hs := by
  rw [routes, guardedLeaves, gaps] at h
  simp only [List.map_append, List.map_map, List.mem_append, List.mem_map] at h
  rcases h with (⟨l, -, rfl⟩ | ⟨l, -, rfl⟩) | ⟨hs, -, rfl⟩ | ⟨hs, -, rfl⟩
  · exact ⟨true, l.guards, rfl⟩
  · exact ⟨false, l.guards, rfl⟩
  · exact ⟨true, hs, rfl⟩
  · exact ⟨false, hs, rfl⟩

/-- Only a tree that is not conditional has a route without a condition. -/
theorem isBranch_of_nil_mem_routes {e : Expr} (h : [] ∈ e.routes) : e.isBranch = false := by
  cases e with
  | branch =>
    obtain ⟨_, _, hnil⟩ := exists_of_mem_routes_branch h
    cases hnil
  | _ => rfl

theorem nil_not_mem_gaps (e : Expr) : [] ∉ e.gaps := by
  intro h
  rw [gaps_of_not_isBranch (isBranch_of_nil_mem_routes (List.mem_append_right _ h))] at h
  cases h

/-- Along true arms some end is reached, be it a leaf or a missing arm. -/
theorem exists_mem_routes (e : Expr) : ∃ gs, gs ∈ e.routes := by
  induction e with
  | branch id c t f _ iht _ =>
    cases t with
    | none => exact ⟨[⟨c, true⟩], List.mem_append_right _ List.mem_cons_self⟩
    | some a =>
      obtain ⟨gs, hgs⟩ := iht a rfl
      refine ⟨⟨c, true⟩ :: gs, ?_⟩
      rw [routes, List.mem_append, List.mem_map] at hgs ⊢
      rcases hgs with ⟨l, hl, rfl⟩ | hgs
      · exact .inl ⟨l.under ⟨c, true⟩, List.mem_append_left _ (List.mem_map_of_mem hl), rfl⟩
      · exact .inr (List.mem_append_left _ (List.mem_map_of_mem hgs))
  | _ => exact ⟨[], by rw [routes_of_not_isBranch rfl]; exact List.mem_cons_self⟩

/-! ## Recovery -/

/-- The leaves below a conditional determine those of either arm: the guard of its
    condition tells which arm a leaf is from. -/
theorem armLeaves_inj {c : Expr} {t t' f f' : Option Expr}
    (h : (armLeaves t).map (GuardedLeaf.under ⟨c, true⟩)
        ++ (armLeaves f).map (GuardedLeaf.under ⟨c, false⟩)
      = (armLeaves t').map (GuardedLeaf.under ⟨c, true⟩)
        ++ (armLeaves f').map (GuardedLeaf.under ⟨c, false⟩)) :
    armLeaves t = armLeaves t' ∧ armLeaves f = armLeaves f' :=
  map_append_map_inj (fun l => l.guards.head?.any Guard.polarity) (fun _ => rfl) (fun _ => rfl)
    (GuardedLeaf.under_injective _) (GuardedLeaf.under_injective _) h

theorem armGaps_inj {c : Expr} {t t' f f' : Option Expr}
    (h : (armGaps t).map (⟨c, true⟩ :: ·) ++ (armGaps f).map (⟨c, false⟩ :: ·)
      = (armGaps t').map (⟨c, true⟩ :: ·) ++ (armGaps f').map (⟨c, false⟩ :: ·)) :
    armGaps t = armGaps t' ∧ armGaps f = armGaps f' :=
  map_append_map_inj (fun gs => gs.head?.any Guard.polarity) (fun _ => rfl) (fun _ => rfl)
    List.cons_injective List.cons_injective h

theorem withoutBranchIds_eq_of_not_isBranch {u v : Expr} (hu : u.isBranch = false)
    (hleaves : u.guardedLeaves = v.guardedLeaves) : u.withoutBranchIds = v.withoutBranchIds := by
  rw [guardedLeaves_of_not_isBranch hu] at hleaves
  have hv : v.isBranch = false := by
    refine isBranch_of_nil_mem_routes (List.mem_append_left _ ?_)
    rw [← hleaves]
    exact List.mem_cons_self
  rw [guardedLeaves_of_not_isBranch hv] at hleaves
  cases hleaves
  rfl

/-- Trees with the same leaves and the same gaps are the same but for the ids of the
    conditionals. -/
theorem withoutBranchIds_eq_of_leaves_of_gaps {u v : Expr}
    (hleaves : u.guardedLeaves = v.guardedLeaves) (hgaps : u.gaps = v.gaps) :
    u.withoutBranchIds = v.withoutBranchIds := by
  induction u generalizing v with
  | branch id c t f _ iht ihf =>
    have hroutes : (branch id c t f).routes = v.routes := by rw [routes, routes, hleaves, hgaps]
    obtain ⟨gs, hgs⟩ := exists_mem_routes (branch id c t f)
    obtain ⟨p, hs, rfl⟩ := exists_of_mem_routes_branch hgs
    rw [hroutes] at hgs
    -- A missing arm leaves a gap right behind the condition, which no tree in its place has.
    have harm : ∀ a b : Option Expr,
        (∀ e ∈ a, ∀ {v : Expr}, e.guardedLeaves = v.guardedLeaves → e.gaps = v.gaps →
          e.withoutBranchIds = v.withoutBranchIds) →
        armLeaves a = armLeaves b → armGaps a = armGaps b →
        armWithoutBranchIds a = armWithoutBranchIds b := by
      intro a b ih hl hg
      cases a with
      | none =>
        cases b with
        | none => rfl
        | some e =>
          have hnil : [] ∈ armGaps none := List.mem_cons_self
          rw [hg] at hnil
          exact absurd hnil (nil_not_mem_gaps e)
      | some e =>
        cases b with
        | none =>
          have hnil : [] ∈ armGaps none := List.mem_cons_self
          rw [← hg] at hnil
          exact absurd hnil (nil_not_mem_gaps e)
        | some d => exact congrArg some (ih e rfl hl hg)
    cases v with
    | branch j d t' f' =>
      -- Both roots decide what the first guard of a route decides.
      obtain ⟨_, _, hfirst⟩ := exists_of_mem_routes_branch hgs
      cases hfirst
      obtain ⟨hlt, hlf⟩ := armLeaves_inj hleaves
      obtain ⟨hgt, hgf⟩ := armGaps_inj hgaps
      rw [withoutBranchIds, withoutBranchIds, harm t t' iht hlt hgt, harm f f' ihf hlf hgf]
    | _ =>
      rw [routes_of_not_isBranch rfl, List.mem_singleton] at hgs
      cases hgs
  | _ => exact withoutBranchIds_eq_of_not_isBranch rfl hleaves

/-- Leaves and gaps tell two trees apart exactly if they differ in more than the ids of the
    conditionals. -/
theorem withoutBranchIds_eq_iff {u v : Expr} :
    u.withoutBranchIds = v.withoutBranchIds ↔
      u.guardedLeaves = v.guardedLeaves ∧ u.gaps = v.gaps := by
  constructor
  · intro h
    obtain ⟨hul, hug⟩ := leaves_gaps_withoutBranchIds u
    obtain ⟨hvl, hvg⟩ := leaves_gaps_withoutBranchIds v
    rw [← hul, ← hug, h]
    exact ⟨hvl, hvg⟩
  · rintro ⟨hleaves, hgaps⟩
    exact withoutBranchIds_eq_of_leaves_of_gaps hleaves hgaps

/-- Two trees whose decision trees lack no arm have the same guarded leaves, with all their
    guards and all ids, exactly if they are equal but for the ids of the conditionals of
    their decision trees. -/
theorem guardedLeaves_eq_iff {u v : Expr} (hu : u.gaps = []) (hv : v.gaps = []) :
    u.guardedLeaves = v.guardedLeaves ↔ u.withoutBranchIds = v.withoutBranchIds := by
  rw [withoutBranchIds_eq_iff, hu, hv]
  exact (and_iff_left rfl).symm

/-- One condition decided twice, by conditionals with other ids: the leaves are the same, so
    nothing else differs. Two conditionals without arms have the same leaves, none, and
    differ in their conditions, as their gaps tell. -/
theorem guardedLeaves_eq_iff_repeated :
    let c : Expr := .leaf (some ⟨1⟩) (.terminal "c")
    let a : Expr := .leaf (some ⟨2⟩) (.terminal "a")
    let choice (id : Option NodeId) (t f : Expr) : Expr := .branch id c (some t) (some f)
    let u : Expr := choice (some ⟨4⟩) (choice (some ⟨5⟩) a c) (.pointer none a c)
    let v : Expr := choice none (choice (some ⟨4⟩) a c) (.pointer none a c)
    let empty (x : Expr) : Expr := .branch none x none none
    u ≠ v ∧ u.gaps = [] ∧ v.gaps = [] ∧ u.guardedLeaves = v.guardedLeaves ∧
      u.withoutBranchIds = v.withoutBranchIds ∧
      (empty c).guardedLeaves = (empty a).guardedLeaves ∧
      (empty c).withoutBranchIds ≠ (empty a).withoutBranchIds := by
  intro c a choice u v empty
  have hleaves : u.guardedLeaves = v.guardedLeaves := rfl
  exact ⟨by decide, rfl, rfl, hleaves, (guardedLeaves_eq_iff rfl rfl).mp hleaves, rfl, by decide⟩

end Expr

end MuxHoist
