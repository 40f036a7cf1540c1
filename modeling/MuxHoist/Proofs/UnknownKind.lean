/-
  MuxHoist.Proofs.UnknownKind

  Which fault a text is refused with. An unknown kind stands at an address of a
  document if there an object has, under `payload` and there under `kind`, a name
  that is no kind's. Addresses are ordered as a walk meets them that sees a value
  before what it holds, members in ascending order of their keys and items from
  the first. The stages of reading are set down as a relation (`ReadsAs`), which
  reading meets exactly (`read_eq_iff`). Main statement: a text is refused for an
  unknown kind exactly if the value it spells has one, whatever else is wrong with
  it, and the fault names the first; every other refusal is of the document as a
  whole (`read_refused`).
-/
import MuxHoist.Interchange.Decode
import MuxHoist.Proofs.Json.Canonical
import MuxHoist.Proofs.Json.Syntax
import Mathlib.Data.List.Lex

namespace MuxHoist

/-! ## Addresses in order -/

namespace Json

/-- Of two steps from one value, which is taken first. -/
def Step.Before : Step → Step → Prop
  | .item i, .item k => i < k
  | .member key, .member other => key < other
  | _, _ => False

/-- The walk meets the value at the one address before that at the other: it holds
    it, or stands before it where their addresses part. -/
def Precedes (p q : List Step) : Prop := List.Lex Step.Before p q

instance : Std.Asymm Step.Before where
  asymm s t hst hts := by
    cases s with
    | item i =>
      cases t with
      | item k => exact Nat.lt_asymm hst hts
      | member key => exact hst
    | member key =>
      cases t with
      | item i => exact hst
      | member other => exact String.lt_asymm hst hts

theorem precedes_asymm {p q : List Step} (hpq : Precedes p q) : ¬ Precedes q p :=
  (List.Lex.asymm Step.Before).asymm p q hpq

end Json

namespace Interchange

open Json (Step Precedes Ordered Ascending)

/-! ## Unknown kinds by address -/

/-- An object stands at the address whose payload is an object of an unknown kind. -/
def UnknownKindAt (j : Json) (p : List Step) (name : String) : Prop :=
  j.at? (p ++ [.member "payload", .member "kind"]) = some (Json.str name) ∧
    ∀ k : Kind, k.name ≠ name

/-- No unknown kind stands before the one at this address. -/
def FirstUnknownKind (j : Json) (p : List Step) (name : String) : Prop :=
  UnknownKindAt j p name ∧ ∀ q other, UnknownKindAt j q other → q = p ∨ Precedes p q

theorem unknownKindAt_cons {j : Json} {s : Step} {p : List Step} {name : String} :
    UnknownKindAt j (s :: p) name ↔ ∃ c, j.child? s = some c ∧ UnknownKindAt c p name := by
  simp only [UnknownKindAt, List.cons_append, Json.at?, Option.bind_eq_some_iff,
    ← exists_and_right, and_assoc]

theorem unknownKindAt_nil {j : Json} {name : String} :
    UnknownKindAt j [] name ↔ (∃ c, j.child? (.member "payload") = some c ∧
      c.child? (.member "kind") = some (Json.str name)) ∧ ∀ k : Kind, k.name ≠ name := by
  simp only [UnknownKindAt, List.nil_append, Json.at?, Option.bind_eq_some_iff, Option.some.injEq,
    exists_eq_right]

/-- An unknown kind stands at the same address in the canonical form. -/
theorem unknownKindAt_canonical {j : Json} {p : List Step} {name : String} :
    UnknownKindAt j.canonical p name ↔ UnknownKindAt j p name := by
  have hname : ∀ i : Json, i.canonical = Json.str name ↔ i = Json.str name := by
    intro i
    cases i with
    | scalar v => rfl
    | list items => simp [Json.canonical, Json.str]
    | object members => simp [Json.canonical, Json.str]
  simp only [UnknownKindAt, Json.at?_canonical, Option.map_eq_some_iff, hname, exists_eq_right]

theorem firstUnknownKind_canonical {j : Json} {p : List Step} {name : String} :
    FirstUnknownKind j.canonical p name ↔ FirstUnknownKind j p name := by
  simp only [FirstUnknownKind, unknownKindAt_canonical]

/-- There is but one first. -/
theorem firstUnknownKind_unique {j : Json} {p q : List Step} {name other : String}
    (hp : FirstUnknownKind j p name) (hq : FirstUnknownKind j q other) : other = name := by
  -- Of two firsts each would precede the other.
  have hsame : q = p := by
    rcases hp.2 q other hq.1 with h | hpq
    · exact h
    · rcases hq.2 p name hp.1 with h | hqp
      · exact h.symm
      · exact absurd hqp (Json.precedes_asymm hpq)
  have hat := hp.1.1
  rw [← hsame, hq.1.1, Option.some.injEq, Json.str, Json.str, Json.scalar.injEq,
    Json.Scalar.str.injEq] at hat
  exact hat

/-- A name is unknown if it is no kind's. -/
theorem ofName?_eq_none_iff {name : String} :
    Kind.ofName? name = none ↔ ∀ k : Kind, k.name ≠ name := by
  constructor
  · rintro h k rfl
    rw [Kind.ofName?_name] at h
    cases h
  · intro h
    cases hk : Kind.ofName? name with
    | none => rfl
    | some k => exact absurd (Kind.name_of_ofName? hk) (h k)

/-- Where keys ascend, the search in an object itself finds what it names in its
    payload, if that is no kind. -/
theorem ownUnknownKind?_eq_some_iff {members : List (String × Json)}
    (h : Ordered (.object members)) {name : String} :
    ownUnknownKind? members = some name ↔ UnknownKindAt (.object members) [] name := by
  cases h with
  | object hasc hms =>
    rw [unknownKindAt_nil, ← ofName?_eq_none_iff, Json.child?, Json.lookup_reverse hasc.nodup,
      ownUnknownKind?]
    cases hpayload : Json.lookup "payload" members with
    | none => simp
    | some payload =>
      cases payload with
      | scalar v => simp [Json.child?]
      | list items => simp [Json.child?]
      | object ms =>
        have hasc' : Ascending ms := by
          cases hms _ (Json.mem_of_lookup hpayload) with
          | object h _ => exact h
        simp only [Option.some.injEq, exists_eq_left', Json.child?, Json.lookup_reverse hasc'.nodup]
        split
        · next tag htag =>
          rw [htag, Option.some.injEq, Json.str, Json.scalar.injEq, Json.Scalar.str.injEq]
          cases hk : Kind.ofName? tag with
          | none =>
            rw [Option.isSome_none, if_neg Bool.false_ne_true, Option.some.injEq]
            exact ⟨fun h => ⟨h, h ▸ hk⟩, And.left⟩
          | some k =>
            rw [Option.isSome_some, if_pos rfl]
            refine iff_of_false (fun h => by cases h) ?_
            rintro ⟨rfl, h⟩
            rw [hk] at h
            cases h
        · next hother =>
          exact iff_of_false (fun h => by cases h) fun h => hother name h.1

/-! ## Values without unknown kinds -/

/-- No name of a kind within the value is unknown. -/
def NoUnknownKind (j : Json) : Prop := ∀ p name, ¬ UnknownKindAt j p name

/-- It is enough to look at the value itself and at what it holds. -/
theorem noUnknownKind_of_child? {j : Json} (hown : ∀ name, ¬ UnknownKindAt j [] name)
    (h : ∀ s c, j.child? s = some c → NoUnknownKind c) : NoUnknownKind j := by
  intro p name hp
  cases p with
  | nil => exact hown name hp
  | cons s p =>
    obtain ⟨c, hc, hp⟩ := unknownKindAt_cons.mp hp
    exact h s c hc p name hp

theorem noUnknownKind_scalar (v : Json.Scalar) : NoUnknownKind (.scalar v) := by
  apply noUnknownKind_of_child?
  · intro name h
    obtain ⟨⟨c, hc, -⟩, -⟩ := unknownKindAt_nil.mp h
    cases hc
  · intro s c hc
    cases s <;> cases hc

theorem noUnknownKind_list {items : List Json} (h : ∀ j ∈ items, NoUnknownKind j) :
    NoUnknownKind (.list items) := by
  apply noUnknownKind_of_child?
  · intro name hname
    obtain ⟨⟨c, hc, -⟩, -⟩ := unknownKindAt_nil.mp hname
    cases hc
  · intro s c hc
    cases s with
    | item i => exact h c (List.mem_of_getElem? hc)
    | member key => cases hc

theorem noUnknownKind_object {members : List (String × Json)}
    (hown : ∀ name, ¬ UnknownKindAt (.object members) [] name)
    (h : ∀ m ∈ members, NoUnknownKind m.2) : NoUnknownKind (.object members) := by
  apply noUnknownKind_of_child? hown
  intro s c hc
  cases s with
  | item i => cases hc
  | member key => exact h _ (Json.mem_of_child? hc)

/-! ## The walk -/

/-- What a search for unknown kinds in a value has to find: the first one there is. -/
def Finds (j : Json) : Option String → Prop
  | none => NoUnknownKind j
  | some name => ∃ p, FirstUnknownKind j p name

/-- The same of a search through several values, each with the step that leads to it. -/
def FindsAmong (cs : List (Step × Json)) : Option String → Prop
  | none => ∀ s c, (s, c) ∈ cs → NoUnknownKind c
  | some name => ∃ s c p, (s, c) ∈ cs ∧ UnknownKindAt c p name ∧
      ∀ t d q other, (t, d) ∈ cs → UnknownKindAt d q other →
        t :: q = s :: p ∨ Precedes (s :: p) (t :: q)

/-- Values searched one after the other, in the order of the steps to them. -/
theorem findsAmong_findSome? {cs : List (Step × Json)}
    (hcs : cs.Pairwise fun a b => a.1.Before b.1) (h : ∀ c ∈ cs, Finds c.2 (unknownKind? c.2)) :
    FindsAmong cs (cs.findSome? fun c => unknownKind? c.2) := by
  induction cs with
  | nil =>
    intro s c hc
    cases hc
  | cons c cs ih =>
    obtain ⟨s, c⟩ := c
    obtain ⟨hs, hcs⟩ := List.pairwise_cons.mp hcs
    obtain ⟨hc, hrest⟩ := List.forall_mem_cons.mp h
    have ih := ih hcs hrest
    rw [List.findSome?_cons]
    cases hfirst : unknownKind? c with
    | some name =>
      -- The first value has it: what stands in a later one stands aside, further on.
      simp only [hfirst, Finds] at hc
      obtain ⟨p, hp, hfirst⟩ := hc
      refine ⟨s, c, p, List.mem_cons_self, hp, ?_⟩
      intro t d q other hd hq
      rcases List.mem_cons.mp hd with heq | hd
      · cases heq
        exact (hfirst q other hq).imp (congrArg _) .cons
      · exact .inr (.rel (hs (t, d) hd))
    | none =>
      simp only [hfirst, Finds] at hc
      cases hfound : cs.findSome? fun c => unknownKind? c.2 with
      | none =>
        rw [hfound] at ih
        intro t d hd
        rcases List.mem_cons.mp hd with heq | hd
        · cases heq
          exact hc
        · exact ih t d hd
      | some name =>
        rw [hfound] at ih
        obtain ⟨t, d, p, hd, hp, hfirst⟩ := ih
        refine ⟨t, d, p, List.mem_cons_of_mem _ hd, hp, ?_⟩
        intro t' d' q other hd' hq
        rcases List.mem_cons.mp hd' with heq | hd'
        · cases heq
          exact absurd hq (hc q other)
        · exact hfirst t' d' q other hd' hq

/-- A value's own unknown kind comes before those in what it holds. -/
theorem finds_or {j : Json} {cs : List (Step × Json)} (own : Option String)
    {below : Option String} (hchild : ∀ s c, (s, c) ∈ cs ↔ j.child? s = some c)
    (hown : ∀ name, own = some name ↔ UnknownKindAt j [] name) (hbelow : FindsAmong cs below) :
    Finds j (own.or below) := by
  cases own with
  | some name =>
    -- The empty address precedes every other.
    refine ⟨[], (hown name).mp rfl, ?_⟩
    intro q other _
    cases q with
    | nil => exact .inl rfl
    | cons s q => exact .inr .nil
  | none =>
    have hroot : ∀ name, ¬ UnknownKindAt j [] name := by
      intro name h
      cases (hown name).mpr h
    rw [Option.none_or]
    cases below with
    | none =>
      intro p name h
      cases p with
      | nil => exact hroot name h
      | cons s p =>
        obtain ⟨c, hc, h⟩ := unknownKindAt_cons.mp h
        exact hbelow s c ((hchild s c).mpr hc) p name h
    | some name =>
      obtain ⟨s, c, p, hc, hp, hfirst⟩ := hbelow
      refine ⟨s :: p, unknownKindAt_cons.mpr ⟨c, (hchild s c).mp hc, hp⟩, ?_⟩
      intro q other h
      cases q with
      | nil => exact absurd h (hroot other)
      | cons t q =>
        obtain ⟨d, hd, h⟩ := unknownKindAt_cons.mp h
        exact hfirst t d q other ((hchild t d).mpr hd) h

theorem unknownKindAmong?_eq (items : List Json) :
    unknownKindAmong? items = items.findSome? unknownKind? := by
  induction items with
  | nil => rfl
  | cons j js ih =>
    rw [unknownKindAmong?, List.findSome?_cons, ih]
    cases unknownKind? j <;> rfl

theorem unknownKindWithin?_eq (members : List (String × Json)) :
    unknownKindWithin? members = members.findSome? fun m => unknownKind? m.2 := by
  induction members with
  | nil => rfl
  | cons m ms ih =>
    obtain ⟨k, j⟩ := m
    rw [unknownKindWithin?, List.findSome?_cons, ih]
    cases unknownKind? j <;> rfl

theorem unknownKind?_object (members : List (String × Json)) :
    unknownKind? (.object members)
      = (ownUnknownKind? members).or (members.findSome? fun m => unknownKind? m.2) := by
  rw [unknownKind?, unknownKindWithin?_eq]
  cases ownUnknownKind? members <;> rfl

/-- The items of a list, each with the step to it, in the order of the steps. -/
def itemSteps (items : List Json) : List (Step × Json) :=
  items.zipIdx.map fun x => (.item x.2, x.1)

theorem mem_itemSteps {items : List Json} {s : Step} {c : Json} :
    (s, c) ∈ itemSteps items ↔ (Json.list items).child? s = some c := by
  simp only [itemSteps, List.mem_map, Prod.mk.injEq, Prod.exists, List.mem_zipIdx_iff_getElem?]
  constructor
  · rintro ⟨c, i, hc, rfl, rfl⟩
    exact hc
  · intro h
    cases s with
    | item i => exact ⟨c, i, h, rfl, rfl⟩
    | member key => cases h

theorem pairwise_itemSteps (items : List Json) :
    (itemSteps items).Pairwise fun a b => a.1.Before b.1 := by
  have hindex : (items.zipIdx.map Prod.snd).Pairwise (· < ·) := by
    rw [List.zipIdx_map_snd]
    exact List.pairwise_lt_range'
  have hitems := List.pairwise_map.mp hindex
  exact List.pairwise_map.mpr hitems

/-- The members of an object, each with the step to it. -/
def memberSteps (members : List (String × Json)) : List (Step × Json) :=
  members.map fun m => (.member m.1, m.2)

theorem mem_memberSteps {members : List (String × Json)} (h : Ascending members) {s : Step}
    {c : Json} : (s, c) ∈ memberSteps members ↔ (Json.object members).child? s = some c := by
  simp only [memberSteps, List.mem_map, Prod.mk.injEq, Prod.exists]
  constructor
  · rintro ⟨key, c, hc, rfl, rfl⟩
    rw [Json.child?, Json.lookup_reverse h.nodup]
    exact Json.lookup_of_mem h.nodup hc
  · intro hc
    cases s with
    | item i => cases hc
    | member key =>
      rw [Json.child?, Json.lookup_reverse h.nodup] at hc
      exact ⟨key, c, Json.mem_of_lookup hc, rfl, rfl⟩

theorem pairwise_memberSteps {members : List (String × Json)} (h : Ascending members) :
    (memberSteps members).Pairwise fun a b => a.1.Before b.1 :=
  List.pairwise_map.mpr h

/-- Where keys ascend, the search finds the first unknown kind, if there is one. -/
theorem finds_unknownKind? {j : Json} (h : Ordered j) : Finds j (unknownKind? j) := by
  induction h with
  | scalar v =>
    have hchild : ∀ s c, (s, c) ∈ [] ↔ (Json.scalar v).child? s = some c := by
      intro s c
      cases s <;> simp [Json.child?]
    exact finds_or none hchild (by simp [UnknownKindAt, Json.at?, Json.child?])
      (fun _ _ hc => absurd hc List.not_mem_nil)
  | @list items _ ih =>
    have hparts : ∀ c ∈ itemSteps items, Finds c.2 (unknownKind? c.2) := by
      intro c hc
      obtain ⟨x, hx, rfl⟩ := List.mem_map.mp hc
      exact ih _ (List.fst_mem_of_mem_zipIdx hx)
    have hbelow := findsAmong_findSome? (pairwise_itemSteps items) hparts
    have hitems : (itemSteps items).findSome? (fun c => unknownKind? c.2)
        = items.findSome? unknownKind? := by
      have hfst := List.findSome?_map (f := Prod.fst) (p := unknownKind?) (l := items.zipIdx)
      rw [List.zipIdx_map_fst] at hfst
      rw [itemSteps, List.findSome?_map, hfst]
      rfl
    rw [hitems] at hbelow
    rw [unknownKind?, unknownKindAmong?_eq]
    exact finds_or none (fun _ _ => mem_itemSteps)
      (by simp [UnknownKindAt, Json.at?, Json.child?]) hbelow
  | @object members hasc hms ih =>
    have hparts : ∀ c ∈ memberSteps members, Finds c.2 (unknownKind? c.2) := by
      intro c hc
      obtain ⟨m, hm, rfl⟩ := List.mem_map.mp hc
      exact ih m hm
    have hbelow := findsAmong_findSome? (pairwise_memberSteps hasc) hparts
    rw [memberSteps, List.findSome?_map] at hbelow
    rw [unknownKind?_object]
    exact finds_or _ (fun _ _ => mem_memberSteps hasc)
      (fun _ => ownUnknownKind?_eq_some_iff (.object hasc hms)) hbelow

/-- In a value as read, the search finds the name of the first unknown kind of the
    value as written. -/
theorem unknownKind?_canonical_eq_some_iff {j : Json} {name : String} :
    unknownKind? j.canonical = some name ↔ ∃ p, FirstUnknownKind j p name := by
  have hfinds := finds_unknownKind? (Json.ordered_canonical j)
  cases hfound : unknownKind? j.canonical with
  | none =>
    rw [hfound] at hfinds
    refine iff_of_false (fun h => by cases h) ?_
    rintro ⟨p, hp⟩
    exact hfinds p name (unknownKindAt_canonical.mpr hp.1)
  | some found =>
    rw [hfound] at hfinds
    obtain ⟨p, hp⟩ := hfinds
    have hp := firstUnknownKind_canonical.mp hp
    rw [Option.some.injEq]
    constructor
    · rintro rfl
      exact ⟨p, hp⟩
    · rintro ⟨q, hq⟩
      exact (firstUnknownKind_unique hp hq).symm

/-- Where there is an unknown kind there is a first one. -/
theorem exists_firstUnknownKind {j : Json} {p : List Step} {name : String}
    (h : UnknownKindAt j p name) : ∃ q other, FirstUnknownKind j q other := by
  have hfinds := finds_unknownKind? (Json.ordered_canonical j)
  cases hfound : unknownKind? j.canonical with
  | none =>
    rw [hfound] at hfinds
    exact absurd (unknownKindAt_canonical.mpr h) (hfinds p name)
  | some other =>
    obtain ⟨q, hq⟩ := unknownKind?_canonical_eq_some_iff.mp hfound
    exact ⟨q, other, hq⟩

/-- No unknown kind is found in the value as read if there is none in the value as
    written. -/
theorem noUnknownKind_iff {j : Json} : NoUnknownKind j ↔ unknownKind? j.canonical = none := by
  constructor
  · intro h
    rw [Option.eq_none_iff_forall_ne_some]
    intro name hname
    obtain ⟨p, hp⟩ := unknownKind?_canonical_eq_some_iff.mp hname
    exact h p name hp.1
  · intro h p name hp
    obtain ⟨q, other, hfirst⟩ := exists_firstUnknownKind hp
    rw [unknownKind?_canonical_eq_some_iff.mpr ⟨q, hfirst⟩] at h
    cases h

/-! ## Texts -/

/-- What a text is read as. Each stage finds what is wrong only with a text that has passed
    the stages before, and the JSON library is asked only at the first and the last. -/
inductive ReadsAs (d : Diagnosis) (text : String) : Except TreeError (Option Expr) → Prop where
  | notJson (hdeep : ∀ j, Json.Spells text j → nestingLimit < j.nesting) :
      ReadsAs d text (.error (.notJson (d.ofText text)))
  | unknownKind {j : Json} {p : List Json.Step} {name : String} (hj : Json.Spells text j)
      (hlimit : j.nesting ≤ nestingLimit) (hfirst : FirstUnknownKind j p name) :
      ReadsAs d text (.error (.unknownKind name))
  | notTree {j : Json} (hj : Json.Spells text j) (hlimit : j.nesting ≤ nestingLimit)
      (hkinds : NoUnknownKind j) (hnone : tree? j.canonical = none) :
      ReadsAs d text (.error (.notTree (d.ofValue j.canonical)))
  | tree {j : Json} {tree : Option Expr} (hj : Json.Spells text j)
      (hlimit : j.nesting ≤ nestingLimit) (hkinds : NoUnknownKind j)
      (htree : tree? j.canonical = some tree) : ReadsAs d text (.ok tree)

theorem readsAs_read (d : Diagnosis) (text : String) : ReadsAs d text (read d text) := by
  rw [read]
  cases hread : Json.read? nestingLimit text with
  | none =>
    refine .notJson fun j hj => Nat.lt_of_not_le fun hlimit => ?_
    rw [Json.read?_of_spells hj, if_pos hlimit] at hread
    cases hread
  | some v =>
    obtain ⟨j, hj, hlimit, rfl⟩ := Json.read?_eq_some_iff.mp hread
    dsimp only
    cases hkind : unknownKind? j.canonical with
    | some name =>
      obtain ⟨p, hfirst⟩ := unknownKind?_canonical_eq_some_iff.mp hkind
      exact .unknownKind hj hlimit hfirst
    | none =>
      have hkinds := noUnknownKind_iff.mpr hkind
      cases htree : tree? j.canonical with
      | none => exact .notTree hj hlimit hkinds htree
      | some tree => exact .tree hj hlimit hkinds htree

/-- Reading comes to exactly what a text is read as. -/
theorem read_eq_iff {d : Diagnosis} {text : String} {result : Except TreeError (Option Expr)} :
    read d text = result ↔ ReadsAs d text result := by
  constructor
  · rintro rfl
    exact readsAs_read d text
  · intro h
    cases h with
    | notJson hdeep =>
      have hread : Json.read? nestingLimit text = none := by
        rw [Option.eq_none_iff_forall_ne_some]
        intro v hv
        obtain ⟨j, hj, hlimit, -⟩ := Json.read?_eq_some_iff.mp hv
        exact Nat.not_le_of_lt (hdeep j hj) hlimit
      simp only [read, hread]
    | unknownKind hj hlimit hfirst =>
      have hkind := unknownKind?_canonical_eq_some_iff.mpr ⟨_, hfirst⟩
      simp only [read, Json.read?_of_spells hj, if_pos hlimit, hkind]
    | notTree hj hlimit hkinds hnone =>
      simp only [read, Json.read?_of_spells hj, if_pos hlimit, noUnknownKind_iff.mp hkinds, hnone]
    | tree hj hlimit hkinds htree =>
      simp only [read, Json.read?_of_spells hj, if_pos hlimit, noUnknownKind_iff.mp hkinds, htree]

/-- A text is read exactly if it spells a value, not too deep and without unknown kinds,
    that spells a tree. -/
theorem read_eq_ok_iff {d : Diagnosis} {text : String} {tree : Option Expr} :
    read d text = .ok tree ↔
      ∃ j, Json.Spells text j ∧ j.nesting ≤ nestingLimit ∧ NoUnknownKind j ∧
        tree? j.canonical = some tree := by
  rw [read_eq_iff]
  constructor
  · rintro (_ | _ | _ | ⟨hj, hlimit, hkinds, htree⟩)
    exact ⟨_, hj, hlimit, hkinds, htree⟩
  · rintro ⟨j, hj, hlimit, hkinds, htree⟩
    exact .tree hj hlimit hkinds htree

/-- A text is refused for an unknown kind exactly if it spells a value, not too deep,
    in which this name is that of the first unknown kind. -/
theorem read_eq_unknownKind_iff {d : Diagnosis} {text : String} {name : String} :
    read d text = .error (.unknownKind name) ↔
      ∃ j p, Json.Spells text j ∧ j.nesting ≤ nestingLimit ∧ FirstUnknownKind j p name := by
  rw [read_eq_iff]
  constructor
  · rintro (_ | ⟨hj, hlimit, hfirst⟩ | _ | _)
    exact ⟨_, _, hj, hlimit, hfirst⟩
  · rintro ⟨j, p, hj, hlimit, hfirst⟩
    exact .unknownKind hj hlimit hfirst

/-- Of the faults of reading only an unknown kind is a fault of definition, and none
    is one of format. -/
theorem eq_unknownKind_or_category_eq_json {d : Diagnosis} {text : String} {e : TreeError}
    (h : read d text = .error e) : (∃ name, e = .unknownKind name) ∨ e.category = .json := by
  cases read_eq_iff.mp h with
  | notJson | notTree => exact .inr rfl
  | unknownKind => exact .inl ⟨_, rfl⟩

/-- A text is refused with a fault of definition exactly if it spells a value, not too
    deep, that has an unknown kind somewhere, whatever else is wrong with the value.
    The fault names the first one in the order of addresses. Every other refusal is
    of the document as a whole. -/
theorem read_refused (d : Diagnosis) (text : String) :
    ((∃ e, read d text = .error e ∧ e.category = .definition) ↔
      ∃ j p name, Json.Spells text j ∧ j.nesting ≤ nestingLimit ∧ UnknownKindAt j p name) ∧
    (∀ m, (∃ e, read d text = .error e ∧ e.category = .definition ∧ e.message = m) ↔
      ∃ j p name, Json.Spells text j ∧ j.nesting ≤ nestingLimit ∧ FirstUnknownKind j p name ∧
        m = "undefined node kind: " ++ name) ∧
    ∀ e, read d text = .error e → e.category = .definition ∨ e.category = .json := by
  have hdefinition : ∀ e, read d text = .error e → e.category = .definition →
      ∃ name, e = .unknownKind name := by
    intro e he hcategory
    rcases eq_unknownKind_or_category_eq_json he with h | h
    · exact h
    · rw [hcategory] at h
      cases h
  refine ⟨⟨?_, ?_⟩, fun m => ⟨?_, ?_⟩, ?_⟩
  · rintro ⟨e, he, hcategory⟩
    obtain ⟨name, rfl⟩ := hdefinition e he hcategory
    obtain ⟨j, p, hj, hlimit, hp⟩ := read_eq_unknownKind_iff.mp he
    exact ⟨j, p, name, hj, hlimit, hp.1⟩
  · rintro ⟨j, p, name, hj, hlimit, hp⟩
    obtain ⟨q, first, hfirst⟩ := exists_firstUnknownKind hp
    exact ⟨_, read_eq_unknownKind_iff.mpr ⟨j, q, hj, hlimit, hfirst⟩, rfl⟩
  · rintro ⟨e, he, hcategory, rfl⟩
    obtain ⟨name, rfl⟩ := hdefinition e he hcategory
    obtain ⟨j, p, hj, hlimit, hp⟩ := read_eq_unknownKind_iff.mp he
    exact ⟨j, p, name, hj, hlimit, hp, rfl⟩
  · rintro ⟨j, p, name, hj, hlimit, hfirst, rfl⟩
    exact ⟨_, read_eq_unknownKind_iff.mpr ⟨j, p, hj, hlimit, hfirst⟩, rfl, rfl⟩
  · intro e he
    rcases eq_unknownKind_or_category_eq_json he with ⟨name, rfl⟩ | h
    · exact .inl rfl
    · exact .inr h

/-- An ill-typed branch with two unknown kinds: the one below `cond` comes first, though
    the one below `true_node` was written first. -/
theorem read_refused_cond :
    let d := Diagnosis.silent
    let text := "\x7b\"payload\": \x7b\"kind\": \"Branch\", "
      ++ "\"true_node\": \x7b\"payload\": \x7b\"kind\": \"Task\"\x7d\x7d, "
      ++ "\"cond\": [7, \x7b\"payload\": \x7b\"kind\": \"Syscall\"\x7d\x7d]\x7d\x7d"
    read d text = .error (.unknownKind "Syscall") ∧
      ((TreeError.unknownKind "Syscall").category = .definition ∨
        (TreeError.unknownKind "Syscall").category = .json) ∧
      ∃ j p name, Json.Spells text j ∧ j.nesting ≤ nestingLimit ∧ FirstUnknownKind j p name ∧
        "undefined node kind: Syscall" = "undefined node kind: " ++ name := by
  intro d text
  have hread : read d text = .error (.unknownKind "Syscall") := by decide +kernel
  obtain ⟨-, hmessage, hclass⟩ := read_refused d text
  exact ⟨hread, hclass _ hread, (hmessage _).mp ⟨_, hread, rfl, rfl⟩⟩

/-- A payload written as a list has no name of a kind to be unknown; it is ill-typed. -/
example : read .silent "\x7b\"payload\": [\"Task\"]\x7d" = .error (.notTree "") := by
  decide +kernel

end Interchange

end MuxHoist
