/-
  MuxHoist.Proofs.Json.Canonical

  What the canonical form keeps of a value as written. An address leads from a
  value to one that stands in it, by item numbers and by member keys; of members
  with one key it means the last. The canonical form has the same at every
  address (`at?_canonical`), and its members stand in ascending order of their
  keys (`ordered_canonical`).
-/
import MuxHoist.Json.Basic

namespace MuxHoist

namespace Json

/-! ## Addresses -/

/-- From a value to one that it holds. -/
inductive Step where
  | item (index : Nat)
  | member (key : String)
  deriving Repr, DecidableEq

/-- The value that a step leads to. Of members with one key the last one counts. -/
def child? : Json → Step → Option Json
  | .list items, .item i => items[i]?
  | .object members, .member key => lookup key members.reverse
  | _, _ => none

/-- The value at an address. -/
def at? (j : Json) : List Step → Option Json
  | [] => some j
  | s :: p => (j.child? s).bind fun c => c.at? p

/-! ## Members -/

theorem lookup_append (key : String) (xs ys : List (String × Json)) :
    lookup key (xs ++ ys) = (lookup key xs).or (lookup key ys) := by
  induction xs with
  | nil => rfl
  | cons x xs ih =>
    obtain ⟨k, v⟩ := x
    rw [List.cons_append, lookup, lookup]
    by_cases hk : k = key
    · rw [if_pos hk, if_pos hk, Option.some_or]
    · rw [if_neg hk, if_neg hk, ih]

/-- Nothing is found under a key exactly if no member has it. -/
theorem lookup_eq_none_iff {key : String} {ms : List (String × Json)} :
    lookup key ms = none ↔ ∀ m ∈ ms, m.1 ≠ key := by
  induction ms with
  | nil => simp [lookup]
  | cons m ms ih =>
    obtain ⟨k, v⟩ := m
    rw [lookup, List.forall_mem_cons, ← ih]
    by_cases hk : k = key
    · simp [hk]
    · simp [hk]

/-- Where keys differ, each member is the only one of its key. -/
theorem lookup_of_mem {key : String} {ms : List (String × Json)} {v : Json}
    (hms : (ms.map Prod.fst).Nodup) (h : (key, v) ∈ ms) : lookup key ms = some v := by
  induction ms with
  | nil => cases h
  | cons m ms ih =>
    obtain ⟨k, w⟩ := m
    rw [List.map_cons] at hms
    obtain ⟨hk, hms⟩ := List.nodup_cons.mp hms
    rw [lookup]
    rcases List.mem_cons.mp h with heq | h
    · cases heq
      rw [if_pos rfl]
    · have hne : k ≠ key := by
        rintro rfl
        exact hk (List.mem_map.mpr ⟨(k, v), h, rfl⟩)
      rw [if_neg hne, ih hms h]

/-- Where keys differ, the last member of a key is the first one. -/
theorem lookup_reverse {ms : List (String × Json)} (hms : (ms.map Prod.fst).Nodup)
    (key : String) : lookup key ms.reverse = lookup key ms := by
  cases hlast : lookup key ms.reverse with
  | some v => exact (lookup_of_mem hms (List.mem_reverse.mp (mem_of_lookup hlast))).symm
  | none =>
    cases hfirst : lookup key ms with
    | none => rfl
    | some v =>
      have hreverse : (ms.reverse.map Prod.fst).Nodup := by
        rw [List.map_reverse]
        exact List.pairwise_reverse.mpr (hms.imp Ne.symm)
      rw [lookup_of_mem hreverse (List.mem_reverse.mpr (mem_of_lookup hfirst))] at hlast
      cases hlast

/-- Where keys differ, each member is found by its key. -/
theorem child?_of_mem {key : String} {ms : List (String × Json)} {v : Json}
    (hms : (ms.map Prod.fst).Nodup) (h : (key, v) ∈ ms) :
    (object ms).child? (.member key) = some v := by
  rw [child?, lookup_reverse hms, lookup_of_mem hms h]

/-- What is found by a key is the value of a member. -/
theorem mem_of_child? {key : String} {ms : List (String × Json)} {v : Json}
    (h : (object ms).child? (.member key) = some v) : (key, v) ∈ ms :=
  List.mem_reverse.mp (mem_of_lookup h)

/-- What stands in a value nests less deep than the value. -/
theorem nesting_lt_of_child? {j c : Json} {s : Step} (h : j.child? s = some c) :
    c.nesting < j.nesting := by
  cases j with
  | scalar v => cases s <;> cases h
  | list items =>
    cases s with
    | item i =>
      have hitem := nesting_le_of_mem (List.mem_of_getElem? h)
      rw [nesting]
      omega
    | member key => cases h
  | object members =>
    cases s with
    | item i => cases h
    | member key =>
      have hmember := nesting_le_of_mem_members (mem_of_child? h)
      rw [nesting]
      omega

/-- The canonical members hold, under each key, the last value written under it. -/
theorem lookup_canonicalMembers (key : String) (ms : List (String × Json)) :
    lookup key (canonicalMembers ms) = (lookup key ms.reverse).map canonical := by
  induction ms with
  | nil => rfl
  | cons m ms ih =>
    obtain ⟨k, v⟩ := m
    rw [canonicalMembers, List.reverse_cons, lookup_append, lookup, lookup]
    by_cases hk : k = key
    · subst hk
      rw [if_pos rfl]
      cases hlast : lookup k ms.reverse with
      | some w =>
        rw [hlast] at ih
        simp [ih]
      | none =>
        rw [hlast] at ih
        simp only [ih, Option.map_none, Option.isSome_none, Bool.false_eq_true, if_false]
        rw [lookup_insertMember_self ih]
        rfl
    · rw [if_neg hk, Option.or_none]
      show lookup key (if _ then _ else _) = _
      split
      · exact ih
      · rw [lookup_insertMember_of_ne _ _ hk, ih]

/-! ## The order of members -/

/-- The keys ascend, so none is there twice. -/
def Ascending (ms : List (String × Json)) : Prop := ms.Pairwise fun m n => m.1 < n.1

theorem fst_mem_insertMember {key : String} {value : Json} {ms : List (String × Json)}
    {m : String × Json} (h : m ∈ insertMember key value ms) : m = (key, value) ∨ m ∈ ms := by
  induction ms with
  | nil => exact .inl (List.mem_singleton.mp h)
  | cons n ms ih =>
    obtain ⟨k, v⟩ := n
    rw [insertMember] at h
    split at h
    · exact List.mem_cons.mp h
    · rcases List.mem_cons.mp h with rfl | h
      · exact .inr List.mem_cons_self
      · exact (ih h).imp_right (List.mem_cons_of_mem _)

/-- A new member finds its place among ascending ones. -/
theorem ascending_insertMember {key : String} (value : Json) {ms : List (String × Json)}
    (hms : Ascending ms) (hnew : lookup key ms = none) : Ascending (insertMember key value ms) := by
  induction ms with
  | nil => exact List.pairwise_singleton _ _
  | cons n ms ih =>
    obtain ⟨k, v⟩ := n
    obtain ⟨hk, hms⟩ := List.pairwise_cons.mp hms
    rw [lookup] at hnew
    have hne : k ≠ key := by
      rintro rfl
      rw [if_pos rfl] at hnew
      cases hnew
    rw [if_neg hne] at hnew
    rw [insertMember]
    by_cases hlt : key < k
    · rw [if_pos hlt]
      refine List.pairwise_cons.mpr ⟨?_, List.pairwise_cons.mpr ⟨hk, hms⟩⟩
      intro m hm
      rcases List.mem_cons.mp hm with rfl | hm
      · exact hlt
      · exact String.lt_trans hlt (hk m hm)
    · rw [if_neg hlt]
      refine List.pairwise_cons.mpr ⟨?_, ih hms hnew⟩
      intro m hm
      rcases fst_mem_insertMember hm with rfl | hm
      · -- The keys differ, and the new one does not come before.
        exact String.not_le.mp fun hge => hne (String.le_antisymm (String.not_lt.mp hlt) hge)
      · exact hk m hm

theorem ascending_canonicalMembers (ms : List (String × Json)) :
    Ascending (canonicalMembers ms) := by
  induction ms with
  | nil => exact .nil
  | cons m ms ih =>
    obtain ⟨k, v⟩ := m
    rw [canonicalMembers]
    show Ascending (if _ then _ else _)
    split
    · exact ih
    · next hnew => exact ascending_insertMember _ ih (by simpa using hnew)

theorem Ascending.nodup {ms : List (String × Json)} (h : Ascending ms) :
    (ms.map Prod.fst).Nodup :=
  List.pairwise_map.mpr (h.imp String.ne_of_lt)

/-! ## The canonical form -/

theorem canonicalAll_eq_map (js : List Json) : canonicalAll js = js.map canonical := by
  induction js with
  | nil => rfl
  | cons j js ih => rw [canonicalAll, ih, List.map_cons]

theorem child?_canonical (j : Json) (s : Step) :
    j.canonical.child? s = (j.child? s).map canonical := by
  cases j with
  | scalar v => cases s <;> rfl
  | list items =>
    cases s with
    | item i => rw [canonical, child?, child?, canonicalAll_eq_map, List.getElem?_map]
    | member key => rfl
  | object members =>
    cases s with
    | item i => rfl
    | member key =>
      rw [canonical, child?, child?, lookup_reverse (ascending_canonicalMembers members).nodup,
        lookup_canonicalMembers]

/-- The canonical form has, at each address, the canonical form of what was there. -/
theorem at?_canonical (j : Json) (p : List Step) :
    j.canonical.at? p = (j.at? p).map canonical := by
  induction p generalizing j with
  | nil => rfl
  | cons s p ih =>
    rw [at?, at?, child?_canonical]
    cases j.child? s with
    | none => rfl
    | some c => exact ih c

/-- In every object within the value the keys ascend. -/
inductive Ordered : Json → Prop
  | scalar (v : Scalar) : Ordered (.scalar v)
  | list {items : List Json} : (∀ j ∈ items, Ordered j) → Ordered (.list items)
  | object {members : List (String × Json)} : Ascending members →
      (∀ m ∈ members, Ordered m.2) → Ordered (.object members)

/-- Canonical members are canonical forms of members as written. -/
theorem exists_of_mem_canonicalMembers {ms : List (String × Json)} {m : String × Json}
    (h : m ∈ canonicalMembers ms) : ∃ n ∈ ms, m.2 = n.2.canonical := by
  obtain ⟨k, v⟩ := m
  have hlookup := lookup_of_mem (ascending_canonicalMembers ms).nodup h
  rw [lookup_canonicalMembers, Option.map_eq_some_iff] at hlookup
  obtain ⟨w, hw, rfl⟩ := hlookup
  exact ⟨(k, w), List.mem_reverse.mp (mem_of_lookup hw), rfl⟩

/-- In the canonical form keys ascend everywhere. -/
theorem ordered_canonical (j : Json) : j.canonical.Ordered := by
  induction j with
  | scalar v => exact .scalar v
  | list items ih =>
    rw [canonical, canonicalAll_eq_map]
    refine .list fun i hi => ?_
    obtain ⟨j, hj, rfl⟩ := List.mem_map.mp hi
    exact ih j hj
  | object members ih =>
    rw [canonical]
    refine .object (ascending_canonicalMembers members) fun m hm => ?_
    obtain ⟨n, hn, heq⟩ := exists_of_mem_canonicalMembers hm
    rw [heq]
    exact ih n hn

end Json

end MuxHoist
