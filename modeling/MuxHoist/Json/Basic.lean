/-
  MuxHoist.Json.Basic

  JSON values. Numbers keep the distinction that reading a tree needs: machine
  integers are held by value, every other number by its literal text.

  A value as read holds the members of an object in the order in which they
  were written; its canonical form has ascending keys and, of members with one
  key, the last.

  Holds the type, `nesting`, access to members, the canonical form, and induction
  over values.
-/

namespace MuxHoist

namespace Json

/-- A value without parts. -/
inductive Scalar where
  | null
  | bool (value : Bool)
  /-- An integer literal in the range of 64-bit words, signed or unsigned. -/
  | int (value : Int)
  /-- Any other number, by a literal that denotes it. -/
  | real (literal : String)
  | str (value : String)
  deriving Repr, DecidableEq, Inhabited

end Json

/-- A JSON value. -/
inductive Json where
  | scalar (value : Json.Scalar)
  | list (items : List Json)
  | object (members : List (String × Json))
  deriving Repr, Inhabited

namespace Json

/-! ## Scalars by name -/

/-- The null value. -/
@[match_pattern] def null : Json := .scalar .null

/-- A string value. -/
@[match_pattern] def str (s : String) : Json := .scalar (.str s)

/-- An integer value. -/
@[match_pattern] def int (n : Int) : Json := .scalar (.int n)

/-! ## Nesting -/

mutual

/-- How many lists and objects the deepest value stands in. -/
def nesting : Json → Nat
  | .scalar _ => 0
  | .list items => 1 + nestingAll items
  | .object members => 1 + nestingMembers members

/-- The greatest nesting of the items. -/
def nestingAll : List Json → Nat
  | [] => 0
  | j :: js => max j.nesting (nestingAll js)

/-- The greatest nesting of the members' values. -/
def nestingMembers : List (String × Json) → Nat
  | [] => 0
  | (_, j) :: ms => max j.nesting (nestingMembers ms)

end

/-! ## Members -/

/-- The value of the first member with this key. -/
def lookup (key : String) : List (String × Json) → Option Json
  | [] => none
  | (k, v) :: ms => if k = key then some v else lookup key ms

/-- Puts a member before the first one with a greater key. -/
def insertMember (key : String) (value : Json) : List (String × Json) → List (String × Json)
  | [] => [(key, value)]
  | (k, v) :: ms =>
    if key < k then (key, value) :: (k, v) :: ms
    else (k, v) :: insertMember key value ms

mutual

/-- Sorts the members of every object by key; of members with one key the last
    stays. -/
def canonical : Json → Json
  | .scalar v => .scalar v
  | .list items => .list (canonicalAll items)
  | .object members => .object (canonicalMembers members)

/-- The canonical forms of the items. -/
def canonicalAll : List Json → List Json
  | [] => []
  | j :: js => j.canonical :: canonicalAll js

/-- The canonical members: a member yields to a later one with its key. -/
def canonicalMembers : List (String × Json) → List (String × Json)
  | [] => []
  | (k, v) :: ms =>
    let later := canonicalMembers ms
    if (lookup k later).isSome then later else insertMember k v.canonical later

end

theorem lookup_insertMember_self {key : String} {value : Json} {ms : List (String × Json)}
    (h : lookup key ms = none) : lookup key (insertMember key value ms) = some value := by
  induction ms with
  | nil => simp [insertMember, lookup]
  | cons m ms ih =>
    obtain ⟨k, v⟩ := m
    by_cases hk : k = key
    · simp [lookup, hk] at h
    · rw [insertMember]
      split <;> simp_all [lookup]

theorem lookup_insertMember_of_ne {key key' : String} (value : Json)
    (ms : List (String × Json)) (h : key' ≠ key) :
    lookup key (insertMember key' value ms) = lookup key ms := by
  induction ms with
  | nil => simp [insertMember, lookup, h]
  | cons m ms ih =>
    obtain ⟨k, v⟩ := m
    rw [insertMember]
    split <;> simp_all [lookup]

theorem mem_of_lookup {key : String} {ms : List (String × Json)} {v : Json}
    (h : lookup key ms = some v) : (key, v) ∈ ms := by
  induction ms with
  | nil => cases h
  | cons m ms ih =>
    obtain ⟨k, w⟩ := m
    rw [lookup] at h
    by_cases hk : k = key
    · rw [if_pos hk] at h
      cases h
      rw [hk]
      exact List.mem_cons_self
    · rw [if_neg hk] at h
      exact List.mem_cons_of_mem _ (ih h)

/-- A member's value nests no deeper than all members together. -/
theorem nesting_le_of_mem_members {key : String} {ms : List (String × Json)} {v : Json}
    (h : (key, v) ∈ ms) : v.nesting ≤ nestingMembers ms := by
  induction ms with
  | nil => cases h
  | cons m ms ih =>
    rw [nestingMembers]
    rcases List.mem_cons.1 h with rfl | h
    · exact Nat.le_max_left _ _
    · exact Nat.le_trans (ih h) (Nat.le_max_right _ _)

theorem nesting_le_of_lookup {key : String} {ms : List (String × Json)} {v : Json}
    (h : lookup key ms = some v) : v.nesting ≤ nestingMembers ms :=
  nesting_le_of_mem_members (mem_of_lookup h)

/-- All items together keep to a bound exactly if each of them does. -/
theorem nestingAll_le_iff {js : List Json} {n : Nat} :
    nestingAll js ≤ n ↔ ∀ j ∈ js, j.nesting ≤ n := by
  induction js with
  | nil => simp [nestingAll]
  | cons j js ih => rw [nestingAll, Nat.max_le, ih, List.forall_mem_cons]

/-- An item nests no deeper than all items together. -/
theorem nesting_le_of_mem {js : List Json} {j : Json} (h : j ∈ js) :
    j.nesting ≤ nestingAll js :=
  nestingAll_le_iff.1 (Nat.le_refl _) j h

/-! ## Induction -/

/-- To prove a property of all values, prove it of scalars, of lists from the same
    property of their items, and of objects from that of their members' values. -/
@[elab_as_elim, induction_eliminator]
theorem induct {motive : Json → Prop}
    (scalar : ∀ v, motive (.scalar v))
    (list : ∀ items, (∀ j ∈ items, motive j) → motive (.list items))
    (object : ∀ members, (∀ m ∈ members, motive m.2) → motive (.object members)) :
    ∀ j, motive j :=
  Json.rec (motive_2 := fun items => ∀ j ∈ items, motive j)
    (motive_3 := fun members => ∀ m ∈ members, motive m.2) (motive_4 := fun m => motive m.2)
    scalar list object
    (by simp) (fun _ _ hj hjs => List.forall_mem_cons.2 ⟨hj, hjs⟩)
    (by simp) (fun _ _ hm hms => List.forall_mem_cons.2 ⟨hm, hms⟩)
    (fun _ _ hv => hv)

end Json

end MuxHoist
