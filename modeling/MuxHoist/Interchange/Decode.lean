/-
  MuxHoist.Interchange.Decode

  Trees from JSON values, and from texts. A text is read in three stages, and
  the first that fails decides the fault: the text must be a JSON document,
  every kind named in it must exist, and the document must spell a tree. What
  is wrong with a document in detail is for the JSON library to say
  (`Diagnosis`); the reader passes it on.
-/
import MuxHoist.Error
import MuxHoist.Json.Reader
import MuxHoist.Interchange.Slots

namespace MuxHoist

namespace Interchange

/-! ## Unknown kinds -/

/-- The kind that an object names in its payload, unless it exists. -/
def ownUnknownKind? (members : List (String × Json)) : Option String :=
  match Json.lookup "payload" members with
  | some (.object payload) =>
    match Json.lookup "kind" payload with
    | some (.scalar (.str name)) => if (Kind.ofName? name).isSome then none else some name
    | _ => none
  | _ => none

mutual

/-- The first kind in a document that does not exist. An object comes before
    what it holds, and this in the order of the document. -/
def unknownKind? : Json → Option String
  | .scalar _ => none
  | .list items => unknownKindAmong? items
  | .object members =>
    match ownUnknownKind? members with
    | some name => some name
    | none => unknownKindWithin? members

/-- The first such kind among items. -/
def unknownKindAmong? : List Json → Option String
  | [] => none
  | j :: js =>
    match unknownKind? j with
    | some name => some name
    | none => unknownKindAmong? js

/-- The first such kind within the values of members. -/
def unknownKindWithin? : List (String × Json) → Option String
  | [] => none
  | (_, j) :: ms =>
    match unknownKind? j with
    | some name => some name
    | none => unknownKindWithin? ms

end

/-! ## Trees -/

/-- The arm that a value spells, given what nodes spell: null is a missing
    arm. -/
def arm? (sub : Json → Option Expr) : Json → Option (Option Expr)
  | .scalar .null => some none
  | j => (sub j).map some

/-- The operands that items spell, given what nodes spell. -/
def nodes? (sub : Json → Option Expr) : List Json → Option (List Expr)
  | [] => some []
  | j :: js => do
    let e ← sub j
    let es ← nodes? sub js
    return e :: es

/-- Puts a node together from its parts, given what nodes spell. -/
def assemble? (sub : Json → Option Expr) (p : Parts) : Option Expr :=
  match p.kind, p.slots with
  | .constant, [v] => do
    return .leaf p.id (.constant (← text? v))
  | .terminal, [v] => do
    return .leaf p.id (.terminal (← text? v))
  | .evalValue, [v, w] => do
    return .leaf p.id (.evalValue (← signed? v) (← unsigned? w))
  | .undefined, [] => some (.leaf p.id .undefined)
  | .highImpedance, [] => some (.leaf p.id .highImpedance)
  | .branch, [c, t, f] => do
    return .branch p.id (← sub c) (← arm? sub t) (← arm? sub f)
  | .operator, [o, .list xs] => do
    return .compound p.id (.op (← operator? o)) (← nodes? sub xs)
  | .concat, [.list xs] => do
    return .compound p.id .concat (← nodes? sub xs)
  | .partselect, [b, m, l] => do
    return .partselect p.id (← sub b) (← sub m) (← sub l)
  | .pointer, [b, i] => do
    return .pointer p.id (← sub b) (← sub i)
  | .delay, [e] => do
    return .delay p.id (← sub e)
  | _, _ => none

/-- The tree that a value of bounded nesting spells. -/
def nodeWithin? : Nat → Bool → Json → Option Expr
  | 0, _, _ => none
  | n + 1, numbered, j => (parts? numbered j).bind (assemble? (nodeWithin? n true))

/-- The tree that a value spells. Kinds may be given by number if `numbered`,
    and always below the root. -/
def node? (numbered : Bool) (j : Json) : Option Expr :=
  nodeWithin? j.nesting numbered j

theorem arm?_congr {sub sub' : Json → Option Expr} {j : Json} (h : sub j = sub' j) :
    arm? sub j = arm? sub' j := by
  unfold arm?
  split
  · rfl
  · rw [h]

theorem nodes?_congr {sub sub' : Json → Option Expr} {js : List Json}
    (h : ∀ j ∈ js, sub j = sub' j) : nodes? sub js = nodes? sub' js := by
  induction js with
  | nil => rfl
  | cons j js ih =>
    rw [nodes?, nodes?, h j List.mem_cons_self,
      ih fun i hi => h i (List.mem_cons_of_mem _ hi)]

/-- Putting a node together asks only about values that nest less deep. -/
theorem assemble?_congr {sub sub' : Json → Option Expr} {p : Parts} {n : Nat}
    (hp : ∀ v ∈ p.slots, v.nesting < n) (h : ∀ v : Json, v.nesting < n → sub v = sub' v) :
    assemble? sub p = assemble? sub' p := by
  obtain ⟨id, k, slots⟩ := p
  have hsub : ∀ v ∈ slots, sub v = sub' v := fun v hv => h v (hp v hv)
  have hitems : ∀ xs, Json.list xs ∈ slots → nodes? sub xs = nodes? sub' xs := by
    intro xs hxs
    apply nodes?_congr
    intro j hj
    have := hp _ hxs
    have := Json.nesting_le_of_mem hj
    rw [Json.nesting] at *
    exact h j (by omega)
  have harms : ∀ v ∈ slots, arm? sub v = arm? sub' v := fun v hv => arm?_congr (hsub v hv)
  unfold assemble?
  split <;> simp_all

theorem parts?_of_nesting_eq_zero (numbered : Bool) {j : Json} (h : j.nesting = 0) :
    parts? numbered j = none := by
  cases j with
  | scalar => rfl
  | list => rw [Json.nesting] at h; omega
  | object => rw [Json.nesting] at h; omega

/-- Bounds that are large enough give the same tree. -/
theorem nodeWithin?_eq_of_le {n m : Nat} {numbered : Bool} {j : Json} (hn : j.nesting ≤ n)
    (hm : j.nesting ≤ m) : nodeWithin? n numbered j = nodeWithin? m numbered j := by
  induction n generalizing m numbered j with
  | zero =>
    have hp := parts?_of_nesting_eq_zero numbered (Nat.le_zero.1 hn)
    cases m <;> simp [nodeWithin?, hp]
  | succ n ih =>
    cases m with
    | zero =>
      have hp := parts?_of_nesting_eq_zero numbered (Nat.le_zero.1 hm)
      simp [nodeWithin?, hp]
    | succ m =>
      rw [nodeWithin?, nodeWithin?]
      cases hp : parts? numbered j with
      | none => rfl
      | some p =>
        exact assemble?_congr (fun v hv => nesting_lt_of_parts? hp hv)
          fun v hv => ih (by omega) (by omega)

/-- The tree of a node is put together from the trees in its slots. -/
theorem node?_eq (numbered : Bool) (j : Json) :
    node? numbered j = (parts? numbered j).bind (assemble? (node? true)) := by
  rw [node?, nodeWithin?_eq_of_le (Nat.le_refl _) (Nat.le_succ _), nodeWithin?]
  cases hp : parts? numbered j with
  | none => rfl
  | some p =>
    exact assemble?_congr (fun v hv => nesting_lt_of_parts? hp hv)
      fun v hv => nodeWithin?_eq_of_le (by omega) (Nat.le_refl _)

/-- The tree that a document spells; null is the empty tree. -/
def tree? : Json → Option (Option Expr)
  | .scalar .null => some none
  | j => (node? false j).map some

/-! ## Texts -/

/-- The nesting that a text may have. -/
def nestingLimit : Nat := 127

/-- What the JSON library has to say of a text that is no document, and of a
    value that spells no tree. -/
structure Diagnosis where
  ofText : String → String
  ofValue : Json → String

/-- The diagnosis that says nothing. -/
def Diagnosis.silent : Diagnosis := ⟨fun _ => "", fun _ => ""⟩

/-- Reads a tree from a JSON text. -/
def read (d : Diagnosis) (text : String) : Except TreeError (Option Expr) :=
  match Json.read? nestingLimit text with
  | none => .error (.notJson (d.ofText text))
  | some j =>
    match unknownKind? j with
    | some name => .error (.unknownKind name)
    | none =>
      match tree? j with
      | none => .error (.notTree (d.ofValue j))
      | some tree => .ok tree

end Interchange

end MuxHoist
