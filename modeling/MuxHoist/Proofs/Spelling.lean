/-
  MuxHoist.Proofs.Spelling

  The values that spell a tree. A document may give a node as an object or as a
  list, its payload likewise, members in any order and among others, a kind by its
  number, an operator as an object of one member, and may leave out an id and the
  arms of a conditional. Each choice is made at each node anew, so the spellings of
  a tree are given by rules for one node (`TreeSpelling`). They speak of values as
  written: of members with one key the last one counts. Main statement: a text of a
  value that is not too deep and names no unknown kind is read as exactly the trees
  that the value spells (`read_spelled`).
-/
import MuxHoist.Proofs.Position
import MuxHoist.Proofs.RoundTrip

namespace MuxHoist

namespace Interchange

/-! ## Spellings -/

/-- The spellings of an id. Without one a node has no id. -/
inductive IdSpelling : Option Json → Option NodeId → Prop
  | absent : IdSpelling none none
  | null : IdSpelling (some Json.null) none
  | number (n : UInt64) : IdSpelling (some (Json.int n.toNat)) (some ⟨n⟩)

/-- The spellings of a kind: its name and, where `numbered`, its place among all kinds. -/
inductive KindSpelling (numbered : Bool) : Json → Kind → Prop
  | name (k : Kind) : KindSpelling numbered (Json.str k.name) k
  | number {k : Kind} {i : Nat} : numbered = true → Kind.all[i]? = some k →
      KindSpelling numbered (Json.int i) k

/-- The spellings of an operator: its name, or an object with its name for the only key
    and nothing under it. -/
inductive OperatorSpelling : Json → Operator → Prop
  | name (o : Operator) : OperatorSpelling (Json.str o.name) o
  | object {o : Operator} {members : List (String × Json)} {v : Json} :
      (∀ m ∈ members, m.1 = o.name) →
      (Json.object members).child? (.member o.name) = some v → v = Json.null ∨ v = .object [] →
      OperatorSpelling (.object members) o

/-- The spellings of a payload, by its kind and the values in the slots of the kind; a
    slot may be left out. A list has the slots in order and nothing behind them. -/
inductive PayloadSpelling (numbered : Bool) : Json → Kind → List (Option Json) → Prop
  | object {members : List (String × Json)} {tag : Json} {k : Kind} :
      (Json.object members).child? (.member "kind") = some tag → KindSpelling numbered tag k →
      PayloadSpelling numbered (.object members) k
        (k.slots.map fun slot => (Json.object members).child? (.member slot))
  | list {tag : Json} {k : Kind} {items : List Json} :
      KindSpelling numbered tag k → items.length ≤ k.slots.length →
      PayloadSpelling numbered (.list (tag :: items)) k
        (items.map some ++ List.replicate (k.slots.length - items.length) none)

/-- The spellings of a node, by its id, its kind and the values in its slots. -/
inductive NodeSpelling (numbered : Bool) :
    Json → Option NodeId → Kind → List (Option Json) → Prop
  | object {members : List (String × Json)} {payload : Json} {id : Option NodeId} {k : Kind}
      {slots : List (Option Json)} :
      IdSpelling ((Json.object members).child? (.member "id")) id →
      (Json.object members).child? (.member "payload") = some payload →
      PayloadSpelling numbered payload k slots →
      NodeSpelling numbered (.object members) id k slots
  | list {tag payload : Json} {id : Option NodeId} {k : Kind} {slots : List (Option Json)} :
      IdSpelling (some tag) id → PayloadSpelling numbered payload k slots →
      NodeSpelling numbered (.list [tag, payload]) id k slots

mutual

/-- The spellings of a tree. Below the root's payload a kind may be given by its number,
    at the root if `numbered`. Only an arm may be left out. -/
inductive TreeSpelling : (numbered : Bool) → Json → Expr → Prop
  | constant {numbered : Bool} {j : Json} {id : Option NodeId} {value : String} :
      NodeSpelling numbered j id .constant [some (Json.str value)] →
      TreeSpelling numbered j (.leaf id (.constant value))
  | terminal {numbered : Bool} {j : Json} {id : Option NodeId} {name : String} :
      NodeSpelling numbered j id .terminal [some (Json.str name)] →
      TreeSpelling numbered j (.leaf id (.terminal name))
  | evalValue {numbered : Bool} {j : Json} {id : Option NodeId} {value : Int64} {width : UInt64} :
      NodeSpelling numbered j id .evalValue
        [some (Json.int value.toInt), some (Json.int width.toNat)] →
      TreeSpelling numbered j (.leaf id (.evalValue value width))
  | undefined {numbered : Bool} {j : Json} {id : Option NodeId} :
      NodeSpelling numbered j id .undefined [] → TreeSpelling numbered j (.leaf id .undefined)
  | highImpedance {numbered : Bool} {j : Json} {id : Option NodeId} :
      NodeSpelling numbered j id .highImpedance [] →
      TreeSpelling numbered j (.leaf id .highImpedance)
  | branch {numbered : Bool} {j jc : Json} {jt jf : Option Json} {id : Option NodeId} {c : Expr}
      {t f : Option Expr} :
      NodeSpelling numbered j id .branch [some jc, jt, jf] →
      TreeSpelling true jc c → ArmSpelling jt t → ArmSpelling jf f →
      TreeSpelling numbered j (.branch id c t f)
  | operator {numbered : Bool} {j jo : Json} {js : List Json} {id : Option NodeId} {o : Operator}
      {xs : List Expr} :
      NodeSpelling numbered j id .operator [some jo, some (.list js)] →
      OperatorSpelling jo o → OperandsSpelling js xs →
      TreeSpelling numbered j (.compound id (.op o) xs)
  | concat {numbered : Bool} {j : Json} {js : List Json} {id : Option NodeId} {xs : List Expr} :
      NodeSpelling numbered j id .concat [some (.list js)] → OperandsSpelling js xs →
      TreeSpelling numbered j (.compound id .concat xs)
  | partselect {numbered : Bool} {j jb jm jl : Json} {id : Option NodeId} {b m l : Expr} :
      NodeSpelling numbered j id .partselect [some jb, some jm, some jl] →
      TreeSpelling true jb b → TreeSpelling true jm m → TreeSpelling true jl l →
      TreeSpelling numbered j (.partselect id b m l)
  | pointer {numbered : Bool} {j jb ji : Json} {id : Option NodeId} {b i : Expr} :
      NodeSpelling numbered j id .pointer [some jb, some ji] →
      TreeSpelling true jb b → TreeSpelling true ji i →
      TreeSpelling numbered j (.pointer id b i)
  | delay {numbered : Bool} {j je : Json} {id : Option NodeId} {e : Expr} :
      NodeSpelling numbered j id .delay [some je] → TreeSpelling true je e →
      TreeSpelling numbered j (.delay id e)

/-- The spellings of an arm. Null and nothing stand for a missing one. -/
inductive ArmSpelling : Option Json → Option Expr → Prop
  | absent : ArmSpelling none none
  | null : ArmSpelling (some Json.null) none
  | node {j : Json} {e : Expr} : TreeSpelling true j e → ArmSpelling (some j) (some e)

/-- The spellings of operands, item for item. -/
inductive OperandsSpelling : List Json → List Expr → Prop
  | nil : OperandsSpelling [] []
  | cons {j : Json} {js : List Json} {e : Expr} {es : List Expr} :
      TreeSpelling true j e → OperandsSpelling js es → OperandsSpelling (j :: js) (e :: es)

end

/-! ## Values as read -/

/-- What a place holds in the value as read, by what it holds in the value as written:
    null, if it is left out. -/
def held (v : Option Json) : Json := (v.map Json.canonical).getD Json.null

theorem canonical_eq_scalar_iff {j : Json} {v : Json.Scalar} :
    j.canonical = .scalar v ↔ j = .scalar v := by
  cases j <;> simp [Json.canonical]

theorem canonical_eq_list_iff {j : Json} {items : List Json} :
    j.canonical = .list items ↔ ∃ js, j = .list js ∧ items = js.map Json.canonical := by
  cases j <;> simp [Json.canonical, Json.canonicalAll_eq_map, eq_comm]

theorem canonical_eq_object_iff {j : Json} {members : List (String × Json)} :
    j.canonical = .object members ↔ ∃ ms, j = .object ms ∧ Json.canonicalMembers ms = members := by
  cases j <;> simp [Json.canonical]

/-- What is read from a place that must not be left out. -/
theorem read_held_eq_some_iff {α : Type} {r : Json → Option α} (hnull : r Json.null = none)
    {v : Option Json} {a : α} :
    r (held v) = some a ↔ ∃ j, v = some j ∧ r j.canonical = some a := by
  cases v with
  | none => simp [held, hnull]
  | some j => simp [held]

theorem held_eq_scalar_iff {v : Option Json} {s : Json.Scalar} (hs : s ≠ .null) :
    held v = .scalar s ↔ v = some (.scalar s) := by
  cases v with
  | none => simp [held, Json.null, hs.symm]
  | some j => rw [held, Option.map_some, Option.getD_some, canonical_eq_scalar_iff, Option.some.injEq]

/-- What is left out is read as null. -/
theorem held_eq_null_iff {v : Option Json} :
    held v = Json.null ↔ v = none ∨ v = some Json.null := by
  cases v with
  | none => simp [held]
  | some j =>
    rw [held, Option.map_some, Option.getD_some, Json.null, canonical_eq_scalar_iff]
    simp

theorem held_eq_list_iff {v : Option Json} {items : List Json} :
    held v = .list items ↔ ∃ js, v = some (.list js) ∧ items = js.map Json.canonical := by
  cases v with
  | none => simp [held, Json.null]
  | some j => rw [held, Option.map_some, Option.getD_some, canonical_eq_list_iff]; simp

/-! ## Scalars -/

theorem text?_eq_some_iff {j : Json} {s : String} : text? j = some s ↔ j = Json.str s := by
  rw [Json.str]
  unfold text?
  split
  · next t => rw [Option.some.injEq, Json.scalar.injEq, Json.Scalar.str.injEq]
  · next h => exact iff_of_false (fun h => by cases h) (h s)

/-- Exactly the numbers in the range of the type are read, as what they are. -/
theorem signed?_eq_some_iff {j : Json} {n : Int64} : signed? j = some n ↔ j = Json.int n.toInt := by
  constructor
  · intro h
    unfold signed? at h
    split at h
    · next v =>
      split at h
      · next hrange =>
        cases h
        rw [Int64.toInt_ofInt_of_le hrange.1 (Int.lt_add_one_of_le hrange.2), Json.int]
      · cases h
    · cases h
  · rintro rfl
    exact signed?_toInt n

theorem unsigned?_eq_some_iff {j : Json} {n : UInt64} :
    unsigned? j = some n ↔ j = Json.int n.toNat := by
  constructor
  · intro h
    unfold unsigned? at h
    split at h
    · next v =>
      split at h
      · next hrange =>
        cases h
        have hsize : v.toNat < UInt64.size := by omega
        rw [UInt64.toNat_ofNat_of_lt' hsize, Int.toNat_of_nonneg hrange.1, Json.int]
      · cases h
    · cases h
  · rintro rfl
    exact unsigned?_toNat n

theorem text?_held {v : Option Json} {s : String} :
    text? (held v) = some s ↔ v = some (Json.str s) := by
  rw [text?_eq_some_iff, Json.str, held_eq_scalar_iff (by simp)]

theorem signed?_held {v : Option Json} {n : Int64} :
    signed? (held v) = some n ↔ v = some (Json.int n.toInt) := by
  rw [signed?_eq_some_iff, Json.int, held_eq_scalar_iff (by simp)]

theorem unsigned?_held {v : Option Json} {n : UInt64} :
    unsigned? (held v) = some n ↔ v = some (Json.int n.toNat) := by
  rw [unsigned?_eq_some_iff, Json.int, held_eq_scalar_iff (by simp)]

theorem id?_held {v : Option Json} {id : Option NodeId} :
    id? (held v) = some id ↔ IdSpelling v id := by
  constructor
  · intro h
    unfold id? at h
    split at h
    · next hnull =>
      cases h
      rcases held_eq_null_iff.mp hnull with rfl | rfl
      · exact .absent
      · exact .null
    · obtain ⟨n, hn, rfl⟩ := Option.map_eq_some_iff.mp h
      rw [unsigned?_held.mp hn]
      exact .number n
  · rintro (_ | _ | n)
    · rfl
    · rfl
    · rw [held, Option.map_some, Option.getD_some, canonical_int]
      exact id?_toNat n

/-! ## Kinds and operators -/

theorem kind?_canonical {numbered : Bool} {j : Json} {k : Kind} :
    kind? numbered j.canonical = some k ↔ KindSpelling numbered j k := by
  constructor
  · intro h
    unfold kind? at h
    split at h
    · next name hname =>
      rw [canonical_eq_scalar_iff.mp hname, ← Kind.name_of_ofName? h]
      exact .name k
    · next n hn =>
      split at h
      · next hnumber =>
        rw [canonical_eq_scalar_iff.mp hn, ← Int.toNat_of_nonneg hnumber.2]
        exact .number hnumber.1 h
      · cases h
    · cases h
  · rintro (_ | ⟨hnumbered, hi⟩)
    · exact Kind.ofName?_name k
    · rw [canonical_int, Json.int, kind?, if_pos ⟨hnumbered, Int.natCast_nonneg _⟩]
      exact hi

theorem kind?_held {numbered : Bool} {v : Option Json} {k : Kind} :
    kind? numbered (held v) = some k ↔ ∃ tag, v = some tag ∧ KindSpelling numbered tag k := by
  rw [read_held_eq_some_iff rfl]
  simp only [kind?_canonical]

/-- An object has a single member in canonical form if it has a single key as written. -/
theorem canonicalMembers_eq_singleton_iff {key : String} {v : Json} {ms : List (String × Json)} :
    Json.canonicalMembers ms = [(key, v)] ↔ (∀ m ∈ ms, m.1 = key) ∧
      ∃ w, (Json.object ms).child? (.member key) = some w ∧ w.canonical = v := by
  have hlookup : ∀ k, Json.lookup k (Json.canonicalMembers ms)
      = ((Json.object ms).child? (.member k)).map Json.canonical :=
    fun k => Json.lookup_canonicalMembers k ms
  constructor
  · intro h
    rw [h] at hlookup
    constructor
    · intro m hm
      by_contra hne
      have hnone := hlookup m.1
      rw [Json.lookup, if_neg (Ne.symm hne), Json.lookup] at hnone
      have hkeys := Json.lookup_eq_none_iff.mp (Option.map_eq_none_iff.mp hnone.symm)
      exact hkeys m (List.mem_reverse.mpr hm) rfl
    · have hsome := hlookup key
      rw [Json.lookup, if_pos rfl] at hsome
      exact Option.map_eq_some_iff.mp hsome.symm
  · rintro ⟨hkeys, w, hw, rfl⟩
    -- Only members of one key were written, so what is left of them is the last one.
    have hall : ∀ m ∈ Json.canonicalMembers ms, m = (key, w.canonical) := by
      rintro ⟨k, u⟩ hm
      have hu := hlookup k
      rw [Json.lookup_of_mem (Json.ascending_canonicalMembers ms).nodup hm] at hu
      obtain ⟨w', hw', rfl⟩ := Option.map_eq_some_iff.mp hu.symm
      obtain rfl : k = key := hkeys _ (Json.mem_of_child? hw')
      rw [Option.some.inj (hw.symm.trans hw')]
    have hmem : (key, w.canonical) ∈ Json.canonicalMembers ms := by
      apply Json.mem_of_lookup
      rw [hlookup, hw, Option.map_some]
    have hasc := Json.ascending_canonicalMembers ms
    cases hms : Json.canonicalMembers ms with
    | nil =>
      rw [hms] at hmem
      cases hmem
    | cons m rest =>
      rw [hms] at hall hasc
      cases rest with
      | nil => rw [hall m List.mem_cons_self]
      | cons n rest =>
        -- Two members would have one key, and the keys ascend.
        have hlt := (List.pairwise_cons.mp hasc).1 n List.mem_cons_self
        rw [hall m List.mem_cons_self, hall n (List.mem_cons_of_mem _ List.mem_cons_self)] at hlt
        exact absurd hlt (String.lt_irrefl key)

/-- Nothing is left of the members of an object only if there were none. -/
theorem eq_nil_of_canonicalMembers {ms : List (String × Json)}
    (h : Json.canonicalMembers ms = []) : ms = [] := by
  cases ms with
  | nil => rfl
  | cons m ms =>
    have hnone := Json.lookup_canonicalMembers m.1 (m :: ms)
    rw [h, Json.lookup] at hnone
    have hkeys := Json.lookup_eq_none_iff.mp (Option.map_eq_none_iff.mp hnone.symm)
    exact absurd rfl (hkeys m (List.mem_reverse.mpr List.mem_cons_self))

theorem operator?_eq_some_iff {j : Json} {o : Operator} :
    operator? j = some o ↔ j = Json.str o.name ∨ j = .object [(o.name, Json.null)] ∨
      j = .object [(o.name, .object [])] := by
  constructor
  · intro h
    unfold operator? at h
    split at h
    · exact .inl (congrArg Json.str (Operator.name_of_ofName? h).symm)
    · rw [Operator.name_of_ofName? h]
      exact .inr (.inl rfl)
    · rw [Operator.name_of_ofName? h]
      exact .inr (.inr rfl)
    · cases h
  · rintro (rfl | rfl | rfl)
    all_goals exact Operator.ofName?_name o

theorem operator?_canonical {j : Json} {o : Operator} :
    operator? j.canonical = some o ↔ OperatorSpelling j o := by
  rw [operator?_eq_some_iff]
  constructor
  · rintro (h | h | h)
    · rw [canonical_eq_scalar_iff.mp h]
      exact .name o
    · obtain ⟨members, rfl, hms⟩ := canonical_eq_object_iff.mp h
      obtain ⟨hkeys, w, hw, hnull⟩ := canonicalMembers_eq_singleton_iff.mp hms
      exact .object hkeys hw (.inl (canonical_eq_scalar_iff.mp hnull))
    · obtain ⟨members, rfl, hms⟩ := canonical_eq_object_iff.mp h
      obtain ⟨hkeys, w, hw, hempty⟩ := canonicalMembers_eq_singleton_iff.mp hms
      obtain ⟨ws, rfl, hws⟩ := canonical_eq_object_iff.mp hempty
      rw [eq_nil_of_canonicalMembers hws] at hw
      exact .object hkeys hw (.inr rfl)
  · rintro (_ | ⟨hkeys, hv, hnothing⟩)
    · exact .inl rfl
    · have hms := canonicalMembers_eq_singleton_iff.mpr ⟨hkeys, _, hv, rfl⟩
      rw [Json.canonical, hms]
      rcases hnothing with rfl | rfl
      · exact .inr (.inl rfl)
      · exact .inr (.inr rfl)

theorem operator?_held {v : Option Json} {o : Operator} :
    operator? (held v) = some o ↔ ∃ j, v = some j ∧ OperatorSpelling j o := by
  rw [read_held_eq_some_iff rfl]
  simp only [operator?_canonical]

/-! ## Nodes taken apart -/

/-- A payload comes apart into the kind that it spells and what its slots hold. -/
theorem payloadParts?_held {numbered : Bool} {v : Option Json} {k : Kind} {slots : List Json} :
    payloadParts? numbered (held v) = some (k, slots) ↔
      ∃ payload vs, v = some payload ∧ PayloadSpelling numbered payload k vs ∧
        slots = vs.map held := by
  rw [read_held_eq_some_iff rfl]
  constructor
  · rintro ⟨payload, rfl, h⟩
    refine ⟨payload, ?_⟩
    cases payload with
    | scalar => cases h
    | list items =>
      cases items with
      | nil => cases h
      | cons tag items =>
        rw [Json.canonical, Json.canonicalAll_eq_map, List.map_cons] at h
        obtain ⟨k, hk, h⟩ := Option.bind_eq_some_iff.mp h
        split at h
        · next hlen =>
          cases h
          rw [List.length_map] at hlen
          refine ⟨_, rfl, .list (kind?_canonical.mp hk) hlen, ?_⟩
          rw [List.map_append, List.map_map, List.map_replicate, List.length_map]
          rfl
        · cases h
    | object members =>
      rw [Json.canonical] at h
      obtain ⟨k, hk, h⟩ := Option.map_eq_some_iff.mp h
      cases h
      rw [member_canonicalMembers] at hk
      obtain ⟨tag, htag, hspell⟩ := kind?_held.mp hk
      refine ⟨_, rfl, .object htag hspell, ?_⟩
      rw [List.map_map]
      exact List.map_congr_left fun slot _ => member_canonicalMembers slot members
  · rintro ⟨payload, vs, rfl, hspell, rfl⟩
    refine ⟨payload, rfl, ?_⟩
    cases hspell with
    | object htag hk =>
      rw [Json.canonical, payloadParts?, member_canonicalMembers, htag, Option.map_some,
        Option.getD_some, kind?_canonical.mpr hk, Option.map_some, List.map_map]
      exact congrArg (fun slots => some (k, slots))
        (List.map_congr_left fun slot _ => member_canonicalMembers slot _)
    | list hk hlen =>
      rw [Json.canonical, Json.canonicalAll_eq_map, List.map_cons, payloadParts?,
        kind?_canonical.mpr hk, Option.bind_some, List.length_map, if_pos hlen, List.map_append,
        List.map_map, List.map_replicate]
      rfl

/-- A node comes apart into what it spells: its id, its kind, and what its slots hold. -/
theorem parts?_canonical {numbered : Bool} {j : Json} {p : Parts} :
    parts? numbered j.canonical = some p ↔
      ∃ vs, NodeSpelling numbered j p.id p.kind vs ∧ p.slots = vs.map held := by
  obtain ⟨id, k, slots⟩ := p
  constructor
  · intro h
    cases j with
    | scalar => cases h
    | list items =>
      rw [Json.canonical, Json.canonicalAll_eq_map] at h
      unfold parts? at h
      split at h
      · next heq => cases heq
      · next tag' payload' heq =>
        obtain ⟨tag, rest, rfl, htag, hrest⟩ := List.map_eq_cons_iff.mp (Json.list.inj heq)
        obtain ⟨payload, rest, rfl, hpayload, hnil⟩ := List.map_eq_cons_iff.mp hrest
        obtain rfl := List.map_eq_nil_iff.mp hnil
        subst htag hpayload
        simp only [bind, Option.bind_eq_some_iff, pure, Option.some.injEq, Prod.exists,
          Parts.mk.injEq] at h
        obtain ⟨_, hid, _, _, hp, rfl, rfl, rfl⟩ := h
        obtain ⟨_, vs, ⟨⟩, hspell, rfl⟩ := payloadParts?_held (v := some payload).mp hp
        exact ⟨vs, .list (id?_held (v := some tag).mp hid) hspell, rfl⟩
      · cases h
    | object members =>
      rw [Json.canonical] at h
      simp only [parts?, member_canonicalMembers, bind, Option.bind_eq_some_iff, pure,
        Option.some.injEq, Prod.exists, Parts.mk.injEq] at h
      obtain ⟨_, hid, _, _, hp, rfl, rfl, rfl⟩ := h
      obtain ⟨payload, vs, hpayload, hspell, rfl⟩ := payloadParts?_held.mp hp
      exact ⟨vs, .object (id?_held.mp hid) hpayload hspell, rfl⟩
  · rintro ⟨vs, hspell, rfl⟩
    cases hspell with
    | object hid hpayload hp =>
      have hid := id?_held.mpr hid
      have hp := payloadParts?_held.mpr ⟨_, _, hpayload, hp, rfl⟩
      simp only [held] at hid hp
      simp only [Json.canonical, parts?, member_canonicalMembers, hid, hp, bind, Option.bind_some,
        pure]
    | list hid hp =>
      have hid := id?_held.mpr hid
      have hp := payloadParts?_held.mpr ⟨_, _, rfl, hp, rfl⟩
      simp only [held, Option.map_some, Option.getD_some] at hid hp
      simp only [Json.canonical, Json.canonicalAll, parts?, hid, hp, bind, Option.bind_some, pure]

/-! ## Trees -/

section

variable {numbered : Bool} {j : Json} {e : Expr}

/-- Nothing that is left out is read as a node. -/
theorem node?_held {v : Option Json} :
    node? true (held v) = some e ↔ ∃ j, v = some j ∧ node? true j.canonical = some e :=
  read_held_eq_some_iff rfl

theorem arm?_held {v : Option Json} {t : Option Expr}
    (ih : ∀ e ∈ t, ∀ j, node? true j.canonical = some e ↔ TreeSpelling true j e) :
    arm? (node? true) (held v) = some t ↔ ArmSpelling v t := by
  constructor
  · intro h
    unfold arm? at h
    split at h
    · next hnull =>
      cases h
      rcases held_eq_null_iff.mp hnull with rfl | rfl
      · exact .absent
      · exact .null
    · obtain ⟨e, he, rfl⟩ := Option.map_eq_some_iff.mp h
      obtain ⟨j, rfl, hj⟩ := node?_held.mp he
      exact .node ((ih e rfl j).mp hj)
  · rintro (_ | _ | hj)
    · rfl
    · rfl
    · next j e =>
      have he := (ih e rfl j).mpr hj
      rw [held, Option.map_some, Option.getD_some]
      unfold arm?
      split
      · next hnull =>
        rw [hnull] at he
        cases he
      · rw [he, Option.map_some]

theorem nodes?_canonical {js : List Json} {xs : List Expr}
    (ih : ∀ (i : Nat) (e : Expr), xs[i]? = some e →
      ∀ j, node? true j.canonical = some e ↔ TreeSpelling true j e) :
    nodes? (node? true) (js.map Json.canonical) = some xs ↔ OperandsSpelling js xs := by
  induction js generalizing xs with
  | nil =>
    constructor
    · intro h
      cases h
      exact .nil
    · rintro ⟨⟩
      rfl
  | cons j js ihs =>
    simp only [List.map_cons, nodes?, bind, Option.bind_eq_some_iff, pure, Option.some.injEq]
    constructor
    · rintro ⟨e, he, es, hes, rfl⟩
      exact .cons ((ih 0 e rfl j).mp he) ((ihs fun i => ih (i + 1)).mp hes)
    · rintro (_ | ⟨he, hes⟩)
      exact ⟨_, (ih 0 _ rfl j).mpr he, _, (ihs fun i => ih (i + 1)).mpr hes, rfl⟩

theorem length_of_nodeSpelling {id : Option NodeId} {k : Kind} {vs : List (Option Json)}
    (h : NodeSpelling numbered j id k vs) : vs.length = k.slots.length := by
  have hpayload : ∀ payload, PayloadSpelling numbered payload k vs →
      vs.length = k.slots.length := by
    rintro payload (_ | ⟨-, hlen⟩)
    · exact List.length_map _
    · rw [List.length_append, List.length_map, List.length_replicate]
      omega
  cases h with
  | object _ _ hp => exact hpayload _ hp
  | list _ hp => exact hpayload _ hp

/-- What is put together from the slots of a node is spelled by the node, if what is
    read in a slot is spelled there. -/
theorem treeSpelling_of_assemble? {id : Option NodeId} {k : Kind} {vs : List (Option Json)}
    (ih : ∀ i c, e.part? i = some c → ∀ j, node? true j.canonical = some c ↔ TreeSpelling true j c)
    (hnode : NodeSpelling numbered j id k vs)
    (h : assemble? (node? true) ⟨id, k, vs.map held⟩ = some e) : TreeSpelling numbered j e := by
  have hlen := length_of_nodeSpelling hnode
  cases k with
  | constant =>
    obtain ⟨v, rfl⟩ := List.length_eq_one_iff.mp hlen
    obtain ⟨value, hv, heq⟩ := Option.bind_eq_some_iff.mp h
    cases heq
    rw [text?_held.mp hv] at hnode
    exact .constant hnode
  | terminal =>
    obtain ⟨v, rfl⟩ := List.length_eq_one_iff.mp hlen
    obtain ⟨name, hv, heq⟩ := Option.bind_eq_some_iff.mp h
    cases heq
    rw [text?_held.mp hv] at hnode
    exact .terminal hnode
  | evalValue =>
    obtain ⟨v, w, rfl⟩ := List.length_eq_two.mp hlen
    obtain ⟨value, hv, h⟩ := Option.bind_eq_some_iff.mp h
    obtain ⟨width, hw, heq⟩ := Option.bind_eq_some_iff.mp h
    cases heq
    rw [signed?_held.mp hv, unsigned?_held.mp hw] at hnode
    exact .evalValue hnode
  | undefined =>
    obtain rfl := List.length_eq_zero_iff.mp hlen
    cases h
    exact .undefined hnode
  | highImpedance =>
    obtain rfl := List.length_eq_zero_iff.mp hlen
    cases h
    exact .highImpedance hnode
  | branch =>
    obtain ⟨vc, vt, vf, rfl⟩ := List.length_eq_three.mp hlen
    obtain ⟨c, hc, h⟩ := Option.bind_eq_some_iff.mp h
    obtain ⟨t, ht, h⟩ := Option.bind_eq_some_iff.mp h
    obtain ⟨f, hf, heq⟩ := Option.bind_eq_some_iff.mp h
    cases heq
    obtain ⟨jc, rfl, hc⟩ := node?_held.mp hc
    exact .branch hnode ((ih 0 c rfl jc).mp hc) ((arm?_held fun a ha => ih 1 a ha).mp ht)
      ((arm?_held fun a ha => ih 2 a ha).mp hf)
  | operator =>
    obtain ⟨vo, vx, rfl⟩ := List.length_eq_two.mp hlen
    cases hitems : held vx with
    | list items =>
      rw [List.map_cons, List.map_cons, hitems] at h
      obtain ⟨o, ho, h⟩ := Option.bind_eq_some_iff.mp h
      obtain ⟨xs, hxs, heq⟩ := Option.bind_eq_some_iff.mp h
      cases heq
      obtain ⟨jo, rfl, hspell⟩ := operator?_held.mp ho
      obtain ⟨js, rfl, rfl⟩ := held_eq_list_iff.mp hitems
      exact .operator hnode hspell ((nodes?_canonical ih).mp hxs)
    | _ =>
      rw [List.map_cons, List.map_cons, hitems] at h
      cases h
  | concat =>
    obtain ⟨vx, rfl⟩ := List.length_eq_one_iff.mp hlen
    cases hitems : held vx with
    | list items =>
      rw [List.map_cons, hitems] at h
      obtain ⟨xs, hxs, heq⟩ := Option.bind_eq_some_iff.mp h
      cases heq
      obtain ⟨js, rfl, rfl⟩ := held_eq_list_iff.mp hitems
      exact .concat hnode ((nodes?_canonical ih).mp hxs)
    | _ =>
      rw [List.map_cons, hitems] at h
      cases h
  | partselect =>
    obtain ⟨vb, vm, vl, rfl⟩ := List.length_eq_three.mp hlen
    obtain ⟨b, hb, h⟩ := Option.bind_eq_some_iff.mp h
    obtain ⟨m, hm, h⟩ := Option.bind_eq_some_iff.mp h
    obtain ⟨l, hl, heq⟩ := Option.bind_eq_some_iff.mp h
    cases heq
    obtain ⟨jb, rfl, hb⟩ := node?_held.mp hb
    obtain ⟨jm, rfl, hm⟩ := node?_held.mp hm
    obtain ⟨jl, rfl, hl⟩ := node?_held.mp hl
    exact .partselect hnode ((ih 0 b rfl jb).mp hb) ((ih 1 m rfl jm).mp hm) ((ih 2 l rfl jl).mp hl)
  | pointer =>
    obtain ⟨vb, vi, rfl⟩ := List.length_eq_two.mp hlen
    obtain ⟨b, hb, h⟩ := Option.bind_eq_some_iff.mp h
    obtain ⟨x, hx, heq⟩ := Option.bind_eq_some_iff.mp h
    cases heq
    obtain ⟨jb, rfl, hb⟩ := node?_held.mp hb
    obtain ⟨jx, rfl, hx⟩ := node?_held.mp hx
    exact .pointer hnode ((ih 0 b rfl jb).mp hb) ((ih 1 x rfl jx).mp hx)
  | delay =>
    obtain ⟨ve, rfl⟩ := List.length_eq_one_iff.mp hlen
    obtain ⟨d, hd, heq⟩ := Option.bind_eq_some_iff.mp h
    cases heq
    obtain ⟨je, rfl, hd⟩ := node?_held.mp hd
    exact .delay hnode ((ih 0 d rfl je).mp hd)

/-- The tree that a node spells is put together from the node's slots. -/
theorem exists_assemble?_of_treeSpelling
    (ih : ∀ i c, e.part? i = some c → ∀ j, node? true j.canonical = some c ↔ TreeSpelling true j c)
    (h : TreeSpelling numbered j e) :
    ∃ id k vs, NodeSpelling numbered j id k vs ∧
      assemble? (node? true) ⟨id, k, vs.map held⟩ = some e := by
  cases h with
  | constant hnode => exact ⟨_, _, _, hnode, rfl⟩
  | terminal hnode => exact ⟨_, _, _, hnode, rfl⟩
  | evalValue hnode =>
    refine ⟨_, _, _, hnode, ?_⟩
    simp only [List.map_cons, List.map_nil, assemble?, signed?_held.mpr rfl, unsigned?_held.mpr rfl,
      bind, Option.bind_some, pure]
  | undefined hnode => exact ⟨_, _, _, hnode, rfl⟩
  | highImpedance hnode => exact ⟨_, _, _, hnode, rfl⟩
  | @branch _ _ _ jt jf _ _ t f hnode hc ht hf =>
    refine ⟨_, _, _, hnode, ?_⟩
    have hc := node?_held.mpr ⟨_, rfl, (ih 0 _ rfl _).mpr hc⟩
    have ht : arm? (node? true) (held jt) = some t := (arm?_held fun a ha => ih 1 a ha).mpr ht
    have hf : arm? (node? true) (held jf) = some f := (arm?_held fun a ha => ih 2 a ha).mpr hf
    simp only [List.map_cons, List.map_nil, assemble?, hc, ht, hf, bind, Option.bind_some, pure]
  | @operator _ _ _ js _ _ xs hnode ho hxs =>
    refine ⟨_, _, _, hnode, ?_⟩
    have ho := operator?_held.mpr ⟨_, rfl, ho⟩
    have hitems : held (some (.list js)) = .list (js.map Json.canonical) :=
      held_eq_list_iff.mpr ⟨js, rfl, rfl⟩
    have hxs : nodes? (node? true) (js.map Json.canonical) = some xs := (nodes?_canonical ih).mpr hxs
    simp only [List.map_cons, List.map_nil, hitems, assemble?, ho, hxs, bind, Option.bind_some, pure]
  | @concat _ _ js _ xs hnode hxs =>
    refine ⟨_, _, _, hnode, ?_⟩
    have hitems : held (some (.list js)) = .list (js.map Json.canonical) :=
      held_eq_list_iff.mpr ⟨js, rfl, rfl⟩
    have hxs : nodes? (node? true) (js.map Json.canonical) = some xs := (nodes?_canonical ih).mpr hxs
    simp only [List.map_cons, List.map_nil, hitems, assemble?, hxs, bind, Option.bind_some, pure]
  | partselect hnode hb hm hl =>
    refine ⟨_, _, _, hnode, ?_⟩
    have hb := node?_held.mpr ⟨_, rfl, (ih 0 _ rfl _).mpr hb⟩
    have hm := node?_held.mpr ⟨_, rfl, (ih 1 _ rfl _).mpr hm⟩
    have hl := node?_held.mpr ⟨_, rfl, (ih 2 _ rfl _).mpr hl⟩
    simp only [List.map_cons, List.map_nil, assemble?, hb, hm, hl, bind, Option.bind_some, pure]
  | pointer hnode hb hx =>
    refine ⟨_, _, _, hnode, ?_⟩
    have hb := node?_held.mpr ⟨_, rfl, (ih 0 _ rfl _).mpr hb⟩
    have hx := node?_held.mpr ⟨_, rfl, (ih 1 _ rfl _).mpr hx⟩
    simp only [List.map_cons, List.map_nil, assemble?, hb, hx, bind, Option.bind_some, pure]
  | delay hnode he =>
    refine ⟨_, _, _, hnode, ?_⟩
    have he := node?_held.mpr ⟨_, rfl, (ih 0 _ rfl _).mpr he⟩
    simp only [List.map_cons, List.map_nil, assemble?, he, bind, Option.bind_some, pure]

end

/-- A value as read gives a tree exactly if the value as written spells it. -/
theorem node?_canonical {numbered : Bool} {j : Json} {e : Expr} :
    node? numbered j.canonical = some e ↔ TreeSpelling numbered j e := by
  induction e using Expr.part_induct generalizing numbered j with
  | node e ih =>
    have hpart : ∀ i c, e.part? i = some c →
        ∀ j, node? true j.canonical = some c ↔ TreeSpelling true j c := fun i c hc j => ih i c hc
    rw [node?_eq, Option.bind_eq_some_iff]
    constructor
    · rintro ⟨⟨id, k, slots⟩, hp, h⟩
      obtain ⟨vs, hnode, rfl⟩ := parts?_canonical.mp hp
      exact treeSpelling_of_assemble? hpart hnode h
    · intro h
      obtain ⟨id, k, vs, hnode, hassemble⟩ := exists_assemble?_of_treeSpelling hpart h
      exact ⟨_, parts?_canonical.mpr ⟨vs, hnode, rfl⟩, hassemble⟩

theorem tree?_canonical {j : Json} {e : Expr} :
    tree? j.canonical = some (some e) ↔ TreeSpelling false j e := by
  rw [← node?_canonical]
  unfold tree?
  split
  · next hnull =>
    rw [hnull]
    exact iff_of_false (fun h => by cases h) (fun h => by cases h)
  · rw [Option.map_eq_some_iff]
    constructor
    · rintro ⟨_, he, ⟨⟩⟩
      exact he
    · intro he
      exact ⟨e, he, rfl⟩

theorem tree?_canonical_none {j : Json} : tree? j.canonical = some none ↔ j = Json.null := by
  constructor
  · intro h
    unfold tree? at h
    split at h
    · next hnull => exact canonical_eq_scalar_iff.mp hnull
    · obtain ⟨_, -, heq⟩ := Option.map_eq_some_iff.mp h
      cases heq
  · rintro rfl
    rfl

/-! ## Texts -/

/-- Of the texts of a value that is not too deep and names no unknown kind, each is read
    as a tree exactly if the value spells the tree, and as the empty tree exactly if the
    value is null. -/
theorem read_spelled (d : Diagnosis) {text : String} {j : Json} (hj : Json.Spells text j)
    (hlimit : j.nesting ≤ nestingLimit) (hkinds : NoUnknownKind j) :
    (∀ e, read d text = .ok (some e) ↔ TreeSpelling false j e) ∧
      (read d text = .ok none ↔ j = Json.null) := by
  have hread : ∀ tree, read d text = .ok tree ↔ tree? j.canonical = some tree := by
    intro tree
    rw [read_eq_ok_iff]
    constructor
    · rintro ⟨k, hk, -, -, htree⟩
      rwa [Json.spells_unique hk hj] at htree
    · intro htree
      exact ⟨j, hj, hlimit, hkinds, htree⟩
  refine ⟨fun e => ?_, ?_⟩
  · rw [hread, tree?_canonical]
  · rw [hread, tree?_canonical_none]

/-- A node with two ids and its payload as a list without the last arm, a condition with a
    numbered kind and a member of no meaning, and an arm as a list around an operator
    given as an object. -/
theorem read_spelled_mixed :
    let d := Diagnosis.silent
    let text := " \x7b\"payload\": [\"Branch\", "
      ++ "\x7b\"payload\": \x7b\"name\": \"a\", \"kind\": 1\x7d, \"width\": 1.5\x7d, "
      ++ "[7, \x7b\"operands\": [], \"op\": \x7b\"Plus\": \x7b\x7d\x7d, \"kind\": \"Operator\"\x7d]], "
      ++ "\"id\": -9, \"id\": 3\x7d"
    let cond : Json := .object [("payload", .object [("name", Json.str "a"), ("kind", Json.int 1)]),
      ("width", .scalar (.real "1.5"))]
    let arm : Json := .list [Json.int 7, .object [("operands", .list []),
      ("op", .object [("Plus", .object [])]), ("kind", Json.str "Operator")]]
    let j : Json := .object [("payload", .list [Json.str "Branch", cond, arm]),
      ("id", Json.int (-9)), ("id", Json.int 3)]
    let e : Expr := .branch (some ⟨3⟩) (.leaf none (.terminal "a"))
      (some (.compound (some ⟨7⟩) (.op .plus) [])) none
    Json.Spells text j ∧ j.nesting ≤ nestingLimit ∧ NoUnknownKind j ∧
      read d text = .ok (some e) ∧ TreeSpelling false j e ∧ j ≠ Json.null := by
  intro d text cond arm j e
  have hj : Json.Spells text j := Json.tokens?_eq_some_iff.mp (by decide +kernel)
  have hlimit : j.nesting ≤ nestingLimit := by decide +kernel
  have hkinds : NoUnknownKind j := noUnknownKind_iff.mpr (by decide +kernel)
  have hread : read d text = .ok (some e) := by
    rw [read, Json.read?_of_spells hj, if_pos hlimit]
    decide +kernel
  obtain ⟨htree, hempty⟩ := read_spelled d hj hlimit hkinds
  refine ⟨hj, hlimit, hkinds, hread, (htree e).mp hread, fun hnull => ?_⟩
  rw [hempty.mpr hnull] at hread
  cases hread

end Interchange

end MuxHoist
