/-
  MuxHoist.Interchange.Slots

  How a node is laid out in an interchange document: an optional `id` and a
  `payload`, which is a `kind` and the slots of that kind. The slots of a kind
  have names and an order.
-/
import MuxHoist.Expr.Basic
import MuxHoist.Json.Basic

namespace MuxHoist

/-- The names of a kind's slots, in order. -/
def Kind.slots : Kind → List String
  | .constant => ["value"]
  | .terminal => ["name"]
  | .evalValue => ["value", "width"]
  | .undefined => []
  | .highImpedance => []
  | .branch => ["cond", "true_node", "false_node"]
  | .operator => ["op", "operands"]
  | .concat => ["operands"]
  | .partselect => ["base", "msb", "lsb"]
  | .pointer => ["base", "index"]
  | .delay => ["inner"]

namespace Interchange

/-! ## Scalars in slots -/

/-- A text in a slot. -/
def text? : Json → Option String
  | .scalar (.str s) => some s
  | _ => none

/-- A signed 64-bit number in a slot. -/
def signed? : Json → Option Int64
  | .scalar (.int n) =>
    if Int64.minValue.toInt ≤ n ∧ n ≤ Int64.maxValue.toInt then some (Int64.ofInt n) else none
  | _ => none

/-- An unsigned 64-bit number in a slot. -/
def unsigned? : Json → Option UInt64
  | .scalar (.int n) =>
    if 0 ≤ n ∧ n < UInt64.size then some (UInt64.ofNat n.toNat) else none
  | _ => none

/-- An id as a document holds it: an unsigned number, or null for none. -/
def id? : Json → Option (Option NodeId)
  | .scalar .null => some none
  | j => (unsigned? j).map fun n => some ⟨n⟩

/-- An operator in a slot: its name, or an object that holds nothing under its
    name. -/
def operator? : Json → Option Operator
  | .scalar (.str name) => Operator.ofName? name
  | .object [(name, .scalar .null)] => Operator.ofName? name
  | .object [(name, .object [])] => Operator.ofName? name
  | _ => none

/-- The kind that tags a payload: its name or, where `numbered`, its number. -/
def kind? (numbered : Bool) : Json → Option Kind
  | .scalar (.str name) => Kind.ofName? name
  | .scalar (.int n) => if numbered ∧ 0 ≤ n then Kind.all[n.toNat]? else none
  | _ => none

/-! ## Nodes taken apart -/

/-- A node taken apart; a slot that is left out holds null. -/
structure Parts where
  id : Option NodeId
  kind : Kind
  slots : List Json

/-- The value under a key, null if there is none: no slot needs to tell a
    member that is left out from one that is null. -/
def member (key : String) (members : List (String × Json)) : Json :=
  (Json.lookup key members).getD Json.null

/-- The kind and the slots of a payload. An object gives them by name, in any
    order and among others; a list gives the kind and then the slots in order,
    and may stop early. -/
def payloadParts? (numbered : Bool) : Json → Option (Kind × List Json)
  | .object members =>
    (kind? numbered (member "kind" members)).map fun k =>
      (k, k.slots.map fun slot => member slot members)
  | .list (tag :: items) =>
    (kind? numbered tag).bind fun k =>
      if items.length ≤ k.slots.length then
        some (k, items ++ List.replicate (k.slots.length - items.length) Json.null)
      else none
  | _ => none

/-- Takes a node apart: an object with the members `id` and `payload`, among
    others, or a list of both. -/
def parts? (numbered : Bool) : Json → Option Parts
  | .object members => do
    let id ← id? (member "id" members)
    let (k, slots) ← payloadParts? numbered (member "payload" members)
    return ⟨id, k, slots⟩
  | .list [tag, payload] => do
    let id ← id? tag
    let (k, slots) ← payloadParts? numbered payload
    return ⟨id, k, slots⟩
  | _ => none

/-! ## Slots nest less deep than their node -/

theorem nesting_member_le (key : String) (members : List (String × Json)) :
    (member key members).nesting ≤ Json.nestingMembers members := by
  unfold member
  cases h : Json.lookup key members with
  | none => exact Nat.zero_le _
  | some v => exact Json.nesting_le_of_lookup h

theorem nesting_lt_of_payloadParts? {numbered : Bool} {j : Json} {k : Kind}
    {slots : List Json} {v : Json} (h : payloadParts? numbered j = some (k, slots))
    (hv : v ∈ slots) : v.nesting < j.nesting := by
  unfold payloadParts? at h
  split at h
  · next members =>
    simp only [Option.map_eq_some_iff, Prod.mk.injEq] at h
    obtain ⟨_, -, rfl, rfl⟩ := h
    obtain ⟨key, -, rfl⟩ := List.mem_map.1 hv
    have := nesting_member_le key members
    rw [Json.nesting]
    omega
  · next tag items =>
    simp only [Option.bind_eq_some_iff] at h
    obtain ⟨_, -, h⟩ := h
    split at h
    · simp only [Option.some.injEq, Prod.mk.injEq] at h
      obtain ⟨rfl, rfl⟩ := h
      rw [Json.nesting, Json.nestingAll]
      rcases List.mem_append.1 hv with hv | hv
      · have := Json.nesting_le_of_mem hv
        omega
      · rw [List.eq_of_mem_replicate hv, Json.null, Json.nesting]
        omega
    · simp at h
  · simp at h

/-- What a slot holds nests less deep than the node. -/
theorem nesting_lt_of_parts? {numbered : Bool} {j : Json} {p : Parts} {v : Json}
    (h : parts? numbered j = some p) (hv : v ∈ p.slots) : v.nesting < j.nesting := by
  unfold parts? at h
  split at h
  · next members =>
    simp only [bind, Option.bind_eq_some_iff, pure, Option.some.injEq, Prod.exists] at h
    obtain ⟨_, _, k, slots, hp, rfl⟩ := h
    have := nesting_lt_of_payloadParts? hp hv
    have := nesting_member_le "payload" members
    rw [Json.nesting]
    omega
  · next tag payload =>
    simp only [bind, Option.bind_eq_some_iff, pure, Option.some.injEq, Prod.exists] at h
    obtain ⟨_, _, _, _, hp, rfl⟩ := h
    have := nesting_lt_of_payloadParts? hp hv
    simp only [Json.nesting, Json.nestingAll]
    omega
  · simp at h

end Interchange

end MuxHoist
