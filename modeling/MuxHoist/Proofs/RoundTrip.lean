/-
  MuxHoist.Proofs.RoundTrip

  Trees through their texts. The value of a tree is a node for a node: an id, a
  kind, and a value for each slot of the kind (`ofExpr_eq`), so what holds of one
  node by its slots holds of whole trees by induction: the value nests as deep as
  the nodes of the tree require (`nesting_ofExpr`), it can be written and read
  (`legible_ofExpr`), it has no unknown kind (`noUnknownKind_ofExpr`), and in canonical
  form it is the spelling of the tree (`node?_ofExpr`). Main statement: reading
  what was written for a tree gives the tree, ids included, exactly if the text
  does not nest too deep (`read_write`).
-/
import MuxHoist.Interchange.Encode
import MuxHoist.Proofs.Json.Writing
import MuxHoist.Proofs.UnknownKind

namespace MuxHoist

/-! ## The nesting that a tree requires -/

mutual

/-- How deep lists and objects nest in the document of a tree: two objects for each
    node, and the list that holds the operands, if there is one. -/
def Expr.documentNesting : Expr → Nat
  | .leaf .. => 2
  | .branch _ c t f =>
    2 + max c.documentNesting (max (armDocumentNesting t) (armDocumentNesting f))
  | .compound _ _ xs => 3 + operandsDocumentNesting xs
  | .partselect _ b m l => 2 + max b.documentNesting (max m.documentNesting l.documentNesting)
  | .pointer _ b i => 2 + max b.documentNesting i.documentNesting
  | .delay _ e => 2 + e.documentNesting

/-- The same of a tree that may be missing. -/
def Expr.armDocumentNesting : Option Expr → Nat
  | none => 0
  | some e => e.documentNesting

/-- The greatest one of operands. -/
def Expr.operandsDocumentNesting : List Expr → Nat
  | [] => 0
  | e :: es => max e.documentNesting (operandsDocumentNesting es)

end

namespace Interchange

open Json (Legible)

/-! ## The value of a node -/

/-- The values in the slots of a node. -/
def slotValues : Expr → List Json
  | .leaf _ (.constant value) => [Json.str value]
  | .leaf _ (.terminal name) => [Json.str name]
  | .leaf _ (.evalValue value width) => [Json.int value.toInt, Json.int width.toNat]
  | .leaf _ .undefined => []
  | .leaf _ .highImpedance => []
  | .branch _ c t f => [ofExpr c, ofArm t, ofArm f]
  | .compound _ (.op o) xs => [Json.str o.name, .list (ofExprs xs)]
  | .compound _ .concat xs => [.list (ofExprs xs)]
  | .partselect _ b m l => [ofExpr b, ofExpr m, ofExpr l]
  | .pointer _ b i => [ofExpr b, ofExpr i]
  | .delay _ e => [ofExpr e]

theorem ofExpr_eq (e : Expr) : ofExpr e = node e.id (payload e.kind (slotValues e)) := by
  cases e with
  | leaf _ v => cases v <;> rfl
  | compound _ k xs => cases k <;> rfl
  | _ => rfl

theorem length_slotValues (e : Expr) : (slotValues e).length = e.kind.slots.length := by
  cases e with
  | leaf _ v => cases v <;> rfl
  | compound _ k xs => cases k <;> rfl
  | _ => rfl

theorem ofExprs_eq_map (es : List Expr) : ofExprs es = es.map ofExpr := by
  induction es with
  | nil => rfl
  | cons e es ih => rw [ofExprs, ih, List.map_cons]

theorem exists_canonical_eq_object (e : Expr) :
    ∃ members, (ofExpr e).canonical = .object members := by
  rw [ofExpr_eq]
  cases e.id <;> exact ⟨_, rfl⟩

/-- What holds of null and of the values of trees holds of those of arms. -/
theorem forall_ofArm {P : Json → Prop} (hnull : P Json.null) {a : Option Expr}
    (h : ∀ e ∈ a, P (ofExpr e)) : P (ofArm a) := by
  cases a with
  | none => exact hnull
  | some e => exact h e rfl

/-- To prove a property of the values of all trees, prove it of what may stand in a
    slot, and of a node from the same property of its slots. -/
theorem ofExpr_induct {P : Json → Prop} (null : P Json.null) (text : ∀ s, P (Json.str s))
    (int : ∀ n, Json.Numeral.Fits n → P (Json.int n))
    (list : ∀ items, (∀ j ∈ items, P j) → P (.list items))
    (node : ∀ id k slots, slots.length = k.slots.length → (∀ v ∈ slots, P v) →
      P (node id (payload k slots)))
    (e : Expr) : P (ofExpr e) := by
  have hoperands : ∀ xs : List Expr, (∀ x ∈ xs, P (ofExpr x)) → P (.list (ofExprs xs)) := by
    intro xs hxs
    rw [ofExprs_eq_map]
    exact list _ (List.forall_mem_map.mpr hxs)
  have hsigned : ∀ n : Int64, P (Json.int n.toInt) := fun n => int _ (Json.Numeral.fits_toInt n)
  have hunsigned : ∀ n : UInt64, P (Json.int n.toNat) := fun n => int _ (Json.Numeral.fits_toNat n)
  have hnode : ∀ e, (∀ v ∈ slotValues e, P v) → P (ofExpr e) := by
    intro e he
    rw [ofExpr_eq]
    exact node _ _ _ (length_slotValues e) he
  induction e with
  | leaf id v =>
    apply hnode
    cases v <;> simp [slotValues, text, hsigned, hunsigned]
  | branch id c t f ihc iht ihf =>
    apply hnode
    simp [slotValues, ihc, forall_ofArm null iht, forall_ofArm null ihf]
  | compound id k xs ih =>
    apply hnode
    cases k <;> simp [slotValues, text, hoperands xs ih]
  | partselect id b m l ihb ihm ihl =>
    apply hnode
    simp [slotValues, ihb, ihm, ihl]
  | pointer id b i ihb ihi =>
    apply hnode
    simp [slotValues, ihb, ihi]
  | delay id e ih =>
    apply hnode
    simp [slotValues, ih]

/-! ## Members of a payload -/

section

variable {k : Kind} {slots : List Json}

/-- The members of a payload. -/
def payloadMembers (k : Kind) (slots : List Json) : List (String × Json) :=
  ("kind", Json.str k.name) :: k.slots.zip slots

/-- They have the keys of the kind, each once. -/
theorem nodup_payloadMembers (h : slots.length = k.slots.length) :
    ((payloadMembers k slots).map Prod.fst).Nodup := by
  rw [payloadMembers, List.map_cons, List.map_fst_zip (Nat.le_of_eq h.symm)]
  cases k <;> decide

theorem nestingMembers_zip {keys : List String} (h : slots.length = keys.length) :
    Json.nestingMembers (keys.zip slots) = Json.nestingAll slots := by
  induction keys generalizing slots with
  | nil =>
    rw [List.length_eq_zero_iff.mp h]
    rfl
  | cons key keys ih =>
    cases slots with
    | nil => cases h
    | cons v vs =>
      rw [List.zip_cons_cons, Json.nestingMembers, Json.nestingAll, ih (Nat.succ.inj h)]

/-- A node is two objects around its slots. -/
theorem nesting_node (id : Option NodeId) (h : slots.length = k.slots.length) :
    (node id (payload k slots)).nesting = 2 + Json.nestingAll slots := by
  have hpayload : (payload k slots).nesting = 1 + Json.nestingAll slots := by
    rw [payload, Json.nesting, Json.nestingMembers, nestingMembers_zip h, Json.str, Json.nesting,
      Nat.zero_max]
  cases id with
  | none =>
    rw [node, Json.nesting, Json.nestingMembers, Json.nestingMembers, hpayload, Nat.max_zero]
    omega
  | some id =>
    simp only [node, Json.nesting, Json.nestingMembers, Json.int, hpayload, Nat.zero_max,
      Nat.max_zero]
    omega

theorem legible_node (id : Option NodeId) (h : ∀ v ∈ slots, Legible v) :
    Legible (node id (payload k slots)) := by
  have hpayload : Legible (payload k slots) := by
    refine .object (List.forall_mem_cons.mpr ⟨.scalar trivial, ?_⟩)
    intro m hm
    exact h m.2 (List.of_mem_zip hm).2
  cases id with
  | none => exact .object (List.forall_mem_singleton.mpr hpayload)
  | some id =>
    have hid : Legible (Json.int id.val.toNat) := .scalar (Json.Numeral.fits_toNat id.val)
    exact .object (List.forall_mem_cons.mpr ⟨hid, List.forall_mem_singleton.mpr hpayload⟩)

theorem child?_node_id (id : Option NodeId) (j : Json) :
    (node id j).child? (.member "id") = id.map fun n => Json.int n.val.toNat := by
  cases id <;> rfl

theorem child?_node_payload (id : Option NodeId) (j : Json) :
    (node id j).child? (.member "payload") = some j := by
  cases id <;> rfl

theorem child?_payload_kind (h : slots.length = k.slots.length) :
    (Json.object (payloadMembers k slots)).child? (.member "kind") = some (Json.str k.name) :=
  Json.child?_of_mem (nodup_payloadMembers h) List.mem_cons_self

theorem child?_payload_slot (h : slots.length = k.slots.length) {key : String} {v : Json}
    (hv : (key, v) ∈ k.slots.zip slots) :
    (Json.object (payloadMembers k slots)).child? (.member key) = some v :=
  Json.child?_of_mem (nodup_payloadMembers h) (List.mem_cons_of_mem _ hv)

/-- No slot is named as the payload of a node is. -/
theorem child?_payload_payload (k : Kind) (slots : List Json) :
    (Json.object (payloadMembers k slots)).child? (.member "payload") = none := by
  rw [Option.eq_none_iff_forall_ne_some]
  intro v hv
  have hslot : "payload" ∉ k.slots := by
    cases k <;> decide
  rcases List.mem_cons.mp (Json.mem_of_child? hv) with heq | hmem
  · exact absurd (Prod.mk.inj heq).1 (by decide)
  · exact hslot (List.of_mem_zip hmem).1

/-! ## Kinds -/

/-- Where nothing in the slots names an unknown kind, the node does not either: its
    payload names a kind, and has no payload itself. -/
theorem noUnknownKind_node (id : Option NodeId) (h : slots.length = k.slots.length)
    (hslots : ∀ v ∈ slots, NoUnknownKind v) : NoUnknownKind (node id (payload k slots)) := by
  have hpayload : NoUnknownKind (.object (payloadMembers k slots)) := by
    apply noUnknownKind_object
    · intro name hname
      obtain ⟨⟨c, hc, -⟩, -⟩ := unknownKindAt_nil.mp hname
      rw [child?_payload_payload] at hc
      cases hc
    · refine List.forall_mem_cons.mpr ⟨noUnknownKind_scalar _, ?_⟩
      intro m hm
      exact hslots m.2 (List.of_mem_zip hm).2
  have hown : ∀ name, ¬ UnknownKindAt (node id (payload k slots)) [] name := by
    intro name hname
    obtain ⟨⟨c, hc, hkind⟩, hunknown⟩ := unknownKindAt_nil.mp hname
    rw [child?_node_payload] at hc
    cases hc
    rw [payload, ← payloadMembers, child?_payload_kind h] at hkind
    cases hkind
    exact hunknown k rfl
  -- Besides its payload a node holds at most its id, a number.
  cases id with
  | none => exact noUnknownKind_object hown (List.forall_mem_singleton.mpr hpayload)
  | some id =>
    exact noUnknownKind_object hown (List.forall_mem_cons.mpr
      ⟨noUnknownKind_scalar _, List.forall_mem_singleton.mpr hpayload⟩)

/-! ## Nodes taken apart -/

/-- What a slot of the canonical form holds, in terms of the value as written. -/
theorem member_canonicalMembers (key : String) (members : List (String × Json)) :
    member key (Json.canonicalMembers members)
      = (((Json.object members).child? (.member key)).map Json.canonical).getD Json.null := by
  rw [member, Json.lookup_canonicalMembers]
  rfl

/-- What agrees slot for slot agrees on all slots. -/
theorem map_slots {f : String → Json} {g : Json → Json} (h : slots.length = k.slots.length)
    (hfg : ∀ m ∈ k.slots.zip slots, f m.1 = g m.2) : k.slots.map f = slots.map g := by
  calc
    k.slots.map f = ((k.slots.zip slots).map Prod.fst).map f := by
      rw [List.map_fst_zip (Nat.le_of_eq h.symm)]
    _ = ((k.slots.zip slots).map Prod.snd).map g := by
      rw [List.map_map, List.map_map]
      exact List.map_congr_left hfg
    _ = slots.map g := by
      rw [List.map_snd_zip (Nat.le_of_eq h)]

theorem payloadParts?_payload (numbered : Bool) (h : slots.length = k.slots.length) :
    payloadParts? numbered (payload k slots).canonical = some (k, slots.map Json.canonical) := by
  have hkind : kind? numbered (member "kind" (Json.canonicalMembers (payloadMembers k slots)))
      = some k := by
    rw [member_canonicalMembers, child?_payload_kind h]
    exact Kind.ofName?_name k
  have hslots : k.slots.map (fun slot => member slot (Json.canonicalMembers (payloadMembers k slots)))
      = slots.map Json.canonical := by
    apply map_slots h
    intro m hm
    rw [member_canonicalMembers, child?_payload_slot h hm]
    rfl
  rw [payload, ← payloadMembers, Json.canonical, payloadParts?, hkind, Option.map_some, hslots]

theorem canonical_int (n : Int) : (Json.int n).canonical = Json.int n := by
  rw [Json.int, Json.canonical]

theorem unsigned?_toNat (n : UInt64) : unsigned? (Json.int n.toNat) = some n := by
  have hbound : (0 : Int) ≤ n.toNat ∧ (n.toNat : Int) < UInt64.size :=
    ⟨Int.natCast_nonneg _, Int.ofNat_lt.mpr n.toNat_lt_size⟩
  rw [Json.int, unsigned?, if_pos hbound, Int.toNat_natCast, UInt64.ofNat_toNat]

theorem id?_toNat (n : UInt64) : id? (Json.int n.toNat) = some (some ⟨n⟩) := by
  have hread := unsigned?_toNat n
  rw [Json.int] at hread ⊢
  simp only [id?, hread, Option.map_some]

theorem signed?_toInt (n : Int64) : signed? (Json.int n.toInt) = some n := by
  rw [Json.int, signed?, if_pos ⟨Int64.minValue_le_toInt n, Int64.toInt_le n⟩, Int64.ofInt_toInt]

theorem id?_node (id : Option NodeId) (j : Json) {members : List (String × Json)}
    (h : node id j = .object members) :
    id? (member "id" (Json.canonicalMembers members)) = some id := by
  rw [member_canonicalMembers, ← h, child?_node_id]
  cases id with
  | none => rfl
  | some id =>
    rw [Option.map_some, Option.map_some, Option.getD_some, canonical_int, id?_toNat]

/-- The canonical form of a node comes apart into what the node was made of. -/
theorem parts?_node (numbered : Bool) (id : Option NodeId) (h : slots.length = k.slots.length) :
    parts? numbered (node id (payload k slots)).canonical
      = some ⟨id, k, slots.map Json.canonical⟩ := by
  obtain ⟨members, hnode⟩ : ∃ members, node id (payload k slots) = .object members := by
    cases id <;> exact ⟨_, rfl⟩
  have hpayload : member "payload" (Json.canonicalMembers members) = (payload k slots).canonical := by
    rw [member_canonicalMembers, ← hnode, child?_node_payload]
    rfl
  rw [hnode, Json.canonical, parts?, id?_node id _ hnode, hpayload, payloadParts?_payload numbered h]
  rfl

end

/-! ## Trees by their values -/

theorem nestingAll_ofExprs {xs : List Expr}
    (h : ∀ x ∈ xs, (ofExpr x).nesting = x.documentNesting) :
    Json.nestingAll (ofExprs xs) = Expr.operandsDocumentNesting xs := by
  induction xs with
  | nil => rfl
  | cons x xs ih =>
    obtain ⟨hx, hxs⟩ := List.forall_mem_cons.mp h
    rw [ofExprs, Json.nestingAll, hx, ih hxs, Expr.operandsDocumentNesting]

theorem nesting_ofArm {a : Option Expr} (h : ∀ e ∈ a, (ofExpr e).nesting = e.documentNesting) :
    (ofArm a).nesting = Expr.armDocumentNesting a := by
  cases a with
  | none => rfl
  | some e => exact h e rfl

/-- The value of a tree nests as deep as its nodes require. -/
theorem nesting_ofExpr (e : Expr) : (ofExpr e).nesting = e.documentNesting := by
  have hnode : ∀ e, (ofExpr e).nesting = 2 + Json.nestingAll (slotValues e) := by
    intro e
    rw [ofExpr_eq, nesting_node _ (length_slotValues e)]
  induction e with
  | leaf id v =>
    rw [hnode]
    cases v <;> rfl
  | branch id c t f ihc iht ihf =>
    rw [hnode]
    simp only [slotValues, Json.nestingAll, ihc, nesting_ofArm iht, nesting_ofArm ihf,
      Nat.max_zero, Expr.documentNesting]
  | compound id k xs ih =>
    rw [hnode]
    have hxs := nestingAll_ofExprs ih
    cases k <;>
      simp only [slotValues, Json.nestingAll, Json.nesting, Json.str, hxs, Nat.max_zero,
        Nat.zero_max, Expr.documentNesting]
    all_goals omega
  | partselect id b m l ihb ihm ihl =>
    rw [hnode]
    simp only [slotValues, Json.nestingAll, ihb, ihm, ihl, Nat.max_zero, Expr.documentNesting]
  | pointer id b i ihb ihi =>
    rw [hnode]
    simp only [slotValues, Json.nestingAll, ihb, ihi, Nat.max_zero, Expr.documentNesting]
  | delay id e ih =>
    rw [hnode]
    simp only [slotValues, Json.nestingAll, ih, Nat.max_zero, Expr.documentNesting]

theorem legible_ofExpr (e : Expr) : Legible (ofExpr e) :=
  ofExpr_induct (.scalar trivial) (fun _ => .scalar trivial) (fun _ h => .scalar h)
    (fun _ h => .list h) (fun id _ _ _ h => legible_node id h) e

theorem noUnknownKind_ofExpr (e : Expr) : NoUnknownKind (ofExpr e) :=
  ofExpr_induct (noUnknownKind_scalar _) (fun _ => noUnknownKind_scalar _)
    (fun _ _ => noUnknownKind_scalar _) (fun _ h => noUnknownKind_list h)
    (fun id _ _ hlen h => noUnknownKind_node id hlen h) e

section

variable {sub : Json → Option Expr}

theorem nodes?_ofExprs {xs : List Expr} (h : ∀ x ∈ xs, sub (ofExpr x).canonical = some x) :
    nodes? sub (Json.canonicalAll (ofExprs xs)) = some xs := by
  induction xs with
  | nil => rfl
  | cons x xs ih =>
    obtain ⟨hx, hxs⟩ := List.forall_mem_cons.mp h
    rw [ofExprs, Json.canonicalAll, nodes?, hx, ih hxs]
    rfl

/-- The value of an arm spells the arm: that of a tree is an object, never null. -/
theorem arm?_ofArm {a : Option Expr} (h : ∀ e ∈ a, sub (ofExpr e).canonical = some e) :
    arm? sub (ofArm a).canonical = some a := by
  cases a with
  | none => rfl
  | some e =>
    have he := h e rfl
    obtain ⟨members, hobject⟩ := exists_canonical_eq_object e
    rw [hobject] at he
    rw [ofArm, hobject]
    show (sub (.object members)).map some = _
    rw [he, Option.map_some]

end

/-- The value of a tree spells the tree, wherever a node may stand. -/
theorem node?_ofExpr (numbered : Bool) (e : Expr) :
    node? numbered (ofExpr e).canonical = some e := by
  -- The kind is written by name, so it is found at the root and below it alike.
  have hnode : ∀ numbered e, node? numbered (ofExpr e).canonical
      = assemble? (node? true) ⟨e.id, e.kind, (slotValues e).map Json.canonical⟩ := by
    intro numbered e
    rw [node?_eq, ofExpr_eq, parts?_node numbered _ (length_slotValues e), Option.bind_some]
  induction e generalizing numbered with
  | leaf id v =>
    rw [hnode]
    cases v with
    | constant value => rfl
    | terminal name => rfl
    | evalValue value width =>
      simp only [slotValues, assemble?, Expr.kind, Leaf.kind, Expr.id, List.map_cons, List.map_nil,
        canonical_int, signed?_toInt, unsigned?_toNat, bind, Option.bind_some, pure]
    | undefined => rfl
    | highImpedance => rfl
  | branch id c t f ihc iht ihf =>
    have ht := arm?_ofArm fun e he => iht e he true
    have hf := arm?_ofArm fun e he => ihf e he true
    rw [hnode]
    simp [slotValues, assemble?, Expr.kind, Expr.id, ihc true, ht, hf]
  | compound id k xs ih =>
    have hxs := nodes?_ofExprs fun x hx => ih x hx true
    rw [hnode]
    cases k with
    | op o =>
      simp [slotValues, assemble?, Expr.kind, Combiner.kind, Expr.id, Json.canonical, Json.str,
        operator?, hxs]
    | concat => simp [slotValues, assemble?, Expr.kind, Combiner.kind, Expr.id, Json.canonical, hxs]
  | partselect id b m l ihb ihm ihl =>
    rw [hnode]
    simp [slotValues, assemble?, Expr.kind, Expr.id, ihb true, ihm true, ihl true]
  | pointer id b i ihb ihi =>
    rw [hnode]
    simp [slotValues, assemble?, Expr.kind, Expr.id, ihb true, ihi true]
  | delay id e ih =>
    rw [hnode]
    simp [slotValues, assemble?, Expr.kind, Expr.id, ih true]

/-! ## Trees by their texts -/

/-- The nesting of the document of a tree; that of the empty tree has none. -/
def documentNesting (tree : Option Expr) : Nat := Expr.armDocumentNesting tree

/-- What is written for a tree spells its value. -/
theorem spells_ofTree (tree : Option Expr) : Json.Spells (write tree) (ofTree tree) :=
  Json.spells_write (forall_ofArm (.scalar trivial) fun e _ => legible_ofExpr e)

theorem noUnknownKind_ofTree (tree : Option Expr) : NoUnknownKind (ofTree tree) :=
  forall_ofArm (noUnknownKind_scalar _) fun e _ => noUnknownKind_ofExpr e

/-- The empty tree stands where a missing arm would. -/
theorem tree?_eq_arm? (j : Json) : tree? j = arm? (node? false) j := by
  unfold tree? arm?
  split <;> rfl

theorem tree?_ofTree (tree : Option Expr) : tree? (ofTree tree).canonical = some tree := by
  rw [tree?_eq_arm?]
  exact arm?_ofArm fun e _ => node?_ofExpr false e

/-- A text of the value of a tree is read as the tree if the reader bears its nesting, else
    it is refused as no document. -/
theorem read_of_spells_ofTree (d : Diagnosis) {text : String} {tree : Option Expr}
    (h : Json.Spells text (ofTree tree)) :
    read d text
      = if (ofTree tree).nesting ≤ nestingLimit then .ok tree
        else .error (.notJson (d.ofText text)) := by
  by_cases hlimit : (ofTree tree).nesting ≤ nestingLimit
  · rw [if_pos hlimit, read_eq_ok_iff]
    exact ⟨ofTree tree, h, hlimit, noUnknownKind_ofTree tree, tree?_ofTree tree⟩
  · rw [if_neg hlimit, read_eq_iff]
    refine .notJson fun j hj => ?_
    rw [Json.spells_unique hj h]
    exact Nat.lt_of_not_le hlimit

/-- What is written for a tree is the text of a value that nests as deep as the tree
    requires. If the reader bears this nesting, reading the text gives back the tree,
    ids included; if not, the text is refused as no document. -/
theorem read_write (d : Diagnosis) (tree : Option Expr) :
    (∃ j, Json.Spells (write tree) j ∧ j.nesting = documentNesting tree) ∧
      read d (write tree)
        = if documentNesting tree ≤ nestingLimit then .ok tree
          else .error (.notJson (d.ofText (write tree))) := by
  have hnesting : (ofTree tree).nesting = documentNesting tree :=
    nesting_ofArm fun e _ => nesting_ofExpr e
  refine ⟨⟨ofTree tree, spells_ofTree tree, hnesting⟩, ?_⟩
  rw [read_of_spells_ofTree d (spells_ofTree tree), hnesting]

/-- The bound is met exactly: by sixty-two nodes on top of each other in an operand
    list. -/
example :
    let chain := (List.replicate 61 none).foldr Expr.delay (.leaf none .undefined)
    documentNesting (some (.compound none .concat [chain])) = nestingLimit := by
  rfl

end Interchange

end MuxHoist
