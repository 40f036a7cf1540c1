/-
  MuxHoist.Proofs.LeastNesting

  How deep the spellings of a tree nest. In whatever form a node is given, two lists or
  objects at least stand around what its slots hold
  (`two_add_nestingAll_le_of_nodeSpelling`). The form that is written has these two and
  nothing else, so of all spellings of a tree it nests least (`isLeast_documentNesting`).
  Main statement: whatever was read from a text can be written and read again, since
  what is written nests no deeper than the text (`read_write_of_read`).
-/
import MuxHoist.Proofs.Spelling
import Mathlib.Data.List.Forall2
import Mathlib.Order.Bounds.Defs

namespace MuxHoist

/-! ## Items one by one -/

namespace Json

/-- Where each item nests no deeper than its counterpart, neither do all together. -/
theorem nestingAll_mono {vs ws : List Json}
    (h : List.Forall₂ (fun v w => v.nesting ≤ w.nesting) vs ws) :
    nestingAll vs ≤ nestingAll ws := by
  induction h with
  | nil => exact Nat.le_refl 0
  | cons hv _ ih =>
    rw [nestingAll, nestingAll]
    omega

theorem nesting_list_mono {vs ws : List Json}
    (h : List.Forall₂ (fun v w => v.nesting ≤ w.nesting) vs ws) :
    (list vs).nesting ≤ (list ws).nesting := by
  rw [nesting, nesting]
  exact Nat.add_le_add_left (nestingAll_mono h) 1

end Json

namespace Interchange

/-! ## Around the slots of a node -/

/-- What a place holds in the value as written; null stands for what is left out. -/
def filled (v : Option Json) : Json := v.getD Json.null

section

variable {numbered : Bool} {j : Json} {k : Kind} {slots : List (Option Json)}

/-- A payload is a list or an object around its slots. -/
theorem one_add_nestingAll_le_of_payloadSpelling (h : PayloadSpelling numbered j k slots) :
    1 + Json.nestingAll (slots.map filled) ≤ j.nesting := by
  cases h with
  | @object members _ _ _ _ =>
    rw [Json.nesting]
    refine Nat.add_le_add_left (Json.nestingAll_le_iff.mpr ?_) 1
    rw [List.map_map]
    refine List.forall_mem_map.mpr fun slot _ => ?_
    show (filled ((Json.object members).child? (.member slot))).nesting ≤ _
    cases hslot : (Json.object members).child? (.member slot) with
    | none => exact Nat.zero_le _
    | some v => exact Json.nesting_le_of_mem_members (Json.mem_of_child? hslot)
  | list =>
    rw [Json.nesting]
    refine Nat.add_le_add_left (Json.nestingAll_le_iff.mpr ?_) 1
    rw [List.map_append, List.map_map, List.map_replicate]
    intro w hw
    rcases List.mem_append.mp hw with hw | hw
    · obtain ⟨v, hv, rfl⟩ := List.mem_map.mp hw
      exact Json.nesting_le_of_mem (List.mem_cons_of_mem _ hv)
    · rw [List.eq_of_mem_replicate hw]
      exact Nat.zero_le _

/-- A node is a list or an object around its payload. -/
theorem two_add_nestingAll_le_of_nodeSpelling {id : Option NodeId}
    (h : NodeSpelling numbered j id k slots) :
    2 + Json.nestingAll (slots.map filled) ≤ j.nesting := by
  cases h with
  | object _ hpayload hslots =>
    have hbelow := Json.nesting_lt_of_child? hpayload
    have hslots := one_add_nestingAll_le_of_payloadSpelling hslots
    omega
  | @list tag payload _ _ _ _ hslots =>
    have hbelow : payload.nesting < (Json.list [tag, payload]).nesting :=
      Json.nesting_lt_of_child? (s := .item 1) rfl
    have hslots := one_add_nestingAll_le_of_payloadSpelling hslots
    omega

/-- What is written for a tree nests no deeper than a node in whose slots nothing nests
    less deep than what is written there. -/
theorem nesting_ofExpr_le_of_slots {e : Expr} {id : Option NodeId}
    (hnode : NodeSpelling numbered j id k slots)
    (hslots : List.Forall₂ (fun v w => v.nesting ≤ w.nesting) (slotValues e) (slots.map filled)) :
    (ofExpr e).nesting ≤ j.nesting := by
  calc
    (ofExpr e).nesting = 2 + Json.nestingAll (slotValues e) := by
      rw [ofExpr_eq, nesting_node _ (length_slotValues e)]
    _ ≤ 2 + Json.nestingAll (slots.map filled) :=
      Nat.add_le_add_left (Json.nestingAll_mono hslots) 2
    _ ≤ j.nesting := two_add_nestingAll_le_of_nodeSpelling hnode

end

/-! ## Trees -/

/-- What is written for a tree nests no deeper than any spelling of it. -/
theorem nesting_ofExpr_le {numbered : Bool} {j : Json} {e : Expr}
    (h : TreeSpelling numbered j e) : (ofExpr e).nesting ≤ j.nesting := by
  -- By the rules of spelling: of arms the same holds with null for nothing, of operands
  -- it holds one by one.
  induction h using TreeSpelling.rec
    (motive_2 := fun v t _ => (ofArm t).nesting ≤ (filled v).nesting)
    (motive_3 := fun js xs _ =>
      List.Forall₂ (fun v w => v.nesting ≤ w.nesting) (ofExprs xs) js) with
  | constant hnode | terminal hnode =>
    exact nesting_ofExpr_le_of_slots hnode (.cons (Nat.le_refl 0) .nil)
  | evalValue hnode =>
    exact nesting_ofExpr_le_of_slots hnode (.cons (Nat.le_refl 0) (.cons (Nat.le_refl 0) .nil))
  | undefined hnode | highImpedance hnode => exact nesting_ofExpr_le_of_slots hnode .nil
  | branch hnode _ _ _ ihc iht ihf =>
    exact nesting_ofExpr_le_of_slots hnode (.cons ihc (.cons iht (.cons ihf .nil)))
  | operator hnode _ _ ih =>
    -- The operator is written as its name, which does not nest; it may be spelled deeper.
    exact nesting_ofExpr_le_of_slots hnode
      (.cons (Nat.zero_le _) (.cons (Json.nesting_list_mono ih) .nil))
  | concat hnode _ ih =>
    exact nesting_ofExpr_le_of_slots hnode (.cons (Json.nesting_list_mono ih) .nil)
  | partselect hnode _ _ _ ihb ihm ihl =>
    exact nesting_ofExpr_le_of_slots hnode (.cons ihb (.cons ihm (.cons ihl .nil)))
  | pointer hnode _ _ ihb ihi =>
    exact nesting_ofExpr_le_of_slots hnode (.cons ihb (.cons ihi .nil))
  | delay hnode _ ih => exact nesting_ofExpr_le_of_slots hnode (.cons ih .nil)
  | absent | null => exact Nat.le_refl 0
  | node _ ih => exact ih
  | nil => exact .nil
  | cons _ _ ih ihs => exact .cons ih ihs

/-- What is written for a tree is one of its spellings, wherever the tree may stand. -/
theorem treeSpelling_ofExpr (numbered : Bool) (e : Expr) : TreeSpelling numbered (ofExpr e) e :=
  node?_canonical.mp (node?_ofExpr numbered e)

/-- The nesting that a tree requires is the least of all its spellings. -/
theorem isLeast_documentNesting (numbered : Bool) (e : Expr) :
    IsLeast {n | ∃ j, TreeSpelling numbered j e ∧ j.nesting = n} e.documentNesting := by
  refine ⟨⟨ofExpr e, treeSpelling_ofExpr numbered e, nesting_ofExpr e⟩, ?_⟩
  rintro n ⟨j, hj, rfl⟩
  rw [← nesting_ofExpr]
  exact nesting_ofExpr_le hj

/-- The same of a tree that may be empty: null does not nest. -/
theorem nesting_ofTree_le {j : Json} {tree : Option Expr} (h : tree? j.canonical = some tree) :
    (ofTree tree).nesting ≤ j.nesting := by
  cases tree with
  | none => exact Nat.zero_le _
  | some e =>
    rw [ofTree, ofArm, nesting_ofExpr]
    exact (isLeast_documentNesting false e).2 ⟨j, tree?_canonical.mp h, rfl⟩

/-! ## Texts -/

/-- Whatever was read from a text is written so that it is read as the same again, and
    what is written then is the same text again. The value that is written nests no deeper
    than the one that was read, which keeps to the bound. -/
theorem read_write_of_read {d : Diagnosis} {text : String} {tree : Option Expr}
    (h : read d text = .ok tree) :
    read d (write tree) = .ok tree ∧ (read d (write tree)).map write = .ok (write tree) ∧
      ∃ j k, Json.Spells text j ∧ Json.Spells (write tree) k ∧ k.nesting ≤ j.nesting ∧
        j.nesting ≤ nestingLimit := by
  obtain ⟨j, hj, hlimit, -, htree⟩ := read_eq_ok_iff.mp h
  have hnesting : (ofTree tree).nesting ≤ j.nesting := nesting_ofTree_le htree
  have hread : read d (write tree) = .ok tree := by
    rw [read_of_spells_ofTree d (spells_ofTree tree), if_pos (Nat.le_trans hnesting hlimit)]
  refine ⟨hread, ?_, j, ofTree tree, hj, spells_ofTree tree, hnesting, hlimit⟩
  rw [hread]
  rfl

/-- A sum over a tower of delays, all given as lists and the delays by the number of their
    kind, with odd blanks, an operator as an object and a name with escapes. It nests as
    deep as the reader bears, and so does what is written for it. -/
theorem read_write_of_read_tower :
    let d := Diagnosis.silent
    let text := String.ofList (" [null,\t[\"Operator\", \x7b\"Plus\": \x7b\x7d\x7d, [".toList
      ++ (List.replicate 61 "[5, [10, ".toList).flatten
      ++ "\x7b\"payload\": \x7b\"name\": \"\\u0061\\/\", \"kind\": 1\x7d, \"line\": 1e2\x7d".toList
      ++ (List.replicate 61 "]]".toList).flatten
      ++ "]]]\n".toList)
    let leaf : Expr := .leaf none (.terminal "a/")
    let tower : Expr := (List.replicate 61 (some ⟨5⟩)).foldr Expr.delay leaf
    let tree : Option Expr := some (.compound none (.op .plus) [tower])
    read d text = .ok tree ∧ documentNesting tree = nestingLimit ∧
      read d (write tree) = .ok tree ∧ (read d (write tree)).map write = .ok (write tree) ∧
      ∃ j k, Json.Spells text j ∧ Json.Spells (write tree) k ∧ k.nesting ≤ j.nesting ∧
        j.nesting ≤ nestingLimit := by
  dsimp only
  refine ⟨?hread, rfl, read_write_of_read ?hread⟩
  -- The text is long, so it is read as the characters that it was made from.
  rw [read, Json.read?, Json.tokens?, String.toList_ofList]
  decide +kernel

end Interchange

end MuxHoist
