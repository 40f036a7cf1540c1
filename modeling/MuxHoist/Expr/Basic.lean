/-
  MuxHoist.Expr.Basic

  Expression trees of a hardware assignment: leaves, conditionals and the
  computations built over them. Every node may carry the id of the source
  binding it came from; ids take no part in the value.

  Holds the types, the parts of a node (`id`, `kind`, `children`), the number of
  nodes (`size`), and induction over trees.
-/
import MuxHoist.Operator

namespace MuxHoist

/-! ## Parts of a node -/

/-- The provenance mark of a node. -/
structure NodeId where
  val : UInt64
  deriving Repr, DecidableEq, Inhabited

/-- The value of a node without children. -/
inductive Leaf where
  /-- A literal as the source writes it. -/
  | constant (value : String)
  /-- A signal, by its hierarchical name. -/
  | terminal (name : String)
  /-- An evaluated number of a given width. -/
  | evalValue (value : Int64) (width : UInt64)
  /-- The unknown value. -/
  | undefined
  /-- The undriven value. -/
  | highImpedance
  deriving Repr, DecidableEq, Inhabited

/-- How a compound node joins its operands. -/
inductive Combiner where
  /-- Applies an operator. -/
  | op (operator : Operator)
  /-- Joins the operands' bits, the first operand highest. -/
  | concat
  deriving Repr, DecidableEq, Inhabited

/-- An expression tree. -/
inductive Expr where
  | leaf (id : Option NodeId) (value : Leaf)
  /-- Selects an arm by `cond`; an arm may be missing. -/
  | branch (id : Option NodeId) (cond : Expr) (onTrue onFalse : Option Expr)
  | compound (id : Option NodeId) (combiner : Combiner) (operands : List Expr)
  /-- The bits of `base` from `msb` down to `lsb`. -/
  | partselect (id : Option NodeId) (base msb lsb : Expr)
  /-- The element of `base` at `index`. -/
  | pointer (id : Option NodeId) (base index : Expr)
  /-- The value of `inner` one clock ago. -/
  | delay (id : Option NodeId) (inner : Expr)
  deriving Repr, Inhabited

/-- The eleven kinds of node. -/
inductive Kind where
  | constant | terminal | evalValue | undefined | highImpedance
  | branch | operator | concat | partselect | pointer | delay
  deriving Repr, DecidableEq, Inhabited

namespace NodeId

/-- Reports show an id as `id=7`. -/
def text (id : NodeId) : String := s!"id={id.val.toNat}"

end NodeId

/-! ## Kinds -/

namespace Kind

/-- Every kind, in the order that numbers them. -/
def all : List Kind :=
  [.constant, .terminal, .evalValue, .undefined, .highImpedance,
   .branch, .operator, .concat, .partselect, .pointer, .delay]

/-- The name that tags a node of this kind. -/
def name : Kind → String
  | .constant => "Constant"
  | .terminal => "Terminal"
  | .evalValue => "EvalValue"
  | .undefined => "Undefined"
  | .highImpedance => "HighImpedance"
  | .branch => "Branch"
  | .operator => "Operator"
  | .concat => "Concat"
  | .partselect => "Partselect"
  | .pointer => "Pointer"
  | .delay => "Delay"

/-- The kind of an exact name. -/
def ofName? (name : String) : Option Kind :=
  all.find? (·.name = name)

/-- The list of kinds is complete. -/
theorem mem_all (k : Kind) : k ∈ all := by
  cases k <;> decide

/-- A kind is found under its own name. -/
@[simp] theorem ofName?_name (k : Kind) : ofName? k.name = some k := by
  cases k <;> decide

/-- A name that is found is the name of the kind found. -/
theorem name_of_ofName? {s : String} {k : Kind} (h : ofName? s = some k) :
    k.name = s := by
  simpa using List.find?_some h

end Kind

/-- The kind of a leaf. -/
def Leaf.kind : Leaf → Kind
  | .constant _ => .constant
  | .terminal _ => .terminal
  | .evalValue _ _ => .evalValue
  | .undefined => .undefined
  | .highImpedance => .highImpedance

/-- The kind of a compound node. -/
def Combiner.kind : Combiner → Kind
  | .op _ => .operator
  | .concat => .concat

/-! ## Nodes -/

namespace Expr

/-- The id of the root node. -/
def id : Expr → Option NodeId
  | .leaf id _ => id
  | .branch id _ _ _ => id
  | .compound id _ _ => id
  | .partselect id _ _ _ => id
  | .pointer id _ _ => id
  | .delay id _ => id

/-- The tree with another id on its root. -/
def withId (id : Option NodeId) : Expr → Expr
  | .leaf _ v => .leaf id v
  | .branch _ c t f => .branch id c t f
  | .compound _ k xs => .compound id k xs
  | .partselect _ b m l => .partselect id b m l
  | .pointer _ b i => .pointer id b i
  | .delay _ e => .delay id e

@[simp] theorem id_withId (id : Option NodeId) (e : Expr) : (e.withId id).id = id := by
  cases e <;> rfl

@[simp] theorem withId_id (e : Expr) : e.withId e.id = e := by
  cases e <;> rfl

/-- The kind of the root node. -/
def kind : Expr → Kind
  | .leaf _ v => v.kind
  | .branch .. => .branch
  | .compound _ k _ => k.kind
  | .partselect .. => .partselect
  | .pointer .. => .pointer
  | .delay .. => .delay

/-- A node without children by its kind. -/
def isLeaf : Expr → Bool
  | .leaf .. => true
  | _ => false

/-- A conditional node. -/
def isBranch : Expr → Bool
  | .branch .. => true
  | _ => false

/-- The kind tells a conditional from all other nodes. -/
theorem isBranch_eq_kind (e : Expr) : e.isBranch = decide (e.kind = .branch) := by
  cases e with
  | leaf _ v => cases v <;> rfl
  | compound _ k _ => cases k <;> rfl
  | _ => rfl

/-- The children in source order; a missing arm gives none. -/
def children : Expr → List Expr
  | .leaf .. => []
  | .branch _ c t f => c :: (t.toList ++ f.toList)
  | .compound _ _ xs => xs
  | .partselect _ b m l => [b, m, l]
  | .pointer _ b i => [b, i]
  | .delay _ e => [e]

/-! ## Size -/

mutual

/-- The number of nodes. -/
def size : Expr → Nat
  | .leaf .. => 1
  | .branch _ c t f => 1 + c.size + sizeArm t + sizeArm f
  | .compound _ _ xs => 1 + sizeAll xs
  | .partselect _ b m l => 1 + b.size + m.size + l.size
  | .pointer _ b i => 1 + b.size + i.size
  | .delay _ e => 1 + e.size

/-- The number of nodes of an arm, none if it is missing. -/
def sizeArm : Option Expr → Nat
  | none => 0
  | some e => e.size

/-- The number of nodes of all operands together. -/
def sizeAll : List Expr → Nat
  | [] => 0
  | e :: es => e.size + sizeAll es

end

/-! ## Induction -/

/-- To prove a property of all trees, prove it of each kind of node from the
    same property of its parts. -/
@[elab_as_elim, induction_eliminator]
theorem induct {motive : Expr → Prop}
    (leaf : ∀ id v, motive (.leaf id v))
    (branch : ∀ id c t f, motive c → (∀ a ∈ t, motive a) → (∀ a ∈ f, motive a) →
      motive (.branch id c t f))
    (compound : ∀ id k xs, (∀ x ∈ xs, motive x) → motive (.compound id k xs))
    (partselect : ∀ id b m l, motive b → motive m → motive l →
      motive (.partselect id b m l))
    (pointer : ∀ id b i, motive b → motive i → motive (.pointer id b i))
    (delay : ∀ id e, motive e → motive (.delay id e)) :
    ∀ e, motive e :=
  Expr.rec (motive_2 := fun a => ∀ x ∈ a, motive x) (motive_3 := fun xs => ∀ x ∈ xs, motive x)
    leaf branch compound partselect pointer delay
    (by simp) (by simp) (by simp)
    (fun _ _ he hes => List.forall_mem_cons.2 ⟨he, hes⟩)

end Expr

end MuxHoist
