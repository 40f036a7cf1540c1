/-
  MuxHoist.Hoist

  Hoisting: rebuilds an expression so that every conditional stands above all
  other computation. What is computed over a conditional is computed in each of
  its arms instead; what would be computed over a missing arm is dropped. A
  delay is a clock boundary: the tree below it is hoisted on its own.

  A part select whose bounds are conditional cannot be hoisted, and nothing
  else can fail.
-/
import MuxHoist.Error
import MuxHoist.Decision.Extend

namespace MuxHoist

namespace Expr

mutual

/-- Hoists every conditional of a tree. A node without conditional parts keeps
    its id, and so does a conditional; a copy made for an arm takes the id of
    what the arm selects. -/
def hoist : Expr → Except TreeError Expr
  | .leaf id v => .ok (.leaf id v)
  | .branch id c t f => do
    let t ← hoistArm t
    let f ← hoistArm f
    let c ← c.hoist
    -- The conditionals of the condition come out on top; the root is theirs
    -- in shape, but stays this node by its id.
    return (c.select t f).withId id
  | .compound id k xs => do
    let xs ← hoistAll xs
    return Decision.combine k id xs
  | .partselect id b m l => do
    let m ← m.hoist
    let l ← l.hoist
    let b ← b.hoist
    -- Bounds must be known without choosing an arm.
    if m.isBranch || l.isBranch then
      throw (.conditionalBound id b m l)
    return b.computeOver id fun id b => .partselect id b m l
  | .pointer id b i => do
    let i ← i.hoist
    let b ← b.hoist
    -- The conditionals of the index stand outside those of the base.
    return i.computeOver id fun id i => b.computeOver id fun id b => .pointer id b i
  | .delay id e => do
    let e ← e.hoist
    return .delay id e

/-- Hoists an arm; a missing arm stays missing. -/
def hoistArm : Option Expr → Except TreeError (Option Expr)
  | none => .ok none
  | some e => do
    let e ← e.hoist
    return some e

/-- Hoists operands from left to right. -/
def hoistAll : List Expr → Except TreeError (List Expr)
  | [] => .ok []
  | e :: es => do
    let e ← e.hoist
    let es ← hoistAll es
    return e :: es

end

/-- Hoists a tree that may be empty. -/
def hoist? (tree : Option Expr) : Except TreeError (Option Expr) :=
  hoistArm tree

end Expr

end MuxHoist
