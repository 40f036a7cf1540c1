/-
  MuxHoist.Expr.Text

  The text of an expression, close to the notation of hardware languages. Ids
  are not shown, and a missing arm is shown as `<none>`.
-/
import MuxHoist.Expr.Basic

namespace MuxHoist

/-- A leaf's text: literals and signals as they are, numbers with their width. -/
def Leaf.text : Leaf → String
  | .constant value => value
  | .terminal name => name
  | .evalValue value width => toString width.toNat ++ "'d" ++ toString value.toInt
  | .undefined => "'x"
  | .highImpedance => "'z"

/-- Joins the operands' texts: a lone operand follows its operator, several
    stand with the operator between them, and bits joined stand in braces. -/
def Combiner.text : Combiner → List String → String
  | .op o, [x] => "(" ++ o.symbol ++ x ++ ")"
  | .op o, xs => "(" ++ String.intercalate (" " ++ o.symbol ++ " ") xs ++ ")"
  | .concat, xs => "\x7b" ++ String.intercalate ", " xs ++ "\x7d"

namespace Expr

mutual

/-- The text of a tree. -/
def text : Expr → String
  | .leaf _ v => v.text
  | .branch _ c t f => "(" ++ c.text ++ " ? " ++ armText t ++ " : " ++ armText f ++ ")"
  | .compound _ k xs => k.text (texts xs)
  | .partselect _ b m l => b.text ++ "[" ++ m.text ++ ":" ++ l.text ++ "]"
  | .pointer _ b i => b.text ++ "[" ++ i.text ++ "]"
  | .delay _ e => "delay(" ++ e.text ++ ")"

/-- The text of an arm. -/
def armText : Option Expr → String
  | none => "<none>"
  | some e => e.text

/-- The texts of all operands. -/
def texts : List Expr → List String
  | [] => []
  | e :: es => e.text :: texts es

end

theorem texts_eq_map (es : List Expr) : texts es = es.map text := by
  induction es with
  | nil => rfl
  | cons e es ih => simp [texts, ih]

end Expr

end MuxHoist
