/-
  MuxHoist.Operator

  The operators of a hardware expression: their names, as interchange files
  spell them, and their source symbols. Distinct operators may share a symbol
  (the unary and the binary minus), but never a name.
-/

namespace MuxHoist

/-- A hardware operator; a leading `u` marks a unary or reduction operator. -/
inductive Operator where
  | uminus | ulnot | unot | uand | unand | uor | unor | uxor | uxnor
  | power | times | divide | mod | plus | minus
  | sll | srl | sla | sra
  | lessThan | greaterThan | lessEq | greaterEq | eq | notEq | eql | notEql
  | and | xor | xnor | or | land | lor
  deriving Repr, DecidableEq, Inhabited

namespace Operator

/-- Every operator, grouped by the kind of computation. -/
def all : List Operator :=
  [.uminus, .ulnot, .unot, .uand, .unand, .uor, .unor, .uxor, .uxnor,
   .power, .times, .divide, .mod, .plus, .minus,
   .sll, .srl, .sla, .sra,
   .lessThan, .greaterThan, .lessEq, .greaterEq, .eq, .notEq, .eql, .notEql,
   .and, .xor, .xnor, .or, .land, .lor]

/-- The name that interchange files use. -/
def name : Operator → String
  | .uminus => "Uminus" | .ulnot => "Ulnot" | .unot => "Unot"
  | .uand => "Uand" | .unand => "Unand" | .uor => "Uor" | .unor => "Unor"
  | .uxor => "Uxor" | .uxnor => "Uxnor"
  | .power => "Power" | .times => "Times" | .divide => "Divide"
  | .mod => "Mod" | .plus => "Plus" | .minus => "Minus"
  | .sll => "Sll" | .srl => "Srl" | .sla => "Sla" | .sra => "Sra"
  | .lessThan => "LessThan" | .greaterThan => "GreaterThan"
  | .lessEq => "LessEq" | .greaterEq => "GreaterEq"
  | .eq => "Eq" | .notEq => "NotEq" | .eql => "Eql" | .notEql => "NotEql"
  | .and => "And" | .xor => "Xor" | .xnor => "Xnor" | .or => "Or"
  | .land => "Land" | .lor => "Lor"

/-- The symbol that stands for the operator in source text. -/
def symbol : Operator → String
  | .uminus => "-" | .ulnot => "!" | .unot => "~"
  | .uand => "&" | .unand => "~&" | .uor => "|" | .unor => "~|"
  | .uxor => "^" | .uxnor => "~^"
  | .power => "**" | .times => "*" | .divide => "/"
  | .mod => "%" | .plus => "+" | .minus => "-"
  | .sll => "<<" | .srl => ">>" | .sla => "<<<" | .sra => ">>>"
  | .lessThan => "<" | .greaterThan => ">"
  | .lessEq => "<=" | .greaterEq => ">="
  | .eq => "==" | .notEq => "!=" | .eql => "===" | .notEql => "!=="
  | .and => "&" | .xor => "^" | .xnor => "~^" | .or => "|"
  | .land => "&&" | .lor => "||"

/-- The operator of an exact name. -/
def ofName? (name : String) : Option Operator :=
  all.find? (·.name = name)

/-- The list of operators is complete. -/
theorem mem_all (op : Operator) : op ∈ all := by
  cases op <;> decide

/-- An operator is found under its own name. -/
@[simp] theorem ofName?_name (op : Operator) : ofName? op.name = some op := by
  cases op <;> decide

/-- A name that is found is the name of the operator found. -/
theorem name_of_ofName? {s : String} {op : Operator} (h : ofName? s = some op) :
    op.name = s := by
  simpa using List.find?_some h

end Operator

end MuxHoist
