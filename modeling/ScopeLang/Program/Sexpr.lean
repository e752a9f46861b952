/-
Expressions as s-expressions.

The text of an expression names its parts in parentheses: `(+ a 1)`,
`(call f (: x 2))`, `(chain self name)`.
-/
import ScopeLang.Program.Term
import ScopeLang.Floating.Layout

namespace ScopeLang

/-- A head with its parts in parentheses. -/
def parenthesize (head : String) (parts : List String) : String :=
  "(" ++ " ".intercalate (head :: parts) ++ ")"

def Literal.sexpr : Literal → String
  | .null => "null"
  | .bool value => toString value
  | .int value => toString value.toInt
  | .long value => toString value.toInt ++ "L"
  | .float value => Floating.renderFloat32 Floating.literal value ++ "f"
  | .double value => Floating.renderFloat Floating.literal value
  | .char value => "'" ++ String.singleton value ++ "'"
  | .string value => "\"" ++ value ++ "\""

def SequenceKind.head : SequenceKind → String
  | .list => "list" | .array => "array" | .set => "set"

/-- The parts that a chain shows before its elements. -/
def ChainOrigin.parts : ChainOrigin → List String
  | .scope => []
  | .receiver => ["self"]

mutual

/-- The text of an expression. -/
def Expr.sexpr : Expr → String
  | ⟨term, _⟩ => term.sexpr

def Term.sexpr : Term → String
  | .literal value => value.sexpr
  | .sequence kind items => parenthesize kind.head (exprSexprs items)
  | .dict entries => parenthesize "dict" (entrySexprs entries)
  | .variable name => name
  | .receiver => "self"
  | .unary operator operand => parenthesize operator.symbol [operand.sexpr]
  | .binary operator left right => parenthesize operator.symbol [left.sexpr, right.sexpr]
  | .logical operator left right => parenthesize operator.symbol [left.sexpr, right.sexpr]
  | .call callee arguments => parenthesize ("call " ++ callee) (argumentSexprs arguments)
  | .callValue callee arguments =>
      parenthesize ("call " ++ callee.sexpr) (argumentSexprs arguments)
  | .chain origin elements => parenthesize "chain" (origin.parts ++ elementSexprs elements)

def Entry.sexpr : Entry → String
  | ⟨key, value⟩ => "(" ++ key.sexpr ++ " " ++ value.sexpr ++ ")"

def Argument.sexpr : Argument → String
  | ⟨none, value⟩ => value.sexpr
  | ⟨some name, value⟩ => parenthesize ":" [name, value.sexpr]

/-- The text of one element of a chain. -/
def Element.sexpr : Element → String
  | .read name => name
  | .assign name value => parenthesize "=" [name, value.sexpr]
  | .declare declaration => declaration.sexpr
  | .call name arguments => parenthesize ("call " ++ name) (argumentSexprs arguments)

def VariableDecl.sexpr : VariableDecl → String
  | ⟨name, _, some initial, _⟩ => parenthesize "var" [name, initial.sexpr]
  | ⟨name, _, none, _⟩ => parenthesize "var" [name]

def exprSexprs : List Expr → List String
  | [] => []
  | e :: rest => e.sexpr :: exprSexprs rest

def entrySexprs : List Entry → List String
  | [] => []
  | e :: rest => e.sexpr :: entrySexprs rest

def argumentSexprs : List Argument → List String
  | [] => []
  | a :: rest => a.sexpr :: argumentSexprs rest

def elementSexprs : List Element → List String
  | [] => []
  | e :: rest => e.sexpr :: elementSexprs rest

end

end ScopeLang
