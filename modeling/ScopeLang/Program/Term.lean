/-
Programs.

Expressions and statements as a parser hands them over.  Each carries the span
it was read from.  A chain `a.b.c(…)` is a list of elements with an origin:
its head is found in the scope, or in the receiver of the running method.
-/
import ScopeLang.Span
import ScopeLang.Types.TypeExpr

namespace ScopeLang

/-- How a variable is declared. -/
structure Flags where
  isConst : Bool := false
  isMutable : Bool := false
  isStatic : Bool := false
deriving DecidableEq, Inhabited

inductive Literal where
  | null
  | bool (value : Bool)
  | int (value : Int32)
  | long (value : Int64)
  | float (value : Float32)
  | double (value : Float)
  | char (value : Char)
  | string (value : String)
deriving Inhabited

inductive UnaryOperator where
  | not | negate | complement
deriving DecidableEq, Inhabited

namespace UnaryOperator

def all : List UnaryOperator := [not, negate, complement]

def symbol : UnaryOperator → String
  | not => "!" | negate => "-" | complement => "~"

/-- The operator with a symbol. -/
def ofSymbol? (text : String) : Option UnaryOperator := all.find? fun op => op.symbol = text

end UnaryOperator

inductive BinaryOperator where
  | add | subtract | multiply | divide | remainder
  | bitAnd | bitOr | bitXor | shiftLeft | shiftRight
  | less | lessEqual | greater | greaterEqual | equal | notEqual
deriving DecidableEq, Inhabited

namespace BinaryOperator

def all : List BinaryOperator :=
  [add, subtract, multiply, divide, remainder, bitAnd, bitOr, bitXor, shiftLeft, shiftRight,
    less, lessEqual, greater, greaterEqual, equal, notEqual]

def symbol : BinaryOperator → String
  | add => "+" | subtract => "-" | multiply => "*" | divide => "/" | remainder => "%"
  | bitAnd => "&" | bitOr => "|" | bitXor => "^" | shiftLeft => "<<" | shiftRight => ">>"
  | less => "<" | lessEqual => "<=" | greater => ">" | greaterEqual => ">="
  | equal => "==" | notEqual => "!="

/-- The operator with a symbol. -/
def ofSymbol? (text : String) : Option BinaryOperator := all.find? fun op => op.symbol = text

end BinaryOperator

inductive LogicalOperator where
  | and | or
deriving DecidableEq, Inhabited

def LogicalOperator.symbol : LogicalOperator → String
  | .and => "and" | .or => "or"

/-- The literals that list their items. -/
inductive SequenceKind where
  | list | array | set
deriving DecidableEq, Inhabited

/-- Where the head of a chain is found. -/
inductive ChainOrigin where
  | scope | receiver
deriving DecidableEq, Inhabited

/-! ## Expressions -/

mutual

structure Expr where
  term : Term
  span : Span

inductive Term where
  | literal (value : Literal)
  | sequence (kind : SequenceKind) (items : List Expr)
  | dict (entries : List Entry)
  | variable (name : String)
  /-- The receiver of the running method. -/
  | receiver
  | unary (operator : UnaryOperator) (operand : Expr)
  | binary (operator : BinaryOperator) (left right : Expr)
  | logical (operator : LogicalOperator) (left right : Expr)
  | call (callee : String) (arguments : List Argument)
  | callValue (callee : Expr) (arguments : List Argument)
  | chain (origin : ChainOrigin) (elements : List Element)

structure Entry where
  key : Expr
  value : Expr

/-- An argument of a call, passed by position or by name. -/
structure Argument where
  name : Option String
  value : Expr

inductive Element where
  | read (name : String)
  | assign (name : String) (value : Expr)
  | declare (declaration : VariableDecl)
  | call (name : String) (arguments : List Argument)

structure VariableDecl where
  name : String
  type : Option TypeExpr
  initial : Option Expr
  flags : Flags

end

deriving instance Inhabited for Term
deriving instance Inhabited for Expr, Entry, Argument, Element, VariableDecl

namespace Expr

/-- An expression that comes from no text. -/
def ofTerm (t : Term) : Expr := ⟨t, Span.none⟩

end Expr

/-- The name an element reads, assigns, declares or calls. -/
def Element.name : Element → String
  | .read name => name
  | .assign name _ => name
  | .declare d => d.name
  | .call name _ => name

/-! ## Statements -/

structure Parameter where
  name : String
  type : Option TypeExpr
  default : Option Expr
  /-- Whether the parameter collects the remaining positional arguments. -/
  variadic : Bool
  flags : Flags
deriving Inhabited

/-- A `function` sees nothing of the scope that defines it but its tables; a closure
keeps copies of the variables it mentions. -/
inductive FunctionKind where
  | function | closure
deriving DecidableEq, Inhabited

mutual

structure Statement where
  node : Node
  span : Span

inductive Node where
  | expression (value : Expr)
  | declare (declaration : VariableDecl)
  | assign (name : String) (value : Expr)
  | block (body : List Statement)
  | cond (branches : List Branch) (otherwise : Option (List Statement))
  | loop (condition : Expr) (body : List Statement)
  | return (value : Option Expr)
  | break
  | continue
  | throw (value : Expr)
  | function (declaration : FunctionDecl)
  | classDef (declaration : ClassDecl)
  | typeAlias (name : String) (type : TypeExpr)

structure Branch where
  condition : Expr
  body : List Statement

structure FunctionDecl where
  name : String
  kind : FunctionKind
  parameters : List Parameter
  returns : Option TypeExpr
  body : List Statement

structure ClassDecl where
  name : String
  /-- The name of the receiver in the methods, if it is not the usual one. -/
  accessor : Option String
  body : List Statement

end

deriving instance Inhabited for Node
deriving instance Inhabited for Statement, Branch, FunctionDecl, ClassDecl

/-! ## Kinds of statements -/

/-- The kind of a statement, which labels it in diagnostics. -/
inductive StatementKind where
  | expression | declare | assign | block | cond | loop | return | break | continue | throw
  | function | classDef | typeAlias
deriving DecidableEq, Inhabited

namespace StatementKind

def all : List StatementKind :=
  [expression, declare, assign, block, cond, loop, .return, .break, .continue, throw,
    function, .classDef, typeAlias]

def label : StatementKind → String
  | expression => "expression"
  | declare => "variable declaration"
  | assign => "assignment"
  | block => "block"
  | cond => "if"
  | loop => "while"
  | .return => "return"
  | .break => "break"
  | .continue => "continue"
  | throw => "throw"
  | function => "function definition"
  | .classDef => "class definition"
  | typeAlias => "type alias"

/-- The kind with a label. -/
def ofLabel? (text : String) : Option StatementKind := all.find? fun k => k.label = text

end StatementKind

def Node.kind : Node → StatementKind
  | .expression _ => .expression
  | .declare _ => .declare
  | .assign _ _ => .assign
  | .block _ => .block
  | .cond _ _ => .cond
  | .loop _ _ => .loop
  | .return _ => .return
  | .break => .break
  | .continue => .continue
  | .throw _ => .throw
  | .function _ => .function
  | .classDef _ => .classDef
  | .typeAlias _ _ => .typeAlias

end ScopeLang
