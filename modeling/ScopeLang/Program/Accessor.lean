/-
The accessor in method bodies.

Inside a method the accessor name stands for the receiver.  A variable of that
name becomes the receiver, and a chain that starts by reading it becomes a
chain of the receiver.  Nested functions and classes keep their own meaning of
the name.
-/
import ScopeLang.Program.Term

namespace ScopeLang

/-- A variable, or the receiver if it has the accessor's name. -/
def resolveVariable (accessor name : String) : Term :=
  if name = accessor then .receiver else .variable name

/-- A chain, whose head is dropped if it reads the accessor. -/
def resolveChain (accessor : String) : ChainOrigin → List Element → Term
  | .scope, .read name :: rest =>
      if name = accessor then
        if rest.isEmpty then .receiver else .chain .receiver rest
      else .chain .scope (.read name :: rest)
  | origin, elements => .chain origin elements

mutual

/-- An expression of a method body with its accessor resolved. -/
def Expr.stripAccessor (accessor : String) : Expr → Expr
  | ⟨term, span⟩ => ⟨term.stripAccessor accessor, span⟩

def Term.stripAccessor (accessor : String) : Term → Term
  | .literal value => .literal value
  | .sequence kind items => .sequence kind (stripExprs accessor items)
  | .dict entries => .dict (stripEntries accessor entries)
  | .variable name => resolveVariable accessor name
  | .receiver => .receiver
  | .unary operator operand => .unary operator (operand.stripAccessor accessor)
  | .binary operator left right =>
      .binary operator (left.stripAccessor accessor) (right.stripAccessor accessor)
  | .logical operator left right =>
      .logical operator (left.stripAccessor accessor) (right.stripAccessor accessor)
  | .call callee arguments => .call callee (stripArguments accessor arguments)
  | .callValue callee arguments =>
      .callValue (callee.stripAccessor accessor) (stripArguments accessor arguments)
  | .chain origin elements => resolveChain accessor origin (stripElements accessor elements)

def Entry.stripAccessor (accessor : String) : Entry → Entry
  | ⟨key, value⟩ => ⟨key.stripAccessor accessor, value.stripAccessor accessor⟩

def Argument.stripAccessor (accessor : String) : Argument → Argument
  | ⟨name, value⟩ => ⟨name, value.stripAccessor accessor⟩

def Element.stripAccessor (accessor : String) : Element → Element
  | .read name => .read name
  | .assign name value => .assign name (value.stripAccessor accessor)
  | .declare declaration => .declare (declaration.stripAccessor accessor)
  | .call name arguments => .call name (stripArguments accessor arguments)

def VariableDecl.stripAccessor (accessor : String) : VariableDecl → VariableDecl
  | ⟨name, type, some initial, flags⟩ =>
      ⟨name, type, some (initial.stripAccessor accessor), flags⟩
  | ⟨name, type, none, flags⟩ => ⟨name, type, none, flags⟩

def stripExprs (accessor : String) : List Expr → List Expr
  | [] => []
  | e :: rest => e.stripAccessor accessor :: stripExprs accessor rest

def stripEntries (accessor : String) : List Entry → List Entry
  | [] => []
  | e :: rest => e.stripAccessor accessor :: stripEntries accessor rest

def stripArguments (accessor : String) : List Argument → List Argument
  | [] => []
  | a :: rest => a.stripAccessor accessor :: stripArguments accessor rest

def stripElements (accessor : String) : List Element → List Element
  | [] => []
  | e :: rest => e.stripAccessor accessor :: stripElements accessor rest

end

mutual

/-- A statement of a method body with its accessor resolved. -/
def Statement.stripAccessor (accessor : String) : Statement → Statement
  | ⟨node, span⟩ => ⟨node.stripAccessor accessor, span⟩

def Node.stripAccessor (accessor : String) : Node → Node
  | .expression value => .expression (value.stripAccessor accessor)
  | .declare declaration => .declare (declaration.stripAccessor accessor)
  | .assign name value => .assign name (value.stripAccessor accessor)
  | .block body => .block (stripBlock accessor body)
  | .cond branches none => .cond (stripBranches accessor branches) none
  | .cond branches (some otherwise) =>
      .cond (stripBranches accessor branches) (some (stripBlock accessor otherwise))
  | .loop condition body => .loop (condition.stripAccessor accessor) (stripBlock accessor body)
  | .return none => .return none
  | .return (some value) => .return (some (value.stripAccessor accessor))
  | .break => .break
  | .continue => .continue
  | .throw value => .throw (value.stripAccessor accessor)
  | .function declaration => .function declaration
  | .classDef declaration => .classDef declaration
  | .typeAlias name type => .typeAlias name type

def Branch.stripAccessor (accessor : String) : Branch → Branch
  | ⟨condition, body⟩ => ⟨condition.stripAccessor accessor, stripBlock accessor body⟩

/-- A method body with its accessor resolved. -/
def stripBlock (accessor : String) : List Statement → List Statement
  | [] => []
  | s :: rest => s.stripAccessor accessor :: stripBlock accessor rest

def stripBranches (accessor : String) : List Branch → List Branch
  | [] => []
  | b :: rest => b.stripAccessor accessor :: stripBranches accessor rest

end

end ScopeLang
