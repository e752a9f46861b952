/-
The free names of definitions.

A body refers to the variables it reads, assigns or calls, and binds the names
it declares anywhere, also inside nested blocks.  Its free names are those it
refers to and does not bind.  A nested `function` keeps nothing of its
surroundings and refers to none of their names.
-/
import ScopeLang.Program.Term

namespace ScopeLang

/-! ## Name sets -/

/-- Inserts a name into a sorted list without repetition. -/
def insertName (name : String) : List String → List String
  | [] => [name]
  | other :: rest =>
      if name < other then name :: other :: rest
      else if name = other then other :: rest
      else other :: insertName name rest

/-- The names of a list, sorted by code points and without repetition. -/
def nameSet (names : List String) : List String := names.foldr insertName []

/-! ## Names an expression refers to -/

/-- The name that a chain finds in the scope. -/
def chainHead : ChainOrigin → List Element → List String
  | .scope, head :: _ => [head.name]
  | _, _ => []

mutual

/-- The names that an expression refers to. -/
def Expr.references : Expr → List String
  | ⟨term, _⟩ => term.references

def Term.references : Term → List String
  | .literal _ => []
  | .sequence _ items => exprReferences items
  | .dict entries => entryReferences entries
  | .variable name => [name]
  | .receiver => []
  | .unary _ operand => operand.references
  | .binary _ left right => left.references ++ right.references
  | .logical _ left right => left.references ++ right.references
  | .call callee arguments => callee :: argumentReferences arguments
  | .callValue callee arguments => callee.references ++ argumentReferences arguments
  | .chain origin elements => chainHead origin elements ++ elementReferences elements

def Entry.references : Entry → List String
  | ⟨key, value⟩ => key.references ++ value.references

def Argument.references : Argument → List String
  | ⟨_, value⟩ => value.references

/-- The names that the parts of an element refer to. -/
def Element.references : Element → List String
  | .read _ => []
  | .assign _ value => value.references
  | .declare declaration => declaration.references
  | .call _ arguments => argumentReferences arguments

def VariableDecl.references : VariableDecl → List String
  | ⟨_, _, some initial, _⟩ => initial.references
  | ⟨_, _, none, _⟩ => []

def exprReferences : List Expr → List String
  | [] => []
  | e :: rest => e.references ++ exprReferences rest

def entryReferences : List Entry → List String
  | [] => []
  | e :: rest => e.references ++ entryReferences rest

def argumentReferences : List Argument → List String
  | [] => []
  | a :: rest => a.references ++ argumentReferences rest

def elementReferences : List Element → List String
  | [] => []
  | e :: rest => e.references ++ elementReferences rest

end

/-- The names that the defaults of parameters refer to. -/
def defaultReferences (parameters : List Parameter) : List String :=
  parameters.flatMap fun p => (p.default.map Expr.references).getD []

/-! ## Names a statement binds -/

mutual

/-- The names that a statement declares, also inside its blocks. -/
def Statement.binds : Statement → List String
  | ⟨node, _⟩ => node.binds

def Node.binds : Node → List String
  | .declare declaration => [declaration.name]
  | .block body => blockBinds body
  | .cond branches none => branchBinds branches
  | .cond branches (some otherwise) => branchBinds branches ++ blockBinds otherwise
  | .loop _ body => blockBinds body
  | .function declaration => [declaration.name]
  | .classDef declaration => [declaration.name]
  | .expression _ | .assign _ _ | .return _ | .break | .continue | .throw _ | .typeAlias _ _ => []

def Branch.binds : Branch → List String
  | ⟨_, body⟩ => blockBinds body

def blockBinds : List Statement → List String
  | [] => []
  | s :: rest => s.binds ++ blockBinds rest

def branchBinds : List Branch → List String
  | [] => []
  | b :: rest => b.binds ++ branchBinds rest

end

/-- The names among `names` that `bound` does not hold. -/
def without (names bound : List String) : List String := names.filter fun n => !bound.contains n

/-! ## Names a statement refers to -/

mutual

/-- The names that a statement refers to. -/
def Statement.references : Statement → List String
  | ⟨node, _⟩ => node.references

def Node.references : Node → List String
  | .expression value => value.references
  | .declare declaration => declaration.references
  | .assign name value => name :: value.references
  | .block body => blockReferences body
  | .cond branches none => branchReferences branches
  | .cond branches (some otherwise) => branchReferences branches ++ blockReferences otherwise
  | .loop condition body => condition.references ++ blockReferences body
  | .return none => []
  | .return (some value) => value.references
  | .break | .continue => []
  | .throw value => value.references
  | .function declaration => declaration.references
  | .classDef declaration => declaration.references
  | .typeAlias _ _ => []

def Branch.references : Branch → List String
  | ⟨condition, body⟩ => condition.references ++ blockReferences body

/-- The names that a nested definition takes from its surroundings. -/
def FunctionDecl.references : FunctionDecl → List String
  | ⟨_, .function, _, _, _⟩ => []
  | ⟨_, .closure, parameters, _, body⟩ =>
      without (defaultReferences parameters ++ blockReferences body)
        (parameters.map Parameter.name ++ blockBinds body)

def ClassDecl.references : ClassDecl → List String
  | ⟨_, _, body⟩ => without (blockReferences body) (blockBinds body)

def blockReferences : List Statement → List String
  | [] => []
  | s :: rest => s.references ++ blockReferences rest

def branchReferences : List Branch → List String
  | [] => []
  | b :: rest => b.references ++ branchReferences rest

end

/-! ## Free names -/

def Expr.freeNames (e : Expr) : List String := nameSet e.references

/-- The free names of a statement list. -/
def blockFreeNames (body : List Statement) : List String :=
  nameSet (without (blockReferences body) (blockBinds body))

/-- The free names of a definition, those of its defaults included. -/
def FunctionDecl.freeNames (f : FunctionDecl) : List String :=
  nameSet (without (defaultReferences f.parameters ++ blockReferences f.body)
    (f.parameters.map Parameter.name ++ blockBinds f.body))

def ClassDecl.freeNames (c : ClassDecl) : List String := blockFreeNames c.body

end ScopeLang
