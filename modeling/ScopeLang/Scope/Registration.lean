/-
Registering functions and classes.

What is registered at a root goes to its globals, anything else to the local
tables.  Functions of one name are overloads of each other; a class name is
taken once.
-/
import ScopeLang.Scope.Types

namespace ScopeLang

namespace World

/-- The root whose globals take what is registered in a scope. -/
def registrationRoot? (w : World) (s : ScopeId) : Option ScopeId :=
  if (w.scope s).kind = .root then w.globalRoot? s else none

/-- Registers a function under a name. -/
def registerFunction (w : World) (s : ScopeId) (name : String) (o : Overload) : World :=
  match w.registrationRoot? s with
  | some root =>
      let functions := (w.globalFunctions root).append name o
      w.setScope root { w.scope root with globals := .owned functions (w.globalClasses root) }
  | none =>
      let scope := w.scope s
      w.setScope s { scope with functions := scope.functions.append name o }

/-- The table that takes the classes registered in a scope. -/
def classTable (w : World) (s : ScopeId) : ClassTable :=
  match w.registrationRoot? s with
  | some root => w.globalClasses root
  | none => (w.scope s).classes

/-- Replaces the table that takes the classes registered in a scope. -/
def setClassTable (w : World) (s : ScopeId) (classes : ClassTable) : World :=
  match w.registrationRoot? s with
  | some root =>
      w.setScope root { w.scope root with globals := .owned (w.globalFunctions root) classes }
  | none => w.setScope s { w.scope s with classes }

end World

/-- Registers a class under its name. -/
def Action.registerClass (s : ScopeId) (c : ClassId) : Action Unit := do
  let name ← look fun w => (w.classOf c).name
  if ← look fun w => (w.classTable s).contains name then throw (.classRedefinition name)
  modify fun w => w.setClassTable s ((w.classTable s).insert name c)

end ScopeLang
