/-
Types in a scope.

All scopes below one root share a pool of signatures and the options of type
checks.
-/
import ScopeLang.Action
import ScopeLang.Scope.Lookup

namespace ScopeLang

namespace World

def typesOf (w : World) (s : ScopeId) : TypeContext := w.typeContext (w.scope s).types

def poolOf (w : World) (s : ScopeId) : TypePool := (w.typesOf s).pool

def optionsOf (w : World) (s : ScopeId) : MatchOptions := (w.typesOf s).options

/-- Replaces the pool of a scope. -/
def setPool (w : World) (s : ScopeId) (pool : TypePool) : World :=
  w.setTypeContext (w.scope s).types { w.typesOf s with pool }

/-- Changes the pool of a scope. -/
def withPool {α : Type} (w : World) (s : ScopeId) (f : TypePool → α × TypePool) : α × World :=
  let (a, pool) := f (w.poolOf s)
  (a, w.setPool s pool)

/-- The signature of a written type, `Any` where none is written. -/
def bindType (w : World) (s : ScopeId) (t : Option TypeExpr) : SigId × World :=
  w.withPool s (bindOptional (w.alias? s) t)

/-- Gives a name to a written type. -/
def bindAlias (w : World) (s : ScopeId) (name : String) (t : TypeExpr) : SigId × World :=
  let (id, w) := w.bindType s (some t)
  let scope := w.scope s
  (id, w.setScope s { scope with aliases := scope.aliases.insert name id })

/-- The signature of the type of a value. -/
def inferType (w : World) (s : ScopeId) (v : Value) : SigId × World :=
  w.withPool s fun pool => pool.bare (w.typeId v)

/-- How well a value matches a signature. -/
def fitValue (w : World) (s : ScopeId) (expected : SigId) (v : Value) : Option Fit :=
  (w.poolOf s).fit (w.optionsOf s) expected (w.valueType v)

def signatureText (w : World) (s : ScopeId) (id : SigId) : String := (w.poolOf s).text id

/-- Whether a value may be stored under a declared type. -/
def admits (w : World) (s : ScopeId) (expected : SigId) (v : Value) : Bool :=
  (w.poolOf s).admits (w.optionsOf s) expected (w.valueType v)

/-- Checks a value against a declared type, naming what it is for. -/
def checkType (w : World) (s : ScopeId) (name : String) (expected : SigId) (v : Value) :
    Except ErrorKind Unit :=
  if w.admits s expected v then .ok ()
  else .error (.typeMismatch name (w.signatureText s expected) (w.typeName v))

end World

namespace Action

/-- The overload of `name` among the given ones that a call goes to. -/
def resolveAmong (s : ScopeId) (name : String) (candidates : List Overload)
    (arguments : CallArguments) : Action Resolution := do
  let result ← change fun w =>
    w.withPool s (w.resolveOverload (w.optionsOf s) name candidates arguments)
  match result with
  | .ok r => return r
  | .error e => throw e

/-- The overload of `name` that a call from a scope goes to. -/
def resolveFunction (s : ScopeId) (name : String) (arguments : CallArguments) :
    Action Resolution := do
  match ← look fun w => w.lookupFunction s name with
  | some candidates => resolveAmong s name candidates arguments
  | none => throw (.functionNotFound name)

end Action

end ScopeLang
