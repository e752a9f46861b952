/-
Looking names up.

Variables are found along the chain of lexical parents, which ends at the
scopes that keep copies.  Functions, classes and aliases are found along the
whole chain of parents; functions and classes are then looked for along the
chains of the callers met on the way, and last among the globals.
-/
import ScopeLang.Ownership
import ScopeLang.Call.Overload

namespace ScopeLang

namespace ScopeKind

/-- Whether the variables of the parent are out of sight. -/
def hidesParent : ScopeKind → Bool
  | detached | classDef | isolated => true
  | _ => false

end ScopeKind

/-- A scope and at most `n` scopes that follow it. -/
def follow (next : ScopeId → Option ScopeId) : Nat → ScopeId → List ScopeId
  | 0, s => [s]
  | n + 1, s =>
      match next s with
      | some t => s :: follow next n t
      | none => [s]

namespace World

/-! ## Chains -/

/-- The scope in which variables are looked for next. -/
def variableParent? (w : World) (s : ScopeId) : Option ScopeId :=
  if (w.scope s).kind.hidesParent then none else w.parent? s

/-- The scopes whose variables are in sight, the nearest first.  A scope is newer than its
parent, so that there are no more of them than older scopes. -/
def variableChain (w : World) (s : ScopeId) : List ScopeId :=
  follow w.variableParent? s.index s

/-- A scope and all its lexical ancestors. -/
def lookupChain (w : World) (s : ScopeId) : List ScopeId := follow w.parent? s.index s

/-- Adds the items of a list that are not among the seen ones. -/
def addUnseen (seen : List ScopeId) (queue : List ScopeId) : List ScopeId → List ScopeId
  | [] => queue
  | s :: rest =>
      if seen.contains s || queue.contains s then addUnseen seen queue rest
      else addUnseen seen (queue ++ [s]) rest

/-- The chains that are searched: those of the queued scopes, and of the callers met on the
way. -/
def searchChains (w : World) : Nat → List ScopeId → List ScopeId → List (List ScopeId)
  | 0, _, _ => []
  | _, _, [] => []
  | n + 1, done, s :: queue =>
      let chain := w.lookupChain s
      let callers := chain.filterMap w.caller?
      chain :: searchChains w n (done ++ [s]) (addUnseen (done ++ [s]) queue callers)

/-- The scopes in the order in which their functions and classes are searched. -/
def searchOrder (w : World) (s : ScopeId) : List ScopeId :=
  (w.searchChains (w.scopes.size + 1) [] [s]).flatten

/-! ## Variables -/

def localBinding? (w : World) (s : ScopeId) (name : String) : Option Binding :=
  (w.scope s).bindings.get? name

def hasLocalVariable (w : World) (s : ScopeId) (name : String) : Bool :=
  (w.scope s).bindings.contains name

/-- The nearest scope that binds a variable. -/
def bindingScope? (w : World) (s : ScopeId) (name : String) : Option ScopeId :=
  (w.variableChain s).find? fun t => w.hasLocalVariable t name

/-- The nearest binding of a variable. -/
def binding? (w : World) (s : ScopeId) (name : String) : Option Binding :=
  (w.variableChain s).findSome? fun t => w.localBinding? t name

/-- The value of a variable. -/
def getVariable (w : World) (s : ScopeId) (name : String) : Except ErrorKind Value :=
  match w.binding? s name with
  | some b => .ok b.value
  | none => .error (.undefinedVariable name)

/-! ## Functions and classes -/

/-- The root whose globals a scope sees. -/
def globalRoot? (w : World) (s : ScopeId) : Option ScopeId :=
  match (w.scope s).globals with
  | .owned _ _ => some s
  | .shared root => w.upgrade root

def globalFunctions (w : World) (root : ScopeId) : FunctionTable :=
  match (w.scope root).globals with
  | .owned functions _ => functions
  | .shared _ => .empty

def globalClasses (w : World) (root : ScopeId) : ClassTable :=
  match (w.scope root).globals with
  | .owned _ classes => classes
  | .shared _ => .empty

/-- The overloads of the first table that has the name. -/
def lookupFunction (w : World) (s : ScopeId) (name : String) : Option (List Overload) :=
  (w.searchOrder s).findSome? (fun t => (w.scope t).functions.get? name) <|>
    (w.globalRoot? s).bind fun root => (w.globalFunctions root).get? name

/-- The overload of a name at a position. -/
def overloadAt (w : World) (s : ScopeId) (name : String) (i : Nat) : Except ErrorKind Overload :=
  match ((w.lookupFunction s name).getD [])[i]? with
  | some o => .ok o
  | none => .error (.functionNotFound name)

/-- The position of a callable among the overloads of a name. -/
def overloadIndex? (w : World) (s : ScopeId) (name : String) (c : Callable) : Option Nat :=
  ((w.lookupFunction s name).getD []).findIdx? fun o => o.callable = c

def hasLocalFunction (w : World) (s : ScopeId) (name : String) : Bool :=
  (w.scope s).functions.contains name

/-- The class of the first table that has the name. -/
def lookupClass (w : World) (s : ScopeId) (name : String) : Option ClassId :=
  (w.searchOrder s).findSome? (fun t => (w.scope t).classes.get? name) <|>
    (w.globalRoot? s).bind fun root => (w.globalClasses root).get? name

/-! ## Aliases -/

/-- The signature that an alias in force stands for. -/
def alias? (w : World) (s : ScopeId) (name : String) : Option SigId :=
  (w.lookupChain s).findSome? fun t => (w.scope t).aliases.get? name

end World

end ScopeLang
