/-
Making scopes.

Every scope below a root derives its level, its globals and its types from the
scope it is made from.  A call scope hangs off the scope that the function
captured, or off the instance that the method runs on, and is a child of its
caller while the call lasts.
-/
import ScopeLang.Program.FreeNames
import ScopeLang.Scope.Variables

namespace ScopeLang

namespace World

/-- A root with the given options. -/
def newRoot (w : World) (options : MatchOptions) : ScopeId × World :=
  let (types, w) := w.newTypes ⟨.initial, options⟩
  w.newScope
    { kind := .root, label := "<root>", level := 0, isCopy := false, tornDown := false,
      bindings := .empty, functions := .empty, classes := .empty, aliases := .empty,
      children := [], parent := none, owner := none, caller := none,
      globals := .owned .empty .empty, types }

/-- An empty scope derived from `s`. -/
def derive (w : World) (s : ScopeId) (kind : ScopeKind) (label : String)
    (parent : Option ScopeId) : ScopeId × World :=
  let scope := w.scope s
  w.newScope
    { kind, label, level := scope.level + 1, isCopy := false, tornDown := false,
      bindings := .empty, functions := .empty, classes := .empty, aliases := .empty,
      children := [], parent, owner := none, caller := none,
      globals := scope.globals.share s, types := scope.types }

/-- An empty scope under `s` that no scope lists as a child. -/
def makeCallScope (w : World) (s : ScopeId) (kind : ScopeKind) (label : String) :
    ScopeId × World :=
  w.derive s kind label (some s)

/-- Lists a scope as the last child of another. -/
def addChild (w : World) (s child : ScopeId) : World :=
  let w := w.setScope child { w.scope child with owner := some s }
  let scope := w.scope s
  w.setScope s { scope with children := scope.children ++ [child] }

/-- An empty child of a scope. -/
def createChild (w : World) (s : ScopeId) (kind : ScopeKind) (label : String) :
    ScopeId × World :=
  let (child, w) := w.makeCallScope s kind label
  (child, w.addChild s child)

def setCaller (w : World) (s caller : ScopeId) : World :=
  w.setScope s { w.scope s with caller := some caller }

/-- Takes the first listing of a child away. -/
def removeChild (w : World) (s child : ScopeId) : World :=
  let scope := w.scope s
  if scope.children.contains child then
    let w := w.setScope s { scope with children := scope.children.erase child }
    w.setScope child { w.scope child with owner := none }
  else w

/-- A scope and the scopes that own it, one through the other. -/
def ownerChain (w : World) (s : ScopeId) : List ScopeId := follow w.owner? w.scopes.size s

/-! ## Captures -/

/-- Deep copies of the named variables that are in sight. -/
def captureVariables (w : World) (s : ScopeId) : List String → Table Binding × World
  | [] => (.empty, w)
  | name :: rest =>
      let (captured, w) := captureVariables w s rest
      match w.binding? s name with
      | none => (captured, w)
      | some b =>
          let (value, w) := w.deepCopy b.value
          (captured.insert name { b with value }, w)

/-- A scope with copies of the named variables. -/
def detachAs (w : World) (s : ScopeId) (kind : ScopeKind) (names : List String)
    (label : String) : ScopeId × World :=
  let (detached, w) := w.derive s kind label (some s)
  let (bindings, w) := w.captureVariables s names
  (detached, w.setScope detached { w.scope detached with bindings })

def detach (w : World) (s : ScopeId) (names : List String) (label : String) : ScopeId × World :=
  w.detachAs s .detached names label

/-- A scope with copies of the named variables and of the local tables, without a parent. -/
def isolate (w : World) (s : ScopeId) (names : List String) (label : String) :
    ScopeId × World :=
  let (isolated, w) := w.derive s .isolated label none
  let (bindings, w) := w.captureVariables s names
  let source := w.scope s
  (isolated, w.setScope isolated
    { w.scope isolated with
      bindings, functions := source.functions, classes := source.classes,
      aliases := source.aliases })

/-- The scope that a function definition captures. -/
def functionDefScope (w : World) (s : ScopeId) (f : FunctionDecl) : ScopeId × World :=
  match f.kind with
  | .function => w.isolate s [] f.name
  | .closure => w.detach s f.freeNames f.name

/-- The scope that a class body is run against. -/
def classDefScope (w : World) (s : ScopeId) (c : ClassDecl) : ScopeId × World :=
  w.detachAs s .classDef c.freeNames c.name

/-- The scope of the methods and the member defaults of a class. -/
def classScope (w : World) (s : ScopeId) (name : String) : ScopeId × World :=
  w.makeCallScope s .classScope name

/-! ## Instances -/

/-- The scope of a new instance: copies of the members that are not static, and the
methods. -/
def instanceScope (w : World) (c : ClassId) : ScopeId × World :=
  let info := w.classOf c
  let source := w.scope info.scope
  let (s, w) := w.makeCallScope info.scope .members info.name
  let members := source.bindings.filter fun b => !b.flags.isStatic
  let (bindings, w) := mapBindings (fun v w => w.duplicate v) members w
  (s, w.setScope s { w.scope s with bindings, functions := source.functions })

/-- A new instance of a class, on which no constructor has run. -/
def makeInstance (w : World) (c : ClassId) : InstanceId × World :=
  let (scope, w) := w.instanceScope c
  w.newInstance { classId := c, scope, native := none }

end World

namespace Action

/-- Lists a scope as a child of another, unless it owns that one. -/
def appendChild (s child : ScopeId) : Action Unit := do
  if ← look fun w => (w.ownerChain s).contains child then
    throw (.scopeCycle (← look fun w => (w.scope child).label))
  modify fun w => w.addChild s child

/-- Enters a call from `caller` in a new scope under `parent`. -/
def enter (caller parent : ScopeId) (kind : ScopeKind) (label : String) : Action ScopeId := do
  let s ← change fun w => w.makeCallScope parent kind label
  modify fun w => w.setCaller s caller
  appendChild caller s
  return s

/-- Enters a function. -/
def enterFunction (caller : ScopeId) (f : Function) : Action ScopeId :=
  enter caller (f.captured.getD caller) .functionCall f.procedure.name

/-- Enters a method of an instance. -/
def enterMethod (caller : ScopeId) (receiver : InstanceId) (name : String) : Action ScopeId := do
  enter caller (← look fun w => (w.inst receiver).scope) .methodCall name

end Action

end ScopeLang
