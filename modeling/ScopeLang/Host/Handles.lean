/-
Handles on scopes and instances.

A host names the scopes and instances it keeps.  What it names is held.
-/
import ScopeLang.Ownership

namespace ScopeLang

/-- The scopes and the instances that a host keeps under names. -/
structure Handles where
  scopes : Table ScopeId
  instances : Table InstanceId
deriving Inhabited

namespace Handles

def empty : Handles := ⟨.empty, .empty⟩

/-- The cells that the host holds. -/
def cells (h : Handles) : List Cell :=
  h.scopes.values.map Handle.cell ++ h.instances.values.map Handle.cell

/-- Keeps a scope under a name. -/
def keep (h : Handles) (name : String) (s : ScopeId) : Handles :=
  { h with scopes := h.scopes.insert name s }

/-- Keeps an instance and its scope under a name. -/
def keepInstance (h : Handles) (name : String) (i : InstanceId) (s : ScopeId) : Handles :=
  { h.keep name s with instances := h.instances.insert name i }

/-- Forgets a name. -/
def drop (h : Handles) (name : String) : Handles :=
  { scopes := ⟨h.scopes.entries.filter fun e => e.1 ≠ name⟩
    instances := ⟨h.instances.entries.filter fun e => e.1 ≠ name⟩ }

/-- The lesser of two names, if there are any. -/
def leastName : List String → Option String
  | [] => none
  | name :: rest =>
      match leastName rest with
      | some other => some (if other < name then other else name)
      | none => some name

/-- The first name of a scope in the order of code points. -/
def nameOf? (h : Handles) (s : ScopeId) : Option String :=
  leastName ((h.scopes.entries.filter fun e => e.2 = s).map (·.1))

/-- A world in which just the kept scopes and instances are held. -/
def hold (h : Handles) (w : World) : World := { w with held := h.cells }

end Handles

/-- How a host sees a scope: not at all, without a name, or by its first name. -/
inductive Sight where
  | nothing
  | unnamed
  | named (name : String)
deriving DecidableEq, Inhabited

/-- How a host with some handles sees a scope. -/
def Handles.sight (h : Handles) : Option ScopeId → Sight
  | none => .nothing
  | some s =>
      match h.nameOf? s with
      | some name => .named name
      | none => .unnamed

/-- A world with the handles of its host. -/
structure Hosted where
  world : World
  handles : Handles
deriving Inhabited

namespace Hosted

/-- The world as the host holds it. -/
def view (t : Hosted) : World := t.handles.hold t.world

/-- The scope kept under a name. -/
def scope? (t : Hosted) (name : String) : Option ScopeId := t.handles.scopes.get? name

/-- The instance kept under a name. -/
def instance? (t : Hosted) (name : String) : Option InstanceId := t.handles.instances.get? name

/-- Keeps a new scope under a name. -/
def keep (t : Hosted) (name : String) (made : ScopeId × World) : ScopeId × Hosted :=
  (made.1, ⟨made.2, t.handles.keep name made.1⟩)

/-- Keeps a new instance and its scope under a name. -/
def keepInstance (t : Hosted) (name : String) (made : InstanceId × World) : ScopeId × Hosted :=
  let home := (made.2.inst made.1).scope
  (home, ⟨made.2, t.handles.keepInstance name made.1 home⟩)

/-- The parent, the caller and the children of a scope as the host sees them. -/
def surroundings (t : Hosted) (s : ScopeId) : Sight × Sight × List Sight :=
  (t.handles.sight (t.view.parent? s), t.handles.sight (t.view.caller? s),
    (t.world.scope s).children.map fun c => t.handles.sight (some c))

end Hosted

end ScopeLang
