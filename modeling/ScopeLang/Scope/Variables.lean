/-
Declaring and assigning variables.

A value is prepared for the variable it is stored in: it is duplicated unless
the variable is mutable, and takes on the attributes of the variable.
-/
import ScopeLang.Scope.Types

namespace ScopeLang

/-- The attributes of a value stored in a variable. -/
def Binding.stamp (b : Binding) (a : Attributes) : Attributes :=
  { a with
    isConst := b.flags.isConst
    isMutable := b.flags.isMutable || a.isMutable
    isStatic := b.flags.isStatic
    declared := b.declared }

/-- A value as it is stored in a variable. -/
def Binding.prepare (b : Binding) (v : Value) (w : World) : Value × World :=
  let (v, w) := if b.flags.isMutable then (v, w) else w.duplicate v
  ({ v with attrs := b.stamp v.attrs }, w)

namespace World

/-- Replaces a variable of a scope. -/
def setVariable (w : World) (s : ScopeId) (name : String) (b : Binding) : World :=
  let scope := w.scope s
  w.setScope s { scope with bindings := scope.bindings.insert name b }

end World

namespace Action

/-- Declares a variable in a scope. -/
def declareVariable (s : ScopeId) (name : String) (b : Binding) : Action Unit := do
  if ← look fun w => w.hasLocalVariable s name then throw (.redeclaration name)
  let value ← change (b.prepare b.value)
  modify fun w => w.setVariable s name { b with value }

/-- Assigns to a variable of this very scope. -/
def updateLocalVariable (s : ScopeId) (name : String) (v : Value) : Action Unit := do
  match ← look fun w => w.localBinding? s name with
  | none => throw (.undefinedVariable name)
  | some b =>
      if b.flags.isConst then throw (.constViolation name)
      consult fun w => w.checkType s name b.declared v
      let value ← change (b.prepare v)
      modify fun w => w.setVariable s name { b with value }

/-- Assigns to the nearest variable of a name. -/
def updateVariable (s : ScopeId) (name : String) (v : Value) : Action Unit := do
  match ← look fun w => w.bindingScope? s name with
  | none => throw (.undefinedVariable name)
  | some t => updateLocalVariable t name v

end Action

end ScopeLang
