/-
Actions on the world.

An action yields a result or a kind of error, and a new world in either case.
-/
import ScopeLang.Copy
import ScopeLang.Display
import ScopeLang.Equality
import ScopeLang.Error

namespace ScopeLang

/-- What may change the world and may fail. -/
abbrev Action := ExceptT ErrorKind (StateM World)

namespace Action

/-- Runs an action. -/
def runIn {α : Type} (a : Action α) (w : World) : Except ErrorKind α × World := a.run w

/-- Reads the world. -/
def look {α : Type} (f : World → α) : Action α := do return f (← get)

/-- Changes the world. -/
def change {α : Type} (f : World → α × World) : Action α := modifyGet f

/-- Reads something of the world that may be an error. -/
def consult {α : Type} (f : World → Except ErrorKind α) : Action α := do
  match f (← get) with
  | .ok a => return a
  | .error e => throw e

/-- A new list of values. -/
def newList (items : List Value) : Action Value := do
  return .ofDatum (.list (← change fun w => w.newItems items))

/-- A new array of values. -/
def newArray (items : List Value) : Action Value := do
  return .ofDatum (.array (← change fun w => w.newItems items))

/-- A new set of the distinct values of a list. -/
def newSet (items : List Value) : Action Value := do
  let distinct ← look fun w => items.foldl (insertElement w.looseEq) []
  return .ofDatum (.set (← change fun w => w.newElements distinct))

/-- A new dictionary, in which a later value replaces an earlier one. -/
def newDict (entries : List (Value × Value)) : Action Value := do
  let distinct ← look fun w =>
    entries.foldl (fun done e => insertEntry w.looseEq e.1 e.2 done) []
  return .ofDatum (.dict (← change fun w => w.newEntries distinct))

/-- The copy of a value that is stored in its place. -/
def duplicate (v : Value) : Action Value := change fun w => w.duplicate v

end Action

end ScopeLang
