/-
Copies of values and scopes.

A deep copy has containers and instances of its own at every depth.  Storing a
value duplicates it: a mutable value stays shared, any other is copied.
Callables and what native methods keep are always shared.
-/
import ScopeLang.World

namespace ScopeLang

/-- Applies a change of a state to each item in turn. -/
def mapState {σ α β : Type} (f : α → σ → β × σ) : List α → σ → List β × σ
  | [], s => ([], s)
  | a :: rest, s =>
      let (b, s) := f a s
      let (bs, s) := mapState f rest s
      (b :: bs, s)

/-- The globals of a root as seen from another scope. -/
def Globals.share (s : ScopeId) : Globals → Globals
  | .owned _ _ => .shared s
  | .shared root => .shared root

/-- A scope like `s` at handle `h`, of the same level and under the same parent, with
variables of its own. -/
def Scope.twin (s : Scope) (h : ScopeId) (bindings : Table Binding) : Scope :=
  { s with
    isCopy := true, tornDown := false, bindings, children := [], owner := none, caller := none,
    globals := s.globals.share h }

/-- A table of variables whose values have been changed by `f`. -/
def mapBindings (f : Value → World → Value × World) (t : Table Binding) (w : World) :
    Table Binding × World :=
  let (entries, w) := mapState (fun e w =>
    let (value, w) := f e.2.value w
    ((e.1, { e.2 with value }), w)) t.entries w
  (⟨entries⟩, w)

/-- Shares a mutable value and copies any other by `copy`. -/
def duplicateBy (copy : Value → World → Value × World) (v : Value) (w : World) : Value × World :=
  if v.attrs.isMutable then (v, w) else copy v w

/-- A copy of a scope whose values are duplicated by `copy`. -/
def duplicateScopeBy (copy : Value → World → Value × World) (s : ScopeId) (w : World) :
    ScopeId × World :=
  let scope := w.scope s
  let (bindings, w) := mapBindings (duplicateBy copy) scope.bindings w
  w.newScope (scope.twin s bindings)

namespace World

/-- A deep copy of a value nested at most `n` deep. -/
def copyWithin : Nat → Value → World → Value × World
  | 0, v, w => (v, w)
  | n + 1, v, w =>
      match v.datum with
      | .list h =>
          let (items, w) := mapState (copyWithin n) (w.items h) w
          let (h, w) := w.newItems items
          ({ v with datum := .list h }, w)
      | .array h =>
          let (items, w) := mapState (copyWithin n) (w.items h) w
          let (h, w) := w.newItems items
          ({ v with datum := .array h }, w)
      | .dict h =>
          let (entries, w) := mapState (fun e w =>
            let (key, w) := copyWithin n e.1 w
            let (value, w) := copyWithin n e.2 w
            ((key, value), w)) (w.entries h) w
          let (h, w) := w.newEntries entries
          ({ v with datum := .dict h }, w)
      | .set h =>
          let (elements, w) := mapState (copyWithin n) (w.elements h) w
          let (h, w) := w.newElements elements
          ({ v with datum := .set h }, w)
      | .object h =>
          let info := w.inst h
          let (scope, w) := duplicateScopeBy (copyWithin n) info.scope w
          let (h, w) := w.newInstance { info with scope }
          ({ v with datum := .object h }, w)
      | _ => (v, w)

/-- A deep copy of a value. -/
def deepCopy (w : World) (v : Value) : Value × World := copyWithin (w.size + 1) v w

/-- The copy of a value that is stored in its place. -/
def duplicate (w : World) (v : Value) : Value × World :=
  duplicateBy (fun v w => w.deepCopy v) v w

/-- A copy of a scope. -/
def duplicateScope (w : World) (s : ScopeId) : ScopeId × World :=
  duplicateScopeBy (fun v w => w.deepCopy v) s w

/-- A copy of an instance. -/
def duplicateInstance (w : World) (h : InstanceId) : InstanceId × World :=
  let (scope, w) := w.duplicateScope (w.inst h).scope
  w.newInstance { w.inst h with scope }

end World

end ScopeLang
