/-
Ownership of cells.

A cell is alive if it is held from outside or owned by a cell that is alive.
Links that own nothing are followed only while their target is alive.  A ring
of cells that own each other stays alive.
-/
import ScopeLang.World

namespace ScopeLang

namespace Binding

/-- The cells that a variable owns. -/
def cells (b : Binding) : List Cell := b.value.cells

end Binding

/-- The cells that a table of functions owns. -/
def FunctionTable.cells (t : FunctionTable) : List Cell :=
  t.values.flatMap fun overloads => overloads.map fun o => o.callable.cell

/-- The cells that a table of classes owns. -/
def ClassTable.cells (t : ClassTable) : List Cell := t.values.map Handle.cell

/-- The cells that a root owns through its globals. -/
def Globals.cells : Globals → List Cell
  | .owned functions classes => FunctionTable.cells functions ++ ClassTable.cells classes
  | .shared _ => []

/-- The cells that a scope owns. -/
def Scope.cells (s : Scope) : List Cell :=
  s.children.map Handle.cell ++ s.bindings.values.flatMap Binding.cells ++
    FunctionTable.cells s.functions ++ ClassTable.cells s.classes ++ s.globals.cells

def Instance.cells (i : Instance) : List Cell :=
  [i.classId.cell, i.scope.cell] ++ (i.native.map Handle.cell).toList

def Function.cells (f : Function) : List Cell := (f.captured.map Handle.cell).toList

def Class.cells (c : Class) : List Cell := c.scope.cell :: (c.captured.map Handle.cell).toList

def OverloadSet.cells (o : OverloadSet) : List Cell := o.overloads.map fun o => o.callable.cell

namespace World

/-- The cells that a cell owns. -/
def owned (w : World) (c : Cell) : List Cell :=
  match c.kind with
  | .scope => (w.scope ⟨c.index⟩).cells
  | .list => (w.items ⟨c.index⟩).flatMap Value.cells
  | .dict => (w.entries ⟨c.index⟩).flatMap fun e => e.1.cells ++ e.2.cells
  | .set => (w.elements ⟨c.index⟩).flatMap Value.cells
  | .object => (w.inst ⟨c.index⟩).cells
  | .function => (w.function ⟨c.index⟩).cells
  | .method => []
  | .classObject => (w.classOf ⟨c.index⟩).cells
  | .overloads => (w.overloadSet ⟨c.index⟩).cells
  | .types => []

/-- Whether a cell that can own others satisfies `p`; those that are held are tried first. -/
def anyOwner (w : World) (p : Cell → Bool) : Bool :=
  w.held.any p || w.classes.anyHandle (p ·.cell) || w.functions.anyHandle (p ·.cell) ||
    w.instances.anyHandle (p ·.cell) || w.overloads.anyHandle (p ·.cell) ||
    w.scopes.anyHandle (p ·.cell) || w.lists.anyHandle (p ·.cell) ||
    w.dicts.anyHandle (p ·.cell) || w.sets.anyHandle (p ·.cell)

/-- Whether a cell is held, or owned along a path of `n` owners. -/
def aliveWithin (w : World) : Nat → Cell → Bool
  | 0, _ => true
  | n + 1, c =>
      w.held.contains c || w.anyOwner fun o => (w.owned o).contains c && aliveWithin w n o

/-- Whether a cell is alive.  A path of more owners than there are cells closes a ring. -/
def alive (w : World) (c : Cell) : Bool := w.aliveWithin w.size c

/-- The target of a link that does not own it. -/
def upgrade {k : CellKind} (w : World) (h : Handle k) : Option (Handle k) :=
  if w.alive h.cell then some h else none

/-- The lexical parent of a scope. -/
def parent? (w : World) (s : ScopeId) : Option ScopeId := (w.scope s).parent.bind w.upgrade

/-- The scope that called a scope. -/
def caller? (w : World) (s : ScopeId) : Option ScopeId := (w.scope s).caller.bind w.upgrade

/-- The scope that a scope was appended to. -/
def owner? (w : World) (s : ScopeId) : Option ScopeId := (w.scope s).owner.bind w.upgrade

/-- Holds cells from outside. -/
def hold (w : World) (cells : List Cell) : World := { w with held := cells ++ w.held }

end World

end ScopeLang
