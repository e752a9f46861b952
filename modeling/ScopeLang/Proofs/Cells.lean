/-
# The cells of a world

A world never forgets a cell, so what it holds is described from the outside by
a census: how many cells of each kind have been handed out.  A handle is good
for a world if its index lies below the census of its kind, and since a census
only grows, a handle that is good once is good for ever.

The file also lists what every reader of the world answers after every writer.
A reader of one store is blind to the writers of the others; only the pairs on
the same store need a lemma, and each of them is an `if` on the handle.
-/
import ScopeLang.Scope.Build
import Mathlib.Order.Basic

namespace ScopeLang

/-! ## Stores -/

namespace Store

variable {k : CellKind} {α : Type}

/-- Nothing is written to a handle that has not been given out. -/
theorem set_absent {s : Store k α} {h : Handle k} (new : ¬ s.Has h) (a : α) : s.set h a = s := by
  have past : s.cells.size ≤ h.index := Nat.le_of_not_lt new
  rw [set, Array.setIfInBounds_eq_of_size_le past]

variable [Inhabited α]

instance (s : Store k α) (h : Handle k) : Decidable (s.Has h) :=
  inferInstanceAs (Decidable (h.index < s.size))

theorem get_alloc (s : Store k α) (a : α) (h : Handle k) :
    (s.alloc a).2.get h = if h.index = s.size then a else s.get h := by
  simp only [alloc, get, size, Array.getD_eq_getD_getElem?, Array.getElem?_push]
  split <;> rfl

theorem get_set (s : Store k α) (h i : Handle k) (a : α) :
    (s.set h a).get i = if i = h ∧ s.Has h then a else s.get i := by
  by_cases e : i = h
  · subst e
    by_cases old : s.Has i
    · rw [if_pos ⟨rfl, old⟩, get_set_same a old]
    · rw [if_neg (fun c => old c.2)]
      have past : ¬ i.index < s.cells.size := old
      simp [set, get, past]
  · rw [if_neg (fun c => e c.1), get_set_other a (Ne.symm e)]

/-- A handle that has not been given out reads as the default cell. -/
theorem get_default {s : Store k α} {h : Handle k} (new : ¬ s.Has h) : s.get h = default := by
  have past : ¬ h.index < s.cells.size := new
  simp [get, Array.getD_eq_getD_getElem?, past]

end Store

/-! ## Censuses -/

/-- How many cells of each kind have been handed out. -/
abbrev Census := CellKind → Nat

/-- A cell that has been handed out. -/
def Cell.In (c : Cell) (n : Census) : Prop := c.index < n c.kind

/-- A handle that has been given out. -/
def Handle.In {k : CellKind} (h : Handle k) (n : Census) : Prop := h.index < n k

instance (c : Cell) (n : Census) : Decidable (c.In n) :=
  inferInstanceAs (Decidable (c.index < n c.kind))

instance {k : CellKind} (h : Handle k) (n : Census) : Decidable (h.In n) :=
  inferInstanceAs (Decidable (h.index < n k))

theorem Handle.cell_in {k : CellKind} {h : Handle k} {n : Census} : h.cell.In n ↔ h.In n := Iff.rfl

theorem Cell.In.mono {c : Cell} {n n' : Census} (le : n ≤ n') (h : c.In n) : c.In n' :=
  Nat.lt_of_lt_of_le h (le c.kind)

theorem Handle.In.mono {k : CellKind} {h : Handle k} {n n' : Census} (le : n ≤ n') (i : h.In n) :
    h.In n' :=
  Nat.lt_of_lt_of_le i (le k)

/-- The census after one more cell of a kind. -/
def Census.grow (n : Census) (k : CellKind) : Census := fun j => if j = k then n j + 1 else n j

namespace Census

theorem le_grow (n : Census) (k : CellKind) : n ≤ n.grow k := by
  intro j
  simp only [grow]
  split
  · exact Nat.le_succ _
  · exact Nat.le_refl _

theorem le_of_eq {n n' : Census} (same : n' = n) : n ≤ n' := fun k =>
  Nat.le_of_eq (congrFun same.symm k)

@[simp] theorem grow_same (n : Census) (k : CellKind) : n.grow k k = n k + 1 := by
  simp [grow]

/-- The cell that comes next is not there yet. -/
theorem not_in_next (n : Census) (k : CellKind) : ¬ (⟨n k⟩ : Handle k).In n := Nat.lt_irrefl _

theorem next_in_grow (n : Census) (k : CellKind) : (⟨n k⟩ : Handle k).In (n.grow k) := by
  simp only [Handle.In, grow_same]
  exact Nat.lt_succ_self _

theorem in_of_grow {n : Census} {k : CellKind} {h : Handle k} (i : h.In (n.grow k))
    (ne : h.index ≠ n k) : h.In n := by
  simp only [Handle.In, grow_same] at i ⊢
  omega

theorem index_of_grow {k : CellKind} {h : Handle k} {n : Census} (hh : h.In (n.grow k))
    (new : ¬ h.In n) : h.index = n k := by
  by_contra other
  exact new (in_of_grow hh other)

theorem ne_next {n : Census} {k : CellKind} {h : Handle k} (i : h.In n) : h.index ≠ n k :=
  Nat.ne_of_lt i

/-- What a grown census has, the old one has, but for the new cell. -/
theorem in_grow {n : Census} {k : CellKind} {c : Cell} :
    c.In (n.grow k) ↔ c.In n ∨ c = ⟨k, n k⟩ := by
  obtain ⟨j, i⟩ := c
  simp only [Cell.In, grow, Cell.mk.injEq]
  split
  · rename_i e
    subst e
    simp only [true_and]
    omega
  · rename_i ne
    simp [ne]

end Census

namespace World

/-- The census of a world. -/
def count (w : World) : Census
  | .scope => w.scopes.size
  | .list => w.lists.size
  | .dict => w.dicts.size
  | .set => w.sets.size
  | .object => w.instances.size
  | .function => w.functions.size
  | .method => w.methods.size
  | .classObject => w.classes.size
  | .overloads => w.overloads.size
  | .types => w.types.size

/-! ### Counting after writing -/

@[simp] theorem count_setScope (w : World) (s : ScopeId) (x : Scope) :
    (w.setScope s x).count = w.count := by
  funext k
  cases k <;> simp [count, setScope]

@[simp] theorem count_setItems (w : World) (h : Handle .list) (xs : List Value) :
    (w.setItems h xs).count = w.count := by
  funext k
  cases k <;> simp [count, setItems]

@[simp] theorem count_setEntries (w : World) (h : Handle .dict) (es : List (Value × Value)) :
    (w.setEntries h es).count = w.count := by
  funext k
  cases k <;> simp [count, setEntries]

@[simp] theorem count_setElements (w : World) (h : Handle .set) (xs : List Value) :
    (w.setElements h xs).count = w.count := by
  funext k
  cases k <;> simp [count, setElements]

@[simp] theorem count_setInstance (w : World) (h : InstanceId) (i : Instance) :
    (w.setInstance h i).count = w.count := by
  funext k
  cases k <;> simp [count, setInstance]

@[simp] theorem count_setTypeContext (w : World) (h : Handle .types) (t : TypeContext) :
    (w.setTypeContext h t).count = w.count := by
  funext k
  cases k <;> simp [count, setTypeContext]

@[simp] theorem count_hold (w : World) (cells : List Cell) : (w.hold cells).count = w.count := rfl

@[simp] theorem count_newScope (w : World) (x : Scope) :
    (w.newScope x).2.count = w.count.grow .scope := by
  funext k
  cases k <;> simp [count, newScope, Census.grow]

@[simp] theorem count_newItems (w : World) (xs : List Value) :
    (w.newItems xs).2.count = w.count.grow .list := by
  funext k
  cases k <;> simp [count, newItems, Census.grow]

@[simp] theorem count_newEntries (w : World) (es : List (Value × Value)) :
    (w.newEntries es).2.count = w.count.grow .dict := by
  funext k
  cases k <;> simp [count, newEntries, Census.grow]

@[simp] theorem count_newElements (w : World) (xs : List Value) :
    (w.newElements xs).2.count = w.count.grow .set := by
  funext k
  cases k <;> simp [count, newElements, Census.grow]

@[simp] theorem count_newInstance (w : World) (i : Instance) :
    (w.newInstance i).2.count = w.count.grow .object := by
  funext k
  cases k <;> simp [count, newInstance, Census.grow]

@[simp] theorem count_newFunction (w : World) (f : Function) :
    (w.newFunction f).2.count = w.count.grow .function := by
  funext k
  cases k <;> simp [count, newFunction, Census.grow]

@[simp] theorem count_newMethod (w : World) (m : Method) :
    (w.newMethod m).2.count = w.count.grow .method := by
  funext k
  cases k <;> simp [count, newMethod, Census.grow]

@[simp] theorem count_newClass (w : World) (c : Class) :
    (w.newClass c).2.count = w.count.grow .classObject := by
  funext k
  cases k <;> simp [count, newClass, Census.grow]

@[simp] theorem count_newOverloads (w : World) (o : OverloadSet) :
    (w.newOverloads o).2.count = w.count.grow .overloads := by
  funext k
  cases k <;> simp [count, newOverloads, Census.grow]

/-! ### New handles -/

theorem newScope_in (w : World) (x : Scope) : (w.newScope x).1.In (w.newScope x).2.count := by
  rw [count_newScope]
  exact Census.next_in_grow w.count .scope

theorem newItems_in (w : World) (xs : List Value) : (w.newItems xs).1.In (w.newItems xs).2.count := by
  rw [count_newItems]
  exact Census.next_in_grow w.count .list

theorem newEntries_in (w : World) (es : List (Value × Value)) : (w.newEntries es).1.In (w.newEntries es).2.count := by
  rw [count_newEntries]
  exact Census.next_in_grow w.count .dict

theorem newElements_in (w : World) (xs : List Value) : (w.newElements xs).1.In (w.newElements xs).2.count := by
  rw [count_newElements]
  exact Census.next_in_grow w.count .set

theorem newInstance_in (w : World) (i : Instance) : (w.newInstance i).1.In (w.newInstance i).2.count := by
  rw [count_newInstance]
  exact Census.next_in_grow w.count .object

theorem newFunction_in (w : World) (f : Function) : (w.newFunction f).1.In (w.newFunction f).2.count := by
  rw [count_newFunction]
  exact Census.next_in_grow w.count .function

theorem newMethod_in (w : World) (m : Method) : (w.newMethod m).1.In (w.newMethod m).2.count := by
  rw [count_newMethod]
  exact Census.next_in_grow w.count .method

theorem newClass_in (w : World) (c : Class) : (w.newClass c).1.In (w.newClass c).2.count := by
  rw [count_newClass]
  exact Census.next_in_grow w.count .classObject

theorem newOverloads_in (w : World) (o : OverloadSet) : (w.newOverloads o).1.In (w.newOverloads o).2.count := by
  rw [count_newOverloads]
  exact Census.next_in_grow w.count .overloads

theorem newScope_new (w : World) (x : Scope) : ¬ (w.newScope x).1.cell.In w.count :=
  Census.not_in_next w.count .scope

theorem newItems_new (w : World) (xs : List Value) : ¬ (w.newItems xs).1.cell.In w.count :=
  Census.not_in_next w.count .list

theorem newEntries_new (w : World) (es : List (Value × Value)) : ¬ (w.newEntries es).1.cell.In w.count :=
  Census.not_in_next w.count .dict

theorem newElements_new (w : World) (xs : List Value) : ¬ (w.newElements xs).1.cell.In w.count :=
  Census.not_in_next w.count .set

theorem newInstance_new (w : World) (i : Instance) : ¬ (w.newInstance i).1.cell.In w.count :=
  Census.not_in_next w.count .object

theorem newFunction_new (w : World) (f : Function) : ¬ (w.newFunction f).1.cell.In w.count :=
  Census.not_in_next w.count .function

theorem newMethod_new (w : World) (m : Method) : ¬ (w.newMethod m).1.cell.In w.count :=
  Census.not_in_next w.count .method

theorem newClass_new (w : World) (c : Class) : ¬ (w.newClass c).1.cell.In w.count :=
  Census.not_in_next w.count .classObject

theorem newOverloads_new (w : World) (o : OverloadSet) : ¬ (w.newOverloads o).1.cell.In w.count :=
  Census.not_in_next w.count .overloads

/-! ### Reading after writing -/

theorem scope_setScope (w : World) (s t : ScopeId) (x : Scope) :
    (w.setScope s x).scope t = if t = s ∧ s.In w.count then x else w.scope t :=
  Store.get_set w.scopes s t x

theorem items_setItems (w : World) (h i : Handle .list) (xs : List Value) :
    (w.setItems h xs).items i = if i = h ∧ h.In w.count then xs else w.items i :=
  Store.get_set w.lists h i xs

theorem entries_setEntries (w : World) (h i : Handle .dict) (es : List (Value × Value)) :
    (w.setEntries h es).entries i = if i = h ∧ h.In w.count then es else w.entries i :=
  Store.get_set w.dicts h i es

theorem elements_setElements (w : World) (h i : Handle .set) (xs : List Value) :
    (w.setElements h xs).elements i = if i = h ∧ h.In w.count then xs else w.elements i :=
  Store.get_set w.sets h i xs

theorem inst_setInstance (w : World) (h i : InstanceId) (x : Instance) :
    (w.setInstance h x).inst i = if i = h ∧ h.In w.count then x else w.inst i :=
  Store.get_set w.instances h i x

theorem typeContext_setTypeContext (w : World) (h i : Handle .types) (t : TypeContext) :
    (w.setTypeContext h t).typeContext i = if i = h ∧ h.In w.count then t else w.typeContext i :=
  Store.get_set w.types h i t

theorem scope_newScope (w : World) (x : Scope) (t : ScopeId) :
    (w.newScope x).2.scope t = if t.index = w.count .scope then x else w.scope t :=
  Store.get_alloc w.scopes x t

theorem items_newItems (w : World) (xs : List Value) (i : Handle .list) :
    (w.newItems xs).2.items i = if i.index = w.count .list then xs else w.items i :=
  Store.get_alloc w.lists xs i

theorem entries_newEntries (w : World) (es : List (Value × Value)) (i : Handle .dict) :
    (w.newEntries es).2.entries i = if i.index = w.count .dict then es else w.entries i :=
  Store.get_alloc w.dicts es i

theorem elements_newElements (w : World) (xs : List Value) (i : Handle .set) :
    (w.newElements xs).2.elements i = if i.index = w.count .set then xs else w.elements i :=
  Store.get_alloc w.sets xs i

theorem inst_newInstance (w : World) (x : Instance) (i : InstanceId) :
    (w.newInstance x).2.inst i = if i.index = w.count .object then x else w.inst i :=
  Store.get_alloc w.instances x i

theorem inst_newInstance_self (w : World) (x : Instance) :
    (w.newInstance x).2.inst (w.newInstance x).1 = x :=
  Store.get_alloc_new w.instances x

theorem function_newFunction (w : World) (f : Function) (h : Handle .function) :
    (w.newFunction f).2.function h = if h.index = w.count .function then f else w.function h :=
  Store.get_alloc w.functions f h

theorem method_newMethod (w : World) (m : Method) (h : Handle .method) :
    (w.newMethod m).2.method h = if h.index = w.count .method then m else w.method h :=
  Store.get_alloc w.methods m h

theorem classOf_newClass (w : World) (x : Class) (c : ClassId) :
    (w.newClass x).2.classOf c = if c.index = w.count .classObject then x else w.classOf c :=
  Store.get_alloc w.classes x c

theorem overloadSet_newOverloads (w : World) (o : OverloadSet) (h : Handle .overloads) :
    (w.newOverloads o).2.overloadSet h =
      if h.index = w.count .overloads then o else w.overloadSet h :=
  Store.get_alloc w.overloads o h

theorem setItems_absent {w : World} {h : Handle .list} (new : ¬ h.In w.count) (xs : List Value) :
    w.setItems h xs = w := by
  rw [setItems, Store.set_absent new]

theorem setEntries_absent {w : World} {h : Handle .dict} (new : ¬ h.In w.count)
    (es : List (Value × Value)) : w.setEntries h es = w := by
  rw [setEntries, Store.set_absent new]

theorem setElements_absent {w : World} {h : Handle .set} (new : ¬ h.In w.count)
    (xs : List Value) : w.setElements h xs = w := by
  rw [setElements, Store.set_absent new]

/-- A scope that is not there reads as an empty one without a parent. -/
theorem scope_default {w : World} {s : ScopeId} (new : ¬ s.In w.count) : w.scope s = default :=
  Store.get_default new

end World

end ScopeLang
