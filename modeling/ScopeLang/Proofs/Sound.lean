/-
# Sound worlds

A world is sound for a dialect if every handle stored anywhere in it has been
handed out, scopes are newer than their lexical parents, all scopes see the one
type context, and flags, bodies and defaults keep to the dialect.

Soundness is stated relative to a census, `SoundAt D n w`, so that writing to
one store leaves every clause about the others as it is: only the clauses of the
written store are proved again.  `Sound D w` is the instance at the census of
the world itself.

`World.Grows` is the other half: what later worlds keep of earlier ones.
-/
import ScopeLang.Proofs.Cells
import ScopeLang.Proofs.Dialect
import ScopeLang.Proofs.Pools
import ScopeLang.Eval.Run

namespace ScopeLang

/-! ## The values of a cell -/

/-- The values that a scope or a container holds. -/
def World.values (w : World) (c : Cell) : List Value :=
  match c.kind with
  | .scope => (w.scope ⟨c.index⟩).bindings.values.map Binding.value
  | .list => w.items ⟨c.index⟩
  | .dict => (w.entries ⟨c.index⟩).flatMap fun e => [e.1, e.2]
  | .set => w.elements ⟨c.index⟩
  | _ => []

namespace World

variable (w : World) (c : Cell)

theorem values_setScope (s : ScopeId) (x : Scope) :
    (w.setScope s x).values c =
      if c = s.cell ∧ s.In w.count then x.bindings.values.map Binding.value else w.values c := by
  obtain ⟨k, i⟩ := c
  obtain ⟨j⟩ := s
  cases k <;> simp [values, scope_setScope, Handle.cell] <;> try rfl
  split <;> rfl

theorem values_setItems (h : Handle .list) (xs : List Value) :
    (w.setItems h xs).values c = if c = h.cell ∧ h.In w.count then xs else w.values c := by
  obtain ⟨k, i⟩ := c
  obtain ⟨j⟩ := h
  cases k <;> simp [values, items_setItems, Handle.cell] <;> rfl

theorem values_setEntries (h : Handle .dict) (es : List (Value × Value)) :
    (w.setEntries h es).values c =
      if c = h.cell ∧ h.In w.count then es.flatMap fun e => [e.1, e.2] else w.values c := by
  obtain ⟨k, i⟩ := c
  obtain ⟨j⟩ := h
  cases k <;> simp [values, entries_setEntries, Handle.cell] <;> try rfl
  split <;> rfl

theorem values_setElements (h : Handle .set) (xs : List Value) :
    (w.setElements h xs).values c = if c = h.cell ∧ h.In w.count then xs else w.values c := by
  obtain ⟨k, i⟩ := c
  obtain ⟨j⟩ := h
  cases k <;> simp [values, elements_setElements, Handle.cell] <;> rfl

theorem values_newScope (x : Scope) :
    (w.newScope x).2.values c =
      if c = ⟨.scope, w.count .scope⟩ then x.bindings.values.map Binding.value
      else w.values c := by
  obtain ⟨k, i⟩ := c
  cases k <;> simp [values, scope_newScope] <;> try rfl
  split <;> rfl

theorem values_newItems (xs : List Value) :
    (w.newItems xs).2.values c = if c = ⟨.list, w.count .list⟩ then xs else w.values c := by
  obtain ⟨k, i⟩ := c
  cases k <;> simp [values, items_newItems] <;> rfl

theorem values_newEntries (es : List (Value × Value)) :
    (w.newEntries es).2.values c =
      if c = ⟨.dict, w.count .dict⟩ then es.flatMap fun e => [e.1, e.2] else w.values c := by
  obtain ⟨k, i⟩ := c
  cases k <;> simp [values, entries_newEntries] <;> try rfl
  split <;> rfl

theorem values_newElements (xs : List Value) :
    (w.newElements xs).2.values c = if c = ⟨.set, w.count .set⟩ then xs else w.values c := by
  obtain ⟨k, i⟩ := c
  cases k <;> simp [values, elements_newElements] <;> rfl

end World

/-! ## Sound parts -/

/-- A value whose cells are there and which is shared only where that is allowed. -/
structure Value.Ok (D : Dialect) (n : Census) (v : Value) : Prop where
  cells : ∀ c ∈ v.cells, c.In n
  shared : v.attrs.isMutable = true → D.sharing

/-- Parameters whose flags and default keep to the dialect. -/
structure ParameterSpec.Ok (D : Dialect) (p : ParameterSpec) : Prop where
  flags : p.flags.isMutable = true → D.sharing
  default : ∀ e, p.default = some e → D.Admits e.marks

/-- A body that keeps to the dialect. -/
def Body.Ok (D : Dialect) : Body → Prop
  | .user statements => D.Admits (blockMarks statements)
  | .native body => D.natives body

structure Procedure.Ok (D : Dialect) (p : Procedure) : Prop where
  parameters : ∀ q ∈ p.parameters, q.Ok D
  body : p.body.Ok D

/-- The cells of the tables of a scope. -/
def Scope.callables (s : Scope) : List Cell :=
  FunctionTable.cells s.functions ++ ClassTable.cells s.classes ++ s.globals.cells

/-- A scope at a position that keeps to the dialect, but for the values of its variables. -/
structure Scope.Ok (D : Dialect) (n : Census) (i : Nat) (s : Scope) : Prop where
  flags : ∀ b ∈ s.bindings.values, b.flags.isMutable = true → D.sharing
  callable : ∀ c ∈ s.callables, c.In n
  /-- A scope is newer than its parent. -/
  older : ∀ p, s.parent = some p → p.index < i
  types : s.types = ⟨0⟩

/-- A frame whose scope and receiver are there. -/
structure Frame.In (f : Frame) (n : Census) : Prop where
  scope : f.scope.In n
  receiver : ∀ i, f.receiver = some i → i.In n

/-- Arguments that are sound. -/
structure CallArguments.Ok (D : Dialect) (n : Census) (a : CallArguments) : Prop where
  positional : ∀ v ∈ a.positional, v.Ok D n
  named : ∀ e ∈ a.named, e.2.Ok D n

/-- Bound arguments that are sound. -/
def SlotsOk (D : Dialect) (n : Census) (slots : List (Slot Value)) : Prop :=
  ∀ slot ∈ slots, ∀ v ∈ slot.values, v.Ok D n

structure Resolution.Ok (D : Dialect) (n : Census) (r : Resolution) : Prop where
  callable : r.overload.callable.cell.In n
  slots : SlotsOk D n r.slots

/-- What is stored in a world keeps to a dialect, and handles lie below a census. -/
structure SoundAt (D : Dialect) (n : Census) (w : World) : Prop where
  value : ∀ {c v}, v ∈ w.values c → v.Ok D n
  scope : ∀ s, (w.scope s).Ok D n s.index
  context : (⟨0⟩ : Handle .types).In n
  classId : ∀ {i}, i.In w.count → (w.inst i).classId.In n
  home : ∀ {i}, i.In w.count → (w.inst i).scope.In n
  function : ∀ {h}, h.In w.count → (w.function h).procedure.Ok D
  captured : ∀ {h s}, h.In w.count → (w.function h).captured = some s → s.In n
  /-- A function of the program has a scope of its own. -/
  closed : ∀ {h b}, h.In w.count → (w.function h).procedure.body = .user b →
    (w.function h).captured.isSome = true
  method : ∀ {h}, h.In w.count → (w.method h).procedure.Ok D
  methodClass : ∀ {h}, h.In w.count → (w.method h).classId.In n
  classScope : ∀ {c}, c.In w.count → (w.classOf c).scope.In n
  classCaptured : ∀ {c s}, c.In w.count → (w.classOf c).captured = some s → s.In n
  overloads : ∀ {h o}, o ∈ (w.overloadSet h).overloads → o.callable.cell.In n
  held : ∀ c ∈ w.held, c.In n

/-- A sound world. -/
abbrev Sound (D : Dialect) (w : World) : Prop := SoundAt D w.count w

/-! ## Larger censuses -/

section Mono

variable {D : Dialect} {n n' : Census}

theorem Scope.Ok.mono (le : n ≤ n') {i : Nat} {s : Scope} (h : s.Ok D n i) : s.Ok D n' i :=
  ⟨h.flags, fun c hc => (h.callable c hc).mono le, h.older, h.types⟩

theorem Value.Ok.mono (le : n ≤ n') {v : Value} (h : v.Ok D n) : v.Ok D n' :=
  ⟨fun c hc => (h.cells c hc).mono le, h.shared⟩

theorem Frame.In.mono (le : n ≤ n') {f : Frame} (h : f.In n) : f.In n' :=
  ⟨h.scope.mono le, fun i hi => (h.receiver i hi).mono le⟩

theorem CallArguments.Ok.mono (le : n ≤ n') {a : CallArguments} (h : a.Ok D n) : a.Ok D n' :=
  ⟨fun v hv => (h.positional v hv).mono le, fun e he => (h.named e he).mono le⟩

theorem SlotsOk.mono (le : n ≤ n') {slots : List (Slot Value)} (h : SlotsOk D n slots) :
    SlotsOk D n' slots :=
  fun slot hs v hv => (h slot hs v hv).mono le

theorem cells_of_ok {vs : List Value} (ok : ∀ v ∈ vs, v.Ok D n) :
    ∀ c ∈ vs.flatMap Value.cells, c.In n := by
  intro c hc
  obtain ⟨v, hv, hc⟩ := List.mem_flatMap.mp hc
  exact (ok v hv).cells c hc

theorem CallArguments.Ok.cells {a : CallArguments} (h : a.Ok D n) : ∀ c ∈ a.cells, c.In n := by
  intro c hc
  rcases List.mem_append.mp hc with hc | hc
  · exact cells_of_ok h.positional c hc
  · obtain ⟨e, he, hc⟩ := List.mem_flatMap.mp hc
    exact (h.named e he).cells c hc

theorem Value.ok_scalar {v : Value} (cells : v.cells = []) (attrs : v.attrs = {}) : v.Ok D n :=
  ⟨fun c hc => absurd (cells ▸ hc) List.not_mem_nil, fun h => by rw [attrs] at h; simp at h⟩

/-- A new value that stands for a cell. -/
theorem Value.ok_cell {d : Datum} {c : Cell} (cell : d.cell? = some c) (h : c.In n) :
    (Value.ofDatum d).Ok D n := by
  refine ⟨fun c' hc' => ?_, fun shared => absurd shared Bool.false_ne_true⟩
  rw [Value.cells, Value.ofDatum, cell, Option.toList_some, List.mem_singleton] at hc'
  exact hc' ▸ h

theorem Value.ok_null : Value.null.Ok D n := Value.ok_scalar rfl rfl

end Mono

/-! ## What later worlds keep -/

/-- What a scope is made with and keeps. -/
structure Scope.SameRoot (a b : Scope) : Prop where
  kind : b.kind = a.kind
  label : b.label = a.label
  level : b.level = a.level
  parent : b.parent = a.parent
  types : b.types = a.types

/-- A type context whose pool has grown. -/
structure TypeContext.Grows (a b : TypeContext) : Prop where
  options : b.options = a.options
  pool : a.pool.Grows b.pool

/-- The new world has everything of the old one, and only what may change has changed. -/
structure World.Grows (w w' : World) : Prop where
  count : w.count ≤ w'.count
  scope : ∀ {s}, s.In w.count → (w.scope s).SameRoot (w'.scope s)
  /-- A scope keeps the names of its functions. -/
  named : ∀ {s name}, s.In w.count → w.hasLocalFunction s name = true →
    w'.hasLocalFunction s name = true
  /-- A scope keeps the names of its variables. -/
  bound : ∀ {s name}, s.In w.count → w.hasLocalVariable s name = true →
    w'.hasLocalVariable s name = true
  classId : ∀ {i}, i.In w.count → (w'.inst i).classId = (w.inst i).classId
  home : ∀ {i}, i.In w.count → (w'.inst i).scope = (w.inst i).scope
  function : ∀ {h}, h.In w.count → w'.function h = w.function h
  method : ∀ {h}, h.In w.count → w'.method h = w.method h
  classOf : ∀ {c}, c.In w.count → w'.classOf c = w.classOf c
  overloads : ∀ {h}, h.In w.count → w'.overloadSet h = w.overloadSet h
  context : ∀ {h}, h.In w.count → (w.typeContext h).Grows (w'.typeContext h)

namespace Scope.SameRoot

theorem refl (s : Scope) : s.SameRoot s := ⟨rfl, rfl, rfl, rfl, rfl⟩

theorem trans {a b c : Scope} (h : a.SameRoot b) (i : b.SameRoot c) : a.SameRoot c :=
  ⟨i.kind.trans h.kind, i.label.trans h.label, i.level.trans h.level, i.parent.trans h.parent,
    i.types.trans h.types⟩

end Scope.SameRoot

namespace World.Grows

theorem refl (w : World) : w.Grows w :=
  ⟨fun _ => Nat.le_refl _, fun _ => .refl _, fun _ h => h, fun _ h => h, fun _ => rfl, fun _ => rfl,
    fun _ => rfl, fun _ => rfl, fun _ => rfl, fun _ => rfl, fun _ => ⟨rfl, .refl _⟩⟩

theorem trans {w₁ w₂ w₃ : World} (h : w₁.Grows w₂) (i : w₂.Grows w₃) : w₁.Grows w₃ where
  count k := Nat.le_trans (h.count k) (i.count k)
  scope old := (h.scope old).trans (i.scope (old.mono h.count))
  named old has := i.named (old.mono h.count) (h.named old has)
  bound old has := i.bound (old.mono h.count) (h.bound old has)
  classId old := (i.classId (old.mono h.count)).trans (h.classId old)
  home old := (i.home (old.mono h.count)).trans (h.home old)
  function old := (i.function (old.mono h.count)).trans (h.function old)
  method old := (i.method (old.mono h.count)).trans (h.method old)
  classOf old := (i.classOf (old.mono h.count)).trans (h.classOf old)
  overloads old := (i.overloads (old.mono h.count)).trans (h.overloads old)
  context old :=
    ⟨(i.context (old.mono h.count)).options.trans (h.context old).options,
      (h.context old).pool.trans (i.context (old.mono h.count)).pool⟩

end World.Grows

/-! ## Soundness after writing -/

namespace SoundAt

variable {D : Dialect} {n n' : Census} {w : World}

theorem ok_of_mem_entries {es : List (Value × Value)} (ok : ∀ e ∈ es, e.1.Ok D n ∧ e.2.Ok D n)
    {v : Value} (hv : v ∈ es.flatMap fun e => [e.1, e.2]) : v.Ok D n := by
  obtain ⟨e, he, hv⟩ := List.mem_flatMap.mp hv
  simp only [List.mem_cons, List.not_mem_nil, or_false] at hv
  rcases hv with rfl | rfl
  · exact (ok e he).1
  · exact (ok e he).2

theorem mono (le : n ≤ n') (h : SoundAt D n w) : SoundAt D n' w where
  value hv := (h.value hv).mono le
  scope s := (h.scope s).mono le
  context := h.context.mono le
  classId hi := (h.classId hi).mono le
  home hi := (h.home hi).mono le
  function := h.function
  captured hf e := (h.captured hf e).mono le
  closed := h.closed
  method := h.method
  methodClass hm := (h.methodClass hm).mono le
  classScope hc := (h.classScope hc).mono le
  classCaptured hc e := (h.classCaptured hc e).mono le
  overloads ho := (h.overloads ho).mono le
  held c hc := (h.held c hc).mono le

theorem setScope (h : SoundAt D n w) {s : ScopeId} {x : Scope} (ok : x.Ok D n s.index)
    (values : ∀ b ∈ x.bindings.values, b.value.Ok D n) : SoundAt D n (w.setScope s x) :=
  { h with
    value := by
      intro c v hv
      rw [World.values_setScope] at hv
      split at hv
      · obtain ⟨b, hb, rfl⟩ := List.mem_map.mp hv
        exact values b hb
      · exact h.value hv
    scope := by
      intro t
      rw [World.scope_setScope]
      split
      · rename_i e
        rw [e.1]
        exact ok
      · exact h.scope t }

theorem setItems (h : SoundAt D n w) {l : Handle .list} {xs : List Value}
    (values : ∀ v ∈ xs, v.Ok D n) : SoundAt D n (w.setItems l xs) :=
  { h with
    value := by
      intro c v hv
      rw [World.values_setItems] at hv
      split at hv
      · exact values v hv
      · exact h.value hv }

theorem setEntries (h : SoundAt D n w) {d : Handle .dict} {es : List (Value × Value)}
    (values : ∀ e ∈ es, e.1.Ok D n ∧ e.2.Ok D n) : SoundAt D n (w.setEntries d es) :=
  { h with
    value := by
      intro c v hv
      rw [World.values_setEntries] at hv
      split at hv
      · exact ok_of_mem_entries values hv
      · exact h.value hv }

theorem setElements (h : SoundAt D n w) {l : Handle .set} {xs : List Value}
    (values : ∀ v ∈ xs, v.Ok D n) : SoundAt D n (w.setElements l xs) :=
  { h with
    value := by
      intro c v hv
      rw [World.values_setElements] at hv
      split at hv
      · exact values v hv
      · exact h.value hv }

theorem setTypeContext (h : SoundAt D n w) {t : Handle .types} {x : TypeContext} :
    SoundAt D n (w.setTypeContext t x) :=
  { h with }

theorem setHeld (h : SoundAt D n w) {cells : List Cell} (there : ∀ c ∈ cells, c.In n) :
    SoundAt D n { w with held := cells } :=
  { h with held := there }

theorem newScope (h : SoundAt D n w) {x : Scope} (ok : x.Ok D n (w.count .scope))
    (values : ∀ b ∈ x.bindings.values, b.value.Ok D n) : SoundAt D n (w.newScope x).2 :=
  { h with
    value := by
      intro c v hv
      rw [World.values_newScope] at hv
      split at hv
      · obtain ⟨b, hb, rfl⟩ := List.mem_map.mp hv
        exact values b hb
      · exact h.value hv
    scope := by
      intro t
      rw [World.scope_newScope]
      split
      · rename_i e
        rw [e]
        exact ok
      · exact h.scope t }

theorem newItems (h : SoundAt D n w) {xs : List Value} (values : ∀ v ∈ xs, v.Ok D n) :
    SoundAt D n (w.newItems xs).2 :=
  { h with
    value := by
      intro c v hv
      rw [World.values_newItems] at hv
      split at hv
      · exact values v hv
      · exact h.value hv }

theorem newEntries (h : SoundAt D n w) {es : List (Value × Value)}
    (values : ∀ e ∈ es, e.1.Ok D n ∧ e.2.Ok D n) : SoundAt D n (w.newEntries es).2 :=
  { h with
    value := by
      intro c v hv
      rw [World.values_newEntries] at hv
      split at hv
      · exact ok_of_mem_entries values hv
      · exact h.value hv }

theorem newElements (h : SoundAt D n w) {xs : List Value} (values : ∀ v ∈ xs, v.Ok D n) :
    SoundAt D n (w.newElements xs).2 :=
  { h with
    value := by
      intro c v hv
      rw [World.values_newElements] at hv
      split at hv
      · exact values v hv
      · exact h.value hv }

theorem newInstance (h : SoundAt D n w) {x : Instance} (c : x.classId.In n) (s : x.scope.In n) :
    SoundAt D n (w.newInstance x).2 :=
  { h with
    classId := by
      intro i hi
      rw [World.count_newInstance] at hi
      rw [World.inst_newInstance]
      split
      · exact c
      · exact h.classId (Census.in_of_grow hi ‹_›)
    home := by
      intro i hi
      rw [World.count_newInstance] at hi
      rw [World.inst_newInstance]
      split
      · exact s
      · exact h.home (Census.in_of_grow hi ‹_›) }

theorem newFunction (h : SoundAt D n w) {x : Function} (ok : x.procedure.Ok D)
    (captured : ∀ s, x.captured = some s → s.In n)
    (closed : ∀ b, x.procedure.body = .user b → x.captured.isSome = true) :
    SoundAt D n (w.newFunction x).2 :=
  { h with
    function := by
      intro f hf
      rw [World.count_newFunction] at hf
      rw [World.function_newFunction]
      split
      · exact ok
      · exact h.function (Census.in_of_grow hf ‹_›)
    captured := by
      intro f s hf
      rw [World.count_newFunction] at hf
      rw [World.function_newFunction]
      split
      · exact captured s
      · exact h.captured (Census.in_of_grow hf ‹_›)
    closed := by
      intro f b hf
      rw [World.count_newFunction] at hf
      rw [World.function_newFunction]
      split
      · exact closed b
      · exact h.closed (Census.in_of_grow hf ‹_›) }

theorem newMethod (h : SoundAt D n w) {x : Method} (ok : x.procedure.Ok D)
    (c : x.classId.In n) : SoundAt D n (w.newMethod x).2 :=
  { h with
    method := by
      intro m hm
      rw [World.count_newMethod] at hm
      rw [World.method_newMethod]
      split
      · exact ok
      · exact h.method (Census.in_of_grow hm ‹_›)
    methodClass := by
      intro m hm
      rw [World.count_newMethod] at hm
      rw [World.method_newMethod]
      split
      · exact c
      · exact h.methodClass (Census.in_of_grow hm ‹_›) }

theorem newClass (h : SoundAt D n w) {x : Class} (s : x.scope.In n)
    (captured : ∀ s, x.captured = some s → s.In n) : SoundAt D n (w.newClass x).2 :=
  { h with
    classScope := by
      intro c hc
      rw [World.count_newClass] at hc
      rw [World.classOf_newClass]
      split
      · exact s
      · exact h.classScope (Census.in_of_grow hc ‹_›)
    classCaptured := by
      intro c s hc
      rw [World.count_newClass] at hc
      rw [World.classOf_newClass]
      split
      · exact captured s
      · exact h.classCaptured (Census.in_of_grow hc ‹_›) }

theorem newOverloads (h : SoundAt D n w) {x : OverloadSet}
    (ok : ∀ o ∈ x.overloads, o.callable.cell.In n) : SoundAt D n (w.newOverloads x).2 :=
  { h with
    overloads := by
      intro f o ho
      rw [World.overloadSet_newOverloads] at ho
      split at ho
      · exact ok o ho
      · exact h.overloads ho }

end SoundAt

/-! ## Growth by writing -/

namespace World

variable (w : World)

theorem grows_setScope {s : ScopeId} {x : Scope} (same : (w.scope s).SameRoot x)
    (named : ∀ name, w.hasLocalFunction s name = true → x.functions.contains name = true)
    (bound : ∀ name, w.hasLocalVariable s name = true → x.bindings.contains name = true) :
    w.Grows (w.setScope s x) :=
  { Grows.refl w with
    count := Census.le_of_eq (w.count_setScope s x)
    scope := by
      intro t _
      rw [scope_setScope]
      split
      · rename_i e
        rw [e.1]
        exact same
      · exact .refl _
    named := by
      intro t name _ has
      simp only [hasLocalFunction, scope_setScope]
      split
      · rename_i e
        exact named name (e.1 ▸ has)
      · exact has
    bound := by
      intro t name _ has
      simp only [hasLocalVariable, scope_setScope]
      split
      · rename_i e
        exact bound name (e.1 ▸ has)
      · exact has }

theorem grows_setItems (h : Handle .list) (xs : List Value) : w.Grows (w.setItems h xs) :=
  { Grows.refl w with count := Census.le_of_eq (w.count_setItems h xs) }

theorem grows_setEntries (h : Handle .dict) (es : List (Value × Value)) :
    w.Grows (w.setEntries h es) :=
  { Grows.refl w with count := Census.le_of_eq (w.count_setEntries h es) }

theorem grows_setElements (h : Handle .set) (xs : List Value) : w.Grows (w.setElements h xs) :=
  { Grows.refl w with count := Census.le_of_eq (w.count_setElements h xs) }

theorem grows_setHeld (cells : List Cell) : w.Grows { w with held := cells } :=
  { Grows.refl w with }

theorem grows_setTypeContext {t : Handle .types} {x : TypeContext}
    (more : (w.typeContext t).Grows x) : w.Grows (w.setTypeContext t x) :=
  { Grows.refl w with
    count := Census.le_of_eq (w.count_setTypeContext t x)
    context := by
      intro h _
      rw [typeContext_setTypeContext]
      split
      · rename_i e
        rw [e.1]
        exact more
      · exact ⟨rfl, .refl _⟩ }

theorem grows_newScope (x : Scope) : w.Grows (w.newScope x).2 :=
  { Grows.refl w with
    count := by rw [count_newScope]; exact Census.le_grow _ _
    scope := by
      intro t old
      rw [scope_newScope, if_neg (Census.ne_next old)]
      exact .refl _
    named := by
      intro t name old has
      rw [hasLocalFunction, scope_newScope, if_neg (Census.ne_next old)]
      exact has
    bound := by
      intro t name old has
      rw [hasLocalVariable, scope_newScope, if_neg (Census.ne_next old)]
      exact has }

theorem grows_newItems (xs : List Value) : w.Grows (w.newItems xs).2 :=
  { Grows.refl w with count := by rw [count_newItems]; exact Census.le_grow _ _ }

theorem grows_newEntries (es : List (Value × Value)) : w.Grows (w.newEntries es).2 :=
  { Grows.refl w with count := by rw [count_newEntries]; exact Census.le_grow _ _ }

theorem grows_newElements (xs : List Value) : w.Grows (w.newElements xs).2 :=
  { Grows.refl w with count := by rw [count_newElements]; exact Census.le_grow _ _ }

theorem grows_newInstance (x : Instance) : w.Grows (w.newInstance x).2 :=
  { Grows.refl w with
    count := by rw [count_newInstance]; exact Census.le_grow _ _
    classId := by
      intro i old
      rw [inst_newInstance, if_neg (Census.ne_next old)]
    home := by
      intro i old
      rw [inst_newInstance, if_neg (Census.ne_next old)] }

theorem grows_newFunction (x : Function) : w.Grows (w.newFunction x).2 :=
  { Grows.refl w with
    count := by rw [count_newFunction]; exact Census.le_grow _ _
    function := by
      intro h old
      rw [function_newFunction, if_neg (Census.ne_next old)] }

theorem grows_newMethod (x : Method) : w.Grows (w.newMethod x).2 :=
  { Grows.refl w with
    count := by rw [count_newMethod]; exact Census.le_grow _ _
    method := by
      intro h old
      rw [method_newMethod, if_neg (Census.ne_next old)] }

theorem grows_newClass (x : Class) : w.Grows (w.newClass x).2 :=
  { Grows.refl w with
    count := by rw [count_newClass]; exact Census.le_grow _ _
    classOf := by
      intro c old
      rw [classOf_newClass, if_neg (Census.ne_next old)] }

theorem grows_newOverloads (x : OverloadSet) : w.Grows (w.newOverloads x).2 :=
  { Grows.refl w with
    count := by rw [count_newOverloads]; exact Census.le_grow _ _
    overloads := by
      intro h old
      rw [overloadSet_newOverloads, if_neg (Census.ne_next old)] }

end World

end ScopeLang
