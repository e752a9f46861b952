/-
# Tables, chains and rings

What is found in a table is one of its entries, and what is found along a chain
of scopes is found in one of them.  These are the only facts about searching
that the theory of worlds needs: the order of a search decides which entry is
found, but whatever holds of all entries holds of the one that is found.

Cells refer to each other without rings, and what is added to them closes none:
that is a fact about relations with a few more edges.
-/
import ScopeLang.Scope.Registration
import Mathlib.Logic.Relation

namespace ScopeLang

namespace Table

variable {α : Type}

theorem mem_entries_of_get? {t : Table α} {name : String} {a : α} (h : t.get? name = some a) :
    (name, a) ∈ t.entries := by
  obtain ⟨entries⟩ := t
  simp only [get?] at h ⊢
  induction entries with
  | nil => simp at h
  | cons e rest ih =>
    obtain ⟨other, b⟩ := e
    rw [List.lookup_cons] at h
    split at h
    · rename_i same
      rw [eq_of_beq same, Option.some.inj h]
      exact List.mem_cons_self
    · exact List.mem_cons_of_mem _ (ih h)

theorem mem_values_of_get? {t : Table α} {name : String} {a : α} (h : t.get? name = some a) :
    a ∈ t.values := List.mem_map_of_mem (mem_entries_of_get? h)

theorem mem_put {name : String} {a b : α} :
    ∀ {entries : List (String × α)}, b ∈ (put name a entries).map (·.2) →
      b = a ∨ b ∈ entries.map (·.2)
  | [], h => .inl (by simpa [put] using h)
  | (other, c) :: rest, h => by
    simp only [put] at h
    split at h
    · simp only [List.map_cons, List.mem_cons] at h ⊢
      exact h.imp_right .inr
    · simp only [List.map_cons, List.mem_cons] at h ⊢
      rcases h with rfl | h
      · exact .inr (.inl rfl)
      · exact (mem_put h).imp_right .inr

/-- An insertion adds no entry but the inserted one. -/
theorem mem_values_insert {t : Table α} {name : String} {a b : α}
    (h : b ∈ (t.insert name a).values) : b = a ∨ b ∈ t.values := mem_put h

theorem contains_insert {t : Table α} {name other : String} {a : α}
    (h : t.contains other = true) : (t.insert name a).contains other = true := by
  by_cases e : other = name
  · rw [e, contains, get?_insert_same]
    rfl
  · rw [contains, get?_insert_other e]
    exact h

theorem mem_values_filter {t : Table α} {p : α → Bool} {a : α} (h : a ∈ (t.filter p).values) :
    a ∈ t.values := by
  obtain ⟨e, he, rfl⟩ := List.mem_map.mp h
  exact List.mem_map.mpr ⟨e, (List.mem_filter.mp he).1, rfl⟩

end Table

/-! ## Tables of functions -/

/-- An overload that a table has under some name. -/
def FunctionTable.Lists (t : FunctionTable) (o : Overload) : Prop := ∃ os ∈ t.values, o ∈ os

namespace FunctionTable

variable {t : FunctionTable}

theorem mem_cells {c : Cell} :
    c ∈ FunctionTable.cells t ↔ ∃ o, FunctionTable.Lists t o ∧ o.callable.cell = c := by
  simp only [FunctionTable.cells, List.mem_flatMap, List.mem_map, FunctionTable.Lists]
  constructor
  · rintro ⟨os, hos, o, ho, rfl⟩
    exact ⟨o, ⟨os, hos, ho⟩, rfl⟩
  · rintro ⟨o, ⟨os, hos, ho⟩, rfl⟩
    exact ⟨os, hos, o, ho, rfl⟩

theorem lists_of_get? {name : String} {os : List Overload} (h : t.get? name = some os)
    {o : Overload} (ho : o ∈ os) : FunctionTable.Lists t o :=
  ⟨os, Table.mem_values_of_get? h, ho⟩

theorem lists_append {name : String} {o p : Overload}
    (h : FunctionTable.Lists (Table.append t name o) p) : p = o ∨ FunctionTable.Lists t p := by
  obtain ⟨os, hos, hp⟩ := h
  rcases Table.mem_values_insert hos with rfl | hos
  · rcases List.mem_append.mp hp with hp | hp
    · cases found : Table.get? t name with
      | none => rw [found] at hp; simp at hp
      | some os =>
        rw [found] at hp
        exact .inr (lists_of_get? found hp)
    · exact .inl (List.mem_singleton.mp hp)
  · exact .inr ⟨os, hos, hp⟩

end FunctionTable

theorem ClassTable.mem_cells {t : ClassTable} {c : Cell} :
    c ∈ ClassTable.cells t ↔ ∃ d ∈ t.values, d.cell = c := by
  simp only [ClassTable.cells, List.mem_map]

/-! ## Chains -/

/-- Whatever holds of a scope and passes on to the next one holds along the chain. -/
theorem of_mem_follow {next : ScopeId → Option ScopeId} {P : ScopeId → Prop}
    (step : ∀ s t, P s → next s = some t → P t) :
    ∀ {n : Nat} {s t : ScopeId}, P s → t ∈ follow next n s → P t := by
  intro n
  induction n with
  | zero =>
    intro s t hs ht
    rw [follow, List.mem_singleton] at ht
    exact ht ▸ hs
  | succ n ih =>
    intro s t hs ht
    simp only [follow] at ht
    split at ht
    · rename_i u e
      rcases List.mem_cons.mp ht with rfl | ht
      · exact hs
      · exact ih (step s u hs e) ht
    · rw [List.mem_singleton] at ht
      exact ht ▸ hs

/-! ## Rings -/

section Rings

open Relation

variable {α : Type} {r r' : α → α → Prop} {x : α} {Y : α → Prop}

/-- A way that additional edges from one place open runs through one of them. -/
theorem transGen_of_edges (edge : ∀ a b, r' a b → r a b ∨ a = x ∧ Y b) {a b : α}
    (h : TransGen r' a b) :
    TransGen r a b ∨ ReflTransGen r a x ∧ ∃ y, Y y ∧ ReflTransGen r y b := by
  induction h with
  | single last =>
    rcases edge _ _ last with old | ⟨rfl, new⟩
    · exact .inl (.single old)
    · exact .inr ⟨.refl, _, new, .refl⟩
  | tail _ last ih =>
    rcases edge _ _ last with old | ⟨rfl, new⟩
    · exact ih.imp (·.tail old) (And.imp_right fun ⟨y, hy, way⟩ => ⟨y, hy, way.tail old⟩)
    · rcases ih with before | ⟨before, -⟩
      · exact .inr ⟨before.to_reflTransGen, _, new, .refl⟩
      · exact .inr ⟨before, _, new, .refl⟩

/-- Edges from one place close a ring only if there was a way back before. -/
theorem acyclic_of_edges (edge : ∀ a b, r' a b → r a b ∨ a = x ∧ Y b)
    (acyclic : ∀ a, ¬ TransGen r a a) (noWayBack : ∀ y, Y y → ¬ ReflTransGen r y x) (a : α) :
    ¬ TransGen r' a a := fun ring =>
  match transGen_of_edges edge ring with
  | .inl old => acyclic a old
  | .inr ⟨toX, y, hy, fromY⟩ => noWayBack y hy (fromY.trans toX)

end Rings

namespace World

variable {w : World} {s : ScopeId} {name : String}

/-- A variable in sight is a variable of some scope in sight. -/
theorem localBinding?_of_binding? {b : Binding} (h : w.binding? s name = some b) :
    ∃ t ∈ w.variableChain s, w.localBinding? t name = some b := by
  obtain ⟨t, ht, e⟩ := List.exists_of_findSome?_eq_some h
  exact ⟨t, ht, e⟩

theorem mem_variableChain_of_bindingScope? {t : ScopeId} (h : w.bindingScope? s name = some t) :
    t ∈ w.variableChain s := List.mem_of_find?_eq_some h

theorem mem_values_of_localBinding? {b : Binding} (h : w.localBinding? s name = some b) :
    b ∈ (w.scope s).bindings.values := Table.mem_values_of_get? h

/-- The functions found under a name are listed by some scope, or by the globals of one. -/
theorem lists_of_lookupFunction {os : List Overload} (h : w.lookupFunction s name = some os)
    {o : Overload} (ho : o ∈ os) :
    ∃ t, FunctionTable.Lists (w.scope t).functions o ∨
      FunctionTable.Lists (w.globalFunctions t) o := by
  simp only [lookupFunction, Option.orElse_eq_orElse, Option.orElse_eq_or,
    Option.or_eq_some_iff] at h
  rcases h with h | ⟨-, h⟩
  · obtain ⟨t, -, e⟩ := List.exists_of_findSome?_eq_some h
    exact ⟨t, .inl (FunctionTable.lists_of_get? e ho)⟩
  · obtain ⟨root, -, e⟩ := Option.bind_eq_some_iff.mp h
    exact ⟨root, .inr (FunctionTable.lists_of_get? e ho)⟩

/-- A class found under a name is in the table of some scope, or in the globals of one. -/
theorem mem_values_of_lookupClass {c : ClassId} (h : w.lookupClass s name = some c) :
    ∃ t, c ∈ (w.scope t).classes.values ∨ c ∈ (w.globalClasses t).values := by
  simp only [lookupClass, Option.orElse_eq_orElse, Option.orElse_eq_or, Option.or_eq_some_iff] at h
  rcases h with h | ⟨-, h⟩
  · obtain ⟨t, -, e⟩ := List.exists_of_findSome?_eq_some h
    exact ⟨t, .inl (Table.mem_values_of_get? e)⟩
  · obtain ⟨root, -, e⟩ := Option.bind_eq_some_iff.mp h
    exact ⟨root, .inr (Table.mem_values_of_get? e)⟩

/-- The tables of a scope are searched first. -/
theorem exists_searchOrder (w : World) (s : ScopeId) : ∃ rest, w.searchOrder s = s :: rest := by
  have head : ∃ rest, w.lookupChain s = s :: rest := by
    cases e : s.index with
    | zero => exact ⟨[], by rw [lookupChain, e, follow]⟩
    | succ n =>
      rw [lookupChain, e, follow]
      split
      · exact ⟨_, rfl⟩
      · exact ⟨_, rfl⟩
  obtain ⟨rest, head⟩ := head
  rw [searchOrder, searchChains, List.flatten_cons, head]
  exact ⟨_, rfl⟩

theorem lookupFunction_of_local {os : List Overload}
    (h : (w.scope s).functions.get? name = some os) : w.lookupFunction s name = some os := by
  obtain ⟨rest, first⟩ := w.exists_searchOrder s
  rw [lookupFunction, first, List.findSome?_cons, h]
  rfl

theorem lookupClass_of_local {c : ClassId} (h : (w.scope s).classes.get? name = some c) :
    w.lookupClass s name = some c := by
  obtain ⟨rest, first⟩ := w.exists_searchOrder s
  rw [lookupClass, first, List.findSome?_cons, h]
  rfl

end World

end ScopeLang
