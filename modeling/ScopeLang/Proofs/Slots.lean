/-
# Slots

Containers and instances sit in slots: the variables of a scope, the items of a
container, and the one slot in which an instance has its scope.  What sits in a
slot is shared by another slot only if something has put it into both, so all
that has to be known about a writer is which slots it fills with what
(`World.Writes`).

How deep a value is nested is measured along the slots.  Where no cell reaches
itself, a way down passes every cell once at most, so that nothing is nested
deeper than there are cells.
-/
import Mathlib.Data.List.Chain
import Mathlib.Data.List.Perm.Subperm
import ScopeLang.Proofs.Alive

namespace ScopeLang

open Relation

variable {D : Dialect} {w w₁ w₂ : World} {a b c : Cell}

/-! ## Slots -/

/-- The container or the instance that a value is. -/
def Datum.contents : Datum → List Cell
  | .list h | .array h => [h.cell]
  | .dict h => [h.cell]
  | .set h => [h.cell]
  | .object h => [h.cell]
  | _ => []

def Value.contents (v : Value) : List Cell := v.datum.contents

/-- What the variables of a table hold. -/
def bindingContents (t : Table Binding) : List Cell := t.values.flatMap fun b => b.value.contents

namespace World

/-- What sits in the slots of a cell, in their order. -/
def slots (w : World) (c : Cell) : List Cell :=
  match c.kind with
  | .object => [(w.inst ⟨c.index⟩).scope.cell]
  | _ => (w.values c).flatMap Value.contents

/-- A cell that is there has another one in a slot. -/
def Holds (w : World) (a b : Cell) : Prop := a.In w.count ∧ b ∈ w.slots a

/-- No cell reaches itself through slots. -/
def Acyclic (w : World) : Prop := ∀ c, ¬ TransGen w.Holds c c

end World

/-- A container or an instance is one of the cells of the value. -/
theorem Value.mem_cells_of_contents {v : Value} (h : c ∈ v.contents) :
    c ∈ v.cells ∧ c.kind ∈ World.ownerKinds := by
  obtain ⟨d, _⟩ := v
  cases d with
  | list _ | array _ | dict _ | set _ | object _ =>
    rw [List.mem_singleton.mp h]
    exact ⟨List.mem_singleton_self _, by simp [World.ownerKinds, Handle.cell]⟩
  | _ => exact absurd h List.not_mem_nil

namespace World

theorem slots_of_values (ne : c.kind ≠ .object) :
    w.slots c = (w.values c).flatMap Value.contents := by
  obtain ⟨k, i⟩ := c
  cases k with
  | object => exact absurd rfl ne
  | _ => rfl

theorem slots_list (w : World) (h : Handle .list) :
    w.slots h.cell = (w.items h).flatMap Value.contents := rfl

theorem slots_set (w : World) (h : Handle .set) :
    w.slots h.cell = (w.elements h).flatMap Value.contents := rfl

theorem slots_cell {k : CellKind} (h : Handle k) (ne : k ≠ .object) :
    w.slots h.cell = (w.values h.cell).flatMap Value.contents := slots_of_values ne

/-- The slots of a cell depend on its values and, for an instance, on its scope. -/
theorem slots_congr (values : w₁.values c = w.values c)
    (inst : c.kind = .object → w₁.inst ⟨c.index⟩ = w.inst ⟨c.index⟩) : w₁.slots c = w.slots c := by
  by_cases object : c.kind = .object
  · obtain ⟨k, i⟩ := c
    obtain rfl : k = .object := object
    exact congrArg (fun x : Instance => [x.scope.cell]) (inst rfl)
  · rw [slots_of_values object, slots_of_values object, values]

theorem Holds.owner (sound : Sound D w) (h : w.Holds a b) : b ∈ w.owners := by
  obtain ⟨there, mem⟩ := h
  by_cases object : a.kind = .object
  · obtain ⟨k, i⟩ := a
    obtain rfl : k = .object := object
    rw [List.mem_singleton.mp mem]
    exact mem_owners.mpr ⟨by simp [ownerKinds, Handle.cell], sound.home (i := ⟨i⟩) there⟩
  · rw [slots_of_values object, List.mem_flatMap] at mem
    obtain ⟨v, hv, mem⟩ := mem
    obtain ⟨cell, kind⟩ := Value.mem_cells_of_contents mem
    exact mem_owners.mpr ⟨kind, (sound.value hv).cells b cell⟩

/-- What is held is there. -/
theorem Holds.there (sound : Sound D w) (h : w.Holds a b) : b.In w.count :=
  (mem_owners.mp (h.owner sound)).2

/-- Cells that were there have the same slots when others are added. -/
theorem Spares.slots (h : w.Spares w₁) (there : c.In w.count) : w₁.slots c = w.slots c := by
  refine slots_congr ?_ fun object => ?_
  · obtain ⟨k, i⟩ := c
    cases k with
    | scope => exact congrArg (fun x : Scope => x.bindings.values.map Binding.value) (h.scope there)
    | list => exact h.items there
    | dict => exact congrArg (List.flatMap fun e => [e.1, e.2]) (h.entries there)
    | set => exact h.elements there
    | _ => rfl
  · obtain ⟨k, i⟩ := c
    obtain rfl : k = .object := object
    exact h.inst there

theorem Spares.holds (h : w.Spares w₁) (there : a.In w.count) : w₁.Holds a b ↔ w.Holds a b := by
  rw [Holds, Holds, h.slots there]
  exact ⟨fun g => ⟨there, g.2⟩, fun g => ⟨there.mono h.count, g.2⟩⟩

theorem contents_entries (es : List (Value × Value)) :
    (es.flatMap fun e => [e.1, e.2]).flatMap Value.contents =
      es.flatMap fun e => e.1.contents ++ e.2.contents := by
  simp only [List.flatMap_assoc, List.flatMap_cons, List.flatMap_nil, List.append_nil]

theorem slots_dict (w : World) (h : Handle .dict) :
    w.slots h.cell = (w.entries h).flatMap fun e => e.1.contents ++ e.2.contents :=
  contents_entries (w.entries h)

theorem slots_scope (w : World) (s : ScopeId) :
    w.slots s.cell = bindingContents (w.scope s).bindings :=
  List.flatMap_map _ _ _

/-! ## Writing slots -/

/-- A world in which one cell, a new one or one that was there, has been given some slots. -/
structure Writes (w : World) (c : Cell) (xs : List Cell) (w₁ : World) : Prop where
  there : ∀ {d}, d.In w₁.count ↔ d.In w.count ∨ d = c
  slots : w₁.slots c = xs
  other : ∀ {d}, d ≠ c → w₁.slots d = w.slots d

section Writing

variable (w : World)

theorem writes_newScope (x : Scope) :
    w.Writes (w.newScope x).1.cell (bindingContents x.bindings) (w.newScope x).2 where
  there := by rw [count_newScope]; exact Census.in_grow
  slots := by
    rw [slots_cell (w.newScope x).1 nofun, values_newScope]
    exact (congrArg (List.flatMap Value.contents) (if_pos rfl)).trans (List.flatMap_map _ _ _)
  other ne := slots_congr (by rw [values_newScope]; exact if_neg ne) fun _ => rfl

theorem writes_newItems (xs : List Value) :
    w.Writes (w.newItems xs).1.cell (xs.flatMap Value.contents) (w.newItems xs).2 where
  there := by rw [count_newItems]; exact Census.in_grow
  slots := by
    rw [slots_cell (w.newItems xs).1 nofun, values_newItems]
    exact congrArg (List.flatMap Value.contents) (if_pos rfl)
  other ne := slots_congr (by rw [values_newItems]; exact if_neg ne) fun _ => rfl

theorem writes_newEntries (es : List (Value × Value)) :
    w.Writes (w.newEntries es).1.cell (es.flatMap fun e => e.1.contents ++ e.2.contents)
      (w.newEntries es).2 where
  there := by rw [count_newEntries]; exact Census.in_grow
  slots := by
    rw [slots_cell (w.newEntries es).1 nofun, values_newEntries]
    exact (congrArg (List.flatMap Value.contents) (if_pos rfl)).trans (contents_entries es)
  other ne := slots_congr (by rw [values_newEntries]; exact if_neg ne) fun _ => rfl

theorem writes_newElements (xs : List Value) :
    w.Writes (w.newElements xs).1.cell (xs.flatMap Value.contents) (w.newElements xs).2 where
  there := by rw [count_newElements]; exact Census.in_grow
  slots := by
    rw [slots_cell (w.newElements xs).1 nofun, values_newElements]
    exact congrArg (List.flatMap Value.contents) (if_pos rfl)
  other ne := slots_congr (by rw [values_newElements]; exact if_neg ne) fun _ => rfl

theorem writes_newInstance (x : Instance) :
    w.Writes (w.newInstance x).1.cell [x.scope.cell] (w.newInstance x).2 where
  there := by rw [count_newInstance]; exact Census.in_grow
  slots := congrArg (fun x : Instance => [x.scope.cell]) (w.inst_newInstance_self x)
  other {d} ne := slots_congr rfl fun object => by
    obtain ⟨k, i⟩ := d
    obtain rfl : k = .object := object
    rw [inst_newInstance]
    exact if_neg fun e => ne (congrArg (Cell.mk .object) e)

theorem writes_newFunction (x : Function) : w.Writes (w.newFunction x).1.cell [] (w.newFunction x).2 where
  there := by rw [count_newFunction]; exact Census.in_grow
  slots := rfl
  other _ := slots_congr rfl fun _ => rfl

theorem writes_newMethod (x : Method) : w.Writes (w.newMethod x).1.cell [] (w.newMethod x).2 where
  there := by rw [count_newMethod]; exact Census.in_grow
  slots := rfl
  other _ := slots_congr rfl fun _ => rfl

theorem writes_newClass (x : Class) : w.Writes (w.newClass x).1.cell [] (w.newClass x).2 where
  there := by rw [count_newClass]; exact Census.in_grow
  slots := rfl
  other _ := slots_congr rfl fun _ => rfl

theorem writes_newOverloads (x : OverloadSet) : w.Writes (w.newOverloads x).1.cell [] (w.newOverloads x).2 where
  there := by rw [count_newOverloads]; exact Census.in_grow
  slots := rfl
  other _ := slots_congr rfl fun _ => rfl

variable {w}

theorem writes_setScope {s : ScopeId} {x : Scope} (hs : s.In w.count) :
    w.Writes s.cell (bindingContents x.bindings) (w.setScope s x) where
  there {d} := by
    rw [count_setScope]
    exact ⟨.inl, fun h => h.elim id fun e => e ▸ hs⟩
  slots := by
    rw [slots_cell s nofun, values_setScope, if_pos ⟨rfl, hs⟩, List.flatMap_map, bindingContents]
  other ne := slots_congr (by rw [values_setScope, if_neg fun e => ne e.1]) fun _ => rfl

theorem writes_setItems {h : Handle .list} {xs : List Value} (hh : h.In w.count) :
    w.Writes h.cell (xs.flatMap Value.contents) (w.setItems h xs) where
  there {d} := by
    rw [count_setItems]
    exact ⟨.inl, fun g => g.elim id fun e => e ▸ hh⟩
  slots := by
    rw [slots_cell h nofun, values_setItems, if_pos ⟨rfl, hh⟩]
  other ne := slots_congr (by rw [values_setItems, if_neg fun e => ne e.1]) fun _ => rfl

theorem writes_setEntries {h : Handle .dict} {es : List (Value × Value)} (hh : h.In w.count) :
    w.Writes h.cell (es.flatMap fun e => e.1.contents ++ e.2.contents)
      (w.setEntries h es) where
  there {d} := by
    rw [count_setEntries]
    exact ⟨.inl, fun g => g.elim id fun e => e ▸ hh⟩
  slots := by
    rw [slots_cell h nofun, values_setEntries, if_pos ⟨rfl, hh⟩, contents_entries]
  other ne := slots_congr (by rw [values_setEntries, if_neg fun e => ne e.1]) fun _ => rfl

theorem writes_setElements {h : Handle .set} {xs : List Value} (hh : h.In w.count) :
    w.Writes h.cell (xs.flatMap Value.contents) (w.setElements h xs) where
  there {d} := by
    rw [count_setElements]
    exact ⟨.inl, fun g => g.elim id fun e => e ▸ hh⟩
  slots := by
    rw [slots_cell h nofun, values_setElements, if_pos ⟨rfl, hh⟩]
  other ne := slots_congr (by rw [values_setElements, if_neg fun e => ne e.1]) fun _ => rfl

end Writing

/-- What is held after a write was held before, or sits in a slot that has been written. -/
theorem Writes.holds {xs : List Cell} (h : w.Writes c xs w₁) (held : w₁.Holds a b) :
    w.Holds a b ∧ a ≠ c ∨ a = c ∧ b ∈ xs := by
  by_cases same : a = c
  · subst same
    exact .inr ⟨rfl, h.slots ▸ held.2⟩
  · exact .inl ⟨⟨(h.there.mp held.1).resolve_right same, h.other same ▸ held.2⟩, same⟩

/-! ## Depth -/

/-- A way down from a cell passes at most `n` cells, this one included. -/
def Within (w : World) : Nat → Cell → Prop
  | 0, _ => False
  | n + 1, c => ∀ d ∈ w.slots c, Within w n d

theorem Within.succ : ∀ {n : Nat} {c : Cell}, w.Within n c → w.Within (n + 1) c
  | 0, _, h => h.elim
  | _ + 1, _, h => fun d hd => (h d hd).succ

theorem Within.mono {n m : Nat} (le : n ≤ m) (h : w.Within n c) : w.Within m c := by
  induction le with
  | refl => exact h
  | step _ ih => exact ih.succ

/-- The depth of a cell depends on the slots. -/
theorem Within.congr (slots : ∀ c, w₁.slots c = w.slots c) :
    ∀ {n : Nat} {c : Cell}, w.Within n c → w₁.Within n c
  | 0, _, h => h.elim
  | _ + 1, c, h => fun d hd => (h d (slots c ▸ hd)).congr slots

theorem Spares.within (h : w.Spares w₁) (sound : Sound D w) :
    ∀ {n : Nat} {c : Cell}, c.In w.count → w.Within n c → w₁.Within n c
  | 0, _, _, no => no.elim
  | _ + 1, _, there, within => fun d hd => by
    rw [h.slots there] at hd
    exact h.within sound (Holds.there sound ⟨there, hd⟩) (within d hd)

/-- A cell that is deeper starts a way down along as many cells. -/
theorem exists_chain (sound : Sound D w) : ∀ {n : Nat} {c : Cell}, c ∈ w.owners →
    ¬ w.Within n c → ∃ l, (c :: l).IsChain w.Holds ∧ l.length = n ∧ ∀ d ∈ l, d ∈ w.owners
  | 0, _, _, _ => ⟨[], .singleton _, rfl, fun _ h => absurd h List.not_mem_nil⟩
  | n + 1, c, there, deep => by
    simp only [Within, not_forall] at deep
    obtain ⟨d, hd, deep⟩ := deep
    have held : w.Holds c d := ⟨(mem_owners.mp there).2, hd⟩
    obtain ⟨l, chain, length, owners⟩ := exists_chain sound (held.owner sound) deep
    refine ⟨d :: l, .cons_cons held chain, congrArg (· + 1) length, fun e he => ?_⟩
    rcases List.mem_cons.mp he with rfl | he
    · exact held.owner sound
    · exact owners e he

/-- Where no cell reaches itself, a way down passes every cell once at most. -/
theorem Acyclic.within (acyclic : w.Acyclic) (sound : Sound D w) (there : c ∈ w.owners) :
    w.Within w.size c := by
  by_contra deep
  obtain ⟨l, chain, length, owners⟩ := exists_chain sound there deep
  have nodup : (c :: l).Nodup := by
    have ways : (c :: l).Pairwise (TransGen w.Holds) :=
      (chain.imp fun _ _ => TransGen.single).pairwise
    refine ways.imp ?_
    rintro a _ way rfl
    exact acyclic a way
  have sub : (c :: l) ⊆ w.owners := List.cons_subset.mpr ⟨there, owners⟩
  have le := (nodup.subperm sub).length_le
  have := w.owners_length_le
  rw [List.length_cons] at le
  omega

end World

/-- A value nested at most `n` deep. -/
def Value.Within (w : World) (n : Nat) (v : Value) : Prop := ∀ c ∈ v.contents, w.Within n c

namespace Value

variable {n : Nat} {v : Value}

/-- The contents of a value in a cell sit in slots of the cell. -/
theorem contents_subset_slots (ne : c.kind ≠ .object) (hv : v ∈ w.values c) :
    v.contents ⊆ w.slots c := by
  intro d hd
  rw [World.slots_of_values ne]
  exact List.mem_flatMap.mpr ⟨v, hv, hd⟩

/-- A value in a cell is nested less deep than the cell. -/
theorem Within.of_cell (h : w.Within (n + 1) c) (ne : c.kind ≠ .object) (hv : v ∈ w.values c) :
    v.Within w n := fun d hd => h d (contents_subset_slots ne hv hd)

theorem Ok.contents_owned (ok : v.Ok D w.count) (hc : c ∈ v.contents) : c ∈ w.owners := by
  obtain ⟨cell, kind⟩ := mem_cells_of_contents hc
  exact World.mem_owners.mpr ⟨kind, ok.cells c cell⟩

theorem Within.later (h : v.Within w n) (sound : Sound D w) (spares : w.Spares w₁)
    (ok : v.Ok D w.count) : v.Within w₁ n := fun c hc =>
  spares.within sound (World.mem_owners.mp (ok.contents_owned hc)).2 (h c hc)

end Value

theorem World.Acyclic.value_within (acyclic : w.Acyclic) (sound : Sound D w) {v : Value}
    (ok : v.Ok D w.count) : v.Within w w.size := fun _ hc =>
  acyclic.within sound (ok.contents_owned hc)

end ScopeLang
