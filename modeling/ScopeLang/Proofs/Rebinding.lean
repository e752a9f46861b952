/-
# Binding a type again

A written type that is bound a second time, in a pool that has grown since, has
the same signature and adds nothing to the pool, as long as the names in it
stand for the same aliases.  That is a matter of where the pool is searched:
what has been interned is found again at its old place, and a union is made of
the same members, since the members of an alias are looked up by ids that the
pool has had all along.

An alias has to be `Usable` for that: an id that the pool has, whose members are
no unions themselves.  Binding gives usable ids.
-/
import ScopeLang.Proofs.Interning

namespace ScopeLang

/-! ## Names -/

namespace TypeExpr

mutual

/-- The names in a written type that aliases may stand behind. -/
def names : TypeExpr → List String
  | any => []
  | named name arguments =>
      if name == "Any" then []
      else
        match arguments with
        | [] => [name]
        | arguments => namesAll arguments
  | union members => namesAll members
  | invocable parameters returns _ => namesAll parameters ++ names returns

def namesAll : List TypeExpr → List String
  | [] => []
  | t :: rest => names t ++ namesAll rest

end

end TypeExpr

/-! ## Searching in a longer list -/

theorem idxOf?_of_prefix {α : Type} [BEq α] {l l' : List α} {a : α} {i : Nat} (h : l <+: l')
    (found : l.idxOf? a = some i) : l'.idxOf? a = some i := by
  obtain ⟨more, rfl⟩ := h
  rw [List.idxOf?, List.findIdx?_append, ← List.idxOf?, found]
  rfl

namespace TypePool

variable {p q r : TypePool} {s : SigId} {x a : Signature}

/-! ## Usable ids -/

/-- An id that the pool has, whose members, if it is that of a union, are no unions. -/
def Usable (p : TypePool) (s : SigId) : Prop :=
  ∃ x, p.get? s = some x ∧
    ∀ members, x = .union members → ∀ m ∈ members, ∃ y, p.get? m = some y ∧ ∀ ids, y ≠ .union ids

theorem Regular.usable (h : p.Regular) (held : p.Holds s) : p.Usable s := by
  obtain ⟨x, found⟩ := held
  refine ⟨x, found, fun members eq m mem => ?_⟩
  obtain ⟨y, found', -, plain⟩ := (h.tidy found members eq).2.2 m mem
  exact ⟨y, found', fun ids eq => plain ⟨ids, eq⟩⟩

theorem usable_of_plain (found : p.get? s = some x) (plain : ∀ ids, x ≠ .union ids) :
    p.Usable s :=
  ⟨x, found, fun ids eq => absurd eq (plain ids)⟩

namespace Usable

theorem grows (h : p.Usable s) (g : p.Grows q) : q.Usable s := by
  obtain ⟨x, found, plain⟩ := h
  refine ⟨x, g.get? found, fun members eq m mem => ?_⟩
  obtain ⟨y, found', noUnion⟩ := plain members eq m mem
  exact ⟨y, g.get? found', noUnion⟩

theorem get?_eq (h : p.Usable s) (g : p.Grows q) : q.get? s = p.get? s := by
  obtain ⟨x, found, -⟩ := h
  rw [found, g.get? found]

theorem flatten_eq (h : p.Usable s) (g : p.Grows q) : q.flatten s = p.flatten s := by
  rw [flatten, flatten, h.get?_eq g]

/-- What it contributes to a union is no union. -/
theorem flatten_plain (h : p.Usable s) {m : SigId} (mem : m ∈ p.flatten s) :
    ∃ y, p.get? m = some y ∧ ∀ ids, y ≠ .union ids := by
  obtain ⟨x, found, plain⟩ := h
  cases x with
  | union members =>
    simp only [flatten, found] at mem
    exact plain members rfl m mem
  | any | nominal | container | invocable =>
    simp only [flatten, found, List.mem_singleton] at mem
    exact ⟨_, mem ▸ found, by simp⟩

end Usable

/-! ## Interning again -/

theorem internNormal_again (g : (p.internNormal x).2.Grows r) :
    r.internNormal x = ((p.internNormal x).1, r) := by
  have place : ∃ i, (p.internNormal x).2.signatures.idxOf? x = some i ∧
      (p.internNormal x).1 = ⟨i + 1⟩ := by
    rw [internNormal]
    split
    · exact ⟨_, ‹_›, rfl⟩
    · rename_i missing
      refine ⟨p.signatures.length, ?_, rfl⟩
      rw [List.idxOf?, List.findIdx?_append, ← List.idxOf?, missing]
      simp
  obtain ⟨i, at_i, id⟩ := place
  rw [id, internNormal, idxOf?_of_prefix g.signatures at_i]

theorem declare_again {name : String} (g : (p.declare name).2.Grows r) :
    r.declare name = ((p.declare name).1, r) := by
  have place : (p.declare name).2.registry.lookup? name = some (p.declare name).1 := by
    simp only [declare, Registry.declare]
    split
    · assumption
    · rename_i missing
      have missing : p.registry.names.idxOf? name = none := by
        simpa only [Registry.lookup?, Option.map_eq_none_iff] using missing
      rw [Registry.lookup?, List.idxOf?, List.findIdx?_append, ← List.idxOf?, missing]
      simp
  have found : r.registry.lookup? name = some (p.declare name).1 := by
    rw [Registry.lookup?, Option.map_eq_some_iff] at place ⊢
    obtain ⟨i, at_i, eq⟩ := place
    exact ⟨i, idxOf?_of_prefix g.names at_i, eq⟩
  simp only [declare, Registry.declare] at found ⊢
  rw [found]

/-- What is asked of the parts of a signature: the members of a union are usable. -/
def Ready (p : TypePool) (a : Signature) : Prop :=
  ∀ members, a = .union members → ∀ m ∈ members, p.Usable m

theorem ready_of_plain (plain : ∀ ids, a ≠ .union ids) : p.Ready a := fun ids eq =>
  absurd eq (plain ids)

theorem Ready.normalize_eq (h : p.Ready a) (g : p.Grows q) : q.normalize a = p.normalize a := by
  cases a with
  | union members =>
    have usable : ∀ m ∈ members, p.Usable m := h members rfl
    have absorbs : (members.any fun s => q.get? s = some .any) =
        members.any fun s => p.get? s = some .any := by
      rw [Bool.eq_iff_iff, List.any_eq_true, List.any_eq_true]
      exact exists_congr fun m => and_congr_right fun mem => by rw [(usable m mem).get?_eq g]
    have flat : members.flatMap q.flatten = members.flatMap p.flatten :=
      List.flatMap_congr fun m mem => (usable m mem).flatten_eq g
    simp only [normalize, normalUnion, absorbs, flat]
  | any | nominal | container | invocable => rfl

theorem Ready.intern_again (h : p.Ready a) (g : (p.intern a).2.Grows r) :
    r.intern a = ((p.intern a).1, r) := by
  have normal : r.normalize a = p.normalize a := h.normalize_eq ((p.grows_intern a).trans g)
  rw [intern] at g ⊢
  rw [intern, normal]
  split at g
  · rename_i only eq
    rfl
  · rename_i several
    exact internNormal_again g

theorem Ready.usable_intern (h : p.Ready a) : (p.intern a).2.Usable (p.intern a).1 := by
  cases a with
  | union members =>
    have usable : ∀ m ∈ members, p.Usable m := h members rfl
    have plain : ∀ m ∈ sortDistinct (members.flatMap p.flatten),
        ∃ y, p.get? m = some y ∧ ∀ ids, y ≠ .union ids := by
      intro m mem
      obtain ⟨u, hu, part⟩ := List.mem_flatMap.mp (mem_sortDistinct.mp mem)
      exact (usable u hu).flatten_plain part
    simp only [intern, normalize, normalUnion]
    split
    · rename_i only eq
      split at eq
      · cases eq
      · have mem := List.mem_singleton_self only
        obtain ⟨y, found, noUnion⟩ := plain only (Signature.union.inj eq ▸ mem)
        exact usable_of_plain found noUnion
    · split
      · exact usable_of_plain (p.get?_internNormal _) (by simp)
      · refine ⟨_, p.get?_internNormal _, fun ids eq m mem => ?_⟩
        obtain ⟨y, found, noUnion⟩ := plain m (Signature.union.inj eq ▸ mem)
        exact ⟨y, (p.grows_internNormal _).get? found, noUnion⟩
  | any | nominal | container | invocable =>
    exact usable_of_plain (p.get?_internNormal _) fun _ eq => by cases eq

theorem bare_again {base : TypeId} (g : (p.bare base).2.Grows r) :
    r.bare base = ((p.bare base).1, r) := by
  simp only [bare] at g ⊢
  split at g
  · exact (ready_of_plain (by simp)).intern_again g
  · exact (ready_of_plain (by simp)).intern_again g

theorem usable_bare (p : TypePool) (base : TypeId) : (p.bare base).2.Usable (p.bare base).1 := by
  simp only [bare]
  split
  · exact (ready_of_plain (by simp)).usable_intern
  · exact (ready_of_plain (by simp)).usable_intern

end TypePool

/-! ## Written types -/

namespace TypeExpr

open TypePool

variable {alias? alias?' : String → Option SigId}

mutual

/-- Binding gives a usable id. -/
theorem usable_bind : ∀ (t : TypeExpr) {p : TypePool}, p.Usable .any →
    (∀ name s, alias? name = some s → p.Usable s) →
    (t.bind alias? p).2.Usable (t.bind alias? p).1
  | any, p, top, _ => by
    simp only [bind]
    exact top
  | named name [], p, top, aliases => by
    unfold bind
    split
    · exact top
    · cases found : alias? name with
      | some s => exact aliases name s found
      | none => exact usable_bare _ _
  | named name (t :: rest), p, top, aliases => by
    unfold bind
    split
    · exact top
    · exact (ready_of_plain (by simp)).usable_intern
  | union members, p, top, aliases => by
    simp only [bind]
    have ready : (bindAll alias? members p).2.Ready (.union (bindAll alias? members p).1) :=
      fun _ eq => Signature.union.inj eq ▸ usable_bindAll members top aliases
    exact ready.usable_intern
  | invocable parameters returns variadic, p, top, aliases => by
    simp only [bind]
    exact (ready_of_plain (by simp)).usable_intern

theorem usable_bindAll : ∀ (ts : List TypeExpr) {p : TypePool}, p.Usable .any →
    (∀ name s, alias? name = some s → p.Usable s) →
    ∀ s ∈ (bindAll alias? ts p).1, (bindAll alias? ts p).2.Usable s
  | [], p, _, _ => by
    simp only [bindAll]
    exact nofun
  | t :: rest, p, top, aliases => by
    simp only [bindAll]
    have first := t.grows_bind alias? p
    have others := grows_bindAll alias? rest (t.bind alias? p).2
    intro s mem
    rcases List.mem_cons.mp mem with rfl | mem
    · exact (usable_bind t top aliases).grows others
    · exact usable_bindAll rest (top.grows first)
        (fun name s eq => (aliases name s eq).grows first) s mem

end

mutual

/-- A type that is bound again, where its names stand for the same, is found in every later pool
as it was bound first. -/
theorem bind_again : ∀ (t : TypeExpr) {p r : TypePool}, p.Usable .any →
    (∀ name s, alias? name = some s → p.Usable s) →
    (∀ name ∈ t.names, alias?' name = alias? name) → (t.bind alias? p).2.Grows r →
    t.bind alias?' r = ((t.bind alias? p).1, r)
  | any, p, r, _, _, _, _ => by simp only [bind]
  | named name [], p, r, top, aliases, agree, g => by
    unfold bind at g ⊢
    by_cases isAny : (name == "Any") = true
    · simp only [if_pos isAny]
    · have same : alias?' name = alias? name := agree name (by simp [names, isAny])
      simp only [if_neg isAny, same] at g ⊢
      cases found : alias? name with
      | some s => rfl
      | none =>
        rw [found] at g
        have bare : ((p.declare name).2.bare (p.declare name).1).2.Grows r := g
        have declared := declare_again ((grows_bare _ _).trans bare)
        show (r.declare name).2.bare (r.declare name).1 = _
        rw [declared]
        exact bare_again bare
  | named name (t :: rest), p, r, top, aliases, agree, g => by
    unfold bind at g ⊢
    by_cases isAny : (name == "Any") = true
    · simp only [if_pos isAny]
    · simp only [if_neg isAny] at g ⊢
      have declared := p.grows_declare name
      have made : ((bindAll alias? (t :: rest) (p.declare name).2).2.container (p.declare name).1
          (bindAll alias? (t :: rest) (p.declare name).2).1).2.Grows r := g
      have bound := (grows_intern _ _).trans made
      have again := bindAll_again (t :: rest) (top.grows declared)
        (fun other s eq => (aliases other s eq).grows declared)
        (fun other mem => agree other (by simpa [names, isAny] using mem)) bound
      show ((bindAll alias?' (t :: rest) (r.declare name).2).2.container (r.declare name).1
          (bindAll alias?' (t :: rest) (r.declare name).2).1) = _
      rw [declare_again ((grows_bindAll _ _ _).trans bound), again]
      exact (ready_of_plain (by simp)).intern_again made
  | union members, p, r, top, aliases, agree, g => by
    simp only [bind] at g ⊢
    have bound := (grows_intern _ _).trans g
    rw [bindAll_again members top aliases (by simpa only [names] using agree) bound]
    have ready : (bindAll alias? members p).2.Ready (.union (bindAll alias? members p).1) :=
      fun _ eq => Signature.union.inj eq ▸ usable_bindAll members top aliases
    exact ready.intern_again g
  | invocable parameters returns variadic, p, r, top, aliases, agree, g => by
    simp only [bind] at g ⊢
    have agrees : ∀ name ∈ namesAll parameters ++ returns.names, alias?' name = alias? name := by
      simpa only [names] using agree
    have first := grows_bindAll alias? parameters p
    have bound := (grows_intern _ _).trans g
    rw [bindAll_again parameters top aliases
        (fun name mem => agrees name (List.mem_append_left _ mem))
        ((grows_bind alias? returns _).trans bound),
      bind_again returns (top.grows first) (fun name s eq => (aliases name s eq).grows first)
        (fun name mem => agrees name (List.mem_append_right _ mem)) bound]
    exact (ready_of_plain (by simp)).intern_again g

theorem bindAll_again : ∀ (ts : List TypeExpr) {p r : TypePool}, p.Usable .any →
    (∀ name s, alias? name = some s → p.Usable s) →
    (∀ name ∈ namesAll ts, alias?' name = alias? name) → (bindAll alias? ts p).2.Grows r →
    bindAll alias?' ts r = ((bindAll alias? ts p).1, r)
  | [], p, r, _, _, _, _ => by simp only [bindAll]
  | t :: rest, p, r, top, aliases, agree, g => by
    simp only [bindAll] at g ⊢
    have agrees : ∀ name ∈ t.names ++ namesAll rest, alias?' name = alias? name := by
      simpa only [namesAll] using agree
    have first := t.grows_bind alias? p
    rw [bind_again t top aliases (fun name mem => agrees name (List.mem_append_left _ mem))
        ((grows_bindAll alias? rest _).trans g),
      bindAll_again rest (top.grows first) (fun name s eq => (aliases name s eq).grows first)
        (fun name mem => agrees name (List.mem_append_right _ mem)) g]

end

end TypeExpr

namespace TypePool

variable {p q r : TypePool} {alias? : String → Option SigId}

/-- A pool of a history, with the ids that the aliases stand for. -/
structure Backs (p : TypePool) (alias? : String → Option SigId) : Prop where
  regular : p.Regular
  builtin : initial.Grows p
  held : ∀ name s, alias? name = some s → p.Holds s

theorem Reaches.backs (history : initial.Reaches p)
    (held : ∀ name s, alias? name = some s → p.Holds s) : p.Backs alias? :=
  ⟨history.regular, (history.extends regular_initial).grows, held⟩

namespace Backs

theorem later (h : p.Backs alias?) (between : p.Extends q) : q.Backs alias? :=
  ⟨between.regular, h.builtin.trans between.grows, fun name s eq =>
    (h.held name s eq).grows between.grows⟩

theorem bind (h : p.Backs alias?) (t : TypeExpr) : (t.bind alias? p).2.Backs alias? :=
  h.later (t.extends_bind h.regular h.held).1

theorem bind_again (h : p.Backs alias?) {alias?' : String → Option SigId} {t : TypeExpr}
    (agree : ∀ name ∈ t.names, alias?' name = alias? name) (g : (t.bind alias? p).2.Grows r) :
    t.bind alias?' r = ((t.bind alias? p).1, r) :=
  t.bind_again (h.regular.usable h.regular.holds_any)
    (fun name s eq => h.regular.usable (h.held name s eq)) agree g

end Backs

end TypePool

end ScopeLang
