/-
# What keeps scopes

A scope is alive as long as it is held or something that is alive owns it.  Only four things
own a scope (`World.Carries`): the scope that lists it among its children, the function or the class
that captured it, the instance whose members it has, and the class whose scope it is.  Each of them
accounts for the parent as well: what is listed is held, and the parents of what is held are borne;
what is captured hides its parent; the parent of the scope of an instance is the scope of
its class; and the scope of a class is below the scope that the class captured or, if it is one
of the host, below the root.

So a scope that is alive and shows its parent has a parent that is alive
(`Sheltered.parent_anchored`): looking up never ends for the reason that a scope on the way is gone.
-/
import ScopeLang.Proofs.Annotations
import ScopeLang.Proofs.Custody
import ScopeLang.Proofs.Lookalikes
import ScopeLang.Proofs.Paths

namespace ScopeLang

variable {D : Dialect} {w w' : World} {s t p : ScopeId} {c : Cell}

/-- Tables of functions, of classes and of globals own no scope. -/
theorem FunctionTable.scopeless (t : FunctionTable) : World.Scopeless t.cells :=
  .flatMap fun os c hc => by
    obtain ⟨o, -, rfl⟩ := List.mem_map.mp hc
    exact World.Scopeless.callable o.callable _ (List.mem_singleton_self _)

theorem ClassTable.scopeless (t : ClassTable) : World.Scopeless (ClassTable.cells t) := by
  intro c hc
  obtain ⟨d, -, rfl⟩ := ClassTable.mem_cells.mp hc
  exact nofun

theorem Globals.scopeless (g : Globals) : World.Scopeless g.cells := by
  cases g with
  | owned functions classes => exact functions.scopeless.append (ClassTable.scopeless classes)
  | shared _ => exact nofun

/-- A scope owns the scopes that it lists, and no others. -/
theorem Scope.mem_children_of_owned {x : Scope} (owned : s.cell ∈ x.cells) : s ∈ x.children := by
  have values : World.Scopeless (x.bindings.values.flatMap Binding.cells) :=
    .flatMap fun b => World.Scopeless.value b.value
  simp only [Scope.cells, List.append_assoc] at owned
  rcases List.mem_append.mp owned with listed | other
  · obtain ⟨c, mem, same⟩ := List.mem_map.mp listed
    exact Handle.cell_injective same ▸ mem
  · exact absurd rfl (values.append (x.functions.scopeless.append
      ((ClassTable.scopeless x.classes).append x.globals.scopeless)) _ other)

namespace World

/-! ## Keepers -/

/-- What a scope is to a cell that owns it. -/
inductive Carries (w : World) : Cell → ScopeId → Prop
  | lists {t s : ScopeId} : s ∈ (w.scope t).children → Carries w t.cell s
  | function {h : Handle .function} {p : ScopeId} : h.In w.count →
      (w.function h).captured = some p → Carries w h.cell p
  | members {i : InstanceId} : i.In w.count → Carries w i.cell (w.inst i).scope
  | classScope {c : ClassId} : c.In w.count → Carries w c.cell (w.classOf c).scope
  | classObject {c : ClassId} {p : ScopeId} : c.In w.count → (w.classOf c).captured = some p →
      Carries w c.cell p

/-- Nothing else owns a scope. -/
theorem carries_of_owned (there : c.In w.count) (owned : s.cell ∈ w.owned c) : w.Carries c s := by
  obtain ⟨k, n⟩ := c
  have values : ∀ vs : List Value, Scopeless (vs.flatMap Value.cells) := fun vs =>
    .flatMap Scopeless.value
  cases k with
  | scope => exact .lists (t := ⟨n⟩) (Scope.mem_children_of_owned owned)
  | list => exact absurd rfl (values _ _ owned)
  | set => exact absurd rfl (values _ _ owned)
  | dict =>
    have entries : Scopeless ((w.entries ⟨n⟩).flatMap fun e => e.1.cells ++ e.2.cells) :=
      .flatMap fun e => (Scopeless.value e.1).append (Scopeless.value e.2)
    exact absurd rfl (entries _ owned)
  | object =>
    rcases List.mem_append.mp owned with own | native
    · rcases List.mem_cons.mp own with same | same
      · cases congrArg Cell.kind same
      · obtain rfl := Handle.cell_injective (List.mem_singleton.mp same)
        exact .members (i := ⟨n⟩) there
    · obtain ⟨h, -, same⟩ := Option.map_eq_some_iff.mp (Option.mem_toList.mp native)
      cases congrArg Cell.kind same
  | function =>
    obtain ⟨p, captured, same⟩ := Option.map_eq_some_iff.mp (Option.mem_toList.mp owned)
    obtain rfl := Handle.cell_injective same
    exact .function (h := ⟨n⟩) there captured
  | classObject =>
    rcases List.mem_cons.mp owned with same | captured
    · obtain rfl := Handle.cell_injective same
      exact .classScope (c := ⟨n⟩) there
    · obtain ⟨p, found, same⟩ := Option.map_eq_some_iff.mp (Option.mem_toList.mp captured)
      obtain rfl := Handle.cell_injective same
      exact .classObject (c := ⟨n⟩) there found
  | overloads =>
    obtain ⟨o, -, same⟩ := List.mem_map.mp owned
    exact absurd (congrArg Cell.kind same)
      (Scopeless.callable o.callable _ (List.mem_singleton_self _))
  | method | types => cases owned

/-- What keeps a scope without listing it keeps no block and no call. -/
theorem Kin.not_activation_of_kept (kin : w.Kin D) (kind : c.kind.keepsScopes = true)
    (keeps : w.Carries c s) : (w.scope s).kind.isActivation = false := by
  have hidden : ∀ {p : ScopeId}, (w.scope p).kind.hidesParent = true →
      (w.scope p).kind.isActivation = false := fun {p} hides => by
    cases kind : (w.scope p).kind.isActivation with
    | false => rfl
    | true => exact absurd hides (by
      rw [ScopeKind.hidesParent_of_isActivation kind]
      exact Bool.false_ne_true)
  cases keeps with
  | lists => cases kind
  | function there captured => exact hidden (kin.captured there captured)
  | members there =>
    rw [kin.homeKind there]
    rfl
  | classScope there =>
    rw [kin.classKind there]
    rfl
  | classObject there captured => exact hidden (kin.classParent there _ captured).2

/-- A scope that is alive but not held is kept by something that is alive. -/
theorem Anchored.keeper (sound : Sound D w) (up : w.Anchored s.cell) :
    s.cell ∈ w.held ∨ ∃ c, w.Carries c s ∧ w.Anchored c := by
  refine (aliveWithin_succ.mp (up (w.size + 1))).imp_right ?_
  rintro ⟨o, place, owned, alive⟩
  have inside : o.In w.count := by
    rcases place with held | owner
    · exact sound.held o held
    · exact (mem_owners.mp owner).2
  exact ⟨o, carries_of_owned inside owned, anchored_of_alive (owner_of_owned inside owned) alive⟩

/-! ## Parents -/

/-- What is borne is alive. -/
theorem Borne.anchored (borne : w.Borne s) : w.Anchored s.cell := by
  rcases borne with held | ⟨c, held, -, there, owned⟩
  · exact anchored_of_held held
  · exact (anchored_of_held held).owned there owned

/-- The parent of what is held is borne. -/
theorem Secured.borne_parent (secured : w.Secured) (older : w.ParentsOlder)
    (held : s.cell ∈ w.held) (parent : (w.scope s).parent = some p) : w.Borne p := by
  have ne : s ≠ ⟨0⟩ := by
    rintro rfl
    exact absurd (older parent) (Nat.not_lt_zero _)
  obtain ⟨q, up, borne⟩ := secured.parent s held ne
  obtain rfl := Option.some.inj (parent.symm.trans up)
  exact borne

/-- A world in which what is listed is held, and the ties between scopes are in place. -/
structure Sheltered (D : Dialect) (w : World) : Prop where
  sound : Sound D w
  kin : w.Kin D
  secured : w.Secured
  listed : ∀ t, ∀ c ∈ (w.scope t).children, c.cell ∈ w.held

theorem Sheltered.older (h : w.Sheltered D) : w.ParentsOlder := h.sound.wellFormed.older

/-- The parent of a scope is alive as long as the scope is, if the scope shows it. -/
theorem Sheltered.parent_anchored (h : w.Sheltered D) (up : w.Anchored s.cell)
    (shown : (w.scope s).kind.hidesParent = false) (parent : (w.scope s).parent = some p) :
    w.Anchored p.cell := by
  have borne : s.cell ∈ w.held → w.Anchored p.cell := fun held =>
    (h.secured.borne_parent h.older held parent).anchored
  have shows : ¬ (w.scope s).kind.hidesParent = true := by
    rw [shown]
    exact Bool.false_ne_true
  rcases up.keeper h.sound with held | ⟨c, keeps, alive⟩
  · exact borne held
  cases keeps with
  | lists mem => exact borne (h.listed _ _ mem)
  | function there captured => exact absurd (h.kin.captured there captured) shows
  | members there =>
    obtain rfl := Option.some.inj (parent.symm.trans (h.kin.homeParent there))
    exact (alive.classId there).classScope (h.sound.classId there)
  | classObject there captured => exact absurd (h.kin.classParent there _ captured).2 shows
  | @classScope c there =>
    cases captured : (w.classOf c).captured with
    | some q =>
      obtain rfl := Option.some.inj (parent.symm.trans (h.kin.classParent there q captured).1)
      refine alive.owned there (List.mem_cons_of_mem _ (Option.mem_toList.mpr ?_))
      exact congrArg (Option.map Handle.cell) captured
    | none =>
      obtain ⟨-, root⟩ := h.secured.native c there captured
      obtain rfl := Option.some.inj (parent.symm.trans root)
      exact anchored_of_held h.secured.root

end World

end ScopeLang
