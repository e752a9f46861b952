/-
# What a step writes to old scopes

Most of what a step does to scopes it does to new ones.  Of those that were there
it leaves all tables alone but a few, and what it may make of these is listed:
of the variables of a scope in `World.Alters`, of its functions, classes and
aliases in `World.Registers`.

Variables are assigned to in many scopes, but declared and registered is only in
the scope in which the code runs, unless this is an instance or the host works at a
root.  So code that runs elsewhere leaves the `SameDefinitions` of a scope.
-/
import ScopeLang.Proofs.Kept

namespace ScopeLang

variable {D : Dialect} {w w₁ w' : World} {s t : ScopeId} {n : String} {a b : Binding}

/-! ## Scopes that are left alone -/

namespace World

theorem scope_derive_old (old : t.In w.count) (kind : ScopeKind) (label : String)
    (parent : Option ScopeId) : (w.derive s kind label parent).2.scope t = w.scope t := by
  rw [derive_eq, scope_newScope, if_neg (Census.ne_next old)]

theorem scope_setScope_other {u : ScopeId} {x : Scope} (ne : t ≠ u) :
    (w.setScope u x).scope t = w.scope t := by
  rw [scope_setScope, if_neg fun e => ne e.1]

/-- Scopes that keep copies are new. -/
theorem scope_detachAs_old (sound : Sound D w) (hs : s.In w.count) (old : t.In w.count)
    (kind : ScopeKind) (names : List String) (label : String) :
    (w.detachAs s kind names label).2.scope t = w.scope t := by
  have seeds := sound.detach_seeds hs kind names label (some s) fun p hp => Option.some.inj hp ▸ hs
  have there : t.In (w.derive s kind label (some s)).2.count :=
    old.mono (w.grows_derive s kind label (some s)).count
  have new : t ≠ (w.derive s kind label (some s)).1 := fun e => w.derive_new _ _ _ _ (e ▸ old)
  rw [detachAs_eq, scope_setScope_other new, seeds.copying.quiet.scope there, scope_derive_old old]

theorem scope_isolate_old (sound : Sound D w) (hs : s.In w.count) (old : t.In w.count)
    (names : List String) (label : String) : (w.isolate s names label).2.scope t = w.scope t := by
  have seeds := sound.detach_seeds hs .isolated names label none fun p hp => absurd hp nofun
  have there : t.In (w.derive s .isolated label none).2.count :=
    old.mono (w.grows_derive s .isolated label none).count
  have new : t ≠ (w.derive s .isolated label none).1 := fun e => w.derive_new _ _ _ _ (e ▸ old)
  rw [isolate_eq, scope_setScope_other new, seeds.copying.quiet.scope there, scope_derive_old old]

theorem scope_makeInstance_old (sound : Sound D w) {c : ClassId} (hc : c.In w.count)
    (old : t.In w.count) : (w.makeInstance c).2.scope t = w.scope t := by
  have seeds := sound.members_seeds hc
  have there : t.In (w.emptyMembers c).2.count :=
    old.mono (w.grows_derive _ .members (w.classOf c).name (some (w.classOf c).scope)).count
  have new : t ≠ (w.emptyMembers c).1 := fun e => w.derive_new _ _ _ _ (e ▸ old)
  have before : (w.emptyMembers c).2.scope t = w.scope t := scope_derive_old old _ _ _
  show (w.furnished c).scope t = w.scope t
  rw [furnished, furnish, scope_setScope_other new, seeds.copying.quiet.scope there, before]

/-- Outside of a root a function is registered in the scope itself. -/
theorem scope_registerFunction_other {name : String} {o : Overload} {u : ScopeId}
    (inner : (w.scope u).kind ≠ .root) (ne : t ≠ u) :
    (w.registerFunction u name o).scope t = w.scope t := by
  rw [registerFunction, registrationRoot?, if_neg inner]
  exact scope_setScope_other ne

theorem scope_setClassTable_other {classes : ClassTable} {u : ScopeId}
    (inner : (w.scope u).kind ≠ .root) (ne : t ≠ u) :
    (w.setClassTable u classes).scope t = w.scope t := by
  rw [setClassTable, registrationRoot?, if_neg inner]
  exact scope_setScope_other ne

end World

/-- Storing a value in a variable of another scope. -/
theorem Sound.scope_store_other (sound : Sound D w) {u : ScopeId} {name : String} {b : Binding}
    {v : Value} (flags : b.flags.isMutable = true → D.sharing) (ok : v.Ok D w.count)
    (old : t.In w.count) (ne : t ≠ u) : (w.store u name b v).scope t = w.scope t := by
  obtain ⟨copying, -, -⟩ := b.prepare_spec sound flags ok
  rw [World.store, World.setVariable, World.scope_setScope_other ne, copying.quiet.scope old]

/-! ## Variables -/

/-- What code that runs in `s` may make of the variables of `t`. -/
inductive World.Alters (w : World) (s t : ScopeId) : Table Binding → Prop
  | same : Alters w s t (w.scope t).bindings
  | declare {n : String} {b : Binding} : w.MayDeclare s t → w.hasLocalVariable t n = false →
      Alters w s t ((w.scope t).bindings.insert n b)
  | assign {n : String} {a : Binding} {v : Value} : w.MayAssign s t →
      w.localBinding? t n = some a → a.flags.isConst = false →
      Alters w s t ((w.scope t).bindings.insert n { a with value := v })

namespace World

theorem Alters.of_eq {bindings : Table Binding} (same : bindings = (w.scope t).bindings) :
    w.Alters s t bindings := same ▸ .same

end World

/-- Storing a value inserts a variable with this declaration. -/
theorem Sound.bindings_store (sound : Sound D w) {v : Value}
    (flags : b.flags.isMutable = true → D.sharing) (ok : v.Ok D w.count) (old : t.In w.count) :
    ∃ x, ((w.store t n b v).scope t).bindings =
      (w.scope t).bindings.insert n { b with value := x } := by
  obtain ⟨copying, -, -⟩ := b.prepare_spec sound flags ok
  refine ⟨(b.prepare v w).1, ?_⟩
  rw [World.store, World.setVariable, World.scope_setScope,
    if_pos ⟨rfl, old.mono copying.quiet.count⟩, copying.quiet.scope old]

/-- Every step keeps to what code may make of the variables of old scopes. -/
theorem Step.alters (mute : ¬ D.hostWrites) (h : Step D s w w') (sound : Sound D w)
    (hs : s.In w.count) (old : t.In w.count) : w.Alters s t (w'.scope t).bindings := by
  have untouched : w'.scope t = w.scope t → w.Alters s t (w'.scope t).bindings := fun same =>
    .of_eq (congrArg Scope.bindings same)
  cases h with
  | contents h => exact untouched ((h.copying sound).quiet.scope old)
  | native _ c => exact untouched (c.quiet.scope old)
  | hostWrite _ _ writes => exact absurd writes mute
  | overloads => exact .same
  | pool => exact .same
  | addAlias => exact .of_eq (w.bindings_setScope (by rfl) t)
  | relink => exact .of_eq (w.bindings_setScope (by rfl) t)
  | @declare u name b may free flags ok _ =>
    by_cases here : t = u
    · subst here
      obtain ⟨x, stored⟩ := sound.bindings_store (n := name) flags ok old
      exact stored ▸ .declare may free
    · exact untouched (sound.scope_store_other flags ok old here)
  | @assign u name b v may found variable_ ok _ =>
    have flags := (sound.scope _).flags _ (World.mem_values_of_localBinding? found)
    by_cases here : t = u
    · subst here
      obtain ⟨x, stored⟩ := sound.bindings_store (n := name) flags ok old
      exact stored ▸ .assign may found variable_
    · exact untouched (sound.scope_store_other flags ok old here)
  | detach names label _ => exact untouched (World.scope_detachAs_old sound hs old _ names label)
  | isolate names label => exact untouched (World.scope_isolate_old sound hs old names label)
  | newFunction => exact .same
  | newMethod => exact .same
  | newClass => exact untouched (World.scope_derive_old old _ _ _)
  | register name => exact .of_eq (w.bindings_registerFunction _ t name _)
  | registerClass => exact .of_eq (w.bindings_setClassTable _ t _)
  | makeInstance hc => exact untouched (World.scope_makeInstance_old sound hc old)

/-! ## Functions, classes and aliases -/

/-- The same functions, classes and aliases, and the same globals. -/
structure Scope.SameDefinitions (a b : Scope) : Prop where
  functions : b.functions = a.functions
  classes : b.classes = a.classes
  aliases : b.aliases = a.aliases
  globals : b.globals = a.globals

namespace Scope.SameDefinitions

theorem refl (a : Scope) : a.SameDefinitions a := ⟨rfl, rfl, rfl, rfl⟩

theorem trans {a b c : Scope} (h : a.SameDefinitions b) (i : b.SameDefinitions c) : a.SameDefinitions c where
  functions := i.functions.trans h.functions
  classes := i.classes.trans h.classes
  aliases := i.aliases.trans h.aliases
  globals := i.globals.trans h.globals

theorem of_eq {a b : Scope} (h : b = a) : a.SameDefinitions b := h ▸ refl a

end Scope.SameDefinitions

/-- What code that runs in `s` may make of the scope `t`, its variables aside. -/
inductive World.Registers (w : World) (s t : ScopeId) : Scope → Prop
  | same {x : Scope} : (w.scope t).SameDefinitions x → Registers w s t x
  | addAlias (name : String) (id : SigId) :
      Registers w s t ((w.setScope s
        { w.scope s with aliases := (w.scope s).aliases.insert name id }).scope t)
  | addFunction {u : ScopeId} (name : String) {o : Overload} : w.MayRegister s u o.callable →
      Registers w s t ((w.registerFunction u name o).scope t)
  | setClasses (classes : ClassTable) : Registers w s t ((w.setClassTable s classes).scope t)

/-- A scope in which variables or links have been set. -/
theorem World.definitions_setScope {u : ScopeId} {x : Scope} (same : (w.scope u).SameDefinitions x) :
    (w.scope t).SameDefinitions ((w.setScope u x).scope t) := by
  rw [scope_setScope]
  split
  · rename_i here
    rw [here.1]
    exact same
  · exact .refl _

theorem Sound.definitions_store (sound : Sound D w) {u : ScopeId} {v : Value}
    (flags : b.flags.isMutable = true → D.sharing) (ok : v.Ok D w.count) (old : t.In w.count) :
    (w.scope t).SameDefinitions ((w.store u n b v).scope t) := by
  obtain ⟨copying, -, -⟩ := b.prepare_spec sound flags ok
  rw [World.store, World.setVariable, ← copying.quiet.scope old]
  exact World.definitions_setScope ⟨rfl, rfl, rfl, rfl⟩

/-- Every step keeps to what code may make of the tables of old scopes. -/
theorem Step.registers (h : Step D s w w') (sound : Sound D w) (hs : s.In w.count)
    (old : t.In w.count) : w.Registers s t (w'.scope t) := by
  have untouched : w'.scope t = w.scope t → w.Registers s t (w'.scope t) := fun same =>
    .same (.of_eq same)
  cases h with
  | contents h => exact untouched ((h.copying sound).quiet.scope old)
  | native _ c => exact untouched (c.quiet.scope old)
  | hostWrite _ _ _ flags ok => exact .same (sound.definitions_store flags ok old)
  | overloads => exact untouched rfl
  | pool => exact untouched rfl
  | addAlias name id => exact .addAlias name id
  | relink => exact .same (World.definitions_setScope ⟨rfl, rfl, rfl, rfl⟩)
  | declare _ _ flags ok _ => exact .same (sound.definitions_store flags ok old)
  | assign _ found _ ok _ =>
    have flags := (sound.scope _).flags _ (World.mem_values_of_localBinding? found)
    exact .same (sound.definitions_store flags ok old)
  | detach names label _ => exact untouched (World.scope_detachAs_old sound hs old _ names label)
  | isolate names label => exact untouched (World.scope_isolate_old sound hs old names label)
  | newFunction => exact untouched rfl
  | newMethod => exact untouched rfl
  | newClass => exact untouched (World.scope_derive_old old _ _ _)
  | register name may _ => exact .addFunction name may
  | registerClass => exact .setClasses _
  | makeInstance hc => exact untouched (World.scope_makeInstance_old sound hc old)

/-- From a scope that is no root nothing is registered in another one. -/
theorem World.Registers.definitions {x : Scope} (h : w.Registers s t x)
    (inner : (w.scope s).kind ≠ .root) (other : t ≠ s) : (w.scope t).SameDefinitions x := by
  cases h with
  | same same => exact same
  | addAlias => exact .of_eq (scope_setScope_other other)
  | addFunction name may =>
    rcases may with ⟨rfl, -⟩ | ⟨m, -, -, rfl | root⟩
    · exact .of_eq (scope_registerFunction_other inner other)
    · exact .of_eq (scope_registerFunction_other inner other)
    · exact absurd root inner
  | setClasses => exact .of_eq (scope_setClassTable_other inner other)

theorem Step.definitions (h : Step D s w w') (sound : Sound D w) (hs : s.In w.count)
    (inner : (w.scope s).kind ≠ .root) (old : t.In w.count) (other : t ≠ s) :
    (w.scope t).SameDefinitions (w'.scope t) :=
  (h.registers sound hs old).definitions inner other

/-! ## The root -/

/-- A scope that keeps all classes that are registered in it among the globals. -/
structure Scope.KeepsGlobals (x : Scope) : Prop where
  owned : ∃ functions classes, x.globals = .owned functions classes
  empty : x.classes = .empty

/-- The oldest scope is a root that keeps the globals and is not called. -/
structure World.Rooted (w : World) : Prop where
  there : (⟨0⟩ : ScopeId).In w.count
  kind : (w.scope ⟨0⟩).kind = .root
  keeps : (w.scope ⟨0⟩).KeepsGlobals
  caller : (w.scope ⟨0⟩).caller = none

theorem World.caller_setScope {u : ScopeId} {x : Scope} (same : x.caller = (w.scope u).caller) :
    ((w.setScope u x).scope t).caller = (w.scope t).caller := by
  rw [scope_setScope]
  split
  · rename_i here
    rw [same, here.1]
  · rfl

theorem Sound.caller_store (sound : Sound D w) {u : ScopeId} {v : Value}
    (flags : b.flags.isMutable = true → D.sharing) (ok : v.Ok D w.count) (old : t.In w.count) :
    ((w.store u n b v).scope t).caller = (w.scope t).caller := by
  obtain ⟨copying, -, -⟩ := b.prepare_spec sound flags ok
  rw [World.store, World.setVariable, World.caller_setScope (by rfl), copying.quiet.scope old]

/-- No step gives a caller to a root. -/
theorem Step.caller (h : Step D s w w') (sound : Sound D w) (hs : s.In w.count)
    (old : t.In w.count) (root : (w.scope t).kind = .root) :
    (w'.scope t).caller = (w.scope t).caller := by
  have untouched : w'.scope t = w.scope t → (w'.scope t).caller = (w.scope t).caller :=
    congrArg Scope.caller
  cases h with
  | contents h => exact untouched ((h.copying sound).quiet.scope old)
  | native _ c => exact untouched (c.quiet.scope old)
  | hostWrite _ _ _ flags ok => exact sound.caller_store flags ok old
  | overloads => rfl
  | pool => rfl
  | addAlias => exact World.caller_setScope rfl
  | relink u children owner same =>
    rw [World.scope_setScope]
    split
    · rename_i here
      exact here.1 ▸ same (here.1 ▸ root)
    · rfl
  | declare _ _ flags ok _ => exact sound.caller_store flags ok old
  | assign _ found _ ok _ =>
    have flags := (sound.scope _).flags _ (World.mem_values_of_localBinding? found)
    exact sound.caller_store flags ok old
  | detach names label _ => exact untouched (World.scope_detachAs_old sound hs old _ names label)
  | isolate names label => exact untouched (World.scope_isolate_old sound hs old names label)
  | newFunction => rfl
  | newMethod => rfl
  | newClass => exact untouched (World.scope_derive_old old _ _ _)
  | register =>
    simp only [World.registerFunction]
    split <;> exact World.caller_setScope (by rfl)
  | registerClass =>
    simp only [World.setClassTable]
    split <;> exact World.caller_setScope (by rfl)
  | makeInstance hc => exact untouched (World.scope_makeInstance_old sound hc old)

namespace World.Rooted

theorem setScope (h : w.Rooted) {u : ScopeId} {x : Scope} (keeps : u = ⟨0⟩ → x.KeepsGlobals) :
    ((w.setScope u x).scope ⟨0⟩).KeepsGlobals := by
  rw [scope_setScope]
  split
  · rename_i here
    exact keeps here.1.symm
  · exact h.keeps

theorem registrationRoot?_eq (h : w.Rooted) : w.registrationRoot? ⟨0⟩ = some ⟨0⟩ := by
  obtain ⟨functions, classes, owned⟩ := h.keeps.owned
  rw [registrationRoot?, if_pos h.kind, globalRoot?, owned]

/-- The root keeps the globals, whatever is registered anywhere. -/
theorem registers (h : w.Rooted) {x : Scope} (made : w.Registers s ⟨0⟩ x) : x.KeepsGlobals := by
  cases made with
  | same same => exact ⟨same.globals ▸ h.keeps.owned, same.classes.trans h.keeps.empty⟩
  | addAlias name id =>
    refine h.setScope fun e => ?_
    subst e
    exact ⟨h.keeps.owned, h.keeps.empty⟩
  | @addFunction u name o may =>
    simp only [registerFunction]
    split
    · exact h.setScope fun e => ⟨⟨_, _, rfl⟩, e ▸ h.keeps.empty⟩
    · refine h.setScope fun e => ?_
      subst e
      exact ⟨h.keeps.owned, h.keeps.empty⟩
  | setClasses classes =>
    simp only [setClassTable]
    split
    · exact h.setScope fun e => ⟨⟨_, _, rfl⟩, e ▸ h.keeps.empty⟩
    · rename_i none_
      refine h.setScope fun e => ?_
      rw [e, h.registrationRoot?_eq] at none_
      cases none_

/-- The classes that are found from the root are those registered in it. -/
theorem lookupClass_eq (h : w.Rooted) (name : String) :
    w.lookupClass ⟨0⟩ name = (w.classTable ⟨0⟩).get? name := by
  have order : w.searchOrder ⟨0⟩ = [⟨0⟩] := by
    have chain : w.lookupChain ⟨0⟩ = [⟨0⟩] := rfl
    have callers : [(⟨0⟩ : ScopeId)].filterMap w.caller? = [] := by
      rw [List.filterMap_cons, caller?, h.caller]
      rfl
    rw [searchOrder, searchChains, chain, callers]
    cases w.scopes.size <;> rfl
  obtain ⟨functions, classes, owned⟩ := h.keeps.owned
  rw [lookupClass, order, List.findSome?_singleton, h.keeps.empty, classTable,
    h.registrationRoot?_eq, globalRoot?, owned]
  rfl

end World.Rooted

/-- The root stays as it is where another frame is entered. -/
theorem World.Rooted.enter {f f' : Frame} {calls calls' : List Invocation} (h : w.Rooted)
    (g : w.Grows w') (e : Enter f calls w f' calls' w') : w'.Rooted := by
  have alone : w'.scope ⟨0⟩ = w.scope ⟨0⟩ → w'.Rooted := fun root =>
    ⟨h.there.mono g.count, root ▸ h.kind, root ▸ h.keeps, root ▸ h.caller⟩
  cases e with
  | scope => exact alone (scope_derive_old h.there _ _ _)
  | classBody => exact alone (scope_derive_old h.there _ _ _)
  | invocation => exact h
  | receiver => exact h

theorem rooted_invariant : Invariant D fun _ _ w => w.Rooted := by
  refine .of_world (fun ready h step => ?_) fun ready h enter => h.enter (enter.kept ready).2 enter
  have g := (step.kept ready.sound ready.frame.scope).2
  exact ⟨h.there.mono g.count, (g.scope h.there).kind.trans h.kind,
    h.registers (step.registers ready.sound ready.frame.scope h.there),
    (step.caller ready.sound ready.frame.scope h.there h.kind).trans h.caller⟩

theorem rooted_start (config : Config) (host : Host) :
    (Session.start config host).world.Rooted :=
  ⟨Nat.one_pos, rfl, ⟨⟨_, _, rfl⟩, rfl⟩, rfl⟩

end ScopeLang
