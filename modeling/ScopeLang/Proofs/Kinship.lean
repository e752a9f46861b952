/-
# Classes, instances and their methods

How classes and instances are tied to scopes never changes once they are made.
A class has a scope of its own, below the one that its body sees; an instance has
one below that of its class; and a table of functions in either of them lists
methods of this one class only.  The evaluator never checks the class of a
receiver, so this is all there is to rely on.

`World.Begets` says of two worlds what is new in the later one, and
`Kin.extend` is the one place where the clauses are proved for old and new alike:
each step only has to say what it begets.
-/
import ScopeLang.Proofs.Sessions

namespace ScopeLang

variable {D : Dialect} {w w' : World} {s : ScopeId}

/-! ## Kinship -/

/-- What a class may have in its table: its own methods, and functions of the program. -/
def World.MemberOf (w : World) (c : ClassId) : Callable → Prop
  | .method h => (w.method h).classId = c
  | .function h => w.HasCode (.function h)
  | .classObject _ => True

/-- The table of a scope lists members of a class. -/
def World.ListsMembersOf (w : World) (s : ScopeId) (c : ClassId) : Prop :=
  ∀ o, FunctionTable.Lists (w.scope s).functions o → w.MemberOf c o.callable

/-- A scope below the one that it captures, which hides everything further up. -/
def World.Captures (w : World) (s : ScopeId) (captured : Option ScopeId) : Prop :=
  ∀ p, captured = some p → (w.scope s).parent = some p ∧ (w.scope p).kind.hidesParent = true

/-- The ties between classes, instances, methods and scopes. -/
structure World.Kin (D : Dialect) (w : World) : Prop where
  classKind : ∀ {c}, c.In w.count → (w.scope (w.classOf c).scope).kind = .classScope
  classParent : ∀ {c}, c.In w.count → w.Captures (w.classOf c).scope (w.classOf c).captured
  classMembers : ∀ {c}, c.In w.count → w.ListsMembersOf (w.classOf c).scope c
  /-- No two classes have the same scope. -/
  apart : ∀ {c c'}, c.In w.count → c'.In w.count →
    (w.classOf c).scope = (w.classOf c').scope → c = c'
  homeKind : ∀ {i}, i.In w.count → (w.scope (w.inst i).scope).kind = .members
  homeParent : ∀ {i}, i.In w.count →
    (w.scope (w.inst i).scope).parent = some (w.classOf (w.inst i).classId).scope
  homeMembers : ∀ {i}, i.In w.count → w.ListsMembersOf (w.inst i).scope (w.inst i).classId
  captured : ∀ {h p}, h.In w.count → (w.function h).captured = some p →
    (w.scope p).kind.hidesParent = true
  suits : ∀ {h}, h.In w.count → World.Suits D w (w.method h)

/-- A new class, in a scope that no class had before. -/
structure World.NewClass (w w' : World) (c : ClassId) : Prop where
  only : c.index = w.count .classObject
  apart : ∀ c', c'.In w.count → (w.classOf c').scope ≠ (w'.classOf c).scope
  kind : (w'.scope (w'.classOf c).scope).kind = .classScope
  parent : w'.Captures (w'.classOf c).scope (w'.classOf c).captured
  empty : ∀ o, ¬ FunctionTable.Lists (w'.scope (w'.classOf c).scope).functions o

/-- A new instance, in a scope below the one of its class. -/
structure World.NewInstance (w' : World) (i : InstanceId) : Prop where
  kind : (w'.scope (w'.inst i).scope).kind = .members
  parent : (w'.scope (w'.inst i).scope).parent = some (w'.classOf (w'.inst i).classId).scope
  members : w'.ListsMembersOf (w'.inst i).scope (w'.inst i).classId

/-- What a later world has that an earlier one had not. -/
structure World.Begets (D : Dialect) (w w' : World) : Prop where
  class_ : ∀ {c}, c.In w'.count → ¬ c.In w.count → w.NewClass w' c
  instance_ : ∀ {i}, i.In w'.count → ¬ i.In w.count → w'.NewInstance i
  function : ∀ {h p}, h.In w'.count → ¬ h.In w.count → (w'.function h).captured = some p →
    (w'.scope p).kind.hidesParent = true
  method : ∀ {h}, h.In w'.count → ¬ h.In w.count → World.Suits D w' (w'.method h)
  /-- A scope lists what it listed, and members of the class that it belongs to. -/
  listed : ∀ {s o}, FunctionTable.Lists (w'.scope s).functions o →
    FunctionTable.Lists (w.scope s).functions o ∨
      (∀ c, c.In w.count → (w.classOf c).scope = s → w'.MemberOf c o.callable) ∧
        ∀ i, i.In w.count → (w.inst i).scope = s → w'.MemberOf (w.inst i).classId o.callable

namespace World.Kin

theorem suits_later (g : w.Grows w') {m : Method} (h : World.Suits D w m) : World.Suits D w' m where
  classId := h.classId.mono g.count
  body b e := by
    rw [g.classOf h.classId]
    exact h.body b e
  defaults := h.defaults

theorem captures_later (g : w.Grows w') (hs : s.In w.count) {captured : Option ScopeId}
    (there : ∀ p, captured = some p → p.In w.count) (h : w.Captures s captured) :
    w'.Captures s captured := by
  intro p hp
  obtain ⟨parent, hides⟩ := h p hp
  exact ⟨(g.scope hs).parent.trans parent, (g.scope (there p hp)).kind ▸ hides⟩

/-- What a callable is for a class it stays. -/
theorem memberOf_later (g : w.Grows w') {c : ClassId} {callable : Callable}
    (there : callable.cell.In w.count) (h : w.MemberOf c callable) : w'.MemberOf c callable := by
  cases callable with
  | method m => exact (congrArg Method.classId (g.method there)).trans h
  | function m =>
    show w'.HasCode (.function m)
    rw [World.HasCode, World.procedure?_later g there]
    exact h
  | classObject m => exact trivial

/-- Old kin stay kin, and what is new is kin as well. -/
theorem extend (kin : w.Kin D) (sound : Sound D w) (g : w.Grows w') (new : w.Begets D w') :
    w'.Kin D := by
  refine ⟨?_, ?_, ?_, ?_, ?_, ?_, ?_, ?_, ?_⟩
  · intro c hc
    by_cases old : c.In w.count
    · rw [g.classOf old, (g.scope (sound.classScope old)).kind]
      exact kin.classKind old
    · exact (new.class_ hc old).kind
  · intro c hc
    by_cases old : c.In w.count
    · rw [g.classOf old]
      exact captures_later g (sound.classScope old) (fun p => sound.classCaptured old)
        (kin.classParent old)
    · exact (new.class_ hc old).parent
  · intro c hc o listed
    by_cases old : c.In w.count
    · rw [g.classOf old] at listed
      rcases new.listed listed with before | after
      · exact memberOf_later g (sound.listed before) (kin.classMembers old o before)
      · exact after.1 c old rfl
    · exact absurd listed ((new.class_ hc old).empty o)
  · intro c c' hc hc' e
    by_cases old : c.In w.count
    · by_cases old' : c'.In w.count
      · rw [g.classOf old, g.classOf old'] at e
        exact kin.apart old old' e
      · rw [g.classOf old] at e
        exact absurd e ((new.class_ hc' old').apart c old)
    · by_cases old' : c'.In w.count
      · rw [g.classOf old'] at e
        exact absurd e.symm ((new.class_ hc old).apart c' old')
      · have index : c.index = c'.index :=
          (new.class_ hc old).only.trans (new.class_ hc' old').only.symm
        obtain ⟨_⟩ := c
        obtain ⟨_⟩ := c'
        exact congrArg Handle.mk index
  · intro i hi
    by_cases old : i.In w.count
    · rw [g.home old, (g.scope (sound.home old)).kind]
      exact kin.homeKind old
    · exact (new.instance_ hi old).kind
  · intro i hi
    by_cases old : i.In w.count
    · rw [g.home old, g.classId old, g.classOf (sound.classId old),
        (g.scope (sound.home old)).parent]
      exact kin.homeParent old
    · exact (new.instance_ hi old).parent
  · intro i hi o listed
    by_cases old : i.In w.count
    · rw [g.home old] at listed
      rw [g.classId old]
      rcases new.listed listed with before | after
      · exact memberOf_later g (sound.listed before) (kin.homeMembers old o before)
      · exact after.2 i old rfl
    · exact (new.instance_ hi old).members o listed
  · intro h p hh hp
    by_cases old : h.In w.count
    · rw [g.function old] at hp
      rw [(g.scope (sound.captured old hp)).kind]
      exact kin.captured old hp
    · exact new.function hh old hp
  · intro h hh
    by_cases old : h.In w.count
    · rw [g.method old]
      exact suits_later g (kin.suits old)
    · exact new.method hh old

end World.Kin

/-! ## What is begotten -/

namespace World.Begets

/-- Nothing is new but scopes and containers. -/
theorem of_count (classes : w'.count .classObject = w.count .classObject)
    (instances : w'.count .object = w.count .object)
    (functions : w'.count .function = w.count .function)
    (methods : w'.count .method = w.count .method)
    (listed : ∀ {s o}, FunctionTable.Lists (w'.scope s).functions o →
      FunctionTable.Lists (w.scope s).functions o ∨
        (∀ c, c.In w.count → (w.classOf c).scope = s → w'.MemberOf c o.callable) ∧
          ∀ i, i.In w.count → (w.inst i).scope = s →
            w'.MemberOf (w.inst i).classId o.callable) : w.Begets D w' where
  class_ hc old := absurd (Nat.lt_of_lt_of_eq hc classes) old
  instance_ hi old := absurd (Nat.lt_of_lt_of_eq hi instances) old
  function hh old := absurd (Nat.lt_of_lt_of_eq hh functions) old
  method hh old := absurd (Nat.lt_of_lt_of_eq hh methods) old
  listed := listed

theorem newScope {x : Scope} (e : x.functions = .empty) : w.Begets D (w.newScope x).2 := by
  refine of_count rfl rfl rfl rfl fun {t o} listed => ?_
  rw [World.scope_newScope] at listed
  split at listed
  · rw [e] at listed
    obtain ⟨os, mem, -⟩ := listed
    exact absurd mem List.not_mem_nil
  · exact .inl listed

/-- A scope is replaced by one that lists the same. -/
theorem setScope {x : Scope} (e : x.functions = (w.scope s).functions) :
    w.Begets D (w.setScope s x) := by
  refine of_count rfl rfl rfl rfl fun {t o} listed => .inl ?_
  rw [World.scope_setScope] at listed
  split at listed
  · rename_i same
    rw [e] at listed
    rw [same.1]
    exact listed
  · exact listed

/-- A scope of no class and no instance may be given any functions. -/
theorem setScope_free {x : Scope} (classes : ∀ c, c.In w.count → (w.classOf c).scope ≠ s)
    (instances : ∀ i, i.In w.count → (w.inst i).scope ≠ s) : w.Begets D (w.setScope s x) := by
  refine of_count rfl rfl rfl rfl fun {t o} listed => ?_
  by_cases e : t = s
  · exact .inr ⟨fun c hc ec => absurd (ec.trans e) (classes c hc),
      fun i hi ei => absurd (ei.trans e) (instances i hi)⟩
  · rw [World.scope_setScope, if_neg fun same => e same.1] at listed
    exact .inl listed

theorem of_quiet (kin : w.Kin D) (sound : Sound D w) (q : Quiet w w') : w.Begets D w' where
  class_ {c} hc old := by
    refine absurd ?_ old
    simpa [Handle.In, World.count, q.classes] using hc
  instance_ {i} hi old := by
    obtain ⟨j, hj, classId, -, like⟩ := q.instance_ hi old
    have g := q.grows
    refine ⟨like.root.kind.trans (kin.homeKind hj), ?_, fun o listed => ?_⟩
    · rw [like.root.parent, classId, g.classOf (sound.classId hj)]
      exact kin.homeParent hj
    · rw [like.functions] at listed
      rw [classId]
      exact Kin.memberOf_later g (sound.listed listed) (kin.homeMembers hj o listed)
  function {h p} hh old := by
    refine absurd ?_ old
    simpa [Handle.In, World.count, q.functions] using hh
  method {h} hh old := by
    refine absurd ?_ old
    simpa [Handle.In, World.count, q.methods] using hh
  listed {t o} listed := by
    by_cases old : t.In w.count
    · rw [q.scope old] at listed
      exact .inl listed
    · refine .inr ⟨fun c hc e => ?_, fun i hi e => ?_⟩
      · exact absurd (e ▸ sound.classScope hc) old
      · exact absurd (e ▸ sound.home hi) old

theorem newFunction {x : Function}
    (hides : ∀ p, x.captured = some p → (w.scope p).kind.hidesParent = true) :
    w.Begets D (w.newFunction x).2 where
  class_ hc old := absurd hc old
  instance_ hi old := absurd hi old
  function {h p} hh old hp := by
    rw [World.count_newFunction] at hh
    rw [World.function_newFunction, if_pos (Census.index_of_grow hh old)] at hp
    exact hides p hp
  method hh old := absurd hh old
  listed := .inl

theorem newMethod {x : Method} (suits : World.Suits D w x) : w.Begets D (w.newMethod x).2 where
  class_ hc old := absurd hc old
  instance_ hi old := absurd hi old
  function hh old := absurd hh old
  method {h} hh old := by
    rw [World.count_newMethod] at hh
    rw [World.method_newMethod, if_pos (Census.index_of_grow hh old)]
    exact Kin.suits_later (w.grows_newMethod x) suits
  listed := .inl

theorem newInstance {x : Instance} (kind : (w.scope x.scope).kind = .members)
    (parent : (w.scope x.scope).parent = some (w.classOf x.classId).scope)
    (members : w.ListsMembersOf x.scope x.classId) : w.Begets D (w.newInstance x).2 where
  class_ hc old := absurd hc old
  instance_ {i} hi old := by
    have new : (w.newInstance x).2.inst i = x := by
      rw [World.count_newInstance] at hi
      rw [World.inst_newInstance, if_pos (Census.index_of_grow hi old)]
    refine ⟨?_, ?_, ?_⟩
    · rw [new]
      exact kind
    · rw [new]
      exact parent
    · rw [new]
      exact members
  function hh old := absurd hh old
  method hh old := absurd hh old
  listed := .inl

theorem newClass {x : Class} (apart : ∀ c, c.In w.count → (w.classOf c).scope ≠ x.scope)
    (kind : (w.scope x.scope).kind = .classScope) (parent : w.Captures x.scope x.captured)
    (empty : ∀ o, ¬ FunctionTable.Lists (w.scope x.scope).functions o) :
    w.Begets D (w.newClass x).2 where
  class_ {c} hc old := by
    rw [World.count_newClass] at hc
    have only : c.index = w.count .classObject := Census.index_of_grow hc old
    have new : (w.newClass x).2.classOf c = x := by rw [World.classOf_newClass, if_pos only]
    refine ⟨only, ?_, ?_, ?_, ?_⟩
    · rw [new]
      exact apart
    · rw [new]
      exact kind
    · rw [new]
      exact parent
    · rw [new]
      exact empty
  instance_ hi old := absurd hi old
  function hh old := absurd hh old
  method hh old := absurd hh old
  listed := .inl

end World.Begets

/-! ## Steps -/

namespace World.Kin

theorem quiet (kin : w.Kin D) (sound : Sound D w) (q : Quiet w w') : w'.Kin D :=
  kin.extend sound q.grows (.of_quiet kin sound q)

theorem derive (kin : w.Kin D) (sound : Sound D w) (t : ScopeId) (kind : ScopeKind)
    (label : String) (parent : Option ScopeId) : (w.derive t kind label parent).2.Kin D := by
  have g := w.grows_derive t kind label parent
  rw [World.derive_eq] at g ⊢
  exact kin.extend sound g (.newScope rfl)

theorem setBindings (kin : w.Kin D) (sound : Sound D w) {t : ScopeId} {tbl : Table Binding}
    (more : ∀ name, w.hasLocalVariable t name = true → tbl.contains name = true) :
    (w.setScope t { w.scope t with bindings := tbl }).Kin D :=
  kin.extend sound (w.grows_setBindings more) (.setScope rfl)

theorem store (kin : w.Kin D) (sound : Sound D w) {t : ScopeId} {name : String} {b : Binding}
    {v : Value} (flags : b.flags.isMutable = true → D.sharing) (ok : v.Ok D w.count) :
    (w.store t name b v).Kin D := by
  obtain ⟨copying, -, -⟩ := b.prepare_spec sound flags ok
  exact (kin.quiet sound copying.quiet).setBindings copying.sound fun _ => Table.contains_insert

theorem detachAs (kin : w.Kin D) (sound : Sound D w) (hs : s.In w.count) (kind : ScopeKind)
    (names : List String) (label : String) : (w.detachAs s kind names label).2.Kin D := by
  have older : ∀ p, some s = some p → p.In w.count := fun p hp => Option.some.inj hp ▸ hs
  have derived := sound.derive s kind label (some s) older
  have seeds := sound.detach_seeds hs kind names label (some s) older
  have made := (seeds.copying.quiet.scope (w.derive_in s kind label (some s))).trans
    (w.scope_derive s kind label (some s))
  rw [World.detachAs_eq]
  exact ((kin.derive sound s kind label (some s)).quiet derived seeds.copying.quiet).extend
    seeds.copying.sound (World.grows_fill ⟨rfl, rfl, rfl, rfl, rfl⟩ (congrArg Scope.functions made)
      (congrArg Scope.bindings made)) (.setScope rfl)

/-- An isolated scope takes over the functions of another one, but it is of no class and no
instance. -/
theorem isolate (kin : w.Kin D) (sound : Sound D w) (hs : s.In w.count) (names : List String)
    (label : String) : (w.isolate s names label).2.Kin D := by
  have older : ∀ p : ScopeId, none = some p → p.In w.count := nofun
  have derived := sound.derive s .isolated label none older
  have seeds := sound.detach_seeds hs .isolated names label none older
  have fresh : (w.derive s .isolated label none).1.In (w.derive s .isolated label none).2.count :=
    w.derive_in _ _ _ _
  have copied := (kin.derive sound s .isolated label none).quiet derived seeds.copying.quiet
  have made : ((w.derive s .isolated label none).2.captureVariables s names).2.scope
      (w.derive s .isolated label none).1 = (w.scope s).derived s .isolated label none := by
    rw [seeds.copying.quiet.scope fresh, World.scope_derive]
  rw [World.isolate_eq]
  refine copied.extend seeds.copying.sound
    (World.grows_fill ⟨rfl, rfl, rfl, rfl, rfl⟩ (congrArg Scope.functions made)
      (congrArg Scope.bindings made)) (.setScope_free ?_ ?_)
  · intro c hc e
    have kind := copied.classKind hc
    rw [e, made] at kind
    cases kind
  · intro i hi e
    have kind := copied.homeKind hi
    rw [e, made] at kind
    cases kind

theorem addClass (kin : w.Kin D) (sound : Sound D w) {home : ScopeId} (hs : home.In w.count)
    {name accessor : String} {captured : Option ScopeId}
    (hides : ∀ p, captured = some p → p = home ∧ (w.scope p).kind.hidesParent = true) :
    (w.addClass home name accessor captured).2.Kin D := by
  have derived := sound.derive home .classScope name (some home)
    fun p hp => Option.some.inj hp ▸ hs
  have grown := w.grows_derive home .classScope name (some home)
  have made := World.scope_derive w home .classScope name (some home)
  have kin₁ := kin.derive sound home .classScope name (some home)
  -- no class had the new scope before
  have apart : ∀ c, c.In w.count →
      (w.classOf c).scope ≠ (w.derive home .classScope name (some home)).1 := by
    intro c hc e
    have old := sound.classScope hc
    rw [e] at old
    exact w.derive_new _ _ _ _ old
  rw [World.addClass_eq]
  refine Kin.extend (w := (w.derive home .classScope name (some home)).2.setPool home
      (((w.derive home .classScope name (some home)).2.poolOf home).declare name).2)
    (kin₁.extend derived (World.grows_setPool _ (TypePool.grows_declare _ _))
      (.of_count rfl rfl rfl rfl .inl))
    (derived.setPool _ _) (World.grows_newClass _ _) (.newClass apart ?_ ?_ ?_)
  · exact congrArg Scope.kind made
  · intro p hp
    obtain ⟨rfl, kind⟩ := hides p hp
    refine ⟨congrArg Scope.parent made, ?_⟩
    have same := (grown.scope hs).kind
    exact same ▸ kind
  · intro o listed
    have functions := congrArg Scope.functions made
    obtain ⟨os, mem, -⟩ := functions ▸ listed
    exact absurd mem List.not_mem_nil

/-- A callable that may be registered in a scope suits it: a method goes to its own class. -/
theorem register (kin : w.Kin D) (sound : Sound D w) {t : ScopeId} {name : String} {o : Overload}
    (may : w.MayRegister s t o.callable) (there : o.callable.cell.In w.count) :
    (w.registerFunction t name o).Kin D := by
  refine kin.extend sound (w.grows_registerFunction t name o) ?_
  simp only [World.registerFunction]
  split
  · exact .setScope rfl
  · refine .of_count rfl rfl rfl rfl fun {u p} listed => ?_
    rw [World.scope_setScope] at listed
    split at listed
    · rename_i same
      rcases FunctionTable.lists_append listed with rfl | before
      · refine .inr ?_
        rcases may with ⟨here, ⟨g, function⟩, code | root⟩ | ⟨g, method, home, -⟩
        · rw [function] at code ⊢
          exact ⟨fun _ _ _ => code, fun _ _ _ => code⟩
        · -- a root is the scope of no class and of no instance
          rw [← here, ← same.1] at root
          refine ⟨fun c hc ec => ?_, fun i hi ei => ?_⟩
          · have kind := kin.classKind hc
            rw [ec, root] at kind
            cases kind
          · have kind := kin.homeKind hi
            rw [ei, root] at kind
            cases kind
        · rw [method] at there ⊢
          have owner : (w.method g).classId.In w.count := sound.methodClass there
          refine ⟨fun c hc ec => ?_, fun i hi ei => ?_⟩
          · exact kin.apart owner hc (home.symm.trans (same.1.symm.trans ec.symm))
          · have kind := kin.homeKind hi
            rw [ei, same.1, home, kin.classKind owner] at kind
            cases kind
      · rw [same.1]
        exact .inl before
    · exact .inl listed

theorem setClassTable (kin : w.Kin D) (sound : Sound D w) (t : ScopeId) (classes : ClassTable) :
    (w.setClassTable t classes).Kin D := by
  refine kin.extend sound (w.grows_setClassTable t classes) ?_
  simp only [World.setClassTable]
  split
  · exact .setScope rfl
  · exact .setScope rfl

/-- An instance takes over the methods of its class. -/
theorem makeInstance (kin : w.Kin D) (sound : Sound D w) {c : ClassId} (hc : c.In w.count) :
    (w.makeInstance c).2.Kin D := by
  have seeds := sound.members_seeds hc
  have derived := sound.emptyMembers hc
  have grown : w.Grows (w.emptyMembers c).2 := w.grows_derive _ _ _ _
  have fresh : (w.emptyMembers c).1.In (w.emptyMembers c).2.count := w.derive_in _ _ _ _
  have new : ¬ (w.emptyMembers c).1.In w.count := w.derive_new _ _ _ _
  have kin₁ : (w.emptyMembers c).2.Kin D := kin.derive sound _ _ _ _
  have kin₂ := kin₁.quiet derived seeds.copying.quiet
  have made : (w.members c).2.scope (w.emptyMembers c).1 =
      (w.scope (w.classOf c).scope).derived (w.classOf c).scope .members (w.classOf c).name
        (some (w.classOf c).scope) := by
    rw [seeds.copying.quiet.scope fresh, World.emptyMembers, World.scope_derive]
  have kin₃ : (w.furnished c).Kin D := by
    refine kin₂.extend seeds.copying.sound
      (World.grows_fill ⟨rfl, rfl, rfl, rfl, rfl⟩ (congrArg Scope.functions made)
        (congrArg Scope.bindings made)) (.setScope_free ?_ ?_)
    · intro d hd e
      have kind := kin₂.classKind hd
      rw [e, made] at kind
      cases kind
    · -- instances that were there have old scopes, and copies of them have newer ones
      intro i hi e
      by_cases old : i.In (w.emptyMembers c).2.count
      · rw [seeds.copying.quiet.home old] at e
        exact new (e ▸ sound.home old)
      · obtain ⟨j, -, -, fresh', -⟩ := seeds.copying.quiet.instance_ hi old
        exact fresh' (e ▸ fresh)
  obtain ⟨furnished, more⟩ := sound.furnished hc
  have home := sound.scope_furnished hc
  rw [World.makeInstance_eq]
  refine kin₃.extend furnished (World.grows_newInstance _ _) (.newInstance ?_ ?_ ?_)
  · rw [home]
    rfl
  · rw [home, more.classOf hc]
    rfl
  · intro o listed
    rw [home] at listed
    exact memberOf_later more (sound.listed listed) (kin.classMembers hc o listed)

end World.Kin

theorem Step.kin (h : Step D s w w') (sound : Sound D w) (hs : s.In w.count) (kin : w.Kin D) :
    w'.Kin D := by
  have g := (h.kept sound hs).2
  cases h with
  | contents h => exact kin.quiet sound (h.copying sound).quiet
  | native _ c => exact kin.quiet sound c.quiet
  | hostWrite _ _ _ flags ok => exact kin.store sound flags ok
  | overloads => exact kin.extend sound g (.of_count rfl rfl rfl rfl .inl)
  | pool => exact kin.extend sound g (.of_count rfl rfl rfl rfl .inl)
  | addAlias => exact kin.extend sound g (.setScope rfl)
  | relink => exact kin.extend sound g (.setScope rfl)
  | declare _ _ flags ok _ => exact kin.store sound flags ok
  | assign _ found _ ok _ =>
    exact kin.store sound ((sound.scope _).flags _ (World.mem_values_of_localBinding? found)) ok
  | detach names label _ => exact kin.detachAs sound hs _ names label
  | isolate names label => exact kin.isolate sound hs names label
  | newFunction _ captured _ =>
    exact kin.extend sound g (.newFunction fun p hp => (captured p hp).2)
  | newMethod _ suits => exact kin.extend sound g (.newMethod suits)
  | newClass name accessor home captured =>
    refine kin.addClass sound home fun p hp => ?_
    rcases captured with ⟨e, hides⟩ | ⟨e, -⟩
    · obtain rfl := Option.some.inj (e.symm.trans hp)
      exact ⟨rfl, hides⟩
    · exact absurd (e.symm.trans hp) nofun
  | register name may there => exact kin.register sound may there
  | registerClass name hc => exact kin.setClassTable sound s _
  | makeInstance hc => exact kin.makeInstance sound hc

theorem kin_invariant : Invariant D fun _ _ w => w.Kin D := by
  refine .of_world (fun ready kin h => h.kin ready.sound ready.frame.scope kin) ?_
  intro f calls w f' calls' w' ready kin h
  cases h with
  | scope label _ => exact kin.derive ready.sound _ _ _ _
  | classBody name accessor home hides =>
    exact Step.kin (s := f.scope) (.newClass name accessor home (.inl ⟨rfl, hides⟩)) ready.sound
      ready.frame.scope kin
  | invocation => exact kin
  | receiver => exact kin

theorem kin_start (config : Config) (host : Host) : (Session.start config host).world.Kin D := by
  have vacant : ∀ {k : CellKind} {h : Handle k}, k ≠ .scope → k ≠ .types →
      ¬ h.In (Session.start config host).world.count := Session.vacant_start config host
  exact
    { classKind := fun hc => absurd hc (vacant nofun nofun)
      classParent := fun hc => absurd hc (vacant nofun nofun)
      classMembers := fun hc => absurd hc (vacant nofun nofun)
      apart := fun hc => absurd hc (vacant nofun nofun)
      homeKind := fun hi => absurd hi (vacant nofun nofun)
      homeParent := fun hi => absurd hi (vacant nofun nofun)
      homeMembers := fun hi => absurd hi (vacant nofun nofun)
      captured := fun hh => absurd hh (vacant nofun nofun)
      suits := fun hh => absurd hh (vacant nofun nofun) }

end ScopeLang
