/-
# What every step keeps

Steps lead from sound worlds to sound worlds, and nothing that a world has is
lost.  There is one lemma for each way in which a step writes, and `Step.sound`
and `Step.grows` only put them together; a run then keeps both by induction
on its trace.

A step that makes a scope does so in up to three strokes: an empty scope is
derived, values are copied, and the copies are put into the scope.  The lemmas
about the strokes are stated on their own, since every other invariant goes
through the same three.
-/
import ScopeLang.Proofs.Steps

namespace ScopeLang

variable {D : Dialect} {w w₁ : World}

/-! ## Deriving a scope -/

/-- An empty scope derived from another one. -/
def Scope.derived (x : Scope) (s : ScopeId) (kind : ScopeKind) (label : String)
    (parent : Option ScopeId) : Scope :=
  { kind, label, level := x.level + 1, isCopy := false, tornDown := false,
    bindings := .empty, functions := .empty, classes := .empty, aliases := .empty,
    children := [], parent, owner := none, caller := none,
    globals := x.globals.share s, types := x.types }

theorem World.derive_eq (w : World) (s : ScopeId) (kind : ScopeKind) (label : String)
    (parent : Option ScopeId) :
    w.derive s kind label parent = w.newScope ((w.scope s).derived s kind label parent) := rfl

theorem Globals.cells_share (g : Globals) (s : ScopeId) : (g.share s).cells = [] := by
  cases g <;> rfl

theorem Scope.Ok.derived {n n' : Census} {i j : Nat} {x : Scope} {s : ScopeId} {kind : ScopeKind}
    {label : String} {parent : Option ScopeId} (ok : x.Ok D n i)
    (older : ∀ p, parent = some p → p.index < j) : (x.derived s kind label parent).Ok D n' j where
  flags _ hb := absurd hb List.not_mem_nil
  callable c hc := by
    simp only [Scope.callables, Scope.derived, Globals.cells_share] at hc
    exact absurd hc List.not_mem_nil
  older := older
  types := ok.types

theorem Sound.derive (s : Sound D w) (t : ScopeId) (kind : ScopeKind) (label : String)
    (parent : Option ScopeId) (older : ∀ p, parent = some p → p.In w.count) :
    Sound D (w.derive t kind label parent).2 := by
  rw [World.derive_eq, Sound, World.count_newScope]
  refine (s.mono (Census.le_grow _ _)).newScope ?_ (fun _ hb => absurd hb List.not_mem_nil)
  exact (s.scope t).derived older

theorem World.derive_in (w : World) (t : ScopeId) (kind : ScopeKind) (label : String)
    (parent : Option ScopeId) :
    (w.derive t kind label parent).1.In (w.derive t kind label parent).2.count :=
  w.newScope_in _

theorem World.derive_new (w : World) (t : ScopeId) (kind : ScopeKind) (label : String)
    (parent : Option ScopeId) : ¬ (w.derive t kind label parent).1.In w.count :=
  Census.not_in_next w.count .scope

theorem World.grows_derive (w : World) (t : ScopeId) (kind : ScopeKind) (label : String)
    (parent : Option ScopeId) : w.Grows (w.derive t kind label parent).2 :=
  w.grows_newScope _

theorem World.scope_derive (w : World) (t : ScopeId) (kind : ScopeKind) (label : String)
    (parent : Option ScopeId) :
    (w.derive t kind label parent).2.scope (w.derive t kind label parent).1 =
      (w.scope t).derived t kind label parent :=
  Store.get_alloc_new w.scopes _

/-! ## Storing a value -/

/-- The value that is stored looks like the value that is given. -/
theorem Binding.prepare_spec (s : Sound D w) {b : Binding} {v : Value}
    (flags : b.flags.isMutable = true → D.sharing) (ok : v.Ok D w.count) :
    Copying D w (b.prepare v w).2 ∧ (b.prepare v w).1.Ok D (b.prepare v w).2.count ∧
      v.Alike w (b.prepare v w).2 (b.prepare v w).1 := by
  simp only [Binding.prepare]
  split
  · rename_i mutable
    exact ⟨.refl s, ⟨ok.cells, fun _ => flags mutable⟩, rfl, rfl⟩
  · rename_i fixed
    obtain ⟨c, r⟩ := duplicate_copies v w s ok
    refine ⟨c, ⟨r.ok.cells, fun h => ?_⟩, r.alike.kind, r.alike.type⟩
    simp only [Binding.stamp, Bool.or_eq_true] at h
    exact h.elim flags r.ok.shared

/-- Only the variables of a scope have changed. -/
theorem SoundAt.setBindings {n : Census} (s : SoundAt D n w) {t : ScopeId} {tbl : Table Binding}
    (flags : ∀ b ∈ tbl.values, b.flags.isMutable = true → D.sharing)
    (values : ∀ b ∈ tbl.values, b.value.Ok D n) :
    SoundAt D n (w.setScope t { w.scope t with bindings := tbl }) :=
  s.setScope ⟨flags, (s.scope t).callable, (s.scope t).older, (s.scope t).types⟩ values

/-- No name of a variable is lost. -/
theorem World.grows_setBindings (w : World) {t : ScopeId} {tbl : Table Binding}
    (more : ∀ name, w.hasLocalVariable t name = true → tbl.contains name = true) :
    w.Grows (w.setScope t { w.scope t with bindings := tbl }) :=
  w.grows_setScope ⟨rfl, rfl, rfl, rfl, rfl⟩ (fun _ h => h) more

theorem Sound.setVariable (s : Sound D w) {t : ScopeId} {name : String} {b : Binding}
    (flags : b.flags.isMutable = true → D.sharing) (ok : b.value.Ok D w.count) :
    Sound D (w.setVariable t name b) := by
  rw [World.setVariable, Sound, World.count_setScope]
  refine SoundAt.setBindings s (fun c hc => ?_) (fun c hc => ?_)
  · rcases Table.mem_values_insert hc with rfl | hc
    · exact flags
    · exact (s.scope t).flags c hc
  · rcases Table.mem_values_insert hc with rfl | hc
    · exact ok
    · exact s.binding hc

theorem World.grows_setVariable (w : World) (t : ScopeId) (name : String) (b : Binding) :
    w.Grows (w.setVariable t name b) := w.grows_setBindings fun _ => Table.contains_insert

theorem Sound.store (s : Sound D w) (t : ScopeId) (name : String) {b : Binding} {v : Value}
    (flags : b.flags.isMutable = true → D.sharing) (ok : v.Ok D w.count) :
    Sound D (w.store t name b v) := by
  obtain ⟨c, ok', -⟩ := b.prepare_spec s flags ok
  exact c.sound.setVariable (b := { b with value := (b.prepare v w).1 }) flags ok'

theorem Sound.grows_store (s : Sound D w) (t : ScopeId) (name : String) {b : Binding} {v : Value}
    (flags : b.flags.isMutable = true → D.sharing) (ok : v.Ok D w.count) :
    w.Grows (w.store t name b v) := by
  obtain ⟨c, -, -⟩ := b.prepare_spec s flags ok
  exact c.quiet.grows.trans (World.grows_setVariable _ _ _ _)

/-! ## Making scopes with variables -/

theorem Seeds.flags {t : Table Binding} (s : Sound D w) (h : Seeds D w t w₁) {b : Binding}
    (hb : b ∈ t.values) : b.flags.isMutable = true → D.sharing := by
  obtain ⟨u, a, ha, r⟩ := h.source b hb
  rw [r.flags]
  exact (s.scope u).flags a ha

theorem Seeds.ok {t : Table Binding} (h : Seeds D w t w₁) {b : Binding} (hb : b ∈ t.values) :
    b.value.Ok D w₁.count := by
  obtain ⟨u, a, -, r⟩ := h.source b hb
  exact r.value.ok

/-- A scope that has no functions and no variables yet may be given any. -/
theorem World.grows_fill {t : ScopeId} {x : Scope} (root : (w.scope t).SameRoot x)
    (functions : (w.scope t).functions = .empty) (bindings : (w.scope t).bindings = .empty) :
    w.Grows (w.setScope t x) := by
  refine w.grows_setScope root (fun name has => ?_) fun name has => ?_
  · rw [World.hasLocalFunction, functions] at has
    exact absurd has Bool.false_ne_true
  · rw [World.hasLocalVariable, bindings] at has
    exact absurd has Bool.false_ne_true

section Detach

/-- The variables of a scope that keeps copies. -/
theorem Sound.detach_seeds (s : Sound D w) {t : ScopeId} (ht : t.In w.count) (kind : ScopeKind)
    (names : List String) (label : String) (parent : Option ScopeId)
    (older : ∀ p, parent = some p → p.In w.count) :
    Seeds D (w.derive t kind label parent).2
      ((w.derive t kind label parent).2.captureVariables t names).1
      ((w.derive t kind label parent).2.captureVariables t names).2 :=
  captureVariables_seeds (s.derive t kind label parent older)
    (ht.mono (w.grows_derive t kind label parent).count) names

variable {t : ScopeId} {kind : ScopeKind} {names : List String} {label : String}

theorem World.detachAs_eq (w : World) :
    w.detachAs t kind names label =
      let derived := w.derive t kind label (some t)
      let copied := derived.2.captureVariables t names
      (derived.1, copied.2.setScope derived.1
        { copied.2.scope derived.1 with bindings := copied.1 }) := rfl

theorem Sound.detachAs (s : Sound D w) (ht : t.In w.count) :
    Sound D (w.detachAs t kind names label).2 ∧ w.Grows (w.detachAs t kind names label).2 := by
  have seeds := s.detach_seeds ht kind names label (some t)
    (fun p hp => Option.some.inj hp ▸ ht)
  have derived := s.derive t kind label (some t) (fun p hp => Option.some.inj hp ▸ ht)
  have made := (seeds.copying.quiet.scope (w.derive_in t kind label (some t))).trans
    (w.scope_derive t kind label (some t))
  rw [World.detachAs_eq]
  constructor
  · rw [Sound, World.count_setScope]
    exact seeds.copying.sound.setBindings (fun b hb => seeds.flags derived hb)
      (fun b hb => seeds.ok hb)
  · exact ((w.grows_derive t kind label (some t)).trans seeds.copying.quiet.grows).trans
      (World.grows_fill ⟨rfl, rfl, rfl, rfl, rfl⟩ (congrArg Scope.functions made)
        (congrArg Scope.bindings made))

theorem World.detachAs_in (w : World) (sound : Sound D w) (ht : t.In w.count) :
    (w.detachAs t kind names label).1.In (w.detachAs t kind names label).2.count := by
  have seeds := sound.detach_seeds ht kind names label (some t)
    (fun p hp => Option.some.inj hp ▸ ht)
  rw [World.detachAs_eq, World.count_setScope]
  exact (w.derive_in t kind label (some t)).mono seeds.copying.quiet.count

theorem Sound.scope_detachAs (sound : Sound D w) (ht : t.In w.count) :
    (w.detachAs t kind names label).2.scope (w.detachAs t kind names label).1 =
      { (w.scope t).derived t kind label (some t) with
        bindings := ((w.derive t kind label (some t)).2.captureVariables t names).1 } := by
  have seeds := sound.detach_seeds ht kind names label (some t)
    (fun p hp => Option.some.inj hp ▸ ht)
  have fresh := w.derive_in t kind label (some t)
  rw [World.detachAs_eq, World.scope_setScope,
    if_pos ⟨rfl, fresh.mono seeds.copying.quiet.count⟩, seeds.copying.quiet.scope fresh,
    World.scope_derive]

theorem World.isolate_eq (w : World) :
    w.isolate t names label =
      let derived := w.derive t .isolated label none
      let copied := derived.2.captureVariables t names
      (derived.1, copied.2.setScope derived.1
        { copied.2.scope derived.1 with
          bindings := copied.1
          functions := (copied.2.scope t).functions
          classes := (copied.2.scope t).classes
          aliases := (copied.2.scope t).aliases }) := rfl

theorem Sound.isolate (s : Sound D w) (ht : t.In w.count) :
    Sound D (w.isolate t names label).2 ∧ w.Grows (w.isolate t names label).2 := by
  have seeds := s.detach_seeds ht .isolated names label none (fun p hp => absurd hp nofun)
  have derived := s.derive t .isolated label none (fun p hp => absurd hp nofun)
  have made := (seeds.copying.quiet.scope (w.derive_in t .isolated label none)).trans
    (w.scope_derive t .isolated label none)
  rw [World.isolate_eq]
  constructor
  · rw [Sound, World.count_setScope]
    have c := seeds.copying.sound
    refine c.setScope ⟨fun b hb => seeds.flags derived hb, fun d hd => ?_, (c.scope _).older,
      (c.scope _).types⟩ (fun b hb => seeds.ok hb)
    -- the tables are those of `t`; the globals stay those of the new scope
    simp only [Scope.callables, List.mem_append] at hd
    rcases hd with (hd | hd) | hd
    · exact (c.scope t).callable d (by simp only [Scope.callables, List.mem_append]; tauto)
    · exact (c.scope t).callable d (by simp only [Scope.callables, List.mem_append]; tauto)
    · exact (c.scope _).callable d (by simp only [Scope.callables, List.mem_append]; tauto)
  · exact ((w.grows_derive t .isolated label none).trans seeds.copying.quiet.grows).trans
      (World.grows_fill ⟨rfl, rfl, rfl, rfl, rfl⟩ (congrArg Scope.functions made)
        (congrArg Scope.bindings made))

theorem World.isolate_in (w : World) (sound : Sound D w) (ht : t.In w.count) :
    (w.isolate t names label).1.In (w.isolate t names label).2.count := by
  have seeds := sound.detach_seeds ht .isolated names label none (fun p hp => absurd hp nofun)
  rw [World.isolate_eq, World.count_setScope]
  exact (w.derive_in t .isolated label none).mono seeds.copying.quiet.count

theorem Sound.scope_isolate (sound : Sound D w) (ht : t.In w.count) :
    (w.isolate t names label).2.scope (w.isolate t names label).1 =
      { (w.scope t).derived t .isolated label none with
        bindings := ((w.derive t .isolated label none).2.captureVariables t names).1
        functions := (w.scope t).functions
        classes := (w.scope t).classes
        aliases := (w.scope t).aliases } := by
  have seeds := sound.detach_seeds ht .isolated names label none (fun p hp => absurd hp nofun)
  have fresh := w.derive_in t .isolated label none
  have same : ((w.derive t .isolated label none).2.captureVariables t names).2.scope t =
      w.scope t := by
    rw [seeds.copying.quiet.scope (ht.mono (w.grows_derive _ _ _ _).count), World.derive_eq,
      World.scope_newScope, if_neg (Census.ne_next ht)]
  rw [World.isolate_eq]
  simp only [same]
  rw [World.scope_setScope, if_pos ⟨rfl, fresh.mono seeds.copying.quiet.count⟩,
    seeds.copying.quiet.scope fresh, World.scope_derive]

end Detach

/-! ## Making instances -/

section Instances

variable {c : ClassId}

/-- The scope of an instance before it has its members. -/
def World.emptyMembers (w : World) (c : ClassId) : ScopeId × World :=
  w.derive (w.classOf c).scope .members (w.classOf c).name (some (w.classOf c).scope)

/-- The variables of an instance: copies of the members that are not static. -/
def World.members (w : World) (c : ClassId) : Table Binding × World :=
  mapBindings (fun v w => w.duplicate v)
    ((w.scope (w.classOf c).scope).bindings.filter fun b => !b.flags.isStatic) (w.emptyMembers c).2

/-- A scope that has been given variables and functions. -/
def World.furnish (w : World) (s : ScopeId) (bindings : Table Binding) (functions : FunctionTable) :
    World :=
  w.setScope s { w.scope s with bindings, functions }

/-- The world in which the scope of an instance has its variables and its methods. -/
def World.furnished (w : World) (c : ClassId) : World :=
  (w.members c).2.furnish (w.emptyMembers c).1 (w.members c).1
    (w.scope (w.classOf c).scope).functions

theorem World.makeInstance_eq (w : World) (c : ClassId) :
    w.makeInstance c = (w.furnished c).newInstance
      { classId := c, scope := (w.emptyMembers c).1, native := none } := rfl

theorem Sound.emptyMembers (s : Sound D w) (hc : c.In w.count) : Sound D (w.emptyMembers c).2 :=
  s.derive _ _ _ _ fun _ hp => Option.some.inj hp ▸ s.classScope hc

theorem Sound.members_seeds (s : Sound D w) (hc : c.In w.count) :
    Seeds D (w.emptyMembers c).2 (w.members c).1 (w.members c).2 := by
  have same := World.scope_newScope w ((w.scope (w.classOf c).scope).derived (w.classOf c).scope
    .members (w.classOf c).name (some (w.classOf c).scope)) (w.classOf c).scope
  rw [if_neg (Census.ne_next (s.classScope hc)), ← World.derive_eq] at same
  rw [World.members, ← same]
  exact ScopeLang.members_seeds (s.emptyMembers hc) _ _

theorem Sound.furnished (s : Sound D w) (hc : c.In w.count) :
    Sound D (w.furnished c) ∧ w.Grows (w.furnished c) := by
  have seeds := s.members_seeds hc
  have derived := s.emptyMembers hc
  have grown : w.Grows (w.emptyMembers c).2 := w.grows_derive _ _ _ _
  have fresh : (w.emptyMembers c).1.In (w.emptyMembers c).2.count := w.derive_in _ _ _ _
  have empty := w.scope_derive (w.classOf c).scope .members (w.classOf c).name
    (some (w.classOf c).scope)
  rw [← World.emptyMembers] at empty
  rw [World.furnished]
  generalize w.emptyMembers c = d at seeds grown derived fresh empty ⊢
  generalize w.members c = made at seeds ⊢
  have m := seeds.copying.sound
  have more := grown.trans seeds.copying.quiet.grows
  rw [World.furnish]
  constructor
  · rw [Sound, World.count_setScope]
    refine m.setScope ⟨fun b hb => seeds.flags derived hb, fun e he => ?_, (m.scope d.1).older,
      (m.scope d.1).types⟩ (fun b hb => seeds.ok hb)
    -- the functions are those of the class; the other tables are still empty
    simp only [Scope.callables, List.mem_append] at he
    rcases he with (he | he) | he
    · refine Cell.In.mono more.count ((s.scope (w.classOf c).scope).callable e ?_)
      simp only [Scope.callables, List.mem_append]
      exact .inl (.inl he)
    · exact (m.scope d.1).callable e (by simp only [Scope.callables, List.mem_append]; tauto)
    · exact (m.scope d.1).callable e (by simp only [Scope.callables, List.mem_append]; tauto)
  · have made := (seeds.copying.quiet.scope fresh).trans empty
    exact more.trans (World.grows_fill ⟨rfl, rfl, rfl, rfl, rfl⟩ (congrArg Scope.functions made)
      (congrArg Scope.bindings made))

theorem World.emptyMembers_in (s : Sound D w) (hc : c.In w.count) :
    (w.emptyMembers c).1.In (w.furnished c).count := by
  have fresh : (w.emptyMembers c).1.In (w.emptyMembers c).2.count := w.derive_in _ _ _ _
  rw [World.furnished, World.furnish, World.count_setScope]
  exact fresh.mono (s.members_seeds hc).copying.quiet.count

/-- The scope of a new instance has copies of the members and the functions of its class. -/
theorem Sound.scope_furnished (s : Sound D w) (hc : c.In w.count) :
    (w.furnished c).scope (w.emptyMembers c).1 =
      { (w.scope (w.classOf c).scope).derived (w.classOf c).scope .members (w.classOf c).name
          (some (w.classOf c).scope) with
        bindings := (w.members c).1
        functions := (w.scope (w.classOf c).scope).functions } := by
  have seeds := s.members_seeds hc
  have fresh : (w.emptyMembers c).1.In (w.emptyMembers c).2.count := w.derive_in _ _ _ _
  rw [World.furnished, World.furnish, World.scope_setScope,
    if_pos ⟨rfl, fresh.mono seeds.copying.quiet.count⟩, seeds.copying.quiet.scope fresh,
    World.emptyMembers, World.scope_derive]

theorem Sound.functions_makeInstance (s : Sound D w) (hc : c.In w.count) :
    ((w.makeInstance c).2.scope ((w.makeInstance c).2.inst (w.makeInstance c).1).scope).functions =
      (w.scope (w.classOf c).scope).functions := by
  have functions := congrArg Scope.functions (s.scope_furnished hc)
  rw [World.makeInstance_eq, World.inst_newInstance_self]
  exact functions

theorem Sound.makeInstance (s : Sound D w) (hc : c.In w.count) :
    Sound D (w.makeInstance c).2 ∧ w.Grows (w.makeInstance c).2 := by
  obtain ⟨furnished, grown⟩ := s.furnished hc
  have there := World.emptyMembers_in s hc
  rw [World.makeInstance_eq]
  refine ⟨?_, grown.trans (World.grows_newInstance _ _)⟩
  rw [Sound, World.count_newInstance]
  exact (furnished.mono (Census.le_grow _ _)).newInstance
    ((hc.mono grown.count).mono (Census.le_grow _ _)) (there.mono (Census.le_grow _ _))

end Instances

/-! ## Pools, aliases and links -/

theorem Sound.setPool (s : Sound D w) (t : ScopeId) (pool : TypePool) :
    Sound D (w.setPool t pool) := by
  rw [World.setPool, Sound, World.count_setTypeContext]
  exact SoundAt.setTypeContext s

theorem World.grows_setPool (w : World) {t : ScopeId} {pool : TypePool}
    (more : (w.poolOf t).Grows pool) : w.Grows (w.setPool t pool) :=
  w.grows_setTypeContext ⟨rfl, more⟩

/-- A scope with the same variables, tables of callables, parent and types. -/
theorem Sound.relabel (s : Sound D w) (t : ScopeId) {x : Scope}
    (bindings : x.bindings = (w.scope t).bindings) (callables : x.callables = (w.scope t).callables)
    (parent : x.parent = (w.scope t).parent) (types : x.types = (w.scope t).types) :
    Sound D (w.setScope t x) := by
  rw [Sound, World.count_setScope]
  refine SoundAt.setScope s ⟨?_, ?_, ?_, ?_⟩ ?_
  · rw [bindings]
    exact (s.scope t).flags
  · rw [callables]
    exact (s.scope t).callable
  · rw [parent]
    exact (s.scope t).older
  · rw [types]
    exact (s.scope t).types
  · rw [bindings]
    exact fun b hb => s.binding hb

/-! ## Registering -/

/-- A scope in whose tables there are more callables. -/
theorem Sound.retable (s : Sound D w) (t : ScopeId) {x : Scope}
    (bindings : x.bindings = (w.scope t).bindings)
    (callables : ∀ c ∈ x.callables, c.In w.count)
    (parent : x.parent = (w.scope t).parent) (types : x.types = (w.scope t).types) :
    Sound D (w.setScope t x) := by
  rw [Sound, World.count_setScope]
  refine SoundAt.setScope s ⟨?_, callables, ?_, ?_⟩ ?_
  · rw [bindings]
    exact (s.scope t).flags
  · rw [parent]
    exact (s.scope t).older
  · rw [types]
    exact (s.scope t).types
  · rw [bindings]
    exact fun b hb => s.binding hb

namespace SoundAt

variable {n : Census}

theorem listed (s : SoundAt D n w) {t : ScopeId} {o : Overload}
    (h : FunctionTable.Lists (w.scope t).functions o) : o.callable.cell.In n := by
  refine (s.scope t).callable _ ?_
  simp only [Scope.callables, List.mem_append]
  exact .inl (.inl (FunctionTable.mem_cells.mpr ⟨o, h, rfl⟩))

theorem globallyListed (s : SoundAt D n w) {t : ScopeId} {o : Overload}
    (h : FunctionTable.Lists (w.globalFunctions t) o) : o.callable.cell.In n := by
  refine (s.scope t).callable _ ?_
  simp only [Scope.callables, List.mem_append]
  refine .inr ?_
  simp only [World.globalFunctions] at h
  cases e : (w.scope t).globals with
  | owned fs cs =>
    rw [e] at h
    exact List.mem_append.mpr (.inl (FunctionTable.mem_cells.mpr ⟨o, h, rfl⟩))
  | shared root =>
    rw [e] at h
    obtain ⟨os, hos, -⟩ := h
    exact absurd hos List.not_mem_nil

theorem classListed (s : SoundAt D n w) {t : ScopeId} {c : ClassId}
    (h : c ∈ (w.scope t).classes.values) : c.In n := by
  refine (s.scope t).callable c.cell ?_
  simp only [Scope.callables, List.mem_append]
  exact .inl (.inr (ClassTable.mem_cells.mpr ⟨c, h, rfl⟩))

theorem classGloballyListed (s : SoundAt D n w) {t : ScopeId} {c : ClassId}
    (h : c ∈ (w.globalClasses t).values) : c.In n := by
  refine (s.scope t).callable c.cell ?_
  simp only [Scope.callables, List.mem_append]
  refine .inr ?_
  simp only [World.globalClasses] at h
  cases e : (w.scope t).globals with
  | owned fs cs =>
    rw [e] at h
    exact List.mem_append.mpr (.inr (ClassTable.mem_cells.mpr ⟨c, h, rfl⟩))
  | shared root =>
    rw [e] at h
    exact absurd h List.not_mem_nil

/-- Callables found under a name are there. -/
theorem found (s : SoundAt D n w) {t : ScopeId} {name : String} {os : List Overload}
    (h : w.lookupFunction t name = some os) : ∀ o ∈ os, o.callable.cell.In n := by
  intro o ho
  obtain ⟨u, listed | listed⟩ := World.lists_of_lookupFunction h ho
  · exact s.listed listed
  · exact s.globallyListed listed

/-- A class found under a name is there. -/
theorem classFound (s : SoundAt D n w) {t : ScopeId} {name : String} {c : ClassId}
    (h : w.lookupClass t name = some c) : c.In n := by
  obtain ⟨u, listed | listed⟩ := World.mem_values_of_lookupClass h
  · exact s.classListed listed
  · exact s.classGloballyListed listed

end SoundAt

/-- The globals of a root with other tables. -/
theorem Scope.mem_callables_globals {x : Scope} {fs : FunctionTable} {cs : ClassTable} {d : Cell} :
    d ∈ ({ x with globals := .owned fs cs } : Scope).callables →
      d ∈ x.callables ∨ d ∈ FunctionTable.cells fs ∨ d ∈ ClassTable.cells cs := by
  simp only [Scope.callables, Globals.cells, List.mem_append]
  tauto

theorem Sound.registerFunction (s : Sound D w) {t : ScopeId} {name : String} {o : Overload}
    (ok : o.callable.cell.In w.count) : Sound D (w.registerFunction t name o) := by
  simp only [World.registerFunction]
  split
  · rename_i root _
    refine s.retable root rfl (fun d hd => ?_) rfl rfl
    rcases Scope.mem_callables_globals hd with hd | hd | hd
    · exact (s.scope root).callable d hd
    · obtain ⟨p, hp, rfl⟩ := FunctionTable.mem_cells.mp hd
      rcases FunctionTable.lists_append hp with rfl | hp
      · exact ok
      · exact s.globallyListed hp
    · obtain ⟨c, hc, rfl⟩ := ClassTable.mem_cells.mp hd
      exact s.classGloballyListed hc
  · refine s.retable t rfl (fun d hd => ?_) rfl rfl
    simp only [Scope.callables, List.mem_append] at hd
    rcases hd with (hd | hd) | hd
    · obtain ⟨p, hp, rfl⟩ := FunctionTable.mem_cells.mp hd
      rcases FunctionTable.lists_append hp with rfl | hp
      · exact ok
      · exact s.listed hp
    · exact (s.scope t).callable d (by simp only [Scope.callables, List.mem_append]; tauto)
    · exact (s.scope t).callable d (by simp only [Scope.callables, List.mem_append]; tauto)

theorem World.grows_registerFunction (w : World) (t : ScopeId) (name : String) (o : Overload) :
    w.Grows (w.registerFunction t name o) := by
  simp only [World.registerFunction]
  split
  · exact w.grows_setScope ⟨rfl, rfl, rfl, rfl, rfl⟩ (fun _ h => h) fun _ h => h
  · exact w.grows_setScope ⟨rfl, rfl, rfl, rfl, rfl⟩ (fun _ h => Table.contains_insert h) fun _ h => h

theorem Sound.setClassTable (s : Sound D w) {t : ScopeId} {classes : ClassTable}
    (ok : ∀ c ∈ classes.values, c.In w.count) : Sound D (w.setClassTable t classes) := by
  simp only [World.setClassTable]
  split
  · rename_i root _
    refine s.retable root rfl (fun d hd => ?_) rfl rfl
    rcases Scope.mem_callables_globals hd with hd | hd | hd
    · exact (s.scope root).callable d hd
    · obtain ⟨p, hp, rfl⟩ := FunctionTable.mem_cells.mp hd
      exact s.globallyListed hp
    · obtain ⟨c, hc, rfl⟩ := ClassTable.mem_cells.mp hd
      exact ok c hc
  · refine s.retable t rfl (fun d hd => ?_) rfl rfl
    simp only [Scope.callables, List.mem_append] at hd
    rcases hd with (hd | hd) | hd
    · exact (s.scope t).callable d (by simp only [Scope.callables, List.mem_append]; tauto)
    · obtain ⟨c, hc, rfl⟩ := ClassTable.mem_cells.mp hd
      exact ok c hc
    · exact (s.scope t).callable d (by simp only [Scope.callables, List.mem_append]; tauto)

theorem World.grows_setClassTable (w : World) (t : ScopeId) (classes : ClassTable) :
    w.Grows (w.setClassTable t classes) := by
  simp only [World.setClassTable]
  split
  · exact w.grows_setScope ⟨rfl, rfl, rfl, rfl, rfl⟩ (fun _ h => h) fun _ h => h
  · exact w.grows_setScope ⟨rfl, rfl, rfl, rfl, rfl⟩ (fun _ h => h) fun _ h => h

/-- A scope whose variables stay is written. -/
theorem World.bindings_setScope (w : World) {s : ScopeId} {x : Scope}
    (e : x.bindings = (w.scope s).bindings) (t : ScopeId) :
    ((w.setScope s x).scope t).bindings = (w.scope t).bindings := by
  rw [World.scope_setScope]
  split
  · rename_i same
    rw [e, same.1]
  · rfl

theorem World.bindings_registerFunction (w : World) (s t : ScopeId) (name : String) (o : Overload) :
    ((w.registerFunction s name o).scope t).bindings = (w.scope t).bindings := by
  simp only [World.registerFunction]
  split
  · exact w.bindings_setScope (by rfl) t
  · exact w.bindings_setScope (by rfl) t

theorem World.bindings_setClassTable (w : World) (s t : ScopeId) (classes : ClassTable) :
    ((w.setClassTable s classes).scope t).bindings = (w.scope t).bindings := by
  simp only [World.setClassTable]
  split
  · exact w.bindings_setScope (by rfl) t
  · exact w.bindings_setScope (by rfl) t

theorem Sound.classTable (s : Sound D w) {t : ScopeId} {c : ClassId}
    (h : c ∈ (w.classTable t).values) : c.In w.count := by
  simp only [World.classTable] at h
  split at h
  · exact s.classGloballyListed h
  · exact s.classListed h

/-! ## Classes -/

theorem World.addClass_eq (w : World) (home : ScopeId) (name accessor : String)
    (captured : Option ScopeId) :
    w.addClass home name accessor captured =
      let derived := w.derive home .classScope name (some home)
      let declared := (derived.2.poolOf home).declare name
      (derived.2.setPool home declared.2).newClass
        { name, type := declared.1, accessor, scope := derived.1, captured } := rfl

/-- A new class remembers the scope that its body sees. -/
theorem World.captured_addClass (w : World) (home : ScopeId) (name accessor : String)
    (captured : Option ScopeId) :
    ((w.addClass home name accessor captured).2.classOf
      (w.addClass home name accessor captured).1).captured = captured :=
  congrArg Class.captured (Store.get_alloc_new _ _)

theorem World.addClass_in (w : World) (home : ScopeId) (name accessor : String)
    (captured : Option ScopeId) :
    (w.addClass home name accessor captured).1.In
      (w.addClass home name accessor captured).2.count :=
  World.newClass_in _ _

theorem World.name_addClass (w : World) (home : ScopeId) (name accessor : String)
    (captured : Option ScopeId) :
    ((w.addClass home name accessor captured).2.classOf
      (w.addClass home name accessor captured).1).name = name :=
  congrArg Class.name (Store.get_alloc_new _ _)

theorem World.addClass_new (w : World) (home : ScopeId) (name accessor : String)
    (captured : Option ScopeId) : ¬ (w.addClass home name accessor captured).1.In w.count := by
  have derived := w.grows_derive home .classScope name (some home)
  rw [addClass_eq]
  generalize w.derive home .classScope name (some home) = d at derived ⊢
  generalize declared : (d.2.poolOf home).declare name = made
  have more := d.2.grows_setPool (declared ▸ (d.2.poolOf home).grows_declare name)
  have new := (d.2.setPool home made.2).newClass_new
    { name, type := made.1, accessor, scope := d.1, captured }
  exact fun old => new (Handle.In.mono (derived.trans more).count old)

/-- Its own scope is made for it. -/
theorem World.home_addClass (w : World) (home : ScopeId) (name accessor : String)
    (captured : Option ScopeId) :
    ((w.addClass home name accessor captured).2.classOf
      (w.addClass home name accessor captured).1).scope =
        (w.makeCallScope home .classScope name).1 :=
  congrArg Class.scope (Store.get_alloc_new _ _)

theorem Sound.addClass (s : Sound D w) {home : ScopeId} {name accessor : String}
    {captured : Option ScopeId} (ht : home.In w.count)
    (hc : ∀ p, captured = some p → p.In w.count) :
    Sound D (w.addClass home name accessor captured).2 ∧
      w.Grows (w.addClass home name accessor captured).2 := by
  have derived := s.derive home .classScope name (some home)
    (fun p hp => Option.some.inj hp ▸ ht)
  have grown := w.grows_derive home .classScope name (some home)
  have fresh := w.derive_in home .classScope name (some home)
  rw [World.addClass_eq]
  generalize w.derive home .classScope name (some home) = d at derived grown fresh ⊢
  have more := d.2.grows_setPool ((d.2.poolOf home).grows_declare name)
  have pooled := derived.setPool home ((d.2.poolOf home).declare name).2
  constructor
  · rw [Sound, World.count_newClass]
    exact (pooled.mono (Census.le_grow _ _)).newClass
      ((fresh.mono more.count).mono (Census.le_grow _ _))
      fun p hp => (((hc p hp).mono grown.count).mono more.count).mono (Census.le_grow _ _)
  · exact (grown.trans more).trans (World.grows_newClass _ _)

/-! ## Containers -/

theorem mem_insertElement {equal : Value → Value → Bool} {xs : List Value} {x v : Value}
    (h : v ∈ insertElement equal xs x) : v ∈ xs ∨ v = x := by
  simp only [insertElement] at h
  split at h
  · exact .inl h
  · rcases List.mem_append.mp h with h | h
    · exact .inl h
    · exact .inr (List.mem_singleton.mp h)

theorem mem_foldl_insertElement {equal : Value → Value → Bool} {v : Value} :
    ∀ (xs : List Value) {start : List Value},
      v ∈ xs.foldl (insertElement equal) start → v ∈ start ∨ v ∈ xs
  | [], _, h => .inl h
  | x :: rest, _, h => by
    rcases mem_foldl_insertElement rest h with h | h
    · rcases mem_insertElement h with h | rfl
      · exact .inl h
      · exact .inr List.mem_cons_self
    · exact .inr (List.mem_cons_of_mem x h)

theorem mem_entryValues_insertEntry {equal : Value → Value → Bool} {key value v : Value} :
    ∀ es : List (Value × Value), v ∈ entryValues (insertEntry equal key value es) →
      v = key ∨ v = value ∨ v ∈ entryValues es
  | [], h => by
    simp only [insertEntry, entryValues, List.flatMap_cons, List.flatMap_nil, List.append_nil,
      List.mem_cons, List.not_mem_nil, or_false] at h
    tauto
  | (k, u) :: rest, h => by
    simp only [insertEntry] at h
    split at h
    · simp only [entryValues, List.flatMap_cons, List.mem_append, List.mem_cons,
        List.not_mem_nil, or_false] at h ⊢
      tauto
    · simp only [entryValues, List.flatMap_cons, List.mem_append, List.mem_cons,
        List.not_mem_nil, or_false] at h ⊢
      rcases h with h | h
      · tauto
      · have ih := mem_entryValues_insertEntry rest h
        simp only [entryValues] at ih
        tauto

theorem mem_entryValues_foldl {equal : Value → Value → Bool} {v : Value} :
    ∀ (es : List (Value × Value)) {start : List (Value × Value)},
      v ∈ entryValues (es.foldl (fun done e => insertEntry equal e.1 e.2 done) start) →
        v ∈ entryValues start ∨ v ∈ entryValues es
  | [], _, h => .inl h
  | e :: rest, _, h => by
    simp only [entryValues, List.flatMap_cons, List.mem_append, List.mem_cons,
      List.not_mem_nil, or_false]
    rcases mem_entryValues_foldl rest h with h | h
    · rcases mem_entryValues_insertEntry _ h with h | h | h
      · exact .inr (.inl (.inl h))
      · exact .inr (.inl (.inr h))
      · exact .inl h
    · exact .inr (.inr h)

theorem ok_entries {n : Census} {es : List (Value × Value)} (h : ∀ v ∈ entryValues es, v.Ok D n) :
    ∀ e ∈ es, e.1.Ok D n ∧ e.2.Ok D n := by
  intro e he
  exact ⟨h _ (List.mem_flatMap.mpr ⟨e, he, by simp⟩), h _ (List.mem_flatMap.mpr ⟨e, he, by simp⟩)⟩

namespace Copying

theorem setItems (c : Copying D w w₁) (s : Sound D w) {h : Handle .list} {xs : List Value}
    (ok : ∀ v ∈ xs, v.Ok D w₁.count) : Copying D w (w₁.setItems h xs) := by
  refine ⟨?_, c.quiet.trans (.of_containers (w₁.grows_setItems h xs).count rfl rfl rfl rfl rfl rfl
    rfl) s c.sound⟩
  rw [Sound, World.count_setItems]
  exact SoundAt.setItems c.sound ok

theorem setElements (c : Copying D w w₁) (s : Sound D w) {h : Handle .set} {xs : List Value}
    (ok : ∀ v ∈ xs, v.Ok D w₁.count) : Copying D w (w₁.setElements h xs) := by
  refine ⟨?_, c.quiet.trans (.of_containers (w₁.grows_setElements h xs).count rfl rfl rfl rfl rfl
    rfl rfl) s c.sound⟩
  rw [Sound, World.count_setElements]
  exact SoundAt.setElements c.sound ok

theorem setEntries (c : Copying D w w₁) (s : Sound D w) {h : Handle .dict}
    {es : List (Value × Value)} (ok : ∀ e ∈ es, e.1.Ok D w₁.count ∧ e.2.Ok D w₁.count) :
    Copying D w (w₁.setEntries h es) := by
  refine ⟨?_, c.quiet.trans (.of_containers (w₁.grows_setEntries h es).count rfl rfl rfl rfl rfl
    rfl rfl) s c.sound⟩
  rw [Sound, World.count_setEntries]
  exact SoundAt.setEntries c.sound ok

end Copying

/-- A step on containers is quiet and keeps soundness. -/
theorem Contents.copying (s : Sound D w) (h : Contents D w w₁) : Copying D w w₁ := by
  cases h with
  | held there => exact ⟨SoundAt.setHeld s there, .held w _⟩
  | newItems ok => exact (Copying.refl s).newItems s ok
  | newSet ok =>
    refine (Copying.refl s).newElements s fun v hv => ?_
    rcases mem_foldl_insertElement _ hv with hv | hv
    · exact absurd hv List.not_mem_nil
    · exact ok v hv
  | newDict ok =>
    refine (Copying.refl s).newEntries s (ok_entries fun v hv => ?_)
    rcases mem_entryValues_foldl _ hv with hv | hv
    · exact absurd hv List.not_mem_nil
    · exact ok v hv
  | copy ok => exact (copyWithin_copies _ _ w s ok).1
  | dropItems h sub =>
    exact (Copying.refl s).setItems s fun v hv => s.item (sub.subset hv)
  | @storeItem h v xs _ ok sub =>
    obtain ⟨c, r⟩ := duplicate_copies v w s ok
    refine c.setItems s fun x hx => ?_
    rcases List.mem_cons.mp (sub.subset hx) with rfl | hx
    · exact r.ok
    · exact (s.item hx).mono c.quiet.count
  | dropElements h sub =>
    exact (Copying.refl s).setElements s fun v hv => s.element (sub.subset hv)
  | @storeElement h v _ ok =>
    obtain ⟨c, r⟩ := duplicate_copies v w s ok
    refine c.setElements s fun x hx => ?_
    rcases mem_insertElement hx with hx | rfl
    · exact c.sound.element hx
    · exact r.ok
  | dropEntries h sub =>
    exact (Copying.refl s).setEntries s fun e he => s.entry (sub.subset he)
  | @storeEntry h key value k v _ ok₁ ok₂ e₁ e₂ =>
    obtain ⟨c₁, r₁⟩ := duplicate_copies key w s ok₁
    obtain ⟨c₂, r₂⟩ := duplicate_copies value _ c₁.sound (ok₂.mono c₁.quiet.count)
    simp only [e₁] at c₁ r₁ c₂ r₂
    simp only [e₂] at c₂ r₂
    refine (c₁.trans s c₂).setEntries s (ok_entries fun x hx => ?_)
    rcases mem_entryValues_insertEntry _ hx with rfl | rfl | hx
    · exact r₁.ok.mono c₂.quiet.count
    · exact r₂.ok
    · exact SoundAt.ok_of_mem_entries (fun e he => c₂.sound.entry he) hx

/-! ## Steps -/

variable {s : ScopeId}

/-- A scope in which variables are assigned or declared is there. -/
theorem World.MayAssign.there {t : ScopeId} (h : w.MayAssign s t) (sound : Sound D w)
    (hs : s.In w.count) : t.In w.count := by
  rcases h with mem | ⟨i, hi, rfl | rfl⟩
  · exact Nat.lt_of_le_of_lt (index_le_of_mem_variableChain sound mem) hs
  · exact sound.home hi
  · exact sound.classScope (sound.classId hi)

theorem World.MayDeclare.there {t : ScopeId} (h : w.MayDeclare s t) (sound : Sound D w)
    (hs : s.In w.count) : t.In w.count := by
  rcases h with rfl | ⟨i, hi, rfl⟩
  · exact hs
  · exact sound.home hi

/-- A step leads from a sound world to a sound one, and nothing is lost. -/
theorem Step.kept (h : Step D s w w₁) (sound : Sound D w) (hs : s.In w.count) :
    Sound D w₁ ∧ w.Grows w₁ := by
  cases h with
  | contents h => exact ⟨(h.copying sound).sound, (h.copying sound).quiet.grows⟩
  | native _ c => exact ⟨c.sound, c.quiet.grows⟩
  | hostWrite t name _ flags ok =>
    exact ⟨sound.store t name flags ok, sound.grows_store t name flags ok⟩
  | overloads ok =>
    refine ⟨?_, w.grows_newOverloads _⟩
    rw [Sound, World.count_newOverloads]
    exact (sound.mono (Census.le_grow _ _)).newOverloads
      fun o ho => (ok o ho).mono (Census.le_grow _ _)
  | pool t more => exact ⟨sound.setPool t _, w.grows_setPool more⟩
  | addAlias name id =>
    exact ⟨sound.relabel s rfl rfl rfl rfl,
      w.grows_setScope ⟨rfl, rfl, rfl, rfl, rfl⟩ (fun _ h => h) fun _ h => h⟩
  | relink t children owner _ =>
    exact ⟨sound.relabel t rfl rfl rfl rfl,
      w.grows_setScope ⟨rfl, rfl, rfl, rfl, rfl⟩ (fun _ h => h) fun _ h => h⟩
  | declare _ _ flags ok _ => exact ⟨sound.store _ _ flags ok, sound.grows_store _ _ flags ok⟩
  | assign _ found _ ok _ =>
    have flags := (sound.scope _).flags _ (World.mem_values_of_localBinding? found)
    exact ⟨sound.store _ _ flags ok, sound.grows_store _ _ flags ok⟩
  | detach names label _ => exact sound.detachAs hs
  | isolate names label => exact sound.isolate hs
  | newFunction ok captured closed =>
    refine ⟨?_, w.grows_newFunction _⟩
    rw [Sound, World.count_newFunction]
    exact (sound.mono (Census.le_grow _ _)).newFunction ok
      (fun p hp => (captured p hp).1.mono (Census.le_grow _ _)) closed
  | newMethod ok suits =>
    refine ⟨?_, w.grows_newMethod _⟩
    rw [Sound, World.count_newMethod]
    exact (sound.mono (Census.le_grow _ _)).newMethod ok (suits.classId.mono (Census.le_grow _ _))
  | newClass name accessor home captured =>
    refine sound.addClass home fun p hp => ?_
    rcases captured with ⟨e, -⟩ | ⟨e, -⟩
    · rw [e] at hp
      exact Option.some.inj hp ▸ home
    · cases e.symm.trans hp
  | register name _ ok => exact ⟨sound.registerFunction ok, w.grows_registerFunction _ _ _⟩
  | registerClass name hc =>
    refine ⟨sound.setClassTable fun d hd => ?_, w.grows_setClassTable _ _⟩
    rcases Table.mem_values_insert hd with rfl | hd
    · exact hc
    · exact sound.classTable hd
  | makeInstance hc => exact sound.makeInstance hc

/-! ## Frames -/

namespace World

variable {f : Frame}

/-- An invocation starts in a scope that is there. -/
theorem entry_in (sound : Sound D w) (hf : f.In w.count) {i : Invocation} (h : w.Invokes f i) :
    (w.entry f.scope i).In w.count := by
  cases h with
  | @function access h hh =>
    simp only [entry]
    split
    · rename_i b e
      obtain ⟨p, hp⟩ := Option.isSome_iff_exists.mp (sound.closed hh e)
      rw [hp]
      exact sound.captured hh hp
    · exact hf.scope
  | member hh hi _ _ =>
    simp only [entry]
    split
    · rename_i e
      exact Option.some.inj e ▸ sound.home hi
    · exact hf.scope
  | method _ hh hi =>
    simp only [entry]
    split
    · rename_i e
      exact Option.some.inj e ▸ sound.home (hf.receiver _ hi)
    · exact hf.scope

theorem procedure?_later (g : w.Grows w₁) {c : Callable} (there : c.cell.In w.count) :
    w₁.procedure? c = w.procedure? c := by
  cases c with
  | function h => exact congrArg (some ·.procedure) (g.function there)
  | method h => exact congrArg (some ·.procedure) (g.method there)
  | classObject h => rfl

/-- Where an invocation starts that runs code, but not in place, does not depend on who calls. -/
theorem entry_eq (sound : Sound D w) {i : Invocation} (there : i.callable.cell.In w.count)
    (receiver : ∀ h, i.callable = .method h → i.receiver.isSome = true) (runs : w.RunsCode i)
    (apart : ¬ w.RunsInPlace i.callable) (s t : ScopeId) : w.entry s i = w.entry t i := by
  obtain ⟨p, hp, code⟩ := runs
  obtain ⟨b, body⟩ : ∃ b, p.body = .user b := by
    by_contra foreign
    exact apart ⟨p, hp, fun b e => foreign ⟨b, e⟩, code⟩
  obtain ⟨access, callable, r⟩ := i
  cases callable with
  | function h =>
    obtain rfl := Option.some.inj hp
    obtain ⟨u, hu⟩ := Option.isSome_iff_exists.mp (sound.closed there body)
    simp only [entry, body, hu, Option.getD_some]
  | method h =>
    obtain rfl := Option.some.inj hp
    obtain ⟨i, rfl⟩ := Option.isSome_iff_exists.mp (receiver h rfl)
    simp only [entry, body]
  | classObject h => exact absurd hp nofun

/-- The receiver of an invocation is there. -/
theorem Invokes.receiver_in (hf : f.In w.count) {i : Invocation} (h : w.Invokes f i) :
    ∀ r, i.receiver = some r → r.In w.count := by
  intro r hr
  cases h with
  | function => exact absurd hr nofun
  | member _ hi _ _ => exact Option.some.inj hr ▸ hi
  | method _ _ hi => exact hf.receiver r (hi.trans hr)

end World

/-- The receivers of a stack of invocations. -/
def ReceiversIn (calls : List Invocation) (n : Census) : Prop :=
  ∀ i ∈ calls, ∀ r, i.receiver = some r → r.In n

theorem ReceiversIn.mono {calls : List Invocation} {n n' : Census} (le : n ≤ n')
    (h : ReceiversIn calls n) : ReceiversIn calls n' :=
  fun i hi r hr => (h i hi r hr).mono le

/-- Where code can run: in a sound world, in a frame and on a stack that are there. -/
structure Ready (D : Dialect) (f : Frame) (calls : List Invocation) (w : World) : Prop where
  sound : Sound D w
  frame : f.In w.count
  calls : ReceiversIn calls w.count

theorem Ready.later {f : Frame} {calls : List Invocation} (h : Ready D f calls w)
    (sound : Sound D w₁) (g : w.Grows w₁) : Ready D f calls w₁ :=
  ⟨sound, h.frame.mono g.count, h.calls.mono g.count⟩

section Holding

variable {cells : List Cell} (there : ∀ c ∈ cells, c.In w.count)

include there

theorem SoundAt.held_append (sound : Sound D w) : ∀ c ∈ cells ++ w.held, c.In w.count :=
  fun c mem => (List.mem_append.mp mem).elim (there c) (sound.held c)

/-- To hold cells is a step. -/
theorem Step.hold (sound : Sound D w) {s : ScopeId} : Step D s w (w.hold cells) :=
  .contents (.held (SoundAt.held_append there sound))

theorem SoundAt.hold (sound : Sound D w) : Sound D (w.hold cells) :=
  SoundAt.setHeld sound (SoundAt.held_append there sound)

theorem Ready.hold {f : Frame} {calls : List Invocation} (ready : Ready D f calls w) :
    Ready D f calls (w.hold cells) :=
  ⟨SoundAt.hold there ready.sound, ready.frame, ready.calls⟩

end Holding

theorem Enter.kept {f f' : Frame} {calls calls' : List Invocation}
    (h : Enter f calls w f' calls' w₁) (ready : Ready D f calls w) :
    Ready D f' calls' w₁ ∧ w.Grows w₁ := by
  cases h with
  | @scope kind label _ =>
    have g : w.Grows (w.makeCallScope f.scope kind label).2 := w.grows_derive _ _ _ _
    have sound : Sound D (w.makeCallScope f.scope kind label).2 :=
      ready.sound.derive _ _ _ _ fun _ hp => Option.some.inj hp ▸ ready.frame.scope
    exact ⟨⟨sound, ⟨w.derive_in _ _ _ _, fun r hr => (ready.frame.receiver r hr).mono g.count⟩,
      ready.calls.mono g.count⟩, g⟩
  | @classBody home name accessor hs _ =>
    have made : Sound D (w.addClass home name accessor (some home)).2 ∧
        w.Grows (w.addClass home name accessor (some home)).2 :=
      ready.sound.addClass hs fun _ hp => Option.some.inj hp ▸ hs
    obtain ⟨sound, g⟩ := made
    have there := w.home_addClass home name accessor (some home) ▸
      sound.classScope (w.addClass_in home name accessor (some home))
    exact ⟨⟨sound, ⟨there, fun r hr => absurd hr nofun⟩, ready.calls.mono g.count⟩, g⟩
  | @invocation i h =>
    refine ⟨⟨ready.sound, ⟨World.entry_in ready.sound ready.frame h, fun r hr => absurd hr nofun⟩,
      fun j hj => ?_⟩, .refl w⟩
    rcases List.mem_cons.mp hj with rfl | hj
    · exact h.receiver_in ready.frame
    · exact ready.calls j hj
  | @receiver i head _ =>
    have mem : i ∈ calls := List.mem_of_mem_head? head
    exact ⟨⟨ready.sound, ⟨ready.frame.scope, ready.calls i mem⟩, ready.calls⟩, .refl w⟩

/-! ## Runs -/

theorem Trace.kept {f : Frame} {calls : List Invocation} (h : Trace D f calls w w₁) :
    Ready D f calls w → Sound D w₁ ∧ w.Grows w₁ := by
  induction h with
  | refl => exact fun ready => ⟨ready.sound, .refl _⟩
  | step s _ ih =>
    intro ready
    obtain ⟨sound, g⟩ := s.kept ready.sound ready.frame.scope
    obtain ⟨sound', g'⟩ := ih (ready.later sound g)
    exact ⟨sound', g.trans g'⟩
  | inner e _ _ ih ih' =>
    intro ready
    obtain ⟨inside, g⟩ := e.kept ready
    obtain ⟨sound, g'⟩ := ih inside
    obtain ⟨sound', g''⟩ := ih' (ready.later sound (g.trans g'))
    exact ⟨sound', (g.trans g').trans g''⟩

theorem Trace.ready {f : Frame} {calls : List Invocation} (h : Trace D f calls w w₁)
    (ready : Ready D f calls w) : Ready D f calls w₁ :=
  ready.later (h.kept ready).1 (h.kept ready).2

theorem Reach.kept {f f' : Frame} {calls calls' : List Invocation}
    (h : Reach D f calls w f' calls' w₁) :
    Ready D f calls w → Ready D f' calls' w₁ ∧ w.Grows w₁ := by
  induction h with
  | here t => exact fun ready => ⟨t.ready ready, (t.kept ready).2⟩
  | inside t e _ ih =>
    intro ready
    obtain ⟨-, g⟩ := t.kept ready
    obtain ⟨inside, g'⟩ := e.kept (t.ready ready)
    obtain ⟨reached, g''⟩ := ih inside
    exact ⟨reached, (g.trans g').trans g''⟩

/-! ## Invariants -/

/-- A property of frames, stacks and worlds that steps keep, that passes on into the frames
that are entered, and that is found again when they are left. -/
structure Invariant (D : Dialect) (I : Frame → List Invocation → World → Prop) : Prop where
  step : ∀ {f calls w w'}, Ready D f calls w → I f calls w → Step D f.scope w w' → I f calls w'
  enter : ∀ {f calls w f' calls' w'}, Ready D f calls w → I f calls w →
    Enter f calls w f' calls' w' → I f' calls' w'
  leave : ∀ {f calls w f' calls' w' w''}, Ready D f calls w → I f calls w →
    Enter f calls w f' calls' w' → w'.Grows w'' → Ready D f' calls' w'' → I f' calls' w'' →
    I f calls w''

namespace Invariant

variable {I : Frame → List Invocation → World → Prop}

theorem trace (inv : Invariant D I) {f : Frame} {calls : List Invocation}
    (h : Trace D f calls w w₁) : Ready D f calls w → I f calls w → I f calls w₁ := by
  induction h with
  | refl => exact fun _ i => i
  | step s _ ih =>
    intro ready i
    obtain ⟨sound, g⟩ := s.kept ready.sound ready.frame.scope
    exact ih (ready.later sound g) (inv.step ready i s)
  | inner e t _ ih ih' =>
    intro ready i
    obtain ⟨inside, g⟩ := e.kept ready
    obtain ⟨sound, g'⟩ := t.kept inside
    exact ih' (ready.later sound (g.trans g'))
      (inv.leave ready i e g' (t.ready inside) (ih inside (inv.enter ready i e)))

/-- What holds at the start of a run holds at every moment of it. -/
theorem reach (inv : Invariant D I) {f f' : Frame} {calls calls' : List Invocation}
    (h : Reach D f calls w f' calls' w₁) : Ready D f calls w → I f calls w → I f' calls' w₁ := by
  induction h with
  | here t => exact fun ready i => inv.trace t ready i
  | inside t e _ ih =>
    intro ready i
    have inside := t.ready ready
    exact ih (e.kept inside).1 (inv.enter inside (inv.trace t ready i) e)

/-- A property of worlds alone. -/
theorem of_world {P : World → Prop}
    (step : ∀ {f calls w w'}, Ready D f calls w → P w → Step D f.scope w w' → P w')
    (enter : ∀ {f calls w f' calls' w'}, Ready D f calls w → P w →
      Enter f calls w f' calls' w' → P w') : Invariant D fun _ _ w => P w where
  step := step
  enter := enter
  leave _ _ _ _ _ i := i

theorem and {J : Frame → List Invocation → World → Prop} (i : Invariant D I) (j : Invariant D J) :
    Invariant D fun f calls w => I f calls w ∧ J f calls w where
  step ready h step := ⟨i.step ready h.1 step, j.step ready h.2 step⟩
  enter ready h enter := ⟨i.enter ready h.1 enter, j.enter ready h.2 enter⟩
  leave ready h enter g ready' h' :=
    ⟨i.leave ready h.1 enter g ready' h'.1, j.leave ready h.2 enter g ready' h'.2⟩

theorem all {ι : Sort*} {I : ι → Frame → List Invocation → World → Prop}
    (i : ∀ x, Invariant D (I x)) : Invariant D fun f calls w => ∀ x, I x f calls w where
  step ready h step x := (i x).step ready (h x) step
  enter ready h enter x := (i x).enter ready (h x) enter
  leave ready h enter g ready' h' x := (i x).leave ready (h x) enter g ready' (h' x)

end Invariant

end ScopeLang
