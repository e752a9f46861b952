/-
# The typed store

Every variable holds null or a value that its declared type accepts.  The
evaluator checks a value before it stores it, but most variables are not stored
by a check: they are captured, copied with their scope, or put into an instance.
So the proof goes by descent.  After any step, a variable either looks like one
of the old world, with the same declaration and a value of the same type, or it
is the one that has just been written, and then its value was accepted.

A declared type accepts whatever it accepted before, since the pool of types
only grows.  Hence what looks like an old variable is as well typed as that one.
-/
import ScopeLang.Proofs.Hosts
import ScopeLang.Proofs.Sessions

namespace ScopeLang

variable {D : Dialect} {w w' : World} {s : ScopeId}

/-! ## Descent -/

/-- A variable that looks like some variable of an earlier world. -/
def Binding.Descends (w w' : World) (b : Binding) : Prop :=
  ∃ t, ∃ a ∈ (w.scope t).bindings.values, a.Alike w w' b

/-- All variables look like variables of an earlier world. -/
def World.Inherits (w w' : World) : Prop :=
  ∀ t, ∀ b ∈ (w'.scope t).bindings.values, b.Descends w w'

/-- The types of values do not depend on scopes. -/
theorem Binding.Descends.setScope {b : Binding} (h : b.Descends w w') (t : ScopeId) (x : Scope) :
    b.Descends w (w'.setScope t x) := by
  obtain ⟨u, a, ha, like⟩ := h
  exact ⟨u, a, ha, like.flags, like.declared, like.value.kind, like.value.type⟩

namespace World.Inherits

/-- The variables are those that were there before. -/
theorem of_same (sound : Sound D w) (g : w.Grows w')
    (same : ∀ t, (w'.scope t).bindings = (w.scope t).bindings) : w.Inherits w' := by
  intro t b hb
  rw [same] at hb
  exact ⟨t, b, hb, rfl, rfl, g.alike sound (sound.binding hb)⟩

theorem trans {w₁ w₂ : World} (h : w.Inherits w₁) (i : w₁.Inherits w₂) : w.Inherits w₂ := by
  intro t b hb
  obtain ⟨u, a, ha, flags, declared, like⟩ := i t b hb
  obtain ⟨v, x, hx, flags', declared', like'⟩ := h u a ha
  exact ⟨v, x, hx, flags.trans flags', declared.trans declared', like'.trans like⟩

theorem of_quiet (sound : Sound D w) (q : Quiet w w') : w.Inherits w' := by
  intro t b hb
  by_cases old : t.In w.count
  · rw [q.scope old] at hb
    exact ⟨t, b, hb, rfl, rfl, q.grows.alike sound (sound.binding hb)⟩
  · by_cases new : t.In w'.count
    · obtain ⟨u, -, like⟩ := q.copy new old
      exact ⟨u, like.bindings b hb⟩
    · rw [World.scope_default new] at hb
      exact absurd hb List.not_mem_nil

theorem derive (sound : Sound D w) (t : ScopeId) (kind : ScopeKind) (label : String)
    (parent : Option ScopeId) : w.Inherits (w.derive t kind label parent).2 := by
  intro u b hb
  rw [World.derive_eq, World.scope_newScope] at hb
  split at hb
  · exact absurd hb List.not_mem_nil
  · exact ⟨u, b, hb, rfl, rfl, (w.grows_derive t kind label parent).alike sound (sound.binding hb)⟩

/-- A scope is given variables that look like old ones. -/
theorem setScope (h : w.Inherits w') {t : ScopeId} {x : Scope}
    (new : ∀ b ∈ x.bindings.values, b.Descends w w') : w.Inherits (w'.setScope t x) := by
  intro u b hb
  rw [World.scope_setScope] at hb
  split at hb
  · exact (new b hb).setScope t x
  · exact (h u b hb).setScope t x

theorem of_seeds {tbl : Table Binding} (sound : Sound D w) (seeds : Seeds D w tbl w')
    {t : ScopeId} {x : Scope} (e : x.bindings = tbl) : w.Inherits (w'.setScope t x) := by
  refine (of_quiet sound seeds.copying.quiet).setScope fun b hb => ?_
  rw [e] at hb
  obtain ⟨u, a, ha, r⟩ := seeds.source b hb
  exact ⟨u, a, ha, r.flags, r.declared, r.value.alike⟩

/-- A new instance stands for nothing that was there before. -/
theorem newInstance {w₁ : World} (h : w.Inherits w₁) (sound : Sound D w₁) (x : Instance) :
    w.Inherits (w₁.newInstance x).2 :=
  h.trans (of_same sound (w₁.grows_newInstance x) fun _ => rfl)

end World.Inherits

/-! ## Steps -/

theorem Value.Alike.isNull {v v' : Value} (h : v.Alike w w' v') : v'.isNull = v.isNull := by
  have null : ∀ d : Datum, d.isNull = (d.kind == .null) := fun d => by
    rcases d with _ | _ | (_ | _ | _ | _) | _ | _ | _ | _ | _ | _ | _ | _ | _ <;> rfl
  have kind : v'.datum.kind = v.datum.kind := h.kind
  rw [Value.isNull, Value.isNull, null, null, kind]

/-- What looks like a well-typed variable is well typed, also after the pool has grown. -/
theorem World.Accepts.of_alike {a b : Binding} {t u : ScopeId} (sound : Sound D w)
    (sound' : Sound D w') (g : w.Grows w') (like : a.Alike w w' b)
    (h : w.Accepts t a.declared a.value) : w'.Accepts u b.declared b.value := by
  rcases h with null | fits
  · exact .inl (like.value.isNull.trans null)
  · refine .inr ?_
    rw [sound.admits_eq] at fits
    rw [sound'.admits_eq, like.declared, like.value.type, (g.context sound.context).options]
    exact (g.context sound.context).pool.admits fits

/-- Storing an accepted value in a variable. -/
theorem Sound.descends_store (sound : Sound D w) {t : ScopeId} {name : String} {b : Binding}
    {v : Value} (flags : b.flags.isMutable = true → D.sharing) (ok : v.Ok D w.count)
    (fits : w.Accepts t b.declared v) {u : ScopeId} {c : Binding}
    (hc : c ∈ ((w.store t name b v).scope u).bindings.values) :
    c.Descends w (w.store t name b v) ∨
      (w.store t name b v).Accepts u c.declared c.value := by
  obtain ⟨copying, -, like⟩ := b.prepare_spec sound flags ok
  have stored := sound.store t name flags ok
  have grown := sound.grows_store t name flags ok
  simp only [World.store, World.setVariable] at hc stored grown ⊢
  generalize b.prepare v w = prepared at copying like hc stored grown ⊢
  rw [World.scope_setScope] at hc
  split at hc
  · rcases Table.mem_values_insert hc with rfl | hc
    · -- what has been written looks like the value that was accepted
      refine .inr (World.Accepts.of_alike (a := { b with value := v }) sound stored grown ?_ fits)
      exact ⟨rfl, rfl, like.kind, like.type⟩
    · exact .inl ((World.Inherits.of_quiet sound copying.quiet t c hc).setScope _ _)
  · exact .inl ((World.Inherits.of_quiet sound copying.quiet u c hc).setScope _ _)

theorem Sound.inherits_detachAs (sound : Sound D w) (hs : s.In w.count) {kind : ScopeKind}
    {names : List String} {label : String} : w.Inherits (w.detachAs s kind names label).2 := by
  have older : ∀ p, some s = some p → p.In w.count := fun p hp => Option.some.inj hp ▸ hs
  rw [World.detachAs_eq]
  exact (World.Inherits.derive sound _ _ _ _).trans
    (.of_seeds (sound.derive _ _ _ _ older) (sound.detach_seeds hs _ _ _ _ older) rfl)

theorem Sound.inherits_isolate (sound : Sound D w) (hs : s.In w.count) {names : List String}
    {label : String} : w.Inherits (w.isolate s names label).2 := by
  have older : ∀ p : ScopeId, none = some p → p.In w.count := nofun
  rw [World.isolate_eq]
  exact (World.Inherits.derive sound _ _ _ _).trans
    (.of_seeds (sound.derive _ _ _ _ older) (sound.detach_seeds hs _ _ _ _ older) rfl)

theorem Sound.inherits_makeInstance (sound : Sound D w) {c : ClassId} (hc : c.In w.count) :
    w.Inherits (w.makeInstance c).2 := by
  have seeds := sound.members_seeds hc
  have derived := sound.emptyMembers hc
  have first : w.Inherits (w.emptyMembers c).2 := .derive sound _ _ _ _
  -- the new instance may as well be made before its scope is furnished
  have swap : (w.makeInstance c).2 =
      ((w.members c).2.newInstance
        { classId := c, scope := (w.emptyMembers c).1, native := none }).2.furnish
          (w.emptyMembers c).1 (w.members c).1 (w.scope (w.classOf c).scope).functions := rfl
  rw [swap]
  refine first.trans (World.Inherits.setScope ?_ fun b hb => ?_)
  · exact (World.Inherits.of_quiet derived seeds.copying.quiet).newInstance seeds.copying.sound _
  · obtain ⟨u, a, ha, r⟩ := seeds.source b hb
    have same := ((w.members c).2.grows_newInstance
      { classId := c, scope := (w.emptyMembers c).1, native := none }).alike seeds.copying.sound
        r.value.ok
    exact ⟨u, a, ha, r.flags, r.declared, r.value.alike.trans same⟩

theorem Sound.inherits_addClass (sound : Sound D w) {home : ScopeId} (hs : home.In w.count)
    {name accessor : String} {captured : Option ScopeId} :
    w.Inherits (w.addClass home name accessor captured).2 := by
  have derived := sound.derive home .classScope name (some home)
    fun p hp => Option.some.inj hp ▸ hs
  rw [World.addClass_eq]
  refine (World.Inherits.derive sound home .classScope name (some home)).trans ?_
  exact .of_same derived ((World.grows_setPool _ (TypePool.grows_declare _ _)).trans
    (World.grows_newClass _ _)) fun _ => rfl

/-- After a step a variable looks like an old one, or it has just been given an accepted
value. -/
theorem Step.descends (checked : ¬ D.hostWrites) (h : Step D s w w') (sound : Sound D w)
    (hs : s.In w.count) (t : ScopeId) {b : Binding} (hb : b ∈ (w'.scope t).bindings.values) :
    b.Descends w w' ∨ w'.Accepts t b.declared b.value := by
  have g := (h.kept sound hs).2
  cases h with
  | contents h => exact .inl (World.Inherits.of_quiet sound (h.copying sound).quiet t b hb)
  | native _ c => exact .inl (World.Inherits.of_quiet sound c.quiet t b hb)
  | hostWrite _ _ writes => exact absurd writes checked
  | overloads => exact .inl (World.Inherits.of_same sound g (fun _ => rfl) t b hb)
  | pool => exact .inl (World.Inherits.of_same sound g (fun _ => rfl) t b hb)
  | addAlias => exact .inl (World.Inherits.of_same sound g (w.bindings_setScope rfl) t b hb)
  | relink => exact .inl (World.Inherits.of_same sound g (w.bindings_setScope rfl) t b hb)
  | declare _ _ flags ok fits => exact sound.descends_store flags ok fits hb
  | assign _ found _ ok fits =>
    have flags := (sound.scope _).flags _ (World.mem_values_of_localBinding? found)
    exact sound.descends_store flags ok fits hb
  | detach => exact .inl (sound.inherits_detachAs hs t b hb)
  | isolate => exact .inl (sound.inherits_isolate hs t b hb)
  | newFunction => exact .inl (World.Inherits.of_same sound g (fun _ => rfl) t b hb)
  | newMethod => exact .inl (World.Inherits.of_same sound g (fun _ => rfl) t b hb)
  | newClass _ _ home _ => exact .inl (sound.inherits_addClass home t b hb)
  | register =>
    exact .inl (World.Inherits.of_same sound g (fun t => w.bindings_registerFunction _ t _ _) t b hb)
  | registerClass =>
    exact .inl (World.Inherits.of_same sound g (fun t => w.bindings_setClassTable _ t _) t b hb)
  | makeInstance hc => exact .inl (sound.inherits_makeInstance hc t b hb)

/-! ## The invariant -/

/-- Every variable holds a value that its declared type accepts, or null. -/
def World.Typed (w : World) : Prop :=
  ∀ t, ∀ b ∈ (w.scope t).bindings.values, w.Accepts t b.declared b.value

theorem Step.typed (checked : ¬ D.hostWrites) (h : Step D s w w') (sound : Sound D w)
    (hs : s.In w.count) (typed : w.Typed) : w'.Typed := by
  obtain ⟨sound', g⟩ := h.kept sound hs
  intro t b hb
  rcases h.descends checked sound hs t hb with ⟨u, a, ha, like⟩ | fits
  · exact .of_alike sound sound' g like (typed u a ha)
  · exact fits

theorem typed_invariant (checked : ¬ D.hostWrites) : Invariant D fun _ _ w => w.Typed := by
  refine .of_world (fun ready typed h => h.typed checked ready.sound ready.frame.scope typed) ?_
  intro f calls w f' calls' w' ready typed h
  obtain ⟨inside, g⟩ := h.kept ready
  cases h with
  | @scope kind label _ =>
    intro t b hb
    obtain ⟨u, a, ha, like⟩ :=
      World.Inherits.derive ready.sound f.scope kind label (some f.scope) t b hb
    exact .of_alike ready.sound inside.sound g like (typed u a ha)
  | classBody name accessor home hides =>
    exact Step.typed (s := f.scope) checked (.newClass name accessor home (.inl ⟨rfl, hides⟩))
      ready.sound ready.frame.scope typed
  | invocation => exact typed
  | receiver => exact typed

/-! ## Reached worlds -/

/-- Every variable with a valid declared type other than `Any` holds null or a value that
matches this type under some options. -/
def World.TypedStore (w : World) (options : MatchOptions) : Prop :=
  ∀ s, ∀ b ∈ (w.scope s).bindings.values, b.declared.isValid = true → b.declared ≠ .any →
    b.value.isNull = true ∨
      ((w.poolOf s).fit options b.declared (w.valueType b.value)).isSome = true

theorem World.Typed.accepted (sound : Sound D w) (typed : w.Typed) :
    w.TypedStore (w.typeContext ⟨0⟩).options := by
  intro s b hb valid known
  refine (typed s b hb).imp_right fun fits => ?_
  rw [World.admits, TypePool.admits, valid, beq_eq_false_iff_ne.mpr known] at fits
  rw [← (sound.scope s).types]
  exact fits

theorem typed_start (config : Config) (host : Host) : (Session.start config host).world.Typed := by
  intro t b hb
  rw [Session.bindings_start] at hb
  exact absurd hb List.not_mem_nil

/-- At every moment of every program, and with any host whose bodies write to no variables, the
variables of all scopes are typed. -/
theorem Session.Reachable.typedStore {natives : String → Prop} {s : Session}
    (h : s.Reachable (.checked natives)) (obeys : s.host.Obeys (.checked natives)) (fuel : Nat)
    (program : List Statement) :
    (s.reached fuel program).world.TypedStore s.config.options := by
  have marks := Dialect.admits_of_sharing (D := .checked natives) trivial (blockMarks program)
  obtain ⟨f, ready, typed⟩ := h.reached (typed_invariant id) typed_start obeys marks fuel
  rw [← h.reached_options obeys marks fuel]
  exact typed.accepted ready.sound

/-- A session whose host has registered a function that returns its argument. -/
def Session.withIdentity : Session :=
  let s := start {} Kit.host
  let value : Parameter := ⟨"value", some (.named "Int" []), none, false, {}⟩
  { s with world := s.world.addNative s.root "id" [value] none "first" }

/-- A program that declares a variable `x` of type `Int` with the value of `id(5)`. -/
def declareByCall : List Statement :=
  [⟨.declare ⟨"x", some (.named "Int" []),
    some (.ofTerm (.call "id" [⟨none, .ofTerm (.literal (.int 5))⟩])), {}⟩, Span.none⟩]

theorem typedStore_declareByCall :
    (((Session.withIdentity.reached 40 declareByCall).world.localBinding? ⟨0⟩ "x").any fun b =>
      b.declared.isValid && b.declared != .any && !b.value.isNull) = true ∧
    (Session.withIdentity.reached 40 declareByCall).world.TypedStore {} := by
  refine ⟨by decide +kernel, ?_⟩
  have reachable : Session.withIdentity.Reachable (.checked (· = "first")) :=
    .act (.start {} Kit.host) (.function "id" none "first"
      ⟨rfl, fun _ _ => Dialect.admits_of_sharing trivial _⟩)
  refine Session.Reachable.typedStore reachable (Kit.host_obeys fun body h => .inr ?_) 40 declareByCall
  rw [show body = "first" from h]
  decide

end ScopeLang
