/-
# Who belongs to a built-in type

The types of values are compared by their ids, and the ids come from one table of names.
It starts with the built-in types, and every class that the program or the host makes
declares its own name there.  So the table never forgets whose name it is that an
instance goes by (`World.Registered`): a value that passes for a built-in type, or
for a narrower number, is of this type itself, or its class has taken the name.

Nothing keeps a class from taking the name of a built-in type.
-/
import ScopeLang.Proofs.Kinship
import ScopeLang.Proofs.Naming

namespace ScopeLang

variable {D : Dialect} {w w' : World} {s : ScopeId}

/-! ## Built-in types and their ids -/

namespace Primitive

/-- Whether values of the type `a` may be stored where the numeric type `b` is declared. -/
def Widens (a b : Primitive) : Prop := ∃ m n, a.rank? = some m ∧ b.rank? = some n ∧ m < n

end Primitive

/-- A value that fits a built-in type is of this type, or of one that widens to it. -/
theorem TypePool.of_fitNominal {P : Primitive} {t : TypeId} {options : MatchOptions} {a : Fit}
    (fits : fitNominal P.id t options = some a) :
    t = P.id ∨ options.widening = true ∧ ∃ Q : Primitive, t = Q.id ∧ Q.Widens P := by
  unfold fitNominal at fits
  split at fits
  · rename_i same
    exact .inl same
  · split at fits
    · rename_i widening
      refine .inr ⟨widening, ?_⟩
      split at fits
      · rename_i m n rank rank'
        split at fits
        · rename_i less
          obtain ⟨Q, id, rankQ⟩ := Option.bind_eq_some_iff.mp rank
          rw [rank?, P.ofId?_id, Option.bind_some] at rank'
          exact ⟨Q, Primitive.eq_of_ofId? id, m, n, rankQ, rank', less⟩
        · cases fits
      · cases fits
    · cases fits

/-! ## Names of classes in the registry -/

/-- The registry has the built-in types, and the names of all classes. -/
structure World.Registered (w : World) : Prop where
  builtin : TypePool.initial.Grows w.pool
  classes : ∀ {c}, c.In w.count →
    w.pool.registry.name? (w.classOf c).type = some (w.classOf c).name

/-- All scopes share one pool. -/
theorem Sound.poolOf_eq (sound : Sound D w) (s : ScopeId) : w.poolOf s = w.pool := by
  rw [World.poolOf, World.typesOf, (sound.scope s).types, World.pool]

/-- A new pool is that of all scopes. -/
theorem Sound.pool_setPool (sound : Sound D w) (s : ScopeId) (p : TypePool) :
    (w.setPool s p).pool = p := by
  have read := w.typeContext_setTypeContext ⟨0⟩ ⟨0⟩ { w.typesOf s with pool := p }
  rw [if_pos ⟨rfl, sound.context⟩] at read
  rw [World.pool, World.setPool, (sound.scope s).types, read]

namespace World.Registered

/-- Names are kept, so that only those of new classes matter. -/
theorem extend (h : w.Registered) (sound : Sound D w) (g : w.Grows w')
    (new : ∀ {c}, c.In w'.count → ¬ c.In w.count →
      w'.pool.registry.name? (w'.classOf c).type = some (w'.classOf c).name) :
    w'.Registered where
  builtin := h.builtin.trans (g.context sound.context).pool
  classes {c} there := by
    by_cases old : c.In w.count
    · rw [g.classOf old]
      exact (g.context sound.context).pool.name? (h.classes old)
    · exact new there old

theorem of_sameClasses (h : w.Registered) (sound : Sound D w) (g : w.Grows w')
    (same : w'.classes = w.classes) : w'.Registered := by
  refine h.extend sound g fun {c} there new => absurd ?_ new
  simpa [Handle.In, World.count, same] using there

/-- A new class comes with a name that has been declared. -/
theorem newClass (h : w.Registered) (sound : Sound D w) {x : Class}
    (named : w.pool.registry.name? x.type = some x.name) : (w.newClass x).2.Registered := by
  refine h.extend sound (World.grows_newClass _ _) fun {c} there new => ?_
  have newest : c.index = w.count .classObject := by
    rw [World.count_newClass] at there
    exact Census.index_of_grow there new
  rw [World.classOf_newClass, if_pos newest]
  exact named

theorem addClass (h : w.Registered) (sound : Sound D w) {home : ScopeId} (hs : home.In w.count)
    (name accessor : String) (captured : Option ScopeId) :
    (w.addClass home name accessor captured).2.Registered := by
  have derived := sound.derive home .classScope name (some home)
    fun p hp => Option.some.inj hp ▸ hs
  have kept : (w.derive home .classScope name (some home)).2.Registered :=
    h.of_sameClasses sound (w.grows_derive ..) rfl
  rw [World.addClass_eq]
  generalize w.derive home .classScope name (some home) = d at derived kept ⊢
  have grown := World.grows_setPool d.2 ((d.2.poolOf home).grows_declare name)
  refine (kept.of_sameClasses derived grown rfl).newClass (derived.setPool _ _) ?_
  rw [derived.pool_setPool]
  exact (d.2.poolOf home).name?_declare name

end World.Registered

/-- A step makes no class, or it makes one and does nothing else. -/
theorem Step.classes (h : Step D s w w') (sound : Sound D w) (hs : s.In w.count) :
    w'.classes = w.classes ∨ ∃ home name accessor captured, home.In w.count ∧
      w' = (w.addClass home name accessor captured).2 := by
  have stored : ∀ {t : ScopeId} {name : String} {b : Binding} {v : Value},
      (b.flags.isMutable = true → D.sharing) → v.Ok D w.count →
        (w.store t name b v).classes = w.classes := fun {_ _ b _} flags ok =>
    (b.prepare_spec sound flags ok).1.quiet.classes
  cases h with
  | newClass name accessor home _ => exact .inr ⟨_, name, accessor, _, home, rfl⟩
  | contents h => exact .inl (h.copying sound).quiet.classes
  | native _ c => exact .inl c.quiet.classes
  | hostWrite _ _ _ flags ok => exact .inl (stored flags ok)
  | declare _ _ flags ok _ => exact .inl (stored flags ok)
  | assign _ found _ ok _ =>
    exact .inl (stored ((sound.scope _).flags _ (World.mem_values_of_localBinding? found)) ok)
  | detach names label _ =>
    refine .inl ?_
    rw [World.detachAs_eq]
    exact (sound.detach_seeds hs _ names label (some s)
      fun p hp => Option.some.inj hp ▸ hs).copying.quiet.classes
  | isolate names label =>
    refine .inl ?_
    rw [World.isolate_eq]
    exact (sound.detach_seeds hs _ names label none (by simp)).copying.quiet.classes
  | makeInstance hc =>
    refine .inl ?_
    rw [World.makeInstance_eq]
    exact (sound.members_seeds hc).copying.quiet.classes
  | overloads => exact .inl rfl
  | pool => exact .inl rfl
  | addAlias => exact .inl rfl
  | relink => exact .inl rfl
  | newFunction => exact .inl rfl
  | newMethod => exact .inl rfl
  | register name =>
    refine .inl ?_
    simp only [World.registerFunction]
    split <;> rfl
  | registerClass name =>
    refine .inl ?_
    simp only [World.setClassTable]
    split <;> rfl

theorem registered_invariant : Invariant D fun _ _ w => w.Registered := by
  refine .of_world (fun ready h step => ?_) fun ready h enter => ?_
  · have g := (step.kept ready.sound ready.frame.scope).2
    rcases step.classes ready.sound ready.frame.scope with
      same | ⟨home, name, accessor, captured, hs, rfl⟩
    · exact h.of_sameClasses ready.sound g same
    · exact h.addClass ready.sound hs name accessor captured
  · cases enter with
    | scope label _ => exact h.of_sameClasses ready.sound (World.grows_derive ..) rfl
    | classBody name accessor home => exact h.addClass ready.sound home name accessor _
    | invocation => exact h
    | receiver => exact h

theorem registered_start (config : Config) (host : Host) :
    (Session.start config host).world.Registered where
  builtin := .refl _
  classes there := absurd there (Session.vacant_start config host (by simp) (by simp))

/-! ## Values of a built-in type -/

/-- A value that goes by the name of a built-in type: it is of this type, or an instance of a
class with this name. -/
def World.Bears (w : World) (v : Value) (P : Primitive) : Prop :=
  v.datum.primitive? = some P ∨ ∃ i, v.object? = some i ∧ w.className i = P.name

/-- The type of a value is built in only if the value bears its name. -/
theorem World.Registered.bears (h : w.Registered) (sound : Sound D w) {v : Value} {P : Primitive}
    (there : ∀ i, v.object? = some i → i.In w.count) (id : w.typeId v = P.id) : w.Bears v P := by
  unfold World.typeId at id
  split at id
  · rename_i i object
    have instance_ : v.object? = some i := by rw [Value.object?, object]
    have named := h.classes (sound.classId (there i instance_))
    rw [id, h.builtin.name? P.name?_id] at named
    exact .inr ⟨i, instance_, (Option.some.inj named).symm⟩
  · cases primitive : v.datum.primitive? with
    | none =>
      rw [primitive] at id
      cases P <;> cases id
    | some Q =>
      rw [primitive] at id
      exact .inl (primitive.trans (congrArg some (Primitive.id_injective id)))

/-- What is accepted for a built-in type bears its name, or, where numbers are widened, that of a
narrower numeric type. -/
theorem World.Registered.accepted (h : w.Registered) (sound : Sound D w) {v : Value}
    {P : Primitive} {sig : SigId} {options : MatchOptions} {a : Fit}
    (there : ∀ i, v.object? = some i → i.In w.count)
    (fits : (w.poolOf s).fit options sig (w.valueType v) = some a) :
    ((w.poolOf s).get? sig = some (.nominal P.id) →
      w.Bears v P ∨ options.widening = true ∧ ∃ Q : Primitive, Q.Widens P ∧ w.Bears v Q) ∧
    ∀ arguments, (w.poolOf s).get? sig = some (.container P.id arguments) → w.Bears v P := by
  constructor
  · intro nominal
    simp only [TypePool.fit, TypePool.fitWithin, nominal] at fits
    rcases TypePool.of_fitNominal fits with same | ⟨widening, Q, same, widens⟩
    · exact .inl (h.bears sound there same)
    · exact .inr ⟨widening, Q, widens, h.bears sound there same⟩
  · intro arguments container
    simp only [TypePool.fit, TypePool.fitWithin, container] at fits
    split at fits
    · rename_i same
      exact h.bears sound there same
    · cases fits

/-- At every moment of every program, with any host whose bodies work by the steps that are allowed
to them, this is all that is accepted for a built-in type: no instance of a class whose name is not
that of a built-in type is. -/
theorem Session.Reachable.primitives_bear {natives : String → Prop} {S : Session}
    (h : S.Reachable (.full natives)) (obeys : S.host.Obeys (.full natives)) (fuel : Nat)
    (program : List Statement) (s : ScopeId) {v : Value}
    (there : ∀ i, v.object? = some i → i.In (S.reached fuel program).world.count)
    {P : Primitive} {sig : SigId} {options : MatchOptions} {a : Fit}
    (fits : ((S.reached fuel program).world.poolOf s).fit options sig
      ((S.reached fuel program).world.valueType v) = some a) :
    (((S.reached fuel program).world.poolOf s).get? sig = some (.nominal P.id) →
      (S.reached fuel program).world.Bears v P ∨ options.widening = true ∧
        ∃ Q : Primitive, Q.Widens P ∧ (S.reached fuel program).world.Bears v Q) ∧
    ∀ arguments, ((S.reached fuel program).world.poolOf s).get? sig =
      some (.container P.id arguments) → (S.reached fuel program).world.Bears v P := by
  have marks := Dialect.admits_of_sharing (D := .full natives) trivial (blockMarks program)
  obtain ⟨f, ready, registered⟩ :=
    h.reached registered_invariant registered_start obeys marks fuel
  exact registered.accepted ready.sound there fits

/-- A program that declares a variable of type `Double` with the value 5. -/
def declareWidened : List Statement :=
  [⟨.declare ⟨"x", some (.named "Double" []), some (.ofTerm (.literal (.int 5))), {}⟩, Span.none⟩]

/-- The value is accepted because its type is narrower. -/
theorem primitives_bear_declareWidened :
    let w := ((Session.start {} Kit.host).reached 20 declareWidened).world
    ∃ b, w.localBinding? ⟨0⟩ "x" = some b ∧
      (w.poolOf ⟨0⟩).get? b.declared = some (.nominal Primitive.double.id) ∧
      (w.poolOf ⟨0⟩).fit {} b.declared (w.valueType b.value) = some (.widened 3) ∧
      ∃ Q : Primitive, Q.Widens .double ∧ w.Bears b.value Q := by
  intro w
  have obeys : Kit.host.Obeys (.full fun _ => True) := Kit.host_obeys fun _ _ => .inl trivial
  have start : (Session.start {} Kit.host).Reachable (.full fun _ => True) := .start {} Kit.host
  obtain ⟨b, found⟩ := Option.isSome_iff_exists.mp
    (show (w.localBinding? ⟨0⟩ "x").isSome = true by decide +kernel)
  have stored : (w.localBinding? ⟨0⟩ "x").all (fun b => decide (b.value.object? = none ∧
      b.value.datum.primitive? = some .int ∧
      (w.poolOf ⟨0⟩).get? b.declared = some (.nominal Primitive.double.id) ∧
      (w.poolOf ⟨0⟩).fit {} b.declared (w.valueType b.value) = some (.widened 3))) = true := by
    decide +kernel
  rw [found, Option.all_some, decide_eq_true_iff] at stored
  obtain ⟨scalar, int, nominal, fits⟩ := stored
  have no : ∀ i, b.value.object? ≠ some i := fun i object => by
    rw [scalar] at object
    cases object
  refine ⟨b, found, nominal, fits, ?_⟩
  rcases (start.primitives_bear obeys 20 declareWidened ⟨0⟩ (fun i object => absurd object (no i))
    fits).1 nominal with (own | ⟨i, object, -⟩) | ⟨-, narrower⟩
  · rw [int] at own
    cases own
  · exact absurd object (no i)
  · exact narrower

/-- A program with a class that is named like a built-in type, whose instances are the values of
two variables of built-in types. -/
def classNamedInt : List Statement :=
  [⟨.classDef ⟨"Int", none, [methodNamed "construct" []]⟩, Span.none⟩,
    ⟨.declare ⟨"x", some (.named "Int" []), some (.ofTerm (.call "Int" [])), {}⟩, Span.none⟩,
    ⟨.declare ⟨"y", some (.named "Double" []), some (.ofTerm (.call "Int" [])), {}⟩, Span.none⟩]

/-- A class may take the name of a built-in type, and its instances are accepted for this type and
those that it widens to. -/
theorem not_primitive_classNamedInt :
    let w := ((Session.start {} Kit.host).reached 60 classNamedInt).world
    ∃ b c, w.localBinding? ⟨0⟩ "x" = some b ∧ w.localBinding? ⟨0⟩ "y" = some c ∧
      b.value.datum.primitive? = none ∧ c.value.datum.primitive? = none ∧
      (w.poolOf ⟨0⟩).get? b.declared = some (.nominal Primitive.int.id) ∧
      (w.poolOf ⟨0⟩).get? c.declared = some (.nominal Primitive.double.id) ∧
      (w.poolOf ⟨0⟩).fit ⟨true, false⟩ b.declared (w.valueType b.value) = some .exact ∧
      (w.poolOf ⟨0⟩).fit {} c.declared (w.valueType c.value) = some (.widened 3) := by
  intro w
  obtain ⟨b, found⟩ := Option.isSome_iff_exists.mp
    (show (w.localBinding? ⟨0⟩ "x").isSome = true by decide +kernel)
  obtain ⟨c, found'⟩ := Option.isSome_iff_exists.mp
    (show (w.localBinding? ⟨0⟩ "y").isSome = true by decide +kernel)
  have int : (w.localBinding? ⟨0⟩ "x").all (fun b => decide (b.value.datum.primitive? = none ∧
      (w.poolOf ⟨0⟩).get? b.declared = some (.nominal Primitive.int.id) ∧
      (w.poolOf ⟨0⟩).fit ⟨true, false⟩ b.declared (w.valueType b.value) = some .exact)) = true := by
    decide +kernel
  have double : (w.localBinding? ⟨0⟩ "y").all (fun c => decide (c.value.datum.primitive? = none ∧
      (w.poolOf ⟨0⟩).get? c.declared = some (.nominal Primitive.double.id) ∧
      (w.poolOf ⟨0⟩).fit {} c.declared (w.valueType c.value) = some (.widened 3))) = true := by
    decide +kernel
  rw [found, Option.all_some, decide_eq_true_iff] at int
  rw [found', Option.all_some, decide_eq_true_iff] at double
  obtain ⟨instance_, nominal, fits⟩ := int
  obtain ⟨instance', nominal', fits'⟩ := double
  exact ⟨b, c, found, found', instance_, instance', nominal, nominal', fits, fits'⟩

end ScopeLang
