/-
# Class definitions are all or nothing

The body of a class runs in a scope that is made for it, below one with copies of
the variables that it names.  Nothing registers the class before the body has
ended, and nothing undoes what the body has done when it fails: it is harmless
because the code in it is elsewhere than in the scopes that were there
(`World.Elsewhere`) and has none of them in sight that waits (`World.Inside`).

So a definition that fails leaves every scope in which statements are run
`Intact`, and one that succeeds does so up to the new class.  Two ways out are
left.  A default of the host, evaluated against its receiver, may see the root.
And the variables of a class whose own body comes to the definition may be
assigned to through an instance of that class, where some native has made one
before the class is registered; the class then no longer `Waits`.
-/
import ScopeLang.Proofs.Hygiene

namespace ScopeLang

variable {D : Dialect} {w w₀ w₁ w' : World} {s t : ScopeId}

/-! ## Scopes that stay -/

/-- The scope is still as it was, up to assignments to its variables; as long as it waits, there are
none. -/
structure Scope.Stays (x : Scope) (w : World) (t : ScopeId) : Prop where
  shape : x.SameShape (w.scope t)
  tables : w.Waits t → x.SameTables (w.scope t)

/-- All scopes in which statements are run stay. -/
def World.Intact (w w' : World) : Prop :=
  ∀ t, t.In w.count → (w.scope t).kind.runsStatements = true → (w.scope t).Stays w' t

theorem World.Intact.refl (w : World) : w.Intact w := fun _ _ _ => ⟨.of_eq rfl, fun _ => .refl _⟩

/-- A scope that has globals of its own if it is a root. -/
def Scope.Roots (x : Scope) : Prop :=
  x.kind = .root → ∃ functions classes, x.globals = .owned functions classes

/-- A new class under a name that was free is all that has changed in the scopes in which
statements are run. -/
def World.Defines (w : World) (s : ScopeId) (name : String) (w' : World) : Prop :=
  ∃ c, ¬ c.In w.count ∧ (w.classTable s).get? name = none ∧
    (w.setClassTable s ((w.classTable s).insert name c)).Intact w'

theorem World.Intact.setHeld (intact : w.Intact w') (held : List Cell) :
    w.Intact { w' with held } := fun t old live =>
  ⟨(intact t old live).shape, (intact t old live).tables⟩

theorem World.Defines.setHeld {name : String} (h : w.Defines s name w') (held : List Cell) :
    w.Defines s name { w' with held } := by
  obtain ⟨c, new, free, intact⟩ := h
  exact ⟨c, new, free, intact.setHeld held⟩

/-! ## Where classes are registered -/

/-- A scope in which other classes are registered, next to the functions that a root has. -/
def Scope.withClasses (x : Scope) (functions : FunctionTable) (classes : ClassTable) : Scope :=
  if x.kind = .root then { x with globals := .owned functions classes } else { x with classes }

section WithClasses

variable {a b : Scope} (kind : b.kind = a.kind) (functions : FunctionTable) (classes : ClassTable)

include kind

theorem Scope.SameShape.withClasses (h : a.SameShape b) :
    (a.withClasses functions classes).SameShape (b.withClasses functions classes) := by
  simp only [Scope.withClasses, kind]
  split
  · exact ⟨⟨h.functions, h.classes, h.aliases, rfl⟩, h.persist⟩
  · exact ⟨⟨h.functions, rfl, h.aliases, h.globals⟩, h.persist⟩

theorem Scope.SameTables.withClasses (h : a.SameTables b) :
    (a.withClasses functions classes).SameTables (b.withClasses functions classes) := by
  simp only [Scope.withClasses, kind]
  split
  · exact ⟨h.bindings, h.functions, h.classes, h.aliases, rfl⟩
  · exact ⟨h.bindings, h.functions, rfl, h.aliases, h.globals⟩

end WithClasses

namespace World

theorem registrationRoot?_eq (roots : (w.scope s).Roots) :
    w.registrationRoot? s = if (w.scope s).kind = .root then some s else none := by
  rw [registrationRoot?]
  split
  · rename_i root
    obtain ⟨functions, classes, owned⟩ := roots root
    rw [globalRoot?, owned]
  · rfl

theorem scope_setClassTable (roots : (w.scope s).Roots) (hs : s.In w.count) (classes : ClassTable) :
    (w.setClassTable s classes).scope t =
      if t = s then (w.scope s).withClasses (w.globalFunctions s) classes else w.scope t := by
  rw [setClassTable, registrationRoot?_eq roots, Scope.withClasses]
  by_cases root : (w.scope s).kind = .root
  · simp only [root, if_true, scope_setScope, hs, and_true]
  · simp only [root, if_false, scope_setScope, hs, and_true]

end World

theorem Scope.Roots.later {a b : Scope} (h : a.Roots) (kind : b.kind = a.kind)
    (same : a.SameDefinitions b) : b.Roots := by
  rw [Roots, kind, same.globals]
  exact h

/-- Scopes with the same definitions have the same class table. -/
theorem World.classTable_congr (roots : (w.scope s).Roots)
    (kind : (w₁.scope s).kind = (w.scope s).kind)
    (same : (w.scope s).SameDefinitions (w₁.scope s)) : w₁.classTable s = w.classTable s := by
  rw [classTable, classTable, registrationRoot?_eq roots,
    registrationRoot?_eq (roots.later kind same), kind]
  by_cases root : (w.scope s).kind = .root
  · simp only [root, if_true, globalClasses, same.globals]
  · simp only [root, if_false, same.classes]

theorem World.count_setClassTable (w : World) (s : ScopeId) (classes : ClassTable) :
    (w.setClassTable s classes).count = w.count := by
  rw [setClassTable]
  split <;> exact count_setScope ..

/-- Scopes that stay do so when the same classes are registered in one of them. -/
theorem World.Intact.setClassTable (intact : w.Intact w₁) (sound : Sound D w₁) (g : w.Grows w₁)
    (hs : s.In w.count) (live : (w.scope s).kind.runsStatements = true)
    (roots : (w.scope s).Roots) (classes : ClassTable) :
    (w.setClassTable s classes).Intact (w₁.setClassTable s classes) := by
  have same := (intact s hs live).shape
  have functions : w₁.globalFunctions s = w.globalFunctions s := by
    simp only [globalFunctions, same.globals]
  have roots₁ := roots.later (g.scope hs).kind same.toSameDefinitions
  intro t old live'
  rw [count_setClassTable] at old
  rw [((w.grows_setClassTable s classes).scope old).kind] at live'
  have stays := intact t old live'
  have earlier : (w₁.setClassTable s classes).Waits t → w₁.Waits t := fun waits =>
    waits.earlier sound (w₁.grows_setClassTable s classes) (old.mono g.count)
  have before := w.scope_setClassTable (t := t) roots hs classes
  have after := w₁.scope_setClassTable (t := t) roots₁ (hs.mono g.count) classes
  rw [functions] at after
  by_cases here : t = s
  · subst here
    rw [if_pos rfl] at before after
    refine ⟨?_, fun waits => ?_⟩
    · rw [before, after]
      exact stays.shape.withClasses (g.scope hs).kind _ _
    · rw [before, after]
      exact (stays.tables (earlier waits)).withClasses (g.scope hs).kind _ _
  · rw [if_neg here] at before after
    refine ⟨?_, fun waits => ?_⟩
    · rw [before, after]
      exact stays.shape
    · rw [before, after]
      exact stays.tables (earlier waits)

/-! ## The body of a class -/

/-- Code that runs in none of the scopes in which statements were run before, and has none of those
in sight that wait. -/
def World.Beyond (D : Dialect) (w₀ : World) (f : Frame) (calls : List Invocation) (w : World) :
    Prop :=
  (∀ t, t.In w₀.count → (w₀.scope t).kind.runsStatements = true → w₀.Elsewhere D t f calls w) ∧
    w₀.Inside D f calls w

theorem beyond_invariant (plain : ¬ D.hostDefaults) (mute : ¬ D.hostWrites) :
    Invariant D (w₀.Beyond D) :=
  .and (.all fun _ => .all fun old => .all fun live => elsewhere_invariant old live mute)
    (inside_invariant plain mute)

/-- What such code has done leaves the old scopes intact. -/
theorem World.Beyond.intact {f : Frame} {calls : List Invocation} (h : w₀.Beyond D f calls w) :
    w₀.Intact w := fun t old live =>
  ⟨(h.1 t old live).shape, h.2.undisturbed t old⟩

/-- A class whose body is going to be run in a frame. -/
structure World.OpensClass (D : Dialect) (w : World) (s : ScopeId) (name : String)
    (calls : List Invocation) (c : ClassId) (inner : ScopeId) (w' : World) : Prop where
  ready : Ready D ⟨inner, none⟩ calls w'
  beyond : w.Beyond D ⟨inner, none⟩ calls w'
  there : c.In w'.count
  new : ¬ c.In w.count
  named : (w'.classOf c).name = name
  captured : (w'.classOf c).captured.isSome = true
  home : (w'.classOf c).scope = inner

/-- A class that is defined is opened beyond the scopes that are there. -/
theorem World.Homely.opens {f : Frame} {calls : List Invocation} (homely : w.Homely D f calls)
    (plain : ¬ D.hostDefaults) (ready : Ready D f calls w) (d : ClassDecl) (accessor : String) :
    ∃ inner, w.OpensClass D f.scope d.name calls (w.openClass f.scope d accessor).1 inner
      (w.openClass f.scope d accessor).2 := by
  obtain ⟨there, hides⟩ := ready.sound.classDefScope_in ready.frame.scope d
  have detach : Step D f.scope w (w.classDefScope f.scope d).2 := .detach _ _ rfl
  have same : ∀ t : ScopeId, t.In w.count → (w.classDefScope f.scope d).2.scope t = w.scope t :=
    fun t old => scope_detachAs_old ready.sound ready.frame.scope old _ _ _
  rw [ready.sound.openClass_eq ready.frame.scope]
  generalize w.classDefScope f.scope d = seen at there hides detach same ⊢
  obtain ⟨home, w₁⟩ := seen
  obtain ⟨sound₁, g₁⟩ := detach.kept ready.sound ready.frame.scope
  have ready₁ : Ready D f calls w₁ := ready.later sound₁ g₁
  have entered : Enter f calls w₁ ⟨_, none⟩ calls _ := .classBody d.name accessor there hides
  obtain ⟨ready₂, g₂⟩ := entered.kept ready₁
  have homely₂ := (homely_invariant plain).enter ready₁
    ((homely_invariant plain).step ready homely detach) entered
  refine ⟨_, ready₂, ⟨fun t old live => ?_, homely₂, g₁.trans g₂, ?_, fun t old _ => ?_⟩,
    w₁.addClass_in .., fun old => ?_, w₁.name_addClass .., ?_, w₁.home_addClass ..⟩
  · exact .classBody old g₁ (.of_eq (same t old)) g₂ homely₂.kin
  · exact .of_newClass d.name accessor homely₂.kin g₁
  · exact .of_eq ((scope_derive_old (old.mono g₁.count) _ _ _).trans (same t old))
  · exact w₁.addClass_new home d.name accessor (some home) (old.mono g₁.count)
  · rw [captured_addClass]
    rfl

/-! ## Definitions -/

/-- Registering a class in a world that is intact defines it, or fails because its name is
taken. -/
theorem World.Intact.registers (intact : w.Intact w₁) (sound : Sound D w₁) (g : w.Grows w₁)
    (hs : s.In w.count) (live : (w.scope s).kind.runsStatements = true)
    (roots : (w.scope s).Roots) {c : ClassId} (new : ¬ c.In w.count) :
    (∀ x w₂, (Action.registerClass s c).runIn w₁ = (.ok x, w₂) →
        w.Defines s (w₁.classOf c).name w₂) ∧
      ∀ e w₂, (Action.registerClass s c).runIn w₁ = (.error e, w₂) → w.Intact w₂ := by
  have same := classTable_congr roots (g.scope hs).kind (intact s hs live).shape.toSameDefinitions
  rw [Action.registerClass, runIn_look_bind, runIn_look_bind]
  cases taken : (w₁.classTable s).contains (w₁.classOf c).name with
  | true => exact ⟨fun x w₂ e => absurd e nofun, fun e w₂ h => (Prod.mk.inj h).2 ▸ intact⟩
  | false =>
    refine ⟨fun x w₂ h => ?_, fun e w₂ h => absurd h nofun⟩
    obtain ⟨-, rfl⟩ := Prod.mk.inj h
    have after := intact.setClassTable sound g hs live roots
      ((w.classTable s).insert (w₁.classOf c).name c)
    rw [same] at taken
    have free : (w.classTable s).get? (w₁.classOf c).name = none :=
      Option.not_isSome_iff_eq_none.mp (Bool.eq_false_iff.mp taken)
    refine ⟨c, new, free, ?_⟩
    rw [← same] at after ⊢
    exact after

/-- A class definition leaves all scopes intact, up to the class itself if it succeeds. -/
theorem Knot.leaves_defineClass {k : Knot} (sound : k.Sound D) (plain : ¬ D.hostDefaults)
    (mute : ¬ D.hostWrites) {f : Frame} {m : Machine} (ready : Ready D f m.calls m.world)
    (homely : m.world.Homely D f m.calls)
    (live : (m.world.scope f.scope).kind.runsStatements = true)
    (roots : (m.world.scope f.scope).Roots) {d : ClassDecl} (marks : D.Admits d.marks) :
    Run.Leaves (k.defineClass d f) (fun _ w => m.world.Defines f.scope d.name w)
      (fun w => m.world.Intact w) m := by
  obtain ⟨name, accessor, statements⟩ := d
  rw [Knot.defineClass]
  refine .change_then (.refl m.world) fun fuel => ?_
  obtain ⟨inner, opens⟩ := homely.opens plain ready ⟨name, accessor, statements⟩
    (accessor.getD k.config.accessor)
  generalize m.world.openClass f.scope _ _ = new at opens ⊢
  refine .holding ?_ (fun _ _ held h => h.setHeld held) fun _ held h => h.setHeld held
  have body : Run.Leaves (k.classBody new.1 statements)
      (fun _ w => ScopeLang.Sound D w ∧ new.2.Grows w ∧ m.world.Intact w)
      (fun w => ScopeLang.Sound D w ∧ new.2.Grows w ∧ m.world.Intact w)
      ⟨new.2.hold [new.1.cell], fuel, m.calls⟩ :=
    (beyond_invariant plain mute).leaves opens.ready opens.beyond
      (fun c hc => List.mem_singleton.mp hc ▸ opens.there)
      (leads_classBody sound marks opens.there opens.captured opens.home)
      fun sound' grown beyond => ⟨sound', grown, beyond.intact⟩
  refine .bind (body.mono (fun _ _ h => h) fun _ h => h.2.2) ?_
  rintro - m' ⟨sound', grown, intact⟩
  refine .look_then (.look_then ?_)
  split
  · have registered := intact.registers sound' (opens.beyond.2.grown.trans grown) ready.frame.scope
      live roots opens.new
    rw [grown.classOf opens.there, opens.named] at registered
    exact Run.Leaves.act (a := Action.registerClass f.scope new.1) intact registered.1 registered.2
  · exact .fail intact

/-- The statement that defines a class does no more. -/
theorem Knot.leaves_classStatement {k : Knot} (sound : k.Sound D) (plain : ¬ D.hostDefaults)
    (mute : ¬ D.hostWrites) {f : Frame} {m : Machine} (ready : Ready D f m.calls m.world)
    (homely : m.world.Homely D f m.calls)
    (live : (m.world.scope f.scope).kind.runsStatements = true)
    (roots : (m.world.scope f.scope).Roots) {d : ClassDecl} (marks : D.Admits d.marks) :
    Run.Leaves (k.node (.classDef d) f) (fun _ w => m.world.Defines f.scope d.name w)
      (fun w => m.world.Intact w) m :=
  .bind (leaves_defineClass sound plain mute ready homely live roots marks) fun _ _ h => .pure h

/-! ## Classes of a program -/

/-- The scopes in which a session interprets the statements of a program: its root, those of blocks
and calls, and those of classes. -/
def Session.Interprets (s : Session) (w : World) (t : ScopeId) : Prop :=
  t = s.root ∨ (w.scope t).kind.isActivation = true ∨ (w.scope t).kind = .classScope

namespace Session.Interprets

variable {S : Session} (h : S.Interprets w t)

include h

theorem runsStatements (root : (w.scope S.root).kind = .root) :
    (w.scope t).kind.runsStatements = true := by
  rcases h with rfl | activation | class_
  · rw [root]
    rfl
  · exact ScopeKind.runsStatements_of_isActivation activation
  · rw [class_]
    rfl

theorem eq_root (root : (w.scope t).kind = .root) : t = S.root := by
  rcases h with here | activation | class_
  · exact here
  · exact absurd root (ScopeKind.ne_root_of_isActivation activation)
  · exact absurd (class_.symm.trans root) nofun

end Session.Interprets

namespace World.Rooted

variable (only : (w.scope s).kind = .root → s = ⟨0⟩)

include only

theorem roots (h : w.Rooted) : (w.scope s).Roots := fun root => by
  rw [only root]
  exact h.keeps.owned

/-- A class that is registered in a scope is the one that is found from it. -/
theorem lookupClass_registered (h : w.Rooted) {name : String} {c : ClassId}
    (registered : (w.classTable s).get? name = some c) : w.lookupClass s name = some c := by
  by_cases root : (w.scope s).kind = .root
  · rw [only root] at registered ⊢
    rw [h.lookupClass_eq, registered]
  · rw [classTable, registrationRoot?, if_neg root] at registered
    exact lookupClass_of_local registered

end World.Rooted

/-- At every moment of every program, a class definition that fails leaves all scopes intact in
which statements are run, and a class with the name is found as before; one that succeeds
does nothing to these scopes but registering a new class under a name that was free. -/
theorem Session.Reachable.classes_atomic {natives : String → Prop} {s : Session}
    (h : s.Reachable (.plain natives)) (obeys : s.host.Obeys (.plain natives)) {fuel : Nat}
    {program : List Statement} {f : Frame} (runs : (s.reached fuel program).Runs f)
    (here : s.Interprets (s.reached fuel program).world f.scope)
    (n left : Nat) (d : ClassDecl) (span : Span) :
    Run.Leaves ((knot s.config s.host n).interpret ⟨.classDef d, span⟩ f)
      (fun _ w => (s.reached fuel program).world.Defines f.scope d.name w)
      (fun w => (s.reached fuel program).world.Intact w ∧
        ∀ c, ((s.reached fuel program).world.classTable f.scope).get? d.name = some c →
          w.lookupClass f.scope d.name = some c)
      { s.reached fuel program with fuel := left } := by
  have admitted := Dialect.admits_of_sharing (D := .plain natives) trivial
  obtain ⟨_, ready, homely⟩ := h.reached (homely_invariant id) homely_start obeys (admitted _) fuel
  obtain ⟨_, -, rooted⟩ := h.reached rooted_invariant rooted_start obeys (admitted _) fuel
  generalize s.reached fuel program = m at runs here ready homely rooted ⊢
  have ready' := runs.ready ready
  have live := here.runsStatements (h.root_eq ▸ rooted.kind)
  have only : (m.world.scope f.scope).kind = .root → f.scope = ⟨0⟩ := fun root =>
    (here.eq_root root).trans h.root_eq
  have roots := rooted.roots only
  have atomic : Run.Leaves ((knot s.config s.host n).interpret ⟨.classDef d, span⟩ f)
      (fun _ w => m.world.Defines f.scope d.name w) (fun w => m.world.Intact w)
      { m with fuel := left } := by
    refine .interpret (.refl m.world) (fun n fuel => ?_) n
    exact Knot.leaves_classStatement (m := { m with fuel }) (knot_sound obeys n) id id ready'
      (runs.homely homely) live roots (admitted _)
  have kept : Run.Leaves ((knot s.config s.host n).interpret ⟨.classDef d, span⟩ f)
      (fun _ w => w.Rooted ∧ m.world.Grows w) (fun w => w.Rooted ∧ m.world.Grows w)
      { m with fuel := left } :=
    rooted_invariant.leaves ready' rooted
      (show ∀ c ∈ ([] : List Cell), c.In m.world.count from fun _ h => absurd h List.not_mem_nil)
      ((knot_sound obeys n).interpret _ _ _ (admitted _)) fun _ g i => ⟨i, g⟩
  refine (atomic.and kept).mono (fun _ _ h => h.1) ?_
  rintro w ⟨intact, rooted', g⟩
  refine ⟨intact, fun c registered => ?_⟩
  have there := ready'.frame.scope
  have kind := (g.scope there).kind
  have same := (intact _ there live).shape.toSameDefinitions
  rw [← World.classTable_congr roots kind same] at registered
  exact rooted'.lookupClass_registered (fun root => only (kind.symm.trans root)) registered

/-- The body of a class that declares a variable and assigns to one that it sees. -/
def assigning : List Statement :=
  [declaring "y" (.literal (.int 1)), ⟨.assign "x" (.ofTerm (.literal (.int 5))), Span.none⟩]

/-- What the definition of a class `C` comes to at the root of a program that has a variable `x`. -/
def afterClass (body : List Statement) : Except Halt Outcome × Machine :=
  (knot shadowed.config shadowed.host 20).interpret ⟨.classDef ⟨"C", none, body⟩, Span.none⟩
    ⟨⟨0⟩, none⟩ { shadowed.reached 20 shadowing with fuel := 40 }

/-- Without a constructor the definition fails and nothing has changed; with one the class is all
that is new. -/
theorem atomic_assigning :
    ((afterClass assigning).1.isOk = false ∧
        (shadowed.reached 20 shadowing).world.Intact (afterClass assigning).2.world) ∧
      (afterClass (assigning ++ [methodNamed "construct" []])).1.isOk = true ∧
        (shadowed.reached 20 shadowing).world.Defines ⟨0⟩ "C"
          (afterClass (assigning ++ [methodNamed "construct" []])).2.world := by
  have start : shadowed.Reachable (.plain fun _ => False) := .start {} Kit.host
  have obeys : shadowed.host.Obeys (.plain fun _ => False) := Kit.host_obeys fun _ no => no.elim
  have runs : (shadowed.reached 20 shadowing).Runs ⟨⟨0⟩, none⟩ := ⟨by decide +kernel, nofun⟩
  have here : shadowed.Interprets (shadowed.reached 20 shadowing).world ⟨0⟩ := .inl rfl
  have fails : (afterClass assigning).1.isOk = false := by decide +kernel
  have succeeds : (afterClass (assigning ++ [methodNamed "construct" []])).1.isOk = true := by
    decide +kernel
  refine ⟨⟨fails, ?_⟩, succeeds, ?_⟩
  · rw [afterClass] at fails ⊢
    exact ((start.classes_atomic obeys runs here 20 40 _ Span.none).failed fails).1
  · rw [afterClass] at succeeds ⊢
    obtain ⟨_, defines⟩ := (start.classes_atomic obeys runs here 20 40 _ Span.none).done succeeds
    exact defines

/-! ## The two ways out -/

/-- A class without a constructor, whose body calls `N().m()` and whose `foo()` assigns to `x`. -/
def assigner : ClassDecl :=
  ⟨"C", none,
    [methodNamed "foo"
        [⟨.assign "x" (.ofTerm (.literal (.int 5))), Span.none⟩, returning (.literal (.int 1))],
      declaring "r" (.chain .scope [.call "N" [], .call "m" []])]⟩

/-- A program has declared `x` at the root of a session in which a default of the host is
`foo()`. -/
def beforeAssigner : Machine :=
  Session.withHostDefault.reached 40 [declaring "x" (.literal (.int 0))]

/-- What the definition of the class comes to there. -/
def afterAssigner : Except Halt Outcome × Machine :=
  (knot {} Kit.host 40).interpret ⟨.classDef assigner, Span.none⟩ ⟨⟨0⟩, none⟩
    { beforeAssigner with fuel := 60 }

/-- A class without a constructor, whose body makes an instance of the class behind `set`. -/
def maker : ClassDecl :=
  ⟨"N", none,
    [declaring "k" (.call "classOf" [⟨none, .ofTerm (.literal (.string "set"))⟩]),
      declaring "r" (.chain .scope [.call "k" [], .call "set" []])]⟩

/-- A class with a static variable `x`, to which `set()` assigns; the other class is defined in its
body. -/
def makingInside : List Statement :=
  [⟨.classDef ⟨"C", none,
    [methodNamed "construct" [],
      methodNamed "set"
        [⟨.assign "x" (.ofTerm (.literal (.int 5))), Span.none⟩, returning (.literal (.int 1))],
      ⟨.declare ⟨"x", none, some (.ofTerm (.literal (.int 0))), { isStatic := true }⟩, Span.none⟩,
      ⟨.classDef maker, Span.none⟩]⟩, Span.none⟩]

/-- The moment at which the inner class is going to be defined. -/
def beforeMaker : Machine := Session.handing.reached 11 makingInside

/-- What this definition comes to. -/
def afterMaker : Except Halt Outcome × Machine :=
  (knot {} Host.handing 40).interpret ⟨.classDef maker, Span.none⟩ ⟨⟨2⟩, none⟩
    { beforeMaker with fuel := 60 }

/-- Whether a variable of a scope has a value that is true. -/
def Machine.isSet (m : Machine) (s : ScopeId) (name : String) : Bool :=
  ((m.world.scope s).bindings.get? name).any fun b => World.empty.isTruthy b.value

/-- Definitions that fail and are no longer atomic: with the default of the host a variable of the
root has changed, with the native that hands out the unfinished class a static one of this class. -/
theorem not_atomic :
    (afterAssigner.1.isOk = false ∧
        ¬ (beforeAssigner.world.scope ⟨0⟩).SameTables (afterAssigner.2.world.scope ⟨0⟩)) ∧
      Host.handing.Obeys (.plain (· = "classOf")) ∧ afterMaker.1.isOk = false ∧
        ¬ (beforeMaker.world.scope ⟨2⟩).SameTables (afterMaker.2.world.scope ⟨2⟩) := by
  refine ⟨⟨by decide +kernel, fun same => ?_⟩, Host.handing_obeys _, by decide +kernel,
    fun same => ?_⟩
  · have before : beforeAssigner.isSet ⟨0⟩ "x" = false := by decide +kernel
    have after : afterAssigner.2.isSet ⟨0⟩ "x" = true := by decide +kernel
    rw [Machine.isSet, same.bindings, ← Machine.isSet, before] at after
    exact absurd after Bool.false_ne_true
  · have before : beforeMaker.isSet ⟨2⟩ "x" = false := by decide +kernel
    have after : afterMaker.2.isSet ⟨2⟩ "x" = true := by decide +kernel
    rw [Machine.isSet, same.bindings, ← Machine.isSet, before] at after
    exact absurd after Bool.false_ne_true

end ScopeLang
