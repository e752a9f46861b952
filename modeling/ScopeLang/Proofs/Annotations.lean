/-
# What an annotation means in a body

The types of a function's parameters and of its result are bound where the
function is declared, those of a method in the scope of its class.  In the body
types are bound in the scope of the call.  A closure, whose scope has the
declaring one as its parent, reads the same in both, and so does a method that
runs on an instance of its class.  The scope of a plain function has no parent
and a copy of the aliases of the declaring scope itself: the body reads the same
if the declaring scope sees no others of the names in question.

Between a class and the scope that declares it there are the aliases of the class,
which come first.
-/
import ScopeLang.Proofs.Placement
import ScopeLang.Proofs.Views

namespace ScopeLang

variable {D : Dialect} {w w₁ w₂ w' : World} {s x : ScopeId} {d : FunctionDecl}

/-! ## What a definition makes -/

namespace World

/-- The function that is there after code has been added, and was not there before. -/
theorem function_of_new {f : Handle .function} {g : Function} (before : w.SameCode w₁)
    (after : SameCode (w₁.newFunction g).2 w₂) (new : ¬ f.In w.count) (made : f.In w₂.count) :
    w₂.function f = g := by
  have vacant : ¬ f.In w₁.count := by
    simpa only [Handle.In, count, before.functions] using new
  have there : f.In (w₁.newFunction g).2.count := by
    simpa only [Handle.In, count, after.functions] using made
  rw [count_newFunction] at there
  have only : f.index = w₁.count .function :=
    congrArg Cell.index ((Census.in_grow (c := f.cell).mp there).resolve_left vacant)
  rw [function, after.functions]
  exact (w₁.function_newFunction g f).trans (if_pos only)

theorem method_of_new {f : Handle .method} {g : Method} (before : w.SameCode w₁)
    (after : SameCode (w₁.newMethod g).2 w₂) (new : ¬ f.In w.count) (made : f.In w₂.count) :
    w₂.method f = g := by
  have vacant : ¬ f.In w₁.count := by
    simpa only [Handle.In, count, before.methods] using new
  have there : f.In (w₁.newMethod g).2.count := by
    simpa only [Handle.In, count, after.methods] using made
  rw [count_newMethod] at there
  have only : f.index = w₁.count .method :=
    congrArg Cell.index ((Census.in_grow (c := f.cell).mp there).resolve_left vacant)
  rw [method, after.methods]
  exact (w₁.method_newMethod g f).trans (if_pos only)

/-- The procedure of a declared function, and the world in which it has been bound. -/
def boundFunction (w : World) (s : ScopeId) (d : FunctionDecl) : Procedure × World :=
  bindProcedure s d.name d.parameters d.returns (.user d.body) (w.functionDefScope s d).2

/-- The procedure of a declared method, and the world in which it has been bound. -/
def boundMethod (w : World) (k : ClassId) (d : FunctionDecl) : Procedure × World :=
  bindProcedure (w.classOf k).scope d.name d.parameters d.returns
    (.user (stripBlock (w.classOf k).accessor d.body)) w

theorem function_defineFunction (w : World) (s : ScopeId) (d : FunctionDecl) {f : Handle .function}
    (new : ¬ f.In w.count) (made : f.In (w.defineFunction s d).count) :
    (w.defineFunction s d).function f =
      ⟨(w.boundFunction s d).1, some (w.functionDefScope s d).1⟩ :=
  have bound := (w.sameCode_functionDefScope s d).trans
    (sameCode_bindProcedure s d.name d.parameters d.returns (.user d.body) _)
  function_of_new bound (sameCode_registerFunction _ s d.name _) new made

theorem method_defineMethod (w : World) (k : ClassId) (d : FunctionDecl) {f : Handle .method}
    (new : ¬ f.In w.count) (made : f.In (w.defineMethod k d).count) :
    (w.defineMethod k d).method f = ⟨(w.boundMethod k d).1, k⟩ :=
  have bound := w.sameCode_bindProcedure (w.classOf k).scope d.name d.parameters d.returns
    (.user (stripBlock (w.classOf k).accessor d.body))
  method_of_new bound (sameCode_registerFunction _ _ d.name _) new made

theorem aliases_registerFunction (w : World) (s t : ScopeId) (name : String) (o : Overload) :
    ((w.registerFunction s name o).scope t).aliases = (w.scope t).aliases := by
  simp only [registerFunction]
  split
  · exact w.aliases_setScope (by rfl) t
  · exact w.aliases_setScope (by rfl) t

/-- Nothing but the captured scope is given aliases. -/
theorem aliases_defineFunction (w : World) (s t : ScopeId) (d : FunctionDecl) :
    ((w.defineFunction s d).scope t).aliases =
      ((w.functionDefScope s d).2.scope t).aliases := by
  have bound := scope_bindProcedure s d.name d.parameters d.returns (.user d.body)
    (w.functionDefScope s d).2 t
  exact (aliases_registerFunction _ s t d.name _).trans (congrArg Scope.aliases bound)

end World

/-! ## Calls of functions -/

/-- A call is entered in `x`, while the callee is held and after types have been added. -/
def World.Calls (w : World) (s : ScopeId) (callee : Cell) (enter : Action ScopeId) (x : ScopeId)
    (w' : World) : Prop :=
  ∃ pool, (w.poolOf s).Grows pool ∧
    enter.runIn ((w.setPool s pool).hold [callee]) = (.ok x, w')

/-- What a scope sees of these names are its own aliases. -/
def World.OwnNames (w : World) (s : ScopeId) (names : List String) : Prop :=
  ∀ n ∈ names, w.alias? s n = (w.scope s).aliases.get? n

section Functions

variable (sound : Sound D w) (named : w.WellNamed) (there : s.In w.count)
  (alive : w.alive s.cell = true)

include sound there

/-- The scope that a definition captures sees what the declaring scope sees, if it is that of a
closure, and otherwise what are aliases of the declaring scope. -/
theorem Sound.alias?_captured (alive : w.alive s.cell = true) (agrees : w.Agrees D w₁)
    (grown : (w.functionDefScope s d).2.Grows w₁)
    (same : (w₁.scope (w.functionDefScope s d).1).aliases =
      ((w.functionDefScope s d).2.scope (w.functionDefScope s d).1).aliases) {n : String}
    (reads : d.kind = .closure ∨ w.alias? s n = (w.scope s).aliases.get? n) :
    w₁.alias? (w.functionDefScope s d).1 n = w.alias? s n := by
  have hc := (steps_functionDefScope sound there d).2.1
  have kept := grown.scope hc
  cases kind : d.kind with
  | closure =>
    have outline : ((w.functionDefScope s d).2.scope (w.functionDefScope s d).1).kind = .detached ∧
        ((w.functionDefScope s d).2.scope (w.functionDefScope s d).1).parent = some s := by
      simp only [World.functionDefScope, kind, World.detach, sound.scope_detachAs there]
      exact ⟨rfl, rfl⟩
    have empty : (w₁.scope (w.functionDefScope s d).1).aliases = .empty :=
      agrees.named.silent _ (by rw [kept.kind, outline.1]; rfl)
    rw [World.alias?_of_parent agrees.sound (kept.parent.trans outline.2)
      ((agrees.alive there).trans alive) (empty ▸ rfl)]
    exact agrees.alias?_eq sound n there
  | function =>
    have outline : ((w.functionDefScope s d).2.scope (w.functionDefScope s d).1).parent = none ∧
        ((w.functionDefScope s d).2.scope (w.functionDefScope s d).1).aliases =
          (w.scope s).aliases := by
      simp only [World.functionDefScope, kind, sound.scope_isolate there]
      exact ⟨rfl, trivial⟩
    rw [World.alias?_of_orphan agrees.sound (kept.parent.trans outline.1), same, outline.2]
    exact (reads.resolve_left (by simp [kind])).symm

include named alive

/-- A function has been defined and is held. -/
theorem World.Agrees.defined (marks : D.Admits d.marks) {f : Handle .function} {pool : TypePool}
    (new : ¬ f.In w.count) (made : f.In (w.defineFunction s d).count)
    (more : ((w.defineFunction s d).poolOf s).Grows pool) :
    w.Agrees D (((w.defineFunction s d).setPool s pool).hold [f.cell]) := by
  have defined := Agrees.defineFunction sound named there alive marks
  have typed := Agrees.setPool defined.sound defined.named more
  have upholds : w.Upholds ((w.defineFunction s d).setPool s pool) :=
    (sound.upholds_defineFunction there alive d).aside (.setTypeContext _ _ _)
  refine upholds.agrees_hold named typed.sound (defined.grows.trans typed.grows) ?_
    (made.mono typed.grows.count) fun gone => new gone.1
  exact .trans (naming.done_defineFunction w s d)
    (.keeps ⟨rfl, rfl, rfl, World.pools_setPool _ more⟩)

omit named in
/-- A call of a function that has been defined, in a world in which it is held: its scope sees what
the declaring scope sees. -/
theorem Sound.enters_function {f : Handle .function} {caller : ScopeId} (new : ¬ f.In w.count)
    (made : f.In (w.defineFunction s d).count) (agrees : w.Agrees D w₁)
    (later : (w.defineFunction s d).Grows w₁) (scopes : w₁.scopes = (w.defineFunction s d).scopes)
    (held : f.cell ∈ w₁.held)
    (run : (Action.enterFunction caller ((w.defineFunction s d).function f)).runIn w₁ =
      (.ok x, w')) :
    w₁.Agrees D w' ∧ ∀ n, (d.kind = .closure ∨ w.alias? s n = (w.scope s).aliases.get? n) →
      w'.alias? x n = w.alias? s n := by
  have function := w.function_defineFunction s d new made
  obtain ⟨-, -, -, -, -, -, grown⟩ := sound.defineFunction_captured there d
  rw [Action.enterFunction, function, Option.getD_some] at run
  have captured : (w₁.function f).captured = some (w.functionDefScope s d).1 := by
    rw [later.function made, function]
  have same : (w₁.scope (w.functionDefScope s d).1).aliases =
      ((w.functionDefScope s d).2.scope (w.functionDefScope s d).1).aliases := by
    rw [World.scope, scopes]
    exact w.aliases_defineFunction s _ d
  have inside : f.In w₁.count := made.mono later.count
  have hc := agrees.sound.captured inside captured
  have living : w₁.alive (w.functionDefScope s d).1.cell = true := by
    refine ((World.anchored_of_held held).owned inside ?_).alive
    have owned : w₁.owned f.cell = (w₁.function f).cells := rfl
    rw [owned, Function.cells, captured]
    exact List.mem_singleton_self _
  refine ⟨.enter agrees.sound agrees.named hc rfl rfl run, fun n reads => ?_⟩
  rw [World.alias?_enter agrees.sound agrees.named hc living rfl rfl run]
  exact sound.alias?_captured there alive agrees (grown.trans later) same reads

/-- The scope of a call of a function that has been defined sees what the declaring scope sees. -/
theorem Sound.calls_function (marks : D.Admits d.marks) {f : Handle .function} {caller : ScopeId}
    (new : ¬ f.In w.count) (made : f.In (w.defineFunction s d).count)
    (calls : (w.defineFunction s d).Calls s f.cell
      (Action.enterFunction caller ((w.defineFunction s d).function f)) x w') :
    w.Agrees D w' ∧ (w.boundFunction s d).2.pool.Grows w'.pool ∧
      ∀ n, (d.kind = .closure ∨ w.alias? s n = (w.scope s).aliases.get? n) →
        w'.alias? x n = w.alias? s n := by
  obtain ⟨pool, more, run⟩ := calls
  have agrees := World.Agrees.defined sound named there alive marks new made more
  obtain ⟨entered, view⟩ := sound.enters_function there alive new made agrees
    ((World.grows_setPool _ more).trans (World.grows_setHeld _ _)) rfl List.mem_cons_self run
  have registered : (w.boundFunction s d).2.pool.Grows (w.defineFunction s d).pool :=
    (naming.done_addFunction (w.boundFunction s d).2 s d.name _ _ d.kind.role none).pools ⟨0⟩
  exact ⟨agrees.trans entered,
    (registered.trans (World.pools_setPool _ more ⟨0⟩)).trans entered.pool, view⟩

end Functions

/-- What the annotations of a function mean that is declared in a scope, right after a type has been
bound there, and called at once: in the scope of the call the type is bound to the same id, and the
types of the declaration to the signatures that the function has been given.  For a plain function
this is so of types whose names are own aliases of the declaring scope, if at all. -/
def World.ReadsFunctions (w : World) (s : ScopeId) : Prop :=
  ∀ {d : FunctionDecl} {T : TypeExpr} {w₁ : World} {f : Handle .function} {caller x : ScopeId}
    {w' : World}, (w.bindType s (some T)).2.defineFunction s d = w₁ →
    ¬ f.In w.count → f.In w₁.count →
    w₁.Calls s f.cell (Action.enterFunction caller (w₁.function f)) x w' →
      ((d.kind = .closure ∨ w.OwnNames s T.names) →
        (w'.bindType x (some T)).1 = (w.bindType s (some T)).1) ∧
      ((d.kind = .closure ∨ w.OwnNames s d.typeNames) → w'.Reads x d (w₁.function f).procedure)

theorem Sound.readsFunctions (sound : Sound D w) (named : w.WellNamed) (there : s.In w.count)
    (alive : w.alive s.cell = true) (admits : ∀ d : FunctionDecl, D.Admits d.marks) :
    w.ReadsFunctions s := by
  rintro d T _ f caller x w' rfl new made calls
  have bound := World.Agrees.bindType sound named s (some T)
  have alive₁ := (bound.alive there).trans alive
  have there₁ := there.mono bound.grows.count
  have new₁ : ¬ f.In (w.bindType s (some T)).2.count := by
    rwa [show (w.bindType s (some T)).2.count = w.count from w.count_setTypeContext _ _]
  obtain ⟨agrees, pool, view⟩ :=
    bound.sound.calls_function bound.named there₁ alive₁ (admits d) new₁ made calls
  -- what the scope of the call sees of names that stand for the same in the body
  have sees : ∀ names, (d.kind = .closure ∨ w.OwnNames s names) → ∀ n ∈ names,
      w'.alias? x n = (w.bindType s (some T)).2.alias? s n := by
    refine fun names own n hn => view n (own.imp_right fun own => ?_)
    rw [bound.alias?_eq sound n there, own n hn]
    rfl
  constructor
  · refine fun own => named.bindType_again agrees.named agrees.pool fun n hn => ?_
    rw [sees T.names own n hn, bound.alias?_eq sound n there]
  · intro own
    rw [World.function_defineFunction _ s d new₁ made]
    exact (World.Agrees.functionDefScope bound.sound bound.named there₁ alive₁ d).reads bound.sound
      there₁ agrees.named pool (sees d.typeNames own)

/-! ## Calls of methods -/

/-- A class that has been declared in a scope: its own scope is under the captured one, which is
under the declaring one. -/
def World.DeclaredIn (w : World) (k : ClassId) (s : ScopeId) : Prop :=
  ∃ p, (w.classOf k).captured = some p ∧ (w.scope (w.classOf k).scope).parent = some p ∧
    (w.scope p).kind = .classDef ∧ (w.scope p).parent = some s

/-- A declaration opens a class that has no aliases yet. -/
theorem Sound.declaredIn_openClass (sound : Sound D w) (there : s.In w.count) (d : ClassDecl)
    (accessor : String) :
    (w.openClass s d accessor).2.DeclaredIn (w.openClass s d accessor).1 s ∧
      ((w.openClass s d accessor).2.scope
        ((w.openClass s d accessor).2.classOf (w.openClass s d accessor).1).scope).aliases =
          .empty := by
  have hp : (w.classDefScope s d).1.In (w.classDefScope s d).2.count := w.detachAs_in sound there
  have outline : ((w.classDefScope s d).2.scope (w.classDefScope s d).1).kind = .classDef ∧
      ((w.classDefScope s d).2.scope (w.classDefScope s d).1).parent = some s := by
    simp only [World.classDefScope, sound.scope_detachAs there]
    exact ⟨rfl, rfl⟩
  have kept := ((w.classDefScope s d).2.grows_derive (w.classDefScope s d).1 .classScope d.name
    (some (w.classDefScope s d).1)).scope hp
  have inner := (w.classDefScope s d).2.scope_derive (w.classDefScope s d).1 .classScope d.name
    (some (w.classDefScope s d).1)
  have home : ((w.openClass s d accessor).2.classOf (w.openClass s d accessor).1).scope =
      ((w.classDefScope s d).2.classScope (w.classDefScope s d).1 d.name).1 :=
    congrArg Class.scope (Store.get_alloc_new _ _)
  rw [World.DeclaredIn, home]
  exact ⟨⟨_, congrArg Class.captured (Store.get_alloc_new _ _), congrArg Scope.parent inner,
    kept.kind.trans outline.1, kept.parent.trans outline.2⟩, congrArg Scope.aliases inner⟩

namespace World

variable {i : InstanceId} {k : ClassId}

theorem anchored_inst (hi : i.In w.count) (alive : w.alive i.cell = true) : w.Anchored i.cell :=
  anchored_of_alive (mem_owners.mpr ⟨mem_ownerKinds.mpr ⟨nofun, nofun⟩, hi⟩) alive

/-- An instance keeps its scope, its class and the scope of its class. -/
theorem Anchored.home (hi : i.In w.count) (up : w.Anchored i.cell) :
    w.Anchored (w.inst i).scope.cell :=
  up.owned hi (List.mem_cons_of_mem _ List.mem_cons_self)

theorem Anchored.classId (hi : i.In w.count) (up : w.Anchored i.cell) :
    w.Anchored (w.inst i).classId.cell := up.owned hi List.mem_cons_self

theorem Anchored.classScope (hk : k.In w.count) (up : w.Anchored k.cell) :
    w.Anchored (w.classOf k).scope.cell := up.owned hk List.mem_cons_self

variable (sound : Sound D w) (named : w.WellNamed)

include sound named

/-- A class sees what the scope sees that declares it, where it has no alias of its own. -/
theorem alias?_classScope (hk : k.In w.count) (up : w.Anchored k.cell)
    (declared : w.DeclaredIn k s) (alive : w.alive s.cell = true) {n : String}
    (own : (w.scope (w.classOf k).scope).aliases.get? n = none) :
    w.alias? (w.classOf k).scope n = w.alias? s n := by
  obtain ⟨p, captured, home, kind, parent⟩ := declared
  have empty : (w.scope p).aliases = .empty := named.silent _ (by rw [kind]; rfl)
  have owned : p.cell ∈ w.owned k.cell := by
    show p.cell ∈ (w.classOf k).cells
    rw [Class.cells, captured]
    exact List.mem_cons_of_mem _ (List.mem_singleton_self _)
  rw [alias?_of_parent sound home (up.owned hk owned).alive own]
  exact alias?_of_parent sound parent alive (empty ▸ rfl)

variable (kin : w.Kin D)

include kin

/-- An instance sees what its class sees. -/
theorem alias?_home (hi : i.In w.count) (up : w.Anchored i.cell) (n : String) :
    w.alias? (w.inst i).scope n = w.alias? (w.classOf (w.inst i).classId).scope n := by
  have empty : (w.scope (w.inst i).scope).aliases = .empty :=
    named.silent _ (by rw [kin.homeKind hi]; rfl)
  exact alias?_of_parent sound (kin.homeParent hi)
    ((up.classId hi).classScope (sound.classId hi)).alive (empty ▸ rfl)

/-- The scope of a call of a method sees what the class of the receiver sees. -/
theorem Agrees.calls_method (h : w.Agrees D w₁) (hi : i.In w.count) (alive : w.alive i.cell = true)
    {caller : ScopeId} {name : String}
    (calls : w₁.Calls s i.cell (Action.enterMethod caller i name) x w') :
    w₁.Agrees D w' ∧
      ∀ n, w'.alias? x n = w.alias? (w.classOf (w.inst i).classId).scope n := by
  obtain ⟨pool, more, run⟩ := calls
  have up := anchored_inst hi alive
  have typed := Agrees.setPool h.sound h.named more
  have held := Agrees.hold typed.sound typed.named (c := i.cell)
    ((hi.mono h.grows.count).mono typed.grows.count) (typed.anchored (h.anchored up)).alive
  have agrees := h.trans (typed.trans held)
  have hp := sound.home hi
  have living : w.alive (w.inst i).scope.cell = true := (up.home hi).alive
  rw [Action.enterMethod, runIn_look_bind, agrees.grows.home hi] at run
  have entered := Agrees.enter agrees.sound agrees.named (hp.mono agrees.grows.count) rfl rfl run
  refine ⟨typed.trans (held.trans entered), fun n => ?_⟩
  rw [alias?_enter agrees.sound agrees.named (hp.mono agrees.grows.count)
    ((agrees.alive hp).trans living) rfl rfl run, agrees.alias?_eq sound n hp]
  exact alias?_home sound named kin hi up n

end World

/-- What the annotations of a class mean that is declared in a scope, right after a type has been
bound there: before the body of the class is run, the type is bound to the same id in the scope of
the class, where the types of the methods are bound. -/
def World.ReadsClasses (w : World) (s : ScopeId) : Prop :=
  ∀ {d : ClassDecl} {accessor : String} {T : TypeExpr} {w₁ : World} {k : ClassId},
    (w.bindType s (some T)).2.openClass s d accessor = (k, w₁) →
      w₁.DeclaredIn k s ∧
        ((w₁.hold [k.cell]).bindType (w₁.classOf k).scope (some T)).1 =
          (w.bindType s (some T)).1

/-- What the annotations of the methods mean that are run on an instance of a class declared in a
scope: a type is bound to the same id as in the scope of the class, and as in the declaring scope if
the class has no aliases for its names; and the types of a method that has just been defined to the
signatures that it has been given. -/
def World.ReadsMethods (w : World) (s : ScopeId) : Prop :=
  ∀ {k : ClassId} {i : InstanceId} {caller x : ScopeId} {name : String} {w' : World},
    w.DeclaredIn k s → i.In w.count → w.alive i.cell = true → (w.inst i).classId = k →
      (∀ {T : TypeExpr}, (w.bindType (w.classOf k).scope (some T)).2.Calls s i.cell
          (Action.enterMethod caller i name) x w' →
        (w'.bindType x (some T)).1 = (w.bindType (w.classOf k).scope (some T)).1) ∧
      (∀ {T : TypeExpr}, (w.bindType s (some T)).2.Calls s i.cell
          (Action.enterMethod caller i name) x w' →
        (∀ n ∈ T.names, (w.scope (w.classOf k).scope).aliases.get? n = none) →
        (w'.bindType x (some T)).1 = (w.bindType s (some T)).1) ∧
      ∀ {d : FunctionDecl} {w₁ : World} {m : Handle .method}, w.defineMethod k d = w₁ →
        ¬ m.In w.count → m.In w₁.count →
        w₁.Calls s i.cell (Action.enterMethod caller i name) x w' →
          w'.Reads x d (w₁.method m).procedure

namespace Sound

variable (sound : Sound D w) (named : w.WellNamed) (there : s.In w.count)
  (alive : w.alive s.cell = true)

include sound named there alive

theorem readsClasses : w.ReadsClasses s := by
  rintro d accessor T w₁ k opened
  have bound := World.Agrees.bindType sound named s (some T)
  have alive₁ := (bound.alive there).trans alive
  have there₁ := there.mono bound.grows.count
  obtain ⟨upholds, new⟩ := bound.sound.upholds_openClass there₁ alive₁ d accessor
  obtain ⟨steps, inside, -⟩ := steps_openClass bound.sound there₁ d accessor
  obtain ⟨declared, bare⟩ := bound.sound.declaredIn_openClass there₁ d accessor
  have names := (w.bindType s (some T)).2.within_openClass (R := World.Names) s d accessor
  rw [opened] at upholds new steps inside declared bare names
  obtain ⟨sound₁, grows⟩ := steps.kept bound.sound there₁
  have agrees : (w.bindType s (some T)).2.Agrees D (w₁.hold [k.cell]) :=
    upholds.agrees_hold bound.named sound₁ grows names inside fun gone => new gone.1
  refine ⟨declared, named.bindType_again agrees.named agrees.pool fun n _ => ?_⟩
  have up : (w₁.hold [k.cell]).Anchored k.cell := World.anchored_of_held List.mem_cons_self
  have own : ((w₁.hold [k.cell]).scope (w₁.classOf k).scope).aliases.get? n = none := by
    show (w₁.scope (w₁.classOf k).scope).aliases.get? n = none
    rw [bare]
    rfl
  have view := World.alias?_classScope agrees.sound agrees.named inside up declared
    ((agrees.alive there₁).trans alive₁) own
  exact view.trans ((bound.trans agrees).alias?_eq sound n there)

omit there in
theorem readsMethods (kin : w.Kin D) (admits : ∀ d : FunctionDecl, D.Admits d.marks) :
    w.ReadsMethods s := by
  rintro k i caller x name w' declared hi living rfl
  have hk := sound.classId hi
  have hc := sound.classScope hk
  refine ⟨fun {T} calls => ?_, fun {T} calls own => ?_, ?_⟩
  · have bound := World.Agrees.bindType sound named (w.classOf (w.inst i).classId).scope (some T)
    obtain ⟨agrees, view⟩ := World.Agrees.calls_method sound named kin bound hi living calls
    exact named.bindType_again agrees.named agrees.pool fun n _ => view n
  · have bound := World.Agrees.bindType sound named s (some T)
    obtain ⟨agrees, view⟩ := World.Agrees.calls_method sound named kin bound hi living calls
    have up := (World.anchored_inst hi living).classId hi
    exact named.bindType_again agrees.named agrees.pool fun n hn =>
      (view n).trans (World.alias?_classScope sound named hk up declared alive (own n hn))
  · rintro d _ m rfl new made calls
    obtain ⟨p, captured, -⟩ := declared
    have defined : w.Agrees D (w.defineMethod (w.inst i).classId d) :=
      .defineMethod sound named hk (captured ▸ rfl) (admits d)
    obtain ⟨agrees, view⟩ := World.Agrees.calls_method sound named kin defined hi living calls
    have registered : (w.boundMethod (w.inst i).classId d).2.pool.Grows
        (w.defineMethod (w.inst i).classId d).pool :=
      ((World.within_newMethod (R := World.Names) _ _).trans
        (World.within_registerFunction _ _ d.name _)).pools ⟨0⟩
    rw [w.method_defineMethod _ d new made]
    exact (World.Agrees.refl sound named).reads sound hc agrees.named
      (registered.trans agrees.pool) fun n _ => view n

end Sound

/-! ## Runs of programs -/

/-- At every moment of every program, if the bodies of the host bind no aliases, the annotations in
what is declared in a scope mean in the bodies what they mean to the scope, as far as told. -/
theorem Session.Reachable.annotations {natives : String → Prop} {S : Session}
    (h : S.Reachable (.full natives)) (obeys : S.host.Obeys (.full natives))
    (keeps : S.host.Keeps naming) (program : List Statement) (fuel : Nat)
    (there : s.In (S.reached fuel program).world.count)
    (alive : (S.reached fuel program).world.alive s.cell = true) :
    (S.reached fuel program).world.ReadsFunctions s ∧
      (S.reached fuel program).world.ReadsClasses s ∧
      (S.reached fuel program).world.ReadsMethods s := by
  have admits := Dialect.admits_of_sharing (D := .full natives) trivial
  obtain ⟨_, ready, kin⟩ := h.reached kin_invariant kin_start obeys (admits _) fuel
  have named := h.wellNamed keeps program fuel
  exact ⟨ready.sound.readsFunctions named there alive fun _ => admits _,
    ready.sound.readsClasses named there alive,
    ready.sound.readsMethods named alive kin fun _ => admits _⟩

/-- A call that is entered at once. -/
def World.entering (w : World) (s : ScopeId) (callee : Cell) (enter : Action ScopeId) :
    Except ErrorKind ScopeId × World :=
  enter.runIn ((w.setPool s (w.poolOf s)).hold [callee])

theorem World.calls_entering {callee : Cell} {enter : Action ScopeId}
    (entered : (w.entering s callee enter).1.toOption = some x) :
    w.Calls s callee enter x (w.entering s callee enter).2 := by
  refine ⟨w.poolOf s, .refl _, ?_⟩
  rw [entering] at entered ⊢
  generalize enter.runIn ((w.setPool s (w.poolOf s)).hold [callee]) = made at entered ⊢
  obtain ⟨result, w'⟩ := made
  cases result with
  | ok y => rw [Option.some.inj entered]
  | error kind => cases entered

/-- A written type that is a name. -/
def num : TypeExpr := .named "Num" []

/-- A program that gives the name to a type, and makes an instance in a block. -/
def aliased : List Statement :=
  [⟨.typeAlias "Num" (.named "Int" []), Span.none⟩,
    ⟨.block [⟨.classDef ⟨"A", none, [methodNamed "construct" []]⟩, Span.none⟩,
      declaring "a" (.call "A" []), declaring "b" (.variable "a")], Span.none⟩]

/-- The world inside of the block, where the instance has been stored. -/
def inAliased : World := ((Session.start {} Kit.host).reached 20 aliased).world

/-- A function without parameters. -/
def bare (kind : FunctionKind) : FunctionDecl := ⟨"f", kind, [], none, []⟩

/-- The world in which such a function has been declared in the block. -/
def declaredBare (kind : FunctionKind) : World :=
  (inAliased.bindType ⟨1⟩ (some num)).2.defineFunction ⟨1⟩ (bare kind)

/-- A call of the function. -/
def calledBare (kind : FunctionKind) : Except ErrorKind ScopeId × World :=
  (declaredBare kind).entering ⟨1⟩ (⟨0⟩ : Handle .function).cell
    (Action.enterFunction ⟨1⟩ ((declaredBare kind).function ⟨0⟩))

/-- A call of the constructor from the block. -/
def calledConstruct : Except ErrorKind ScopeId × World :=
  (inAliased.bindType ⟨1⟩ (some num)).2.entering ⟨1⟩ (⟨1⟩ : InstanceId).cell
    (Action.enterMethod ⟨1⟩ ⟨1⟩ "construct")

/-- The name stands for the same in the block, in the call of a closure and in that of a method. -/
theorem annotations_aliased :
    (∃ x, (calledBare .closure).1.toOption = some x ∧
      ((calledBare .closure).2.bindType x (some num)).1 =
        (inAliased.bindType ⟨1⟩ (some num)).1) ∧
    ∃ x, calledConstruct.1.toOption = some x ∧
      (calledConstruct.2.bindType x (some num)).1 = (inAliased.bindType ⟨1⟩ (some num)).1 := by
  have obeys : Kit.host.Obeys (.full fun _ => True) := Kit.host_obeys fun _ _ => .inl trivial
  have there : (⟨1⟩ : ScopeId).In inAliased.count := by decide +kernel
  have alive : inAliased.alive (⟨1⟩ : ScopeId).cell = true := by decide +kernel
  have reads : inAliased.ReadsFunctions ⟨1⟩ ∧ inAliased.ReadsClasses ⟨1⟩ ∧
      inAliased.ReadsMethods ⟨1⟩ :=
    Session.Reachable.annotations (.start {} Kit.host) obeys Kit.host_naming aliased 20 there alive
  obtain ⟨functions, -, methods⟩ := reads
  constructor
  · have new : ¬ (⟨0⟩ : Handle .function).In inAliased.count := by decide +kernel
    have made : (⟨0⟩ : Handle .function).In (declaredBare .closure).count := by decide +kernel
    obtain ⟨x, entered⟩ := Option.isSome_iff_exists.mp
      (show (calledBare .closure).1.toOption.isSome = true by decide +kernel)
    have calls : (declaredBare .closure).Calls ⟨1⟩ (⟨0⟩ : Handle .function).cell
        (Action.enterFunction ⟨1⟩ ((declaredBare .closure).function ⟨0⟩)) x
        (calledBare .closure).2 := World.calls_entering entered
    exact ⟨x, entered, (functions (d := bare .closure) rfl new made calls).1 (.inl rfl)⟩
  · have declared : inAliased.DeclaredIn ⟨0⟩ ⟨1⟩ := ⟨⟨2⟩, by decide +kernel⟩
    have hi : (⟨1⟩ : InstanceId).In inAliased.count := by decide +kernel
    have living : inAliased.alive (⟨1⟩ : InstanceId).cell = true := by decide +kernel
    have classId : (inAliased.inst ⟨1⟩).classId = ⟨0⟩ := by decide +kernel
    obtain ⟨x, entered⟩ := Option.isSome_iff_exists.mp
      (show calledConstruct.1.toOption.isSome = true by decide +kernel)
    have calls : (inAliased.bindType ⟨1⟩ (some num)).2.Calls ⟨1⟩ (⟨1⟩ : InstanceId).cell
        (Action.enterMethod ⟨1⟩ ⟨1⟩ "construct") x calledConstruct.2 :=
      World.calls_entering entered
    exact ⟨x, entered, (methods declared hi living classId).2.1 calls (by decide +kernel)⟩

/-- A program that gives the name to a type, and in a class to another one. -/
def renamed : List Statement :=
  [⟨.typeAlias "Num" (.named "Int" []), Span.none⟩,
    ⟨.classDef ⟨"A", none, [⟨.typeAlias "Num" (.named "String" []), Span.none⟩,
      methodNamed "construct" []]⟩, Span.none⟩,
    declaring "a" (.call "A" [])]

/-- The world after it. -/
def afterRenamed : World := ((Session.start {} Kit.host).reached 40 renamed).world

/-- A call of the constructor from the root. -/
def calledRenamed : Except ErrorKind ScopeId × World :=
  (afterRenamed.bindType ⟨0⟩ (some num)).2.entering ⟨0⟩ (⟨1⟩ : InstanceId).cell
    (Action.enterMethod ⟨0⟩ ⟨1⟩ "construct")

/-- In a plain function that is declared in the block the name stands for something else, as it
does in the methods of a class that has an alias of its own for it. -/
theorem not_annotations_aliased :
    ((⟨1⟩ : ScopeId).In inAliased.count ∧ inAliased.alive (⟨1⟩ : ScopeId).cell = true ∧
      ¬ (⟨0⟩ : Handle .function).In inAliased.count ∧
      (⟨0⟩ : Handle .function).In (declaredBare .function).count ∧
      ∃ x, (declaredBare .function).Calls ⟨1⟩ (⟨0⟩ : Handle .function).cell
          (Action.enterFunction ⟨1⟩ ((declaredBare .function).function ⟨0⟩)) x
          (calledBare .function).2 ∧
        ((calledBare .function).2.bindType x (some num)).1 ≠
          (inAliased.bindType ⟨1⟩ (some num)).1) ∧
    afterRenamed.DeclaredIn ⟨0⟩ ⟨0⟩ ∧ (⟨1⟩ : InstanceId).In afterRenamed.count ∧
      afterRenamed.alive (⟨1⟩ : InstanceId).cell = true ∧
      (afterRenamed.inst ⟨1⟩).classId = ⟨0⟩ ∧
      ∃ x, (afterRenamed.bindType ⟨0⟩ (some num)).2.Calls ⟨0⟩ (⟨1⟩ : InstanceId).cell
          (Action.enterMethod ⟨0⟩ ⟨1⟩ "construct") x calledRenamed.2 ∧
        (calledRenamed.2.bindType x (some num)).1 ≠ (afterRenamed.bindType ⟨0⟩ (some num)).1 := by
  refine ⟨⟨by decide +kernel, by decide +kernel, by decide +kernel, by decide +kernel, ?_⟩,
    ⟨⟨1⟩, by decide +kernel⟩, by decide +kernel, by decide +kernel, by decide +kernel, ?_⟩
  · obtain ⟨x, entered⟩ := Option.isSome_iff_exists.mp
      (show (calledBare .function).1.toOption.isSome = true by decide +kernel)
    have other : (calledBare .function).1.toOption.all (fun x =>
        ((calledBare .function).2.bindType x (some num)).1 !=
          (inAliased.bindType ⟨1⟩ (some num)).1) = true := by decide +kernel
    rw [entered, Option.all_some] at other
    exact ⟨x, World.calls_entering entered, bne_iff_ne.mp other⟩
  · obtain ⟨x, entered⟩ := Option.isSome_iff_exists.mp
      (show calledRenamed.1.toOption.isSome = true by decide +kernel)
    have other : calledRenamed.1.toOption.all (fun x =>
        (calledRenamed.2.bindType x (some num)).1 !=
          (afterRenamed.bindType ⟨0⟩ (some num)).1) = true := by decide +kernel
    rw [entered, Option.all_some] at other
    exact ⟨x, World.calls_entering entered, bne_iff_ne.mp other⟩

end ScopeLang
