/-
# Where aliases are bound

Code binds aliases in the scope that it runs in: a root, a block, a call or a
class.  A scope that keeps the variables of a closure or of a class body, and the
scope of an instance, are `silent`: no code runs in them, so they have no aliases
of their own, and lookups pass them by.  An isolated scope has the aliases that
it has been made with.

Besides, an alias stands for an id that the pool has, since that is where it
comes from.  `WellNamed` is both, and running code keeps it, whatever it does.
-/
import ScopeLang.Proofs.Disciplines
import ScopeLang.Proofs.Rebinding

namespace ScopeLang

variable {w w₁ w₂ : World} {s t : ScopeId}

/-! ## Aliases of a world -/

/-- The kinds of scopes that no code is run in and that are made without aliases. -/
def ScopeKind.isSilent : ScopeKind → Bool
  | detached | classDef | members => true
  | _ => false

namespace World

/-- The pool that all scopes share. -/
def pool (w : World) : TypePool := (w.typeContext ⟨0⟩).pool

/-- Aliases stand for usable ids, and silent scopes have none. -/
structure WellNamed (w : World) : Prop where
  types : ∀ s, (w.scope s).types = ⟨0⟩
  top : w.pool.Usable .any
  silent : ∀ s, (w.scope s).kind.isSilent = true → (w.scope s).aliases = .empty
  usable : ∀ s name id, (w.scope s).aliases.get? name = some id → w.pool.Usable id

/-- What running code keeps of scopes, classes and aliases. -/
structure Names (w w' : World) : Prop where
  scopes : ∀ {s : ScopeId}, s.In w.count → s.In w'.count
  classes : ∀ {c : ClassId}, c.In w.count → c.In w'.count
  kind : ∀ {s : ScopeId}, s.In w.count → (w'.scope s).kind = (w.scope s).kind
  home : ∀ {c : ClassId}, c.In w.count → (w'.classOf c).scope = (w.classOf c).scope
  pools : ∀ h, (w.typeContext h).pool.Grows (w'.typeContext h).pool
  wellNamed : w.WellNamed → w'.WellNamed

/-- A scope that code may run in. -/
structure Runs (s : ScopeId) (w : World) : Prop where
  there : s.In w.count
  loud : (w.scope s).kind.isSilent = false

namespace WellNamed

/-- The pool of a scope is that of all scopes. -/
theorem poolOf_eq (h : w.WellNamed) (s : ScopeId) : w.poolOf s = w.pool := by
  rw [poolOf, typesOf, h.types, pool]

/-- A pool with a signature is that of a cell. -/
theorem context (h : w.WellNamed) : (⟨0⟩ : Handle .types).In w.count := by
  by_contra absent
  obtain ⟨x, found, -⟩ := h.top
  have default : w.typeContext ⟨0⟩ = default := Store.get_default absent
  rw [pool, default] at found
  cases found

theorem alias_usable (h : w.WellNamed) {name : String} {id : SigId}
    (found : w.alias? s name = some id) : w.pool.Usable id := by
  obtain ⟨t, -, here⟩ := List.exists_of_findSome?_eq_some found
  exact h.usable t name id here

theorem pool_setPool (h : w.WellNamed) (s : ScopeId) (p : TypePool) : (w.setPool s p).pool = p := by
  have read := w.typeContext_setTypeContext ⟨0⟩ ⟨0⟩ { w.typesOf s with pool := p }
  rw [if_pos ⟨rfl, h.context⟩] at read
  rw [pool, setPool, h.types, read]

theorem bindType_eq (h : w.WellNamed) (s : ScopeId) (T : TypeExpr) :
    w.bindType s (some T) =
      ((T.bind (w.alias? s) w.pool).1, w.setPool s (T.bind (w.alias? s) w.pool).2) := by
  rw [bindType, withPool, h.poolOf_eq]
  rfl

/-- A type is bound to a usable id. -/
theorem usable_bindType (h : w.WellNamed) (s : ScopeId) (T : TypeExpr) :
    (w.bindType s (some T)).2.pool.Usable (w.bindType s (some T)).1 := by
  rw [h.bindType_eq, h.pool_setPool]
  exact T.usable_bind h.top fun _ _ => h.alias_usable

end WellNamed

namespace Names

theorem refl (w : World) : w.Names w := ⟨id, id, fun _ => rfl, fun _ => rfl, fun _ => .refl _, id⟩

theorem trans (h : w.Names w₁) (i : w₁.Names w₂) : w.Names w₂ where
  scopes there := i.scopes (h.scopes there)
  classes there := i.classes (h.classes there)
  kind there := (i.kind (h.scopes there)).trans (h.kind there)
  home there := (i.home (h.classes there)).trans (h.home there)
  pools c := (h.pools c).trans (i.pools c)
  wellNamed named := i.wellNamed (h.wellNamed named)

theorem runs (h : w.Names w₁) (runs : w.Runs s) : w₁.Runs s :=
  ⟨h.scopes runs.there, (h.kind runs.there) ▸ runs.loud⟩

/-- Where no scope and no class is changed, no alias is. -/
theorem keeps (kept : w.KeepsScopes w₁) : w.Names w₁ := by
  have scope : ∀ t, w₁.scope t = w.scope t := fun t => congrArg (Store.get · t) kept.scopes
  have classOf : ∀ c, w₁.classOf c = w.classOf c := fun c => congrArg (Store.get · c) kept.classes
  have scopes : ∀ t : ScopeId, t.In w₁.count ↔ t.In w.count := fun t => by
    simp only [Handle.In, count, kept.scopes]
  have classes : ∀ c : ClassId, c.In w₁.count ↔ c.In w.count := fun c => by
    simp only [Handle.In, count, kept.classes]
  refine ⟨(scopes _).mpr, (classes _).mpr, fun _ => by rw [scope], fun _ => by rw [classOf],
    kept.pools, fun named => ?_⟩
  exact
    { types := fun t => by rw [scope, named.types]
      top := named.top.grows (kept.pools _)
      silent := fun t => by rw [scope]; exact named.silent t
      usable := fun t name id => by
        rw [scope]
        exact fun found => (named.usable t name id found).grows (kept.pools _) }

/-- A new scope, made from one of before. -/
theorem newScope (h : w.Names w₁) {x : Scope} (starts : x.StartsFrom (w.scope s)) :
    w.Names (w₁.newScope x).2 := by
  have count : w₁.count ≤ (w₁.newScope x).2.count := w₁.count_newScope x ▸ Census.le_grow _ _
  have old : ∀ {t : ScopeId}, t.In w₁.count → (w₁.newScope x).2.scope t = w₁.scope t :=
    fun there => by rw [scope_newScope, if_neg (Census.ne_next there)]
  refine ⟨fun there => (h.scopes there).mono count, fun there => (h.classes there).mono count,
    fun there => by rw [old (h.scopes there), h.kind there], fun there => h.home there, h.pools,
    fun named => ?_⟩
  have named₁ := h.wellNamed named
  constructor
  case types =>
    intro t
    rw [scope_newScope]
    split
    · rw [starts.types, named.types]
    · exact named₁.types t
  case top => exact named₁.top
  case silent =>
    intro t
    rw [scope_newScope]
    split
    · intro silent
      rcases starts.aliases with none | ⟨kind, same⟩
      · exact none
      · rw [same, named.silent s (kind ▸ silent)]
    · exact named₁.silent t
  case usable =>
    intro t name id
    rw [scope_newScope]
    split
    · intro found
      rcases starts.aliases with none | ⟨-, same⟩
      · rw [none] at found
        cases found
      · exact (named.usable s name id (same ▸ found)).grows (h.pools _)
    · exact named₁.usable t name id

/-- Another content of a scope, with aliases that it may have. -/
theorem setScope (h : w.Names w₁) (s : ScopeId) {x : Scope} (kind : x.kind = (w₁.scope s).kind)
    (types : x.types = (w₁.scope s).types)
    (aliases : w.WellNamed → (x.kind.isSilent = true → x.aliases = .empty) ∧
      ∀ name id, x.aliases.get? name = some id → w₁.pool.Usable id) :
    w.Names (w₁.setScope s x) where
  scopes there := w₁.count_setScope s x ▸ h.scopes there
  classes there := w₁.count_setScope s x ▸ h.classes there
  kind there := by
    rw [← h.kind there, scope_setScope]
    split
    · rename_i same
      rw [same.1, kind]
    · rfl
  home := h.home
  pools := h.pools
  wellNamed before := by
    obtain ⟨silent, usable⟩ := aliases before
    have named := h.wellNamed before
    have either : ∀ t, (w₁.setScope s x).scope t = x ∨ (w₁.setScope s x).scope t = w₁.scope t := by
      intro t
      rw [scope_setScope]
      split
      · exact .inl rfl
      · exact .inr rfl
    constructor
    case types =>
      intro t
      rcases either t with new | old
      · rw [new, types, named.types]
      · rw [old, named.types]
    case top => exact named.top
    case silent =>
      intro t
      rcases either t with new | old
      · rw [new]
        exact silent
      · rw [old]
        exact named.silent t
    case usable =>
      intro t name id
      rcases either t with new | old
      · rw [new]
        exact usable name id
      · rw [old]
        exact named.usable t name id

/-- A scope that keeps its aliases. -/
theorem rewrite (w : World) (s : ScopeId) {x : Scope} (kind : x.kind = (w.scope s).kind)
    (types : x.types = (w.scope s).types) (aliases : x.aliases = (w.scope s).aliases) :
    w.Names (w.setScope s x) :=
  setScope (.refl w) s kind types fun named =>
    ⟨fun silent => aliases ▸ named.silent s (kind ▸ silent), fun name id found =>
      named.usable s name id (aliases ▸ found)⟩

theorem newClass (w : World) (x : Class) : w.Names (w.newClass x).2 where
  scopes there := there.mono (w.count_newClass x ▸ Census.le_grow _ _)
  classes there := there.mono (w.count_newClass x ▸ Census.le_grow _ _)
  kind _ := rfl
  home there := by rw [classOf_newClass, if_neg (Census.ne_next there)]
  pools _ := .refl _
  wellNamed named := ⟨named.types, named.top, named.silent, named.usable⟩

/-- What is held is of no account. -/
theorem setHeld (h : w.Names w₁) (cells cells' : List Cell) :
    Names { w with held := cells } { w₁ with held := cells' } where
  scopes := h.scopes
  classes := h.classes
  kind := h.kind
  home := h.home
  pools := h.pools
  wellNamed named := by
    have named₁ := h.wellNamed ⟨named.types, named.top, named.silent, named.usable⟩
    exact ⟨named₁.types, named₁.top, named₁.silent, named₁.usable⟩

end Names

instance : Mild Names where
  refl := .refl
  trans := .trans
  keeps := .keeps
  newScope names starts := names.newScope starts
  newClass _ := .newClass _ _
  fill w s _ _ _ _ := .rewrite w s rfl rfl rfl

/-! ## Making and leaving scopes -/

theorem names_addChild (w : World) (s child : ScopeId) : w.Names (w.addChild s child) :=
  have owned : w.Names (w.setScope child { w.scope child with owner := some s }) :=
    .rewrite w child rfl rfl rfl
  owned.trans (.rewrite _ s rfl rfl rfl)

theorem names_removeChild (w : World) (s child : ScopeId) : w.Names (w.removeChild s child) := by
  simp only [removeChild]
  split
  · have unlisted : w.Names
        (w.setScope s { w.scope s with children := (w.scope s).children.erase child }) :=
      .rewrite w s rfl rfl rfl
    exact unlisted.trans (.rewrite _ child rfl rfl rfl)
  · exact .refl w

theorem runs_derive (w : World) (s : ScopeId) (kind : ScopeKind) (loud : kind.isSilent = false)
    (label : String) (parent : Option ScopeId) :
    (w.derive s kind label parent).2.Runs (w.derive s kind label parent).1 :=
  ⟨w.derive_in s kind label parent, w.scope_derive s kind label parent ▸ loud⟩

/-- A call scope is a scope that code runs in. -/
theorem names_enter (w : World) (caller parent : ScopeId) {kind : ScopeKind}
    (loud : kind.isSilent = false) (label : String) :
    match (Action.enter caller parent kind label).runIn w with
    | (.ok t, w₁) => w.Names w₁ ∧ w₁.Runs t
    | (.error _, w₁) => w.Names w₁ := by
  have made : w.Names (w.makeCallScope parent kind label).2 := w.within_derive parent kind label _
  have runs : (w.makeCallScope parent kind label).2.Runs (w.makeCallScope parent kind label).1 :=
    w.runs_derive parent kind loud label (some parent)
  rw [Action.enter, runIn_change_bind]
  generalize w.makeCallScope parent kind label = m at made runs ⊢
  have called : m.2.Names (m.2.setCaller m.1 caller) := .rewrite m.2 m.1 rfl rfl rfl
  rw [runIn_modify_bind, Action.appendChild, bind_assoc, runIn_look_bind]
  by_cases ring : ((m.2.setCaller m.1 caller).ownerChain caller).contains m.1 = true
  · rw [if_pos ring]
    exact made.trans called
  · rw [if_neg ring]
    have listed := called.trans (names_addChild _ caller m.1)
    exact ⟨made.trans listed, listed.runs runs⟩

theorem names_enterMethod (w : World) (caller : ScopeId) (i : InstanceId) (name : String) :
    match (Action.enterMethod caller i name).runIn w with
    | (.ok t, w₁) => w.Names w₁ ∧ w₁.Runs t
    | (.error _, w₁) => w.Names w₁ := by
  rw [Action.enterMethod, runIn_look_bind]
  exact w.names_enter caller _ rfl name

theorem names_functionDefScope (w : World) (s : ScopeId) (f : FunctionDecl) :
    w.Names (w.functionDefScope s f).2 := by
  simp only [functionDefScope]
  split
  · have derived : w.Names (w.derive s .isolated f.name none).2 := w.within_derive s _ _ _
    have runs := w.runs_derive s .isolated rfl f.name none
    have captured : (w.derive s .isolated f.name none).2.Names
        ((w.derive s .isolated f.name none).2.captureVariables s []).2 := .refl _
    refine (derived.trans captured).setScope _ rfl rfl fun named => ⟨fun silent => ?_, ?_⟩
    · exact absurd (runs.loud.symm.trans silent) Bool.false_ne_true
    · exact (derived.wellNamed named).usable s
  · exact w.within_detachAs s .detached f.freeNames f.name

/-- An alias stands for the id that its type has been bound to. -/
theorem names_bindAlias (runs : w.Runs s) (name : String) (T : TypeExpr) :
    w.Names (w.bindAlias s name T).2 := by
  have bound : w.Names (w.bindType s (some T)).2 := w.within_bindType s (some T)
  refine bound.setScope s rfl rfl fun named => ⟨fun silent => ?_, fun other id found => ?_⟩
  · exact absurd ((bound.runs runs).loud.symm.trans silent) nofun
  · by_cases same : other = name
    · rw [same, Table.get?_insert_same] at found
      exact Option.some.inj found ▸ named.usable_bindType s T
    · rw [Table.get?_insert_other same] at found
      exact (bound.wellNamed named).usable s other id found

/-- The body of a new class may be run. -/
theorem runs_openClass (w : World) (s : ScopeId) (d : ClassDecl) (accessor : String) :
    (w.openClass s d accessor).2.Runs
      ((w.openClass s d accessor).2.classOf (w.openClass s d accessor).1).scope := by
  have home : ((w.openClass s d accessor).2.classOf (w.openClass s d accessor).1).scope =
      ((w.classDefScope s d).2.classScope (w.classDefScope s d).1 d.name).1 :=
    congrArg Class.scope (Store.get_alloc_new _ _)
  have runs := (w.classDefScope s d).2.runs_derive (w.classDefScope s d).1 .classScope rfl d.name
    (some (w.classDefScope s d).1)
  have declared : ((w.classDefScope s d).2.classScope (w.classDefScope s d).1 d.name).2.Names
      (((w.classDefScope s d).2.classScope (w.classDefScope s d).1 d.name).2.declareType s
        d.name).2 :=
    within_withPool _ s fun pool => pool.grows_declare d.name
  rw [home]
  exact (declared.trans (.newClass _ _)).runs runs

end World

/-! ## The discipline -/

/-- Code runs in scopes that are not silent, and keeps the world well named. -/
def naming : Discipline where
  Pre := World.WellNamed
  Done := World.Names
  Stop := World.Names
  Home := World.Runs
  Body c w := c.In w.count ∧ World.Runs (w.classOf c).scope w
  Entered w _ t w' := w.Names w' ∧ World.Runs t w'

instance : Mild naming.Done := inferInstanceAs (Mild World.Names)

instance : naming.Lawful where
  toCalm := inferInstance
  pre names named := World.Names.wellNamed names named
  stopped _ := World.Names.refl _
  after names _ stopped := World.Names.trans names stopped
  home names runs := World.Names.runs names runs
  body := fun {w w₁ c} (names : w.Names w₁) ⟨there, runs⟩ =>
    ⟨names.classes there, (names.home there) ▸ names.runs runs⟩
  bodyHome _ body := body.2
  holdPre _ named := ⟨named.types, named.top, named.silent, named.usable⟩
  holdHome runs := ⟨runs.there, runs.loud⟩
  holdBody body := ⟨body.1, body.2.there, body.2.loud⟩
  holdDone names := World.Names.setHeld names _ _
  holdStop := fun {w w₁ _} _ names => World.Names.setHeld names w.held w₁.held
  block := fun {w s} label _ => by
    have runs := w.runs_derive s .block rfl label (some s)
    have listed := (w.makeCallScope s .block label).2.names_addChild s
      (w.makeCallScope s .block label).1
    exact ⟨.trans (w.within_derive s .block label (some s)) listed, listed.runs runs⟩
  function := fun {w s} f _ => w.names_enter s (f.captured.getD s) rfl f.procedure.name
  method := fun {w s} i name _ => w.names_enterMethod s i name
  inside entered named :=
    have named₁ := World.Names.wellNamed entered.1 named
    ⟨⟨named₁.types, named₁.top, named₁.silent, named₁.usable⟩, entered.2.there, entered.2.loud⟩
  leave := fun {w s t w₁ w₂} entered _ inside =>
    have names : w₁.Names { w₂ with held := w₁.held } := World.Names.setHeld inside _ _
    (entered.1.trans names).trans (World.names_removeChild _ s t)
  stopInside := fun {w s t w₁ w₂} entered _ _ inside =>
    have names : w₁.Names w₂ := World.Names.setHeld inside w₁.held w₂.held
    entered.1.trans names
  setVariable := World.within_setVariable
  setClassTable := World.within_setClassTable
  bindAlias name T runs := World.names_bindAlias runs name T
  functionDefScope := World.names_functionDefScope
  newFunction := World.within_newFunction
  newMethod := World.within_newMethod
  register := World.within_registerFunction
  addClass := World.within_addClass
  openClass w s d accessor :=
    ⟨w.within_openClass s d accessor, World.newClass_in _ _, w.runs_openClass s d accessor⟩
  makeInstance := World.within_makeInstance

/-! ## Sessions -/

namespace Session

theorem rests_start (config : Config) (host : Host) : (start config host).Rests naming where
  pre :=
    { types := fun s => by
        rw [scope_start]
        split <;> rfl
      top := ⟨.any, rfl, by nofun⟩
      silent := fun s => by
        rw [scope_start]
        split <;> exact fun _ => rfl
      usable := fun s name id found => by
        rw [scope_start] at found
        split at found <;> cases found }
  home := ⟨Nat.zero_lt_one, rfl⟩

/-- Every moment of every program is well named, if the bodies of the host keep to it. -/
theorem Reachable.wellNamed {D : Dialect} {s : Session} (h : Reachable D s)
    (keeps : s.host.Keeps naming) (program : List Statement) (fuel : Nat) :
    (s.reached fuel program).world.WellNamed := by
  obtain ⟨rests, -⟩ := h.done rests_start keeps
  exact World.Names.wellNamed (rests.stop_reached keeps program fuel) rests.pre

end Session

/-- The bodies of the kit bind no aliases. -/
theorem Kit.host_naming : Kit.host.Keeps naming := Kit.within_host

end ScopeLang
