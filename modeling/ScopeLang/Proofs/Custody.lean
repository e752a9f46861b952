/-
# What keeps the surroundings of code

Code that runs in a scope sees its parent, and a scope does not keep its parent.  What
keeps it is held: a block is entered from a scope that is held, a function below the
scope that it captured, a method below the scope of its receiver, and evaluations hold
the function, the receiver and the class that they are about.  A scope is `Borne` if it
is held or if something that is held owns it, and a world is `Secured` if the parents
of all scopes that are held are borne, but for the root.

What evaluation does to the world leaves this alone (`World.Persists`): scopes keep their
parents, functions, instances and classes keep their scopes, and classes of the host,
which capture no scope, are made by the host alone, below the root.
-/
import ScopeLang.Proofs.Captures
import ScopeLang.Proofs.Trees

namespace ScopeLang

variable {α β : Type}

/-! ## Scopes that are kept -/

/-- The kinds of cells that keep a scope for other reasons than that they list it. -/
def CellKind.keepsScopes : CellKind → Bool
  | .function | .object | .classObject => true
  | _ => false

namespace World

/-- A scope that is held, or that something that is held owns. -/
def Borne (w : World) (s : ScopeId) : Prop :=
  s.cell ∈ w.held ∨
    ∃ c ∈ w.held, c.kind.keepsScopes = true ∧ c.In w.count ∧ s.cell ∈ w.owned c

/-- The same is held, scopes keep their parents, and what keeps a scope does so still. -/
structure Stays (w w' : World) : Prop where
  held : w'.held = w.held
  there : ∀ {s : ScopeId}, s.In w.count → s.In w'.count
  kind : ∀ {s : ScopeId}, s.In w.count → (w'.scope s).kind = (w.scope s).kind
  parent : ∀ {s : ScopeId}, s.In w.count → (w'.scope s).parent = (w.scope s).parent
  keeper : ∀ {c : Cell}, c.kind.keepsScopes = true → c.In w.count → c.In w'.count
  keeps : ∀ {c : Cell}, c.kind.keepsScopes = true → c.In w.count → ∀ s : ScopeId,
    s.cell ∈ w.owned c → s.cell ∈ w'.owned c

/-- So it does, and the host has no other classes than before. -/
structure Persists (w w' : World) : Prop extends w.Stays w' where
  native : ∀ {c : ClassId}, c.In w'.count → (w'.classOf c).captured = none →
    c.In w.count ∧ w'.classOf c = w.classOf c

variable {w w₁ w₂ : World} {s t p : ScopeId} {cells : List Cell}

theorem stays_newClass (w : World) (x : Class) : w.Stays (w.newClass x).2 where
  held := rfl
  there old := old
  kind _ := rfl
  parent _ := rfl
  keeper _ old := old.mono (w.count_newClass x ▸ Census.le_grow _ _)
  keeps {c} keeps old s owned := by
    obtain ⟨k, i⟩ := c
    cases k with
    | classObject =>
      show s.cell ∈ ((w.newClass x).2.classOf ⟨i⟩).cells
      rw [classOf_newClass, if_neg (Census.ne_next (h := ⟨i⟩) old)]
      exact owned
    | object | function => exact owned
    | _ => cases keeps

namespace Persists

theorem refl (w : World) : w.Persists w :=
  ⟨⟨rfl, id, fun _ => rfl, fun _ => rfl, fun _ there => there, fun _ _ _ owned => owned⟩,
    fun there _ => ⟨there, rfl⟩⟩

theorem trans (h : w.Persists w₁) (i : w₁.Persists w₂) : w.Persists w₂ where
  held := i.held.trans h.held
  there old := i.there (h.there old)
  kind old := (i.kind (h.there old)).trans (h.kind old)
  parent old := (i.parent (h.there old)).trans (h.parent old)
  keeper kind old := i.keeper kind (h.keeper kind old)
  keeps kind old s owned := i.keeps kind (h.keeper kind old) s (h.keeps kind old s owned)
  native there none := by
    obtain ⟨old, same⟩ := i.native there none
    obtain ⟨older, still⟩ := h.native old (same ▸ none)
    exact ⟨older, same.trans still⟩

/-- Where classes stay as they are, the host has no other ones. -/
theorem native_of_classes (same : w₁.classes = w.classes) {c : ClassId} (there : c.In w₁.count)
    (_ : (w₁.classOf c).captured = none) : c.In w.count ∧ w₁.classOf c = w.classOf c := by
  refine ⟨?_, congrArg (Store.get · c) same⟩
  simpa only [Handle.In, count, same] using there

/-- Where functions, instances and classes stay as they are, they keep their scopes. -/
theorem of_same (held : w₁.held = w.held) (there : ∀ {s : ScopeId}, s.In w.count → s.In w₁.count)
    (kind : ∀ {s : ScopeId}, s.In w.count → (w₁.scope s).kind = (w.scope s).kind)
    (parent : ∀ {s : ScopeId}, s.In w.count → (w₁.scope s).parent = (w.scope s).parent)
    (instances : w₁.instances = w.instances) (functions : w₁.functions = w.functions)
    (classes : w₁.classes = w.classes) : w.Persists w₁ where
  held := held
  there := there
  kind := kind
  parent := parent
  keeper {c} keeps there := by
    obtain ⟨k, i⟩ := c
    cases k with
    | function => simpa only [Cell.In, count, functions] using there
    | object => simpa only [Cell.In, count, instances] using there
    | classObject => simpa only [Cell.In, count, classes] using there
    | _ => cases keeps
  keeps {c} keeps _ s owned := by
    obtain ⟨k, i⟩ := c
    cases k with
    | function => simpa only [World.owned, function, functions] using owned
    | object => simpa only [World.owned, inst, instances] using owned
    | classObject => simpa only [World.owned, classOf, classes] using owned
    | _ => cases keeps
  native := native_of_classes classes

/-- Cells are added, and nothing else is done. -/
theorem of_spares (h : w.Spares w₁) : w.Persists w₁ where
  held := h.held
  there old := old.mono h.count
  kind old := by rw [h.scope old]
  parent old := by rw [h.scope old]
  keeper _ old := old.mono h.count
  keeps {c} keeps old s owned := by
    rwa [h.owned (owner_of_owned old owned)]
  native := native_of_classes h.classes

theorem setScope (w : World) (s : ScopeId) {x : Scope} (kind : x.kind = (w.scope s).kind)
    (parent : x.parent = (w.scope s).parent) : w.Persists (w.setScope s x) := by
  refine .of_same rfl (fun there => w.count_setScope s x ▸ there) (fun _ => ?_) (fun _ => ?_)
    rfl rfl rfl
  · rw [scope_setScope]
    split
    · rename_i same
      rw [same.1, kind]
    · rfl
  · rw [scope_setScope]
    split
    · rename_i same
      rw [same.1, parent]
    · rfl

theorem newFunction (w : World) (f : Function) : w.Persists (w.newFunction f).2 where
  held := rfl
  there old := old
  kind _ := rfl
  parent _ := rfl
  keeper _ old := old.mono (w.count_newFunction f ▸ Census.le_grow _ _)
  keeps {c} keeps old s owned := by
    obtain ⟨k, i⟩ := c
    cases k with
    | function =>
      show s.cell ∈ ((w.newFunction f).2.function ⟨i⟩).cells
      rw [function_newFunction, if_neg (Census.ne_next (h := ⟨i⟩) old)]
      exact owned
    | object | classObject => exact owned
    | _ => cases keeps
  native := native_of_classes rfl

/-- A class of the program. -/
theorem newClass (w : World) {x : Class} (captured : x.captured.isSome = true) :
    w.Persists (w.newClass x).2 where
  toStays := w.stays_newClass x
  native {c} there none := by
    rw [classOf_newClass] at none ⊢
    rw [count_newClass] at there
    split at none
    · rw [none] at captured
      cases captured
    · rename_i other
      exact ⟨Census.in_of_grow there other, if_neg other⟩

/-- An instance that keeps its scope. -/
theorem setInstance (w : World) (i : InstanceId) {x : Instance}
    (keeps : ∀ s : ScopeId, s.cell ∈ (w.inst i).cells → s.cell ∈ x.cells) :
    w.Persists (w.setInstance i x) where
  held := rfl
  there old := w.count_setInstance i x ▸ old
  kind _ := rfl
  parent _ := rfl
  keeper _ old := w.count_setInstance i x ▸ old
  keeps {c} keeps' _ s owned := by
    obtain ⟨k, j⟩ := c
    cases k with
    | object =>
      show s.cell ∈ ((w.setInstance i x).inst ⟨j⟩).cells
      rw [inst_setInstance]
      split
      · rename_i same
        exact keeps s (same.1 ▸ owned)
      · exact owned
    | classObject | function => exact owned
    | _ => cases keeps'
  native := native_of_classes rfl

/-- What was held before is held again. -/
theorem restore (h : (w.hold cells).Persists w₁) : w.Persists { w₁ with held := w.held } where
  held := rfl
  there := h.there
  kind := h.kind
  parent := h.parent
  keeper := h.keeper
  keeps := h.keeps
  native := h.native

end Persists

instance : Calm Persists where
  refl := .refl
  trans := .trans
  contents h := .of_same h.held
    (fun there => by simpa only [Handle.In, count, h.scopes] using there)
    (fun _ => by rw [scope, h.scopes, scope]) (fun _ => by rw [scope, h.scopes, scope])
    h.instances h.functions h.classes
  copy n v w := .of_spares (spares_copyWithin n v w)

/-! ## What keeps surroundings -/

variable (w) (s) in
theorem persists_setVariable (name : String) (b : Binding) : w.Persists (w.setVariable s name b) :=
  .setScope w s rfl rfl

variable (w) (s) in
theorem persists_registerFunction (name : String) (o : Overload) :
    w.Persists (w.registerFunction s name o) := by
  simp only [registerFunction]
  split
  · exact .setScope w _ rfl rfl
  · exact .setScope w s rfl rfl

variable (w) (s) in
theorem persists_setClassTable (classes : ClassTable) : w.Persists (w.setClassTable s classes) := by
  simp only [setClassTable]
  split
  · exact .setScope w _ rfl rfl
  · exact .setScope w s rfl rfl

variable (w) (s) in
theorem persists_bindAlias (name : String) (t : TypeExpr) : w.Persists (w.bindAlias s name t).2 :=
  (w.within_bindType s (some t) : w.Persists _).trans (.setScope _ s rfl rfl)

variable (w) (s) in
theorem persists_derive (kind : ScopeKind) (label : String) (parent : Option ScopeId) :
    w.Persists (w.derive s kind label parent).2 := .of_spares (w.spares_newScope _)

variable (w) (s) in
theorem persists_detachAs (kind : ScopeKind) (names : List String) (label : String) :
    w.Persists (w.detachAs s kind names label).2 :=
  ((w.persists_derive s kind label (some s)).trans
    (.of_spares (spares_captureVariables _ s names))).trans (.setScope _ _ rfl rfl)

variable (w) (s) in
theorem persists_functionDefScope (f : FunctionDecl) : w.Persists (w.functionDefScope s f).2 := by
  simp only [functionDefScope]
  split
  · exact ((w.persists_derive s .isolated f.name none).trans
      (.of_spares (spares_captureVariables _ s []))).trans (.setScope _ _ rfl rfl)
  · exact w.persists_detachAs s .detached f.freeNames f.name

theorem persists_addFunction (w : World) (s : ScopeId) (name : String) (procedure : Procedure)
    (captured : Option ScopeId) (primary : Role) (secondary : Option Role) :
    w.Persists (w.addFunction s name procedure captured primary secondary) :=
  (Persists.newFunction w _).trans (persists_registerFunction _ s name _)

theorem persists_newMethod (w : World) (m : Method) : w.Persists (w.newMethod m).2 :=
  .of_same rfl id (fun _ => rfl) (fun _ => rfl) rfl rfl rfl

theorem persists_addMethod (w : World) (c : ClassId) (name : String) (procedure : Procedure)
    (primary : Role) (secondary : Option Role) :
    w.Persists (w.addMethod c name procedure primary secondary) :=
  (w.persists_newMethod _).trans (persists_registerFunction _ _ name _)

variable (w) (s) in
theorem persists_defineFunction (f : FunctionDecl) : w.Persists (w.defineFunction s f) := by
  have captured : w.Persists (w.functionDefScope s f).2 := w.persists_functionDefScope s f
  have bound := within_bindProcedure (R := Persists) s f.name f.parameters f.returns (.user f.body)
    (w.functionDefScope s f).2
  exact (captured.trans bound).trans (persists_addFunction _ s f.name _ _ f.kind.role none)

variable (w) in
theorem persists_defineMethod (c : ClassId) (f : FunctionDecl) :
    w.Persists (w.defineMethod c f) := by
  have bound := within_bindProcedure (R := Persists) (w.classOf c).scope f.name f.parameters
    f.returns (.user (stripBlock (w.classOf c).accessor f.body)) w
  exact bound.trans ((persists_newMethod _ _).trans (persists_registerFunction _ _ f.name _))

variable (w) (s) in
theorem persists_openClass (d : ClassDecl) (accessor : String) :
    w.Persists (w.openClass s d accessor).2 := by
  have captured : w.Persists (w.classDefScope s d).2 := w.persists_detachAs s .classDef _ _
  have home := persists_derive (w.classDefScope s d).2 (w.classDefScope s d).1 .classScope d.name
    (some (w.classDefScope s d).1)
  have declared : ∀ (u : World), u.Persists (u.declareType s d.name).2 := fun u =>
    u.within_withPool s fun pool => pool.grows_declare d.name
  exact ((captured.trans home).trans (declared _)).trans (.newClass _ rfl)

variable (w) in
theorem persists_makeInstance (c : ClassId) : w.Persists (w.makeInstance c).2 := by
  have made : w.Persists (w.emptyMembers c).2 := w.persists_derive _ .members _ _
  have members : (w.emptyMembers c).2.Spares (w.members c).2 := by
    refine spares_mapState (fun e w => ?_) _ _
    exact w.spares_duplicate e.2.value
  have furnished : (w.members c).2.Persists (w.furnished c) := .setScope _ _ rfl rfl
  rw [makeInstance_eq]
  exact ((made.trans (.of_spares members)).trans furnished).trans
    (.of_spares (spares_newInstance _ _))

variable (w) (s) in
theorem persists_removeChild (child : ScopeId) : w.Persists (w.removeChild s child) := by
  simp only [removeChild]
  split
  · have unlisted : w.Persists (w.setScope s
        { w.scope s with children := (w.scope s).children.erase child }) := .setScope w s rfl rfl
    exact unlisted.trans (.setScope _ child rfl rfl)
  · exact .refl w

variable (w) (s) in
theorem persists_addChild (child : ScopeId) : w.Persists (w.addChild s child) := by
  have linked : w.Persists (w.setScope child { w.scope child with owner := some s }) :=
    .setScope w child rfl rfl
  exact linked.trans (.setScope _ s rfl rfl)

/-! ## Secured worlds -/

theorem Borne.stays (h : w.Stays w₁) (borne : w.Borne s) : w₁.Borne s := by
  rcases borne with held | ⟨c, held, keeps, there, owned⟩
  · exact .inl (h.held ▸ held)
  · exact .inr ⟨c, h.held ▸ held, keeps, h.keeper keeps there, h.keeps keeps there s owned⟩

theorem Borne.persists (h : w.Persists w₁) (borne : w.Borne s) : w₁.Borne s := borne.stays h.toStays

theorem Borne.hold (borne : w.Borne s) : (w.hold cells).Borne s := by
  rcases borne with held | ⟨c, held, keeps⟩
  · exact .inl (List.mem_append_right _ held)
  · exact .inr ⟨c, List.mem_append_right _ held, keeps⟩

/-- A world in which the first root is held, the scopes that are held are there and have parents
that are borne, but for the root, and the classes of the host are below the root. -/
structure Secured (w : World) : Prop where
  root : (⟨0⟩ : ScopeId).cell ∈ w.held
  there : ∀ s : ScopeId, s.cell ∈ w.held → s.In w.count
  parent : ∀ s : ScopeId, s.cell ∈ w.held → s ≠ ⟨0⟩ →
    ∃ p, (w.scope s).parent = some p ∧ w.Borne p
  native : ∀ c : ClassId, c.In w.count → (w.classOf c).captured = none →
    (w.classOf c).scope.In w.count ∧ (w.scope (w.classOf c).scope).parent = some ⟨0⟩

namespace Secured

theorem persists (h : w.Persists w₁) (secured : w.Secured) : w₁.Secured where
  root := h.held ▸ secured.root
  there s held := h.there (secured.there s (h.held ▸ held))
  parent s held ne := by
    have held : s.cell ∈ w.held := h.held ▸ held
    obtain ⟨p, parent, borne⟩ := secured.parent s held ne
    exact ⟨p, (h.parent (secured.there s held)).trans parent, borne.persists h⟩
  native c there none := by
    obtain ⟨old, same⟩ := h.native there none
    obtain ⟨home, parent⟩ := secured.native c old (same ▸ none)
    rw [same]
    exact ⟨h.there home, (h.parent home).trans parent⟩

/-- Holding something that is no scope. -/
theorem hold (secured : w.Secured) (none : Scopeless cells) : (w.hold cells).Secured := by
  have before : ∀ s : ScopeId, s.cell ∈ (w.hold cells).held → s.cell ∈ w.held := fun s held =>
    (List.mem_append.mp held).resolve_left fun mem => none _ mem rfl
  refine ⟨List.mem_append_right _ secured.root, fun s held => secured.there s (before s held), ?_,
    secured.native⟩
  intro s held ne
  obtain ⟨p, parent, borne⟩ := secured.parent s (before s held) ne
  exact ⟨p, parent, borne.hold⟩

/-- A class of the host whose scope is below the root. -/
theorem newClass (secured : w.Secured) {x : Class} (home : x.scope.In w.count)
    (parent : (w.scope x.scope).parent = some ⟨0⟩) : (w.newClass x).2.Secured where
  root := secured.root
  there := secured.there
  parent s held ne := by
    obtain ⟨p, parent, borne⟩ := secured.parent s held ne
    exact ⟨p, parent, borne.stays (w.stays_newClass x)⟩
  native c there bare := by
    rw [classOf_newClass] at bare ⊢
    split
    · exact ⟨home, parent⟩
    · rename_i other
      rw [if_neg other] at bare
      exact secured.native c (Census.in_of_grow (w.count_newClass x ▸ there) other) bare

/-- The host makes a class below the root. -/
theorem addClass (secured : w.Secured) (name accessor : String) :
    (w.addClass ⟨0⟩ name accessor none).2.Secured ∧
      (w.addClass ⟨0⟩ name accessor none).2.held = w.held := by
  have made : w.Persists (w.classScope ⟨0⟩ name).2 :=
    w.persists_derive ⟨0⟩ .classScope name (some ⟨0⟩)
  have there : (w.classScope ⟨0⟩ name).1.In (w.classScope ⟨0⟩ name).2.count := w.derive_in _ _ _ _
  have parent : ((w.classScope ⟨0⟩ name).2.scope (w.classScope ⟨0⟩ name).1).parent = some ⟨0⟩ :=
    congrArg Scope.parent (w.scope_derive ⟨0⟩ .classScope name (some ⟨0⟩))
  have declared : (w.classScope ⟨0⟩ name).2.Persists
      ((w.classScope ⟨0⟩ name).2.declareType ⟨0⟩ name).2 :=
    World.within_withPool _ ⟨0⟩ fun pool => pool.grows_declare name
  have before := secured.persists (made.trans declared)
  exact ⟨before.newClass (declared.there there) ((declared.parent there).trans parent),
    declared.held.trans made.held⟩

end Secured

/-- A scope under a parent that is borne. -/
structure Founded (w : World) (t : ScopeId) : Prop where
  there : t.In w.count
  parent : ∃ p, (w.scope t).parent = some p ∧ w.Borne p

/-- Holding a scope whose parent is borne. -/
theorem Secured.enter (secured : w.Secured) (founded : w.Founded t) :
    (w.hold [t.cell]).Secured := by
  have cases_ : ∀ s : ScopeId, s.cell ∈ (w.hold [t.cell]).held → s = t ∨ s.cell ∈ w.held := by
    intro s held
    rcases List.mem_cons.mp held with same | old
    · exact .inl (congrArg (fun c : Cell => (⟨c.index⟩ : ScopeId)) same)
    · exact .inr old
  refine ⟨List.mem_cons_of_mem _ secured.root, fun s held => ?_, fun s held ne => ?_,
    secured.native⟩
  · rcases cases_ s held with rfl | old
    · exact founded.there
    · exact secured.there s old
  · rcases cases_ s held with rfl | old
    · obtain ⟨p, parent, borne⟩ := founded.parent
      exact ⟨p, parent, borne.hold⟩
    · obtain ⟨p, parent, borne⟩ := secured.parent s old ne
      exact ⟨p, parent, borne.hold⟩

/-! ## Entering -/

/-- A later world in which `t` is a scope of some kind under `p`. -/
structure Branches (w : World) (p : ScopeId) (kind : ScopeKind) (t : ScopeId) (w₁ : World) :
    Prop where
  persists : w.Persists w₁
  there : t.In w₁.count
  kind : (w₁.scope t).kind = kind
  parent : (w₁.scope t).parent = some p

namespace Branches

variable {kind : ScopeKind}

theorem later (h : w.Branches p kind t w₁) (i : w₁.Persists w₂) : w.Branches p kind t w₂ where
  persists := h.persists.trans i
  there := i.there h.there
  kind := (i.kind h.there).trans h.kind
  parent := (i.parent h.there).trans h.parent

theorem founded (h : w.Branches p kind t w₁) (borne : w.Borne p) : w₁.Founded t :=
  ⟨h.there, p, h.parent, borne.persists h.persists⟩

end Branches

theorem branches_makeCallScope (w : World) (p : ScopeId) (kind : ScopeKind) (label : String) :
    w.Branches p kind (w.makeCallScope p kind label).1 (w.makeCallScope p kind label).2 := by
  have fresh : (w.makeCallScope p kind label).2.scope (w.makeCallScope p kind label).1 =
    (w.scope p).derived p kind label (some p) := w.scope_derive p kind label (some p)
  refine ⟨w.persists_derive p kind label (some p), w.derive_in _ _ _ _, ?_, ?_⟩ <;> rw [fresh] <;>
    rfl

theorem branches_createChild (w : World) (s : ScopeId) (kind : ScopeKind) (label : String) :
    w.Branches s kind (w.createChild s kind label).1 (w.createChild s kind label).2 :=
  (w.branches_makeCallScope s kind label).later (persists_addChild _ s _)

/-- A call that is not refused enters a scope below `p`. -/
theorem branches_enter (w : World) (caller p : ScopeId) (kind : ScopeKind) (label : String) :
    match (Action.enter caller p kind label).runIn w with
    | (.ok t, w₁) => w.Branches p kind t w₁
    | (.error _, w₁) => w.Persists w₁ := by
  have made := w.branches_makeCallScope p kind label
  rw [Action.enter, runIn_change_bind]
  generalize w.makeCallScope p kind label = m at made ⊢
  have called : w.Branches p kind m.1 (m.2.setCaller m.1 caller) :=
    made.later (.setScope _ _ rfl rfl)
  rw [runIn_modify_bind, Action.appendChild, bind_assoc, runIn_look_bind]
  by_cases ring : ((m.2.setCaller m.1 caller).ownerChain caller).contains m.1 = true
  · rw [if_pos ring]
    exact called.persists
  · rw [if_neg ring]
    exact called.later (persists_addChild (m.2.setCaller m.1 caller) caller m.1)

theorem founded_createChild (borne : w.Borne s) (label : String) :
    w.Persists (w.createChild s .block label).2 ∧
      (w.createChild s .block label).2.Founded (w.createChild s .block label).1 := by
  have made := w.branches_createChild s .block label
  exact ⟨made.persists, made.founded borne⟩

theorem founded_enter (borne : w.Borne p) (caller : ScopeId) (kind : ScopeKind) (label : String) :
    match (Action.enter caller p kind label).runIn w with
    | (.ok t, w₁) => w.Persists w₁ ∧ w₁.Founded t
    | (.error _, w₁) => w.Persists w₁ := by
  have entered := w.branches_enter caller p kind label
  generalize (Action.enter caller p kind label).runIn w = made at entered ⊢
  obtain ⟨result, w₁⟩ := made
  cases result with
  | error => exact entered
  | ok t => exact ⟨entered.persists, entered.founded borne⟩

theorem founded_enterMethod {receiver : InstanceId} (borne : w.Borne (w.inst receiver).scope)
    (caller : ScopeId) (name : String) :
    match (Action.enterMethod caller receiver name).runIn w with
    | (.ok t, w₁) => w.Persists w₁ ∧ w₁.Founded t
    | (.error _, w₁) => w.Persists w₁ := by
  rw [Action.enterMethod, runIn_look_bind]
  exact founded_enter borne caller .methodCall name

end World

end ScopeLang
