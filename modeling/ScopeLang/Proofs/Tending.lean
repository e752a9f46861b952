/-
# What tended worlds are given

Definitions, calls, operators and intrinsics write to a world in several places.
Of each it is shown that a tended world is left tended (`World.Tends`) and of
actions also that what they yield is public: it stands for no class in the making,
as long as what they are given is public.

A scope is open if nothing speaks against new variables in it: it is no class
scope, or that of a class in the making.  An instance's scope is open, and that of its
class is not.
-/
import ScopeLang.Proofs.Making
import ScopeLang.Proofs.Operations
import ScopeLang.Eval.Expression

namespace ScopeLang

variable {Z : Making} {w w₁ w₂ : World} {s t : ScopeId} {c : ClassId} {v : Value}

/-- A later world that is tended. -/
structure World.Tends (Z : Making) (w w₁ : World) : Prop where
  tended : w₁.Tended Z
  precedes : w.Precedes w₁

namespace World.Tends

theorem refl (h : w.Tended Z) : w.Tends Z w := ⟨h, .refl w⟩

theorem trans (h : w.Tends Z w₁) (i : w₁.Tends Z w₂) : w.Tends Z w₂ :=
  ⟨i.tended, h.precedes.trans i.precedes⟩

/-- One more change after others. -/
theorem also (h : w.Tends Z w₁) (i : w₁.Tended Z → w₁.Tends Z w₂) : w.Tends Z w₂ :=
  h.trans (i h.tended)

end World.Tends

/-- A later world in which a new class is in the making. -/
structure World.Founds (Z : Making) (w : World) (made : ClassId × World) : Prop where
  tended : made.2.Tended fun z => Z z ∨ z = made.1
  precedes : w.Precedes made.2
  new : ¬ made.1.In w.count

namespace World.Founds

variable {made : ClassId × World}

theorem tends (h : w.Founds Z made) : w.Tends Z made.2 :=
  ⟨h.tended.weaken fun _ => .inl, h.precedes⟩

/-- Once it is no longer in the making, the class is public. -/
theorem cell_public (h : w.Founds Z made) (tended : w.Tended Z) :
    made.1.cell.Public Z made.2.count := by
  refine ⟨h.tended.there (.inr rfl), fun z same hz => h.new ?_⟩
  have old : z.cell.In w.count := tended.there hz
  rw [← same] at old
  exact old

end World.Founds

/-! ## Open scopes -/

/-- A scope that may be given variables: it belongs to no class, or to one in the making. -/
structure World.Open (Z : Making) (w : World) (s : ScopeId) : Prop where
  there : s.In w.count
  making : (w.scope s).kind = .classScope → ∃ z, Z z ∧ (w.classOf z).scope = s

namespace World.Open

theorem of_kind (there : s.In w.count) (kind : (w.scope s).kind ≠ .classScope) : w.Open Z s :=
  ⟨there, fun e => absurd e kind⟩

theorem later (h : w.Open Z s) (tended : w.Tended Z) (g : w.Precedes w₁) : w₁.Open Z s where
  there := h.there.mono g.count
  making kind := by
    obtain ⟨z, hz, home⟩ := h.making ((g.kind h.there).symm.trans kind)
    exact ⟨z, hz, (congrArg Class.scope (g.classOf (tended.there hz))).trans home⟩

theorem unmade (h : w.Open Z s) (tended : w.Tended Z) : w.Unmade s := by
  by_cases kind : (w.scope s).kind = .classScope
  · obtain ⟨z, hz, rfl⟩ := h.making kind
    exact tended.unmade hz
  · exact tended.unmade_of_kind kind

end World.Open

namespace World.Tended

/-- The scope of an instance is open. -/
theorem open_home (h : w.Tended Z) {i : InstanceId} (hi : i.In w.count) :
    w.Open Z (w.inst i).scope :=
  .of_kind (h.home hi) (h.homeKind hi ▸ nofun)

/-! ## Types and links -/

theorem tends_aside (h : w.Tended Z) (i : w.Aside w₁) : w.Tends Z w₁ := ⟨h.aside i, .of_aside i⟩

theorem withPool {α : Type} (h : w.Tended Z) (s : ScopeId) (f : TypePool → α × TypePool) :
    w.Tends Z (w.withPool s f).2 :=
  h.tends_aside (.setTypeContext w _ _)

/-- A scope keeps its kind, its variables and its classes. -/
theorem relink (h : w.Tended Z) {x : Scope} (kind : x.kind = (w.scope s).kind)
    (bindings : x.bindings = (w.scope s).bindings) (classes : x.classes = (w.scope s).classes)
    (globals : x.globals.classes = (w.scope s).globals.classes) : w.Tends Z (w.setScope s x) := by
  refine ⟨h.relabel kind bindings fun c hc => h.registered (s := s) ?_, .setScope kind⟩
  rw [Scope.Registers, classes, globals] at hc
  exact hc

theorem bindAlias (h : w.Tended Z) (s : ScopeId) (name : String) (T : TypeExpr) :
    w.Tends Z (w.bindAlias s name T).2 :=
  (h.withPool s _).also fun h => h.relink rfl rfl rfl rfl

theorem setCaller (h : w.Tended Z) (s caller : ScopeId) : w.Tends Z (w.setCaller s caller) :=
  h.relink rfl rfl rfl rfl

theorem addChild (h : w.Tended Z) (s child : ScopeId) : w.Tends Z (w.addChild s child) :=
  (h.relink (s := child) (x := { w.scope child with owner := some s }) rfl rfl rfl rfl).also
    fun h => h.relink rfl rfl rfl rfl

theorem removeChild (h : w.Tended Z) (s child : ScopeId) : w.Tends Z (w.removeChild s child) := by
  simp only [World.removeChild]
  split
  · exact (h.relink (s := s) (x := { w.scope s with children := (w.scope s).children.erase child })
      rfl rfl rfl rfl).also fun h => h.relink rfl rfl rfl rfl
  · exact .refl h

/-! ## Registering -/

theorem globalClasses_eq (w : World) (root : ScopeId) :
    w.globalClasses root = (w.scope root).globals.classes := by
  rw [globalClasses]
  cases (w.scope root).globals <;> rfl

theorem registerFunction (h : w.Tended Z) (s : ScopeId) (name : String) (o : Overload) :
    w.Tends Z (w.registerFunction s name o) := by
  simp only [World.registerFunction]
  split
  · exact h.relink rfl rfl rfl (globalClasses_eq w _)
  · exact h.relink rfl rfl rfl rfl

theorem public_classTable (h : w.Tended Z) (hc : c ∈ (w.classTable s).values) :
    c.cell.Public Z w.count := by
  simp only [classTable] at hc
  split at hc
  · rw [globalClasses_eq] at hc
    exact h.registered (.inr hc)
  · exact h.registered (.inl hc)

theorem setClassTable (h : w.Tended Z) (s : ScopeId) {classes : ClassTable}
    (public_ : ∀ c ∈ classes.values, c.cell.Public Z w.count) :
    w.Tends Z (w.setClassTable s classes) := by
  simp only [World.setClassTable]
  split
  · rename_i root _
    exact ⟨h.relabel (s := root) rfl rfl fun c hc =>
      hc.elim (fun old => h.registered (.inl old)) (public_ c), .setScope rfl⟩
  · exact ⟨h.relabel (s := s) rfl rfl fun c hc =>
      hc.elim (public_ c) fun old => h.registered (.inr old), .setScope rfl⟩

theorem public_lookupClass (h : w.Tended Z) {name : String}
    (found : w.lookupClass s name = some c) : c.cell.Public Z w.count := by
  obtain ⟨t, hc | hc⟩ := mem_values_of_lookupClass found
  · exact h.registered (s := t) (.inl hc)
  · rw [globalClasses_eq] at hc
    exact h.registered (.inr hc)

/-! ## Variables -/

theorem public_binding? (h : w.Tended Z) {name : String} {b : Binding}
    (found : w.binding? s name = some b) : b.value.Public Z w.count := by
  obtain ⟨t, -, here⟩ := localBinding?_of_binding? found
  exact h.binding (mem_values_of_localBinding? here)

/-- A value is prepared and stored, where there was one or in an open scope. -/
theorem store (h : w.Tended Z) {name : String} {b : Binding} (hs : s.In w.count)
    (public_ : v.Public Z w.count)
    (may : w.Open Z s ∨ w.localBinding? s name = some b) : w.Tends Z (w.store s name b v) := by
  obtain ⟨amends, tended, good⟩ := b.prepare_minds v w h public_
  refine ⟨tended.setVariable good (may.imp (fun o => ?_) fun found => ⟨b, ?_, rfl⟩),
    (Precedes.of_amends amends).trans (.of_grows (grows_setVariable _ s name _))⟩
  · exact (o.later h (.of_amends amends)).unmade tended
  · rwa [localBinding?, amends.scope hs id]

/-! ## Scopes -/

theorem derive (h : w.Tended Z) (s : ScopeId) (kind : ScopeKind) (label : String)
    (parent : Option ScopeId) : w.Tends Z (w.derive s kind label parent).2 := by
  refine ⟨h.newScope (fun b hb => absurd hb List.not_mem_nil) fun c hc => ?_,
    .of_grows (w.grows_derive s kind label parent)⟩
  simp only [Scope.Registers, Globals.share] at hc
  split at hc
  · exact absurd hc (not_or_intro List.not_mem_nil List.not_mem_nil)
  · exact absurd hc (not_or_intro List.not_mem_nil List.not_mem_nil)

/-- A new scope is given variables and tables. -/
theorem stock (h : w₁.Tended Z) (kind : ScopeKind) {label : String} {parent : Option ScopeId}
    (amends : (w.derive s kind label parent).2.Amends Nowhere Nowhere w₁)
    (plain : kind ≠ .classScope) {x : Scope} (same : x.kind = (w₁.scope
      (w.derive s kind label parent).1).kind)
    (public_ : ∀ b ∈ x.bindings.values, b.value.Public Z w₁.count)
    (registers : ∀ c, c ∈ x.classes.values ∨ c ∈ x.globals.classes.values →
      c.cell.Public Z w₁.count) :
    w₁.Tends Z (w₁.setScope (w.derive s kind label parent).1 x) := by
  have fresh := (amends.scope (w.derive_in s kind label parent) id).trans
    (w.scope_derive s kind label parent)
  have unmade : w₁.Unmade (w.derive s kind label parent).1 :=
    h.unmade_of_kind (fresh ▸ plain)
  refine ⟨h.setScope same public_ registers (fun name has => ?_) fun made => absurd unmade made,
    .setScope same⟩
  rw [hasLocalVariable, fresh] at has
  exact absurd has Bool.false_ne_true

theorem captureVariables (h : w.Tended Z) (s : ScopeId) : ∀ names,
    w.Amends Nowhere Nowhere (w.captureVariables s names).2 ∧
      (w.captureVariables s names).2.Tended Z ∧
        ∀ b ∈ (w.captureVariables s names).1.values,
          b.value.Public Z (w.captureVariables s names).2.count
  | [] => ⟨.refl w, h, fun _ hb => absurd hb List.not_mem_nil⟩
  | name :: rest => by
    have captured := captureVariables h s rest
    simp only [World.captureVariables]
    generalize w.captureVariables s rest = made at captured ⊢
    obtain ⟨table, w₁⟩ := made
    obtain ⟨amends, tended, public_⟩ := captured
    cases found : w₁.binding? s name with
    | none => exact ⟨amends, tended, public_⟩
    | some b =>
      obtain ⟨more, tended', copy⟩ :=
        minds_copyWithin (w₁.size + 1) b.value w₁ tended (tended.public_binding? found)
      refine ⟨amends.also more, tended', fun b' hb' => ?_⟩
      rcases Table.mem_values_insert hb' with rfl | old
      · exact copy
      · exact (public_ b' old).mono more.count

theorem detachAs (h : w.Tended Z) (s : ScopeId) (kind : ScopeKind) (plain : kind ≠ .classScope)
    (names : List String) (label : String) : w.Tends Z (w.detachAs s kind names label).2 := by
  have made := h.derive s kind label (some s)
  obtain ⟨amends, tended, public_⟩ := made.tended.captureVariables s names
  rw [detachAs_eq]
  exact (made.trans ⟨tended, .of_amends amends⟩).also fun h =>
    h.stock kind amends plain rfl public_ fun c hc => h.registered hc

theorem isolate (h : w.Tended Z) (s : ScopeId) (names : List String) (label : String) :
    w.Tends Z (w.isolate s names label).2 := by
  have made := h.derive s .isolated label none
  obtain ⟨amends, tended, public_⟩ := made.tended.captureVariables s names
  rw [isolate_eq]
  exact (made.trans ⟨tended, .of_amends amends⟩).also fun h =>
    h.stock .isolated amends (by decide) rfl public_ fun c hc =>
      hc.elim (fun hc => h.registered (s := s) (.inl hc)) fun hc => h.registered (.inr hc)

/-! ## Definitions -/

theorem functionDefScope (h : w.Tended Z) (s : ScopeId) (f : FunctionDecl) :
    w.Tends Z (w.functionDefScope s f).2 := by
  simp only [World.functionDefScope]
  split
  · exact h.isolate s [] f.name
  · exact h.detachAs s .detached (by decide) f.freeNames f.name

theorem addFunction (h : w.Tended Z) (s : ScopeId) (name : String) (p : Procedure)
    (captured : Option ScopeId) (primary : Role) (secondary : Option Role) :
    w.Tends Z (w.addFunction s name p captured primary secondary) :=
  World.Tends.also ⟨h.newFunction _, .of_grows (w.grows_newFunction _)⟩ fun h =>
    h.registerFunction s name _

theorem addMethod (h : w.Tended Z) (c : ClassId) (name : String) (p : Procedure) (primary : Role)
    (secondary : Option Role) : w.Tends Z (w.addMethod c name p primary secondary) :=
  (h.tends_aside (.newMethod w ⟨p, c⟩)).also fun h => h.registerFunction _ name _

theorem defineFunction (h : w.Tended Z) (s : ScopeId) (f : FunctionDecl) :
    w.Tends Z (w.defineFunction s f) := by
  have captured := h.functionDefScope s f
  simp only [World.defineFunction]
  generalize w.functionDefScope s f = scope at captured ⊢
  have bound := captured.tended.tends_aside
    (aside_bindProcedure s f.name f.parameters f.returns (.user f.body) scope.2)
  generalize bindProcedure s f.name f.parameters f.returns (.user f.body) scope.2 = p at bound ⊢
  exact (captured.trans bound).also fun h => h.addFunction s f.name p.1 (some scope.1) _ none

theorem defineMethod (h : w.Tended Z) (c : ClassId) (f : FunctionDecl) :
    w.Tends Z (w.defineMethod c f) := by
  simp only [World.defineMethod]
  generalize stripBlock (w.classOf c).accessor f.body = body
  have bound := h.tends_aside (aside_bindProcedure (w.classOf c).scope f.name f.parameters f.returns
    (.user body) w)
  generalize bindProcedure (w.classOf c).scope f.name f.parameters f.returns (.user body) w = p
    at bound ⊢
  have made := bound.tended.tends_aside (.newMethod p.2 ⟨p.1, c⟩)
  exact (bound.trans made).also fun h => h.registerFunction _ f.name _

/-! ## Classes and instances -/

/-- A class in a new scope of its own is in the making. -/
theorem found (h : w.Tended Z) (s : ScopeId) (name : String) {x : Class}
    (aside : (w.derive s .classScope name (some s)).2.Aside w₁)
    (home : x.scope = (w.derive s .classScope name (some s)).1) :
    w.Founds Z (w₁.newClass x) := by
  have made := h.derive s .classScope name (some s)
  have tended := made.tended.aside aside
  have read : w₁.scope x.scope = (w.scope s).derived s .classScope name (some s) := by
    rw [aside.scope_eq, home, scope_derive]
  refine ⟨tended.newClass (home ▸ (w.derive_in _ _ _ _).mono aside.count)
    (congrArg Scope.kind read) fun c hc same => ?_,
    (made.precedes.trans (.of_aside aside)).trans (.of_grows (w₁.grows_newClass x)),
    fun old => w₁.newClass_new x ((old.mono made.precedes.count).mono aside.count)⟩
  -- the scopes of other classes were there before this one
  have old : c.In w.count := by
    rw [Handle.In, World.count, aside.classes] at hc
    exact hc
  have classOf : w₁.classOf c = w.classOf c := congrArg (Store.get · c) aside.classes
  have there := h.classScope old
  rw [← classOf, same, home] at there
  exact w.derive_new s .classScope name (some s) there

theorem addClass (h : w.Tended Z) (s : ScopeId) (name accessor : String)
    (captured : Option ScopeId) : w.Founds Z (w.addClass s name accessor captured) :=
  h.found s name (.setTypeContext _ _ _) rfl

theorem openClass (h : w.Tended Z) (s : ScopeId) (d : ClassDecl) (accessor : String) :
    w.Founds Z (w.openClass s d accessor) := by
  have captured : w.Tends Z (w.classDefScope s d).2 :=
    h.detachAs s .classDef (by decide) d.freeNames d.name
  simp only [World.openClass]
  generalize w.classDefScope s d = scope at captured ⊢
  have made : scope.2.Founds Z
      (((scope.2.classScope scope.1 d.name).2.declareType s d.name).2.newClass
        ⟨d.name, ((scope.2.classScope scope.1 d.name).2.declareType s d.name).1, accessor,
          (scope.2.classScope scope.1 d.name).1, some scope.1⟩) :=
    captured.tended.found scope.1 d.name (.setTypeContext _ _ _) rfl
  obtain ⟨tended, precedes, new⟩ := made
  exact ⟨tended, captured.precedes.trans precedes,
    fun old => new (old.mono captured.precedes.count)⟩

/-- The members that an instance is given copies of. -/
theorem copiedMembers (h : w.Tended Z) (c : ClassId) :
    (w.emptyMembers c).2.Amends Nowhere Nowhere (w.members c).2 ∧ (w.members c).2.Tended Z ∧
      ∀ b ∈ (w.members c).1.values, b.value.Public Z (w.members c).2.count := by
  have made := h.derive (w.classOf c).scope .members (w.classOf c).name (some (w.classOf c).scope)
  exact minds_duplicate.bindings made.tended fun b hb =>
    (h.binding (Table.mem_values_filter hb)).mono made.precedes.count

theorem furnished (h : w.Tended Z) (c : ClassId) : w.Tends Z (w.furnished c) := by
  have made := h.derive (w.classOf c).scope .members (w.classOf c).name (some (w.classOf c).scope)
  obtain ⟨amends, tended, public_⟩ := h.copiedMembers c
  exact (made.trans ⟨tended, .of_amends amends⟩).also fun h =>
    h.stock .members amends (by decide) rfl public_ fun d hd =>
      h.registered (s := (w.emptyMembers c).1) hd

/-- The scope that is furnished for an instance is a new one, and the others stay as they are. -/
theorem scope_furnished (h : w.Tended Z) (c : ClassId) :
    (w.emptyMembers c).1.In (w.furnished c).count ∧
      ((w.furnished c).scope (w.emptyMembers c).1).kind = .members ∧
      ((w.furnished c).scope (w.emptyMembers c).1).bindings = (w.members c).1 ∧
      ∀ t, t.In w.count → (w.furnished c).scope t = w.scope t := by
  have amends := (h.copiedMembers c).1
  have fresh : (w.emptyMembers c).1.In (w.emptyMembers c).2.count := w.derive_in _ _ _ _
  have there := fresh.mono amends.count
  have self := (w.members c).2.scope_setScope (w.emptyMembers c).1 (w.emptyMembers c).1
    { (w.members c).2.scope (w.emptyMembers c).1 with
      bindings := (w.members c).1
      functions := (w.scope (w.classOf c).scope).functions }
  rw [if_pos ⟨rfl, there⟩] at self
  refine ⟨?_, (congrArg Scope.kind self).trans ?_, congrArg Scope.bindings self, fun t ht => ?_⟩
  · rw [World.furnished, World.furnish, count_setScope]
    exact there
  · refine (congrArg Scope.kind (amends.scope fresh id)).trans ?_
    exact congrArg Scope.kind (w.scope_derive _ _ _ _)
  · have new : t ≠ (w.emptyMembers c).1 := fun e => w.derive_new _ _ _ _ (e ▸ ht)
    have older : (w.emptyMembers c).2.scope t = w.scope t := scope_derive_old ht _ _ _
    rw [World.furnished, World.furnish, scope_setScope_other new,
      amends.scope (ht.mono (w.grows_derive _ _ _ _).count) id, older]

/-- A new instance of a public class. -/
theorem makeInstance (h : w.Tended Z) (public_ : c.cell.Public Z w.count) :
    w.Tends Z (w.makeInstance c).2 := by
  have furnished := h.furnished c
  obtain ⟨there, kind, bindings, old⟩ := h.scope_furnished c
  have names := contains_mapBindings (fun v w => w.duplicate v)
    ((w.scope (w.classOf c).scope).bindings.filter fun b => !b.flags.isStatic) (w.emptyMembers c).2
  rw [makeInstance_eq]
  refine ⟨furnished.tended.newInstance (public_.mono furnished.precedes.count) there kind
    fun name b found static => ?_, furnished.precedes.trans (.of_grows (grows_newInstance _ _))⟩
  have class_ := furnished.precedes.classOf public_.1
  simp only [localBinding?, class_, old _ (h.classScope public_.1)] at found
  have kept := Table.get?_filter (p := fun b : Binding => !b.flags.isStatic) found
    (by rw [static]; rfl)
  simp only [hasLocalVariable, bindings]
  exact (names name).trans (by rw [Table.contains, kept]; rfl)

/-! ## Calls -/

/-- A call is entered in a new scope, which is open. -/
theorem enter (h : w.Tended Z) (caller parent : ScopeId) (kind : ScopeKind)
    (plain : kind ≠ .classScope) (label : String) :
    w.Tends Z ((Action.enter caller parent kind label).runIn w).2 ∧
      ∀ x, ((Action.enter caller parent kind label).runIn w).1 = .ok x →
        ((Action.enter caller parent kind label).runIn w).2.Open Z x := by
  have made := h.derive parent kind label (some parent)
  have fresh : (w.makeCallScope parent kind label).2.Open Z
      (w.makeCallScope parent kind label).1 := by
    refine .of_kind (w.derive_in _ _ _ _) ?_
    have read := congrArg Scope.kind (w.scope_derive parent kind label (some parent))
    exact fun e => plain (read.symm.trans e)
  rw [Action.enter, runIn_change_bind]
  change w.Tends Z (w.makeCallScope parent kind label).2 at made
  generalize w.makeCallScope parent kind label = m at made fresh ⊢
  have called := made.tended.setCaller m.1 caller
  have fresh := fresh.later made.tended called.precedes
  rw [runIn_modify_bind, Action.appendChild, bind_assoc, runIn_look_bind]
  split
  · exact ⟨made.trans called, fun _ e => by cases e⟩
  · have linked := called.tended.addChild caller m.1
    refine ⟨(made.trans called).trans linked, fun x e => ?_⟩
    obtain rfl : m.1 = x := Except.ok.inj e
    exact fresh.later called.tended linked.precedes

/-- A block is entered in a new scope, which is open. -/
theorem createChild (h : w.Tended Z) (s : ScopeId) (kind : ScopeKind) (plain : kind ≠ .classScope)
    (label : String) : w.Tends Z (w.createChild s kind label).2 ∧
      (w.createChild s kind label).2.Open Z (w.createChild s kind label).1 := by
  have made := h.derive s kind label (some s)
  have read := congrArg Scope.kind (w.scope_derive s kind label (some s))
  have fresh : (w.derive s kind label (some s)).2.Open Z (w.derive s kind label (some s)).1 :=
    .of_kind (w.derive_in _ _ _ _) fun e => plain (read.symm.trans e)
  have linked := made.tended.addChild s (w.derive s kind label (some s)).1
  exact ⟨made.trans linked, fresh.later made.tended linked.precedes⟩

end World.Tended

/-! ## Actions -/

/-- An action that leaves a tended world tended and yields results for which `Q` holds. -/
def Action.Tends {α : Type} (Z : Making) (a : Action α) (Q : α → World → Prop) (w : World) : Prop :=
  w.Tended Z → w.Tends Z (a.runIn w).2 ∧ ∀ x, (a.runIn w).1 = .ok x → Q x (a.runIn w).2

/-- A public result. -/
abbrev PublicValue (Z : Making) (v : Value) (w : World) : Prop := v.Public Z w.count

namespace Action.Tends

variable {α β : Type} {Q : α → World → Prop}

theorem assume {a : Action α} (h : w.Tended Z → Action.Tends Z a Q w) : Action.Tends Z a Q w :=
  fun tended => h tended tended

theorem pure {x : α} (h : Q x w) : Action.Tends Z (Pure.pure x) Q w :=
  fun tended => ⟨.refl tended, fun _ e => Except.ok.inj e ▸ h⟩

theorem throw {k : ErrorKind} : Action.Tends Z (throw k : Action α) Q w :=
  fun tended => ⟨.refl tended, fun _ e => absurd e nofun⟩

theorem look {f : World → α} (h : w.Tended Z → Q (f w) w) : Action.Tends Z (Action.look f) Q w :=
  fun tended => ⟨.refl tended, fun _ e => Except.ok.inj e ▸ h tended⟩

theorem consult {f : World → Except ErrorKind α} (h : w.Tended Z → ∀ x, f w = .ok x → Q x w) :
    Action.Tends Z (Action.consult f) Q w := by
  intro tended
  rw [Action.runIn_consult]
  cases e : f w with
  | ok x => exact ⟨.refl tended, fun _ e' => Except.ok.inj e' ▸ h tended x e⟩
  | error k => exact ⟨.refl tended, fun _ e' => absurd e' nofun⟩

theorem change {f : World → α × World} (h : w.Tended Z → w.Tends Z (f w).2)
    (q : w.Tended Z → Q (f w).1 (f w).2) : Action.Tends Z (Action.change f) Q w :=
  fun tended => ⟨h tended, fun _ e => Except.ok.inj e ▸ q tended⟩

theorem modify {f : World → World} {Q : Unit → World → Prop} (h : w.Tended Z → w.Tends Z (f w))
    (q : w.Tended Z → Q () (f w)) : Action.Tends Z (modify f) Q w :=
  change (f := fun w => ((), f w)) h q

theorem bind {a : Action α} {k : α → Action β} {R : β → World → Prop} (h : Action.Tends Z a Q w)
    (cont : ∀ x w', w'.Tended Z → w.Precedes w' → Q x w' → Action.Tends Z (k x) R w') :
    Action.Tends Z (a >>= k) R w := by
  intro tended
  obtain ⟨tends, q⟩ := h tended
  have run : (a >>= k).runIn w = ExceptT.bindCont k (a.runIn w).1 (a.runIn w).2 := rfl
  rw [run]
  generalize a.runIn w = made at tends q ⊢
  obtain ⟨result, w'⟩ := made
  cases result with
  | ok x =>
    obtain ⟨tends', r⟩ := cont x w' tends.tended tends.precedes (q x rfl) tends.tended
    exact ⟨tends.trans tends', r⟩
  | error _ => exact ⟨tends, fun _ e => absurd e nofun⟩

/-- What follows when something has been looked up. -/
theorem look_then {f : World → α} {k : α → Action β} {R : β → World → Prop}
    (h : Action.Tends Z (k (f w)) R w) : Action.Tends Z (Action.look f >>= k) R w := h

/-- A value that stands for no cell and is read off the world. -/
theorem look_plain {f : World → Value} (plain : ∀ w, (f w).Plain) :
    Action.Tends Z (Action.look f) (PublicValue Z) w :=
  .look fun _ => (plain w).public

end Action.Tends

/-! ### Values and containers -/

section Containers

variable {vs : List Value} {a : Cell}

theorem World.Tended.tends_fill (h : w.Tended Z) (fills : w.Fills a vs w₁)
    (public_ : ∀ v ∈ vs, v.Public Z w.count) : w.Tends Z w₁ :=
  ⟨h.fill fills public_, .fill fills⟩

theorem tends_duplicate (public_ : v.Public Z w.count) :
    Action.Tends Z (Action.duplicate v) (PublicValue Z) w :=
  .change (fun h => ⟨(minds_duplicate v w h public_).2.1,
      .of_amends (minds_duplicate v w h public_).1⟩)
    fun h => (minds_duplicate v w h public_).2.2

theorem tends_newList (public_ : ∀ v ∈ vs, v.Public Z w.count) :
    Action.Tends Z (Action.newList vs) (PublicValue Z) w := fun h =>
  ⟨h.tends_fill (w.fills_newItems vs) public_, fun _ e =>
    Except.ok.inj e ▸ Value.public_of_kind rfl (w.newItems_in vs) nofun⟩

theorem tends_newArray (public_ : ∀ v ∈ vs, v.Public Z w.count) :
    Action.Tends Z (Action.newArray vs) (PublicValue Z) w := fun h =>
  ⟨h.tends_fill (w.fills_newItems vs) public_, fun _ e =>
    Except.ok.inj e ▸ Value.public_of_kind rfl (w.newItems_in vs) nofun⟩

theorem tends_newSet (public_ : ∀ v ∈ vs, v.Public Z w.count) :
    Action.Tends Z (Action.newSet vs) (PublicValue Z) w := fun h =>
  ⟨h.tends_fill (w.fills_newElements _) fun v hv =>
    (mem_foldl_insertElement vs hv).elim (fun no => absurd no List.not_mem_nil) (public_ v),
    fun _ e => Except.ok.inj e ▸ Value.public_of_kind rfl (w.newElements_in _) nofun⟩

theorem tends_newDict {es : List (Value × Value)}
    (public_ : ∀ v ∈ entryValues es, v.Public Z w.count) :
    Action.Tends Z (Action.newDict es) (PublicValue Z) w := fun h =>
  ⟨h.tends_fill (w.fills_newEntries _) fun v hv =>
    (mem_entryValues_foldl es hv).elim (fun no => absurd no List.not_mem_nil) (public_ v),
    fun _ e => Except.ok.inj e ▸ Value.public_of_kind rfl (w.newEntries_in _) nofun⟩

/-- A list is given other values, and the result is public in the world as it is then. -/
theorem tends_setItems {l : Handle .list} {f : World → Value × List Value}
    (public_ : w.Tended Z → (f w).1.Public Z w.count ∧ ∀ v ∈ (f w).2, v.Public Z w.count) :
    Action.Tends Z (Action.change fun w => ((f w).1, w.setItems l (f w).2)) (PublicValue Z) w := by
  have count := fun xs => w.count_setItems l xs
  refine .change (fun h => ⟨?_, .unmoved (le_of_eq (count _).symm) rfl rfl⟩) fun h => ?_
  · refine h.unmoved (le_of_eq (count _).symm) rfl rfl rfl fun hv => ?_
    rw [count]
    rw [World.values_setItems] at hv
    split at hv
    · exact (public_ h).2 _ hv
    · exact h.value hv
  · rw [PublicValue, count]
    exact (public_ h).1

theorem tends_setElements {l : Handle .set} {f : World → Value × List Value} (there : l.In w.count)
    (public_ : w.Tended Z → (f w).1.Public Z w.count ∧ ∀ v ∈ (f w).2, v.Public Z w.count) :
    Action.Tends Z (Action.change fun w => ((f w).1, w.setElements l (f w).2)) (PublicValue Z) w :=
  .change (fun h => h.tends_fill (World.fills_setElements there _) (public_ h).2) fun h =>
    (public_ h).1.mono (World.fills_setElements there _).count

theorem tends_setEntries {l : Handle .dict} {f : World → Value × List (Value × Value)}
    (there : l.In w.count) (public_ : w.Tended Z →
      (f w).1.Public Z w.count ∧ ∀ v ∈ entryValues (f w).2, v.Public Z w.count) :
    Action.Tends Z (Action.change fun w => ((f w).1, w.setEntries l (f w).2)) (PublicValue Z) w :=
  .change (fun h => h.tends_fill (World.fills_setEntries there _) (public_ h).2) fun h =>
    (public_ h).1.mono (World.fills_setEntries there _).count

end Containers

namespace World.Tended

variable (h : w.Tended Z)

include h

theorem item {l : Handle .list} (hv : v ∈ w.items l) : v.Public Z w.count :=
  h.value (a := l.cell) hv

theorem element {l : Handle .set} (hv : v ∈ w.elements l) : v.Public Z w.count :=
  h.value (a := l.cell) hv

theorem entry {l : Handle .dict} (hv : v ∈ entryValues (w.entries l)) : v.Public Z w.count :=
  h.value (a := l.cell) hv

theorem public_getD (l : Handle .list) (i : Nat) : ((w.items l).getD i .null).Public Z w.count := by
  rw [List.getD_eq_getElem?_getD]
  cases found : (w.items l)[i]? with
  | none => exact Value.public_null
  | some v => exact h.item (List.mem_of_getElem? found)

/-- The value of a key, or null. -/
theorem public_lookupEntry (l : Handle .dict) (key : Value) :
    ((lookupEntry w.looseEq (w.entries l) key).getD .null).Public Z w.count := by
  cases found : lookupEntry w.looseEq (w.entries l) key with
  | none => exact Value.public_null
  | some v =>
    obtain ⟨e, he, rfl⟩ := mem_lookupEntry found
    exact h.entry (List.mem_flatMap.mpr ⟨e, he, by simp⟩)

end World.Tended

/-! ### Variables -/

/-- Preparing a value and storing it, where there was one or in an open scope. -/
theorem tends_store {name : String} {b : Binding} (hs : s.In w.count)
    (public_ : v.Public Z w.count) (may : w.Open Z s ∨ w.localBinding? s name = some b) :
    Action.Tends Z (do
      let value ← Action.change (b.prepare v)
      modify fun w => w.setVariable s name { b with value }) (fun _ _ => True) w :=
  fun h => ⟨h.store hs public_ may, fun _ _ => trivial⟩

/-- Variables are declared in open scopes. -/
theorem tends_declareVariable {name : String} {b : Binding} (may : w.Open Z s)
    (public_ : b.value.Public Z w.count) :
    Action.Tends Z (Action.declareVariable s name b) (fun _ _ => True) w := by
  refine .look_then ?_
  split
  · exact .throw
  · exact tends_store may.there public_ (.inl may)

/-- A variable that there is keeps its flags. -/
theorem tends_updateLocalVariable {name : String} (public_ : v.Public Z w.count) :
    Action.Tends Z (Action.updateLocalVariable s name v) (fun _ _ => True) w := by
  refine .look_then ?_
  cases found : w.localBinding? s name with
  | none => exact .throw
  | some b =>
    have there : s.In w.count := by
      by_contra new
      rw [World.localBinding?, World.scope_default new] at found
      cases found
    cases const : b.flags.isConst with
    | true =>
      simp only [const]
      exact .throw
    | false =>
      simp only [const]
      refine .bind (Q := fun _ w' => w' = w) (.consult fun _ _ _ => rfl) ?_
      rintro - _ - - rfl
      exact tends_store there public_ (.inr found)

theorem tends_updateVariable {name : String} (public_ : v.Public Z w.count) :
    Action.Tends Z (Action.updateVariable s name v) (fun _ _ => True) w := by
  refine .look_then ?_
  split
  · exact .throw
  · exact tends_updateLocalVariable public_

theorem tends_assignMember {i : InstanceId} {name : String} (public_ : v.Public Z w.count) :
    Action.Tends Z (Knot.assignMember i name v) (fun _ _ => True) w := by
  refine .look_then ?_
  split
  · exact tends_updateLocalVariable public_
  · exact .throw

/-- A name is read that stands for no class in the making. -/
theorem tends_readName {name : String} :
    Action.Tends Z (Knot.readName name s) (PublicValue Z) w := by
  refine .assume fun h => .look_then (f := id) ?_
  split
  · rename_i v found
    refine .pure ?_
    simp only [World.getVariable] at found
    split at found
    · rename_i b e
      exact Except.ok.inj found ▸ h.public_binding? e
    · cases found
  · split
    · rename_i os _
      refine .bind (Q := fun o w' => o.In w'.count) (.change
        (fun h => ⟨h.newOverloads ⟨name, os⟩, .of_grows (w.grows_newOverloads _)⟩)
        fun _ => w.newOverloads_in _) ?_
      intro o w' _ _ there
      exact .pure (Value.public_of_kind rfl there fun e => by cases e)
    · rename_i c _ found
      exact .pure (Value.public_of_cell rfl (h.public_lookupClass found))
    · exact .throw

/-! ### Calls and classes -/

/-- Resolving a call changes types only, and the slots hold what the arguments held. -/
theorem tends_resolveAmong {name : String} {candidates : List Overload} {arguments : CallArguments}
    (public_ : arguments.All fun v => v.Public Z w.count) :
    Action.Tends Z (Action.resolveAmong s name candidates arguments)
      (fun r w' => SlotsAll (fun v => v.Public Z w'.count) r.slots) w := by
  have pooled := fun h : w.Tended Z => h.withPool s
    (w.resolveOverload (w.optionsOf s) name candidates arguments)
  refine .bind (Q := fun result w' => ∀ r, result = .ok r →
    SlotsAll (fun v => v.Public Z w'.count) r.slots) (.change pooled fun h r e => ?_) ?_
  · intro slot hs v hv
    exact ((World.resolveOverload_ok public_ e).2 slot hs v hv).mono (pooled h).precedes.count
  · intro result w' _ _ slots
    cases result with
    | ok r => exact .pure (slots r rfl)
    | error k => exact .throw

theorem tends_resolveFunction {name : String} {arguments : CallArguments}
    (public_ : arguments.All fun v => v.Public Z w.count) :
    Action.Tends Z (Action.resolveFunction s name arguments)
      (fun r w' => SlotsAll (fun v => v.Public Z w'.count) r.slots) w := by
  refine .look_then ?_
  split
  · exact tends_resolveAmong public_
  · exact .throw

theorem tends_registerClass (public_ : c.cell.Public Z w.count) :
    Action.Tends Z (Action.registerClass s c) (fun _ _ => True) w := by
  refine .look_then (.look_then ?_)
  split
  · exact .throw
  · refine .modify (fun h => h.setClassTable s fun d hd => ?_) fun _ => trivial
    rcases Table.mem_values_insert hd with rfl | hd
    · exact public_
    · exact h.public_classTable hd

/-! ### Operators -/

theorem tends_binary {op : BinaryOperator} {a b : Value} :
    Action.Tends Z (Action.binary op a b) (PublicValue Z) w := by
  simp only [Action.binary]
  split
  · refine .assume fun h => .look_then (tends_newList fun v hv => ?_)
    rcases List.mem_append.mp hv with hv | hv
    · exact h.item hv
    · exact h.item hv
  · exact .consult fun _ x h => (plain_scalarBinary h).public

/-! ### Intrinsics -/

/-- An operation that leaves a tended world tended and whose result is public, for public
arguments. -/
def Intrinsic.Tends (Z : Making) (w : World) (run : Intrinsic) : Prop :=
  ∀ arguments, (∀ v ∈ arguments, v.Public Z w.count) →
    Action.Tends Z (run arguments) (PublicValue Z) w

namespace Intrinsic.Tends

variable {operation : String}

theorem nullary {run : Action Value} (h : Action.Tends Z run (PublicValue Z) w) :
    (Intrinsic.nullary operation run).Tends Z w
  | [], _ => h
  | _ :: _, _ => .throw

theorem unary {run : Value → Action Value}
    (h : ∀ v, v.Public Z w.count → Action.Tends Z (run v) (PublicValue Z) w) :
    (Intrinsic.unary operation run).Tends Z w
  | [], _ => .throw
  | [v], public_ => h v (public_ v List.mem_cons_self)
  | _ :: _ :: _, _ => .throw

theorem binary {run : Value → Value → Action Value}
    (h : ∀ v v', v.Public Z w.count → v'.Public Z w.count →
      Action.Tends Z (run v v') (PublicValue Z) w) :
    (Intrinsic.binary operation run).Tends Z w
  | [], _ => .throw
  | [_], _ => .throw
  | [v, v'], public_ => h v v' (public_ v (by simp)) (public_ v' (by simp))
  | _ :: _ :: _ :: _, _ => .throw

theorem ranged {run : Value → Option Value → Action Value}
    (h : ∀ v o, Action.Tends Z (run v o) (PublicValue Z) w) :
    (Intrinsic.ranged operation run).Tends Z w
  | [], _ => .throw
  | [v], _ => h v none
  | [v, v'], _ => h v (some v')
  | _ :: _ :: _ :: _, _ => .throw

end Intrinsic.Tends

section Intrinsics

variable {operation : String} {run : Intrinsic}

theorem tends_measure {length : World → Nat} (found : measure? operation length = some run) :
    run.Tends Z w := by
  simp only [measure?] at found
  split at found
  · exact Option.some.inj found ▸ .nullary (.look_plain fun _ => ⟨rfl, rfl⟩)
  · exact Option.some.inj found ▸ .nullary (.look_plain fun _ => ⟨rfl, rfl⟩)
  · exact Option.some.inj found ▸ .nullary (.look_plain fun _ => ⟨rfl, rfl⟩)
  · cases found

theorem tends_indexBelow {v : Value} {length limit : Nat} :
    Action.Tends Z (indexBelow operation v length limit) (fun _ w' => w' = w) w := by
  simp only [indexBelow]
  split
  · exact .look_then .throw
  · split
    · exact .pure rfl
    · exact .throw

theorem tends_sliceBounds {first : Value} {second : Option Value} {length : Nat} :
    Action.Tends Z (sliceBounds operation first second length) (fun _ w' => w' = w) w := by
  refine .bind tends_indexBelow ?_
  rintro start w _ _ rfl
  have ordered : ∀ (stop : Nat) (e : ErrorKind) (w : World),
      Action.Tends Z (if stop < start then throw e else pure (start, stop)) (fun _ w' => w' = w)
        w := by
    intro stop e w
    split
    · exact .throw
    · exact .pure rfl
  cases second with
  | none => exact ordered length _ w
  | some v =>
    refine .bind tends_indexBelow ?_
    rintro stop w _ _ rfl
    exact ordered stop _ w

theorem tends_stringIntrinsic {text : String}
    (found : stringIntrinsic? text operation = some run) : run.Tends Z w := by
  simp only [stringIntrinsic?] at found
  split at found
  · refine Option.some.inj found ▸ .ranged fun first second => ?_
    exact .bind tends_sliceBounds fun _ _ _ _ _ => .pure (plain_string _).public
  · refine Option.some.inj found ▸ .ranged fun first second => ?_
    exact .bind tends_sliceBounds fun _ _ _ _ _ => .pure (plain_string _).public
  · refine Option.some.inj found ▸ .unary fun v _ => ?_
    split
    · exact .pure (plain_bool _).public
    · exact .throw
  · refine Option.some.inj found ▸ .unary fun v _ => ?_
    exact .bind tends_indexBelow fun _ _ _ _ _ => .pure (Value.public_of_cells rfl)
  · exact tends_measure found

theorem tends_commonIntrinsic {target : Value} (public_ : target.Public Z w.count)
    (found : commonIntrinsic? target operation = some run) : run.Tends Z w := by
  simp only [commonIntrinsic?] at found
  split at found
  · have copies := fun h => minds_copyWithin (w.size + 1) target w h public_
    exact Option.some.inj found ▸ .nullary (.change
      (fun h => ⟨(copies h).2.1, .of_amends (copies h).1⟩) fun h => (copies h).2.2)
  · exact Option.some.inj found ▸ .nullary (.look_plain fun _ => plain_string _)
  · cases found

/-- What a list is given: a duplicate, and values that it has had. -/
theorem tends_storeItem {l : Handle .list} (there : l.In w.count) (public_ : v.Public Z w.count)
    {place : World → Value → List Value}
    (items : ∀ w' x, w'.items l = w.items l → ∀ u ∈ place w' x, u = x ∨ u ∈ w.items l) :
    Action.Tends Z (do
      let v ← Action.duplicate v
      Action.change fun w => (Value.null, w.setItems l (place w v))) (PublicValue Z) w := by
  intro h
  have same : (w.duplicate v).2.items l = w.items l := (w.spares_duplicate v).items there
  refine Action.Tends.bind (Q := fun x w' => w' = (w.duplicate v).2 ∧ x.Public Z w'.count)
    (fun h => ?_) (fun x w' h' g ⟨made, good⟩ => ?_) h
  · obtain ⟨tends, good⟩ := tends_duplicate public_ h
    exact ⟨tends, fun x e => ⟨rfl, good x e⟩⟩
  · subst made
    refine tends_setItems (f := fun w => (.null, place w x)) fun _ =>
      ⟨Value.public_null, fun u hu => ?_⟩
    rcases items _ x same u hu with rfl | old
    · exact good
    · exact (h.item old).mono g.count

theorem tends_sequenceIntrinsic {l : Handle .list} (there : l.In w.count)
    {rebuild : List Value → Action Value}
    (rebuilds : ∀ (w : World) vs, (∀ v ∈ vs, v.Public Z w.count) →
      Action.Tends Z (rebuild vs) (PublicValue Z) w)
    (found : sequenceIntrinsic? l rebuild operation = some run) : run.Tends Z w := by
  simp only [sequenceIntrinsic?] at found
  split at found
  · exact Option.some.inj found ▸ .nullary (tends_setItems (f := fun _ => (.null, []))
      fun _ => ⟨Value.public_null, fun _ hv => absurd hv List.not_mem_nil⟩)
  · refine Option.some.inj found ▸ .ranged fun first second => .look_then ?_
    refine .bind tends_sliceBounds ?_
    rintro bounds w h _ rfl
    exact rebuilds w _ fun v hv => h.item ((slice_sublist _ bounds).subset hv)
  · exact Option.some.inj found ▸ .unary fun v _ => .look_plain fun _ => plain_bool _
  · refine Option.some.inj found ▸ .unary fun v _ => .look_then ?_
    refine .bind tends_indexBelow ?_
    rintro i w h _ rfl
    exact .pure (h.public_getD l i)
  · refine Option.some.inj found ▸ .binary fun first v _ public_ => .look_then ?_
    refine .bind tends_indexBelow ?_
    rintro i w _ _ rfl
    exact tends_storeItem there public_ fun w' x _ u hu =>
      (List.mem_or_eq_of_mem_set hu).symm
  · exact tends_measure found

theorem tends_listIntrinsic {l : Handle .list} (there : l.In w.count)
    (found : listIntrinsic? l operation = some run) : run.Tends Z w := by
  simp only [listIntrinsic?] at found
  split at found
  · refine Option.some.inj found ▸ .unary fun v public_ => ?_
    refine tends_storeItem there public_ fun w' x same u hu => ?_
    rw [same] at hu
    exact (List.mem_append.mp hu).symm.imp_left List.mem_singleton.mp
  · refine Option.some.inj found ▸ .nullary (.look_then ?_)
    split
    · rename_i last e
      exact tends_setItems (f := fun _ => (last, (w.items l).dropLast)) fun h =>
        ⟨h.item (List.mem_of_getLast? e), fun v hv => h.item ((List.dropLast_sublist _).subset hv)⟩
    · exact .throw
  · refine Option.some.inj found ▸ .binary fun first v _ public_ => .look_then ?_
    refine .bind tends_indexBelow ?_
    rintro i w _ _ rfl
    exact tends_storeItem there public_ fun w' x _ u hu =>
      List.mem_cons.mp ((insertIdx_subperm _ i x).subset hu)
  · refine Option.some.inj found ▸ .unary fun first _ => .look_then ?_
    refine .bind tends_indexBelow ?_
    rintro i w _ _ rfl
    exact tends_setItems (f := fun _ => ((w.items l).getD i .null, (w.items l).eraseIdx i))
      fun h => ⟨h.public_getD l i, fun v hv => h.item ((List.eraseIdx_sublist _ i).subset hv)⟩
  · exact tends_sequenceIntrinsic there (fun _ _ => tends_newList) found

theorem tends_setIntrinsic {l : Handle .set} (there : l.In w.count)
    (found : setIntrinsic? l operation = some run) : run.Tends Z w := by
  simp only [setIntrinsic?] at found
  split at found
  · exact Option.some.inj found ▸ .nullary (tends_setElements (f := fun _ => (.null, [])) there
      fun _ => ⟨Value.public_null, fun _ hv => absurd hv List.not_mem_nil⟩)
  · exact Option.some.inj found ▸ .unary fun v _ => .look_plain fun _ => plain_bool _
  · refine Option.some.inj found ▸ .unary fun v public_ => ?_
    refine .bind (tends_duplicate public_) fun x w' _ g good => ?_
    refine tends_setElements (f := fun w => (.bool (!hasElement w.looseEq (w.elements l) x),
      insertElement w.looseEq (w.elements l) x)) (there.mono g.count) fun h =>
        ⟨(plain_bool _).public, fun u hu => ?_⟩
    rcases mem_insertElement hu with old | rfl
    · exact h.element old
    · exact good
  · exact Option.some.inj found ▸ .unary fun v _ => tends_setElements
      (f := fun w => (.bool (hasElement w.looseEq (w.elements l) v),
        (w.elements l).eraseP fun e => w.looseEq e v)) there fun h =>
        ⟨(plain_bool _).public, fun u hu => h.element (List.eraseP_sublist.subset hu)⟩
  · exact tends_measure found

theorem mem_entryValues_sublist {es es' : List (Value × Value)} (h : es.Sublist es')
    (hv : v ∈ entryValues es) : v ∈ entryValues es' := by
  obtain ⟨e, he, hv⟩ := List.mem_flatMap.mp hv
  exact List.mem_flatMap.mpr ⟨e, h.subset he, hv⟩

theorem tends_putEntry {l : Handle .dict} {key value : Value} (there : l.In w.count)
    (publicKey : key.Public Z w.count) (publicValue : value.Public Z w.count) :
    Action.Tends Z (putEntry l key value) (PublicValue Z) w := by
  refine .bind (tends_duplicate publicKey) fun k w₁ _ g₁ goodKey => ?_
  refine .bind (tends_duplicate (publicValue.mono g₁.count)) fun x w₂ _ g₂ good => ?_
  refine tends_setEntries (f := fun w => ((lookupEntry w.looseEq (w.entries l) k).getD .null,
    insertEntry w.looseEq k x (w.entries l))) ((there.mono g₁.count).mono g₂.count) fun h =>
      ⟨h.public_lookupEntry l k, fun u hu => ?_⟩
  rcases mem_entryValues_insertEntry _ hu with rfl | rfl | old
  · exact goodKey.mono g₂.count
  · exact good
  · exact h.entry old

theorem tends_dictIntrinsic {l : Handle .dict} (there : l.In w.count)
    (found : dictIntrinsic? l operation = some run) : run.Tends Z w := by
  simp only [dictIntrinsic?] at found
  split at found
  · exact Option.some.inj found ▸ .nullary (tends_setEntries (f := fun _ => (.null, [])) there
      fun _ => ⟨Value.public_null, fun _ hv => absurd hv List.not_mem_nil⟩)
  · exact Option.some.inj found ▸ .unary fun v _ => .look_plain fun _ => plain_bool _
  · refine Option.some.inj found ▸ .unary fun key _ => .look_then ?_
    split
    · rename_i v e
      obtain ⟨entry, mem, rfl⟩ := mem_lookupEntry e
      exact .assume fun h => .pure (h.entry (List.mem_flatMap.mpr ⟨entry, mem, by simp⟩))
    · exact .look_then .throw
  · exact Option.some.inj found ▸ .binary fun key v publicKey => tends_putEntry there publicKey
  · exact Option.some.inj found ▸ .binary fun key v publicKey => tends_putEntry there publicKey
  · exact Option.some.inj found ▸ .unary fun key _ => tends_setEntries
      (f := fun w => ((lookupEntry w.looseEq (w.entries l) key).getD .null,
        (w.entries l).eraseP fun e => w.looseEq e.1 key)) there fun h =>
        ⟨h.public_lookupEntry l key, fun u hu =>
          h.entry (mem_entryValues_sublist List.eraseP_sublist hu)⟩
  · refine Option.some.inj found ▸ .nullary (.assume fun h => .look_then (tends_newList ?_))
    intro v hv
    obtain ⟨e, he, rfl⟩ := List.mem_map.mp hv
    exact h.entry (List.mem_flatMap.mpr ⟨e, he, by simp⟩)
  · refine Option.some.inj found ▸ .nullary (.assume fun h => .look_then (tends_newList ?_))
    intro v hv
    obtain ⟨e, he, rfl⟩ := List.mem_map.mp hv
    exact h.entry (List.mem_flatMap.mpr ⟨e, he, by simp⟩)
  · exact tends_measure found

theorem tends_intrinsic {target : Value} (public_ : target.Public Z w.count)
    (found : intrinsic? target operation = some run) : run.Tends Z w := by
  rw [intrinsic?] at found
  cases common : commonIntrinsic? target operation with
  | some f =>
    rw [common] at found
    exact Option.some.inj found ▸ tends_commonIntrinsic public_ common
  | none =>
    rw [common] at found
    obtain ⟨d, a⟩ := target
    have there : ∀ {c : Cell}, d.cell? = some c → c.In w.count := fun e =>
      (public_ _ (by rw [Value.cells, e]; exact List.mem_singleton_self _)).1
    cases d with
    | string text => exact tends_stringIntrinsic found
    | list l => exact tends_listIntrinsic (there rfl) found
    | array l => exact tends_sequenceIntrinsic (there rfl) (fun _ _ => tends_newArray) found
    | set l => exact tends_setIntrinsic (there rfl) found
    | dict l => exact tends_dictIntrinsic (there rfl) found
    | _ => cases found

end Intrinsics

end ScopeLang
