/-
# The tree of scopes

Blocks and calls list their scope as a child where they are entered and take it
off the list where they are left.  In between, their scope is held.  So the
scopes of the blocks and calls in progress can be read off what is held, the
innermost first, and the claim about the lists of children is that they list
these scopes and no others, each where it was entered from.

`SameTree` says of a change of the world that it leaves the lists alone, and
`Opens` that it lists some more scopes, those that are still to be left.  All
that is asked of the world before is that it is `Tidy`: what is listed or held
is there.
-/
import ScopeLang.Proofs.Children
import ScopeLang.Proofs.Within

namespace ScopeLang

variable {α β : Type}

/-! ## Activations -/

/-- Where a block or a call was entered: a block under its parent, a call by its caller. -/
def Scope.site (s : Scope) : Option ScopeId :=
  match s.kind with
  | .block => s.parent
  | .functionCall | .methodCall => s.caller
  | _ => none

/-- The scope that a cell is, if it is that of a block or a call. -/
def Cell.activation? (w : World) (c : Cell) : Option ScopeId :=
  if c.kind = .scope ∧ (w.scope ⟨c.index⟩).kind.isActivation = true then some ⟨c.index⟩ else none

namespace World

/-- The scopes of the blocks and the calls in progress, the innermost first: evaluations hold
them from where they are entered to where they are left. -/
def activations (w : World) : List ScopeId := w.held.filterMap (Cell.activation? w)

/-- The scopes among some that were entered from `t`, in the order in which `t` lists them. -/
def enteredFrom (w : World) (t : ScopeId) (opened : List ScopeId) : List ScopeId :=
  (opened.filter fun c => (w.scope c).site = some t).reverse

/-- The lists of children are made of the blocks and the calls in progress. -/
structure Stacked (w : World) : Prop where
  /-- Each is listed where it was entered from, and nothing else is listed. -/
  children : ∀ t, (w.scope t).children = w.enteredFrom t w.activations
  site : ∀ c ∈ w.activations, ∃ t, (w.scope c).site = some t ∧ t.In w.count
  newest : w.activations.Pairwise fun c d => d.index < c.index

/-- Every scope in progress is listed, and only those are. -/
theorem Stacked.listed_iff {w : World} (h : w.Stacked) (c : ScopeId) :
    (∃ t, t.In w.count ∧ c ∈ (w.scope t).children) ↔ c ∈ w.activations := by
  constructor
  · rintro ⟨t, -, listed⟩
    rw [h.children, enteredFrom, List.mem_reverse, List.mem_filter] at listed
    exact listed.1
  · intro active
    obtain ⟨t, site, there⟩ := h.site c active
    refine ⟨t, there, ?_⟩
    rw [h.children, enteredFrom, List.mem_reverse, List.mem_filter]
    exact ⟨active, by simp [site]⟩

/-! ## Changes of the tree -/

/-- What is listed or held is there, and so are the scopes of the classes. -/
structure Tidy (w : World) : Prop where
  child : ∀ t, ∀ c ∈ (w.scope t).children, c.In w.count
  held : ∀ t : ScopeId, t.cell ∈ w.held → t.In w.count
  home : ∀ c : ClassId, c.In w.count → (w.classOf c).scope.In w.count

/-- The scopes and the classes that are there stay, with their kinds and links; a new class has
a scope that is there. -/
structure Retains (w w' : World) : Prop where
  scopes : ∀ {t : ScopeId}, t.In w.count → t.In w'.count
  classes : ∀ {c : ClassId}, c.In w.count → c.In w'.count
  kind : ∀ {t : ScopeId}, t.In w.count → (w'.scope t).kind = (w.scope t).kind
  site : ∀ {t : ScopeId}, t.In w.count → (w'.scope t).site = (w.scope t).site
  home : ∀ {c : ClassId}, c.In w.count → (w'.classOf c).scope = (w.classOf c).scope
  newHome : ∀ {c : ClassId}, c.In w'.count → ¬ c.In w.count → (w'.classOf c).scope.In w'.count

/-- The lists of children are the same, where they are new they are empty. -/
structure SameTree (w w' : World) : Prop extends Retains w w' where
  children : ∀ t, (w'.scope t).children = (w.scope t).children
  held : w'.held = w.held

/-- The scope `t` has been entered from `s`. -/
structure Enters (w : World) (s t : ScopeId) (w' : World) : Prop extends Retains w w' where
  new : ¬ t.In w.count
  there : t.In w'.count
  activation : (w'.scope t).kind.isActivation = true
  entered : (w'.scope t).site = some s
  children : ∀ u, (w'.scope u).children =
    if u = s then (w.scope s).children ++ [t] else (w.scope u).children
  held : w'.held = w.held

/-- Some scopes have been entered and not yet been left, the innermost comes first. -/
structure Opens (w : World) (opened : List ScopeId) (w' : World) : Prop extends Retains w w' where
  tidy : w'.Tidy
  activations : w'.activations = opened ++ w.activations
  new : ∀ c ∈ opened, ¬ c.In w.count
  sited : ∀ c ∈ opened, ∃ t, (w'.scope c).site = some t ∧ t.In w'.count
  children : ∀ t, (w'.scope t).children = (w.scope t).children ++ w'.enteredFrom t opened
  newest : opened.Pairwise fun c d => d.index < c.index

variable {w w₁ w₂ : World} {s t : ScopeId} {cells : List Cell} {opened : List ScopeId}

namespace Retains

theorem refl (w : World) : w.Retains w where
  scopes := id
  classes := id
  kind _ := rfl
  site _ := rfl
  home _ := rfl
  newHome there new := absurd there new

theorem trans (h : w.Retains w₁) (i : w₁.Retains w₂) : w.Retains w₂ where
  scopes there := i.scopes (h.scopes there)
  classes there := i.classes (h.classes there)
  kind there := (i.kind (h.scopes there)).trans (h.kind there)
  site there := (i.site (h.scopes there)).trans (h.site there)
  home there := (i.home (h.classes there)).trans (h.home there)
  newHome {c} there new := by
    by_cases old : c.In w₁.count
    · rw [i.home old]
      exact i.scopes (h.newHome old new)
    · exact i.newHome there old

theorem homes (h : w.Retains w₁) (tidy : w.Tidy) :
    ∀ c : ClassId, c.In w₁.count → (w₁.classOf c).scope.In w₁.count := by
  intro c there
  by_cases old : c.In w.count
  · rw [h.home old]
    exact h.scopes (tidy.home c old)
  · exact h.newHome there old

/-- What was in progress still is one of a block or a call. -/
theorem activation?_eq (h : w.Retains w₁) {c : Cell} (there : c.kind = .scope → c.In w.count) :
    c.activation? w₁ = c.activation? w := by
  obtain ⟨k, i⟩ := c
  by_cases scope : k = .scope
  · subst scope
    simp only [Cell.activation?, h.kind (t := ⟨i⟩) (there rfl)]
  · simp [Cell.activation?, scope]

theorem activations_eq (h : w.Retains w₁) (tidy : w.Tidy) :
    w.held.filterMap (Cell.activation? w₁) = w.activations := by
  refine List.filterMap_congr fun c hc => h.activation?_eq fun scope => ?_
  obtain ⟨k, i⟩ := c
  subst scope
  exact tidy.held ⟨i⟩ hc

end Retains

namespace SameTree

theorem refl (w : World) : w.SameTree w :=
  { Retains.refl w with children := fun _ => rfl, held := rfl }

theorem trans (h : w.SameTree w₁) (i : w₁.SameTree w₂) : w.SameTree w₂ :=
  { h.toRetains.trans i.toRetains with
    children := fun t => (i.children t).trans (h.children t)
    held := i.held.trans h.held }

/-- Where no scope and no class is changed, the tree is the same. -/
theorem of_same (scopes : w₁.scopes = w.scopes) (classes : w₁.classes = w.classes)
    (held : w₁.held = w.held) : w.SameTree w₁ := by
  have scope : ∀ t, w₁.scope t = w.scope t := fun t => congrArg (Store.get · t) scopes
  have classOf : ∀ c, w₁.classOf c = w.classOf c := fun c => congrArg (Store.get · c) classes
  have scopesThere : ∀ t : ScopeId, t.In w₁.count ↔ t.In w.count := fun t => by
    simp only [Handle.In, count, scopes]
  have classesThere : ∀ c : ClassId, c.In w₁.count ↔ c.In w.count := fun c => by
    simp only [Handle.In, count, classes]
  exact
    { scopes := (scopesThere _).mpr
      classes := (classesThere _).mpr
      kind := fun _ => by rw [scope]
      site := fun _ => by rw [scope]
      home := fun _ => by rw [classOf]
      newHome := fun there new => absurd ((classesThere _).mp there) new
      children := fun t => by rw [scope]
      held }

theorem tidy (h : w.SameTree w₁) (tidy : w.Tidy) : w₁.Tidy where
  child t c hc := h.scopes (tidy.child t c (h.children t ▸ hc))
  held t ht := h.scopes (tidy.held t (h.held ▸ ht))
  home := h.homes tidy

theorem activations (h : w.SameTree w₁) (tidy : w.Tidy) : w₁.activations = w.activations := by
  rw [World.activations, h.held, h.activations_eq tidy]

/-- A new scope without children. -/
theorem newScope (w : World) {x : Scope} (empty : x.children = []) :
    w.SameTree (w.newScope x).2 where
  scopes there := there.mono (w.count_newScope x ▸ Census.le_grow _ _)
  classes there := there.mono (w.count_newScope x ▸ Census.le_grow _ _)
  kind there := by rw [scope_newScope, if_neg (Census.ne_next there)]
  site there := by rw [scope_newScope, if_neg (Census.ne_next there)]
  home _ := rfl
  newHome there new := absurd there new
  children t := by
    rw [scope_newScope]
    split
    · -- the list of a scope that is not there reads as empty
      rename_i next
      have new : ¬ t.In w.count := fun there => Census.ne_next there next
      rw [empty, scope_default new]
      rfl
    · rfl
  held := rfl

/-- Another content of a scope that keeps its links. -/
theorem setScope (w : World) (s : ScopeId) {x : Scope} (kind : x.kind = (w.scope s).kind)
    (site : x.site = (w.scope s).site) (children : x.children = (w.scope s).children) :
    w.SameTree (w.setScope s x) where
  scopes there := w.count_setScope s x ▸ there
  classes there := w.count_setScope s x ▸ there
  kind there := by
    rw [scope_setScope]
    split
    · rename_i same
      rw [same.1, kind]
    · rfl
  site there := by
    rw [scope_setScope]
    split
    · rename_i same
      rw [same.1, site]
    · rfl
  home _ := rfl
  newHome there new := absurd (w.count_setScope s x ▸ there) new
  children t := by
    rw [scope_setScope]
    split
    · rename_i same
      rw [same.1, children]
    · rfl
  held := rfl

/-- A new class whose scope is there. -/
theorem newClass (w : World) {x : Class} (home : x.scope.In w.count) :
    w.SameTree (w.newClass x).2 where
  scopes there := there.mono (w.count_newClass x ▸ Census.le_grow _ _)
  classes there := there.mono (w.count_newClass x ▸ Census.le_grow _ _)
  kind _ := rfl
  site _ := rfl
  home there := by rw [classOf_newClass, if_neg (Census.ne_next there)]
  newHome {c} there new := by
    rw [count_newClass] at there
    rw [classOf_newClass, if_pos (Census.index_of_grow there new)]
    exact home.mono (w.count_newClass x ▸ Census.le_grow _ _)
  children _ := rfl
  held := rfl

end SameTree

/-! ## What leaves the tree alone -/

instance : Mild SameTree where
  refl := .refl
  trans := .trans
  keeps kept := .of_same kept.scopes kept.classes kept.held
  newScope same starts := same.trans (.newScope _ starts.children)
  newClass home := .newClass _ home
  fill w s _ _ _ _ := .setScope w s rfl rfl rfl

theorem sameTree_functionDefScope (w : World) (s : ScopeId) (f : FunctionDecl) :
    w.SameTree (w.functionDefScope s f).2 := by
  simp only [functionDefScope]
  split
  · have derived : w.SameTree (w.derive s .isolated f.name none).2 := w.within_derive s _ _ _
    exact (derived.trans (within_captureVariables _ s [])).trans (.setScope _ _ rfl rfl rfl)
  · exact w.within_detachAs s .detached f.freeNames f.name

theorem sameTree_bindAlias (w : World) (s : ScopeId) (name : String) (t : TypeExpr) :
    w.SameTree (w.bindAlias s name t).2 :=
  (w.within_bindType s (some t) : w.SameTree _).trans (.setScope _ s rfl rfl rfl)

/-! ## Holding -/

/-- Cells none of which is a scope. -/
def Scopeless (cells : List Cell) : Prop := ∀ c ∈ cells, c.kind ≠ .scope

namespace Scopeless

theorem append {cs ds : List Cell} (h : Scopeless cs) (i : Scopeless ds) : Scopeless (cs ++ ds) :=
  fun c hc => (List.mem_append.mp hc).elim (h c) (i c)

theorem cons {c : Cell} {cs : List Cell} (ne : c.kind ≠ .scope) (h : Scopeless cs) :
    Scopeless (c :: cs) :=
  List.forall_mem_cons.mpr ⟨ne, h⟩

theorem one {c : Cell} (ne : c.kind ≠ .scope) : Scopeless [c] := cons ne nofun

/-- A value holds no scope. -/
theorem value (v : Value) : Scopeless v.cells := by
  obtain ⟨d, a⟩ := v
  intro c hc
  cases d with
  | null | bool | number | char | string => exact absurd hc List.not_mem_nil
  | callable x =>
    cases x <;> exact List.mem_singleton.mp hc ▸ nofun
  | _ => exact List.mem_singleton.mp hc ▸ nofun

theorem flatMap {items : List α} {f : α → List Cell} (each : ∀ a, Scopeless (f a)) :
    Scopeless (items.flatMap f) := by
  intro c hc
  obtain ⟨a, -, ha⟩ := List.mem_flatMap.mp hc
  exact each a c ha

theorem arguments (a : CallArguments) : Scopeless a.cells :=
  (flatMap value).append (flatMap fun n => value n.2)

theorem callable (c : Callable) : Scopeless [c.cell] :=
  one (by cases c <;> exact nofun)

end Scopeless

theorem Tidy.hold (tidy : w.Tidy) {cells : List Cell}
    (there : ∀ t : ScopeId, t.cell ∈ cells → t.In w.count) : (w.hold cells).Tidy where
  child := tidy.child
  held t ht := (List.mem_append.mp ht).elim (there t) (tidy.held t)
  home := tidy.home

theorem Tidy.holdScopeless (tidy : w.Tidy) {cells : List Cell} (none : Scopeless cells) :
    (w.hold cells).Tidy :=
  tidy.hold fun _ ht => absurd rfl (none _ ht)

theorem activations_hold (w : World) {cells : List Cell} (none : Scopeless cells) :
    (w.hold cells).activations = w.activations := by
  have drop : cells.filterMap (Cell.activation? w) = [] := by
    refine List.filterMap_eq_nil_iff.mpr fun c hc => ?_
    simp [Cell.activation?, none c hc]
  calc (w.hold cells).activations
      = cells.filterMap (Cell.activation? w) ++ w.activations := List.filterMap_append
    _ = w.activations := by rw [drop, List.nil_append]

/-- What holds cells for a while and leaves the tree alone, leaves it alone. -/
theorem SameTree.restore (h : (w.hold cells).SameTree w₁) : w.SameTree { w₁ with held := w.held } :=
  { h.toRetains with
    scopes := h.scopes
    children := h.children
    held := rfl }

/-! ## Entering and leaving -/

/-- What becomes of a new scope matters to its own list only. -/
theorem SameTree.setNew (h : w.SameTree w₁) (new : ¬ t.In w.count) {x : Scope}
    (children : x.children = (w₁.scope t).children) : w.SameTree (w₁.setScope t x) := by
  have other : ∀ {u : ScopeId}, u.In w.count → (w₁.setScope t x).scope u = w₁.scope u := by
    intro u there
    have ne : u ≠ t := fun same => new (same ▸ there)
    rw [scope_setScope, if_neg fun same => ne same.1]
  exact
    { scopes := fun there => w₁.count_setScope t x ▸ h.scopes there
      classes := fun there => w₁.count_setScope t x ▸ h.classes there
      kind := fun there => by rw [other there, h.kind there]
      site := fun there => by rw [other there, h.site there]
      home := h.home
      newHome := fun there new => w₁.count_setScope t x ▸
        h.newHome (w₁.count_setScope t x ▸ there) new
      children := fun u => by
        rw [← h.children, scope_setScope]
        split
        · rename_i same
          rw [same.1, children]
        · rfl
      held := h.held }

/-- A new scope of a block or a call that is listed where it is entered from. -/
theorem SameTree.enters (h : w.SameTree w₁) (old : s.In w.count) (new : ¬ t.In w.count)
    (there : t.In w₁.count) (activation : (w₁.scope t).kind.isActivation = true)
    (site : (w₁.scope t).site = some s) : w.Enters s t (w₁.addChild s t) := by
  have ne : t ≠ s := fun same => new (same ▸ old)
  -- the link to the owner is of no account, and so is the list itself for kind and site
  have linked : ∀ u, ((w₁.addChild s t).scope u).kind = (w₁.scope u).kind ∧
      ((w₁.addChild s t).scope u).site = (w₁.scope u).site := by
    intro u
    simp only [addChild, scope_setScope, count_setScope]
    grind [Scope.site]
  have count : (w₁.addChild s t).count = w₁.count := w₁.count_addChild s t
  exact
    { scopes := fun there => count ▸ h.scopes there
      classes := fun there => count ▸ h.classes there
      kind := fun there => (linked _).1.trans (h.kind there)
      site := fun there => (linked _).2.trans (h.site there)
      home := h.home
      newHome := fun there new => count ▸ h.newHome (count ▸ there) new
      new
      there := count ▸ there
      activation := (linked t).1 ▸ activation
      entered := (linked t).2.trans site
      children := fun u => by
        rw [(w₁.scope_addChild s t u (h.scopes old)).1, h.children, h.children]
      held := h.held }

/-- A block that is entered. -/
theorem enters_createChild (old : s.In w.count) (label : String) :
    w.Enters s (w.createChild s .block label).1 (w.createChild s .block label).2 := by
  have made : w.SameTree (w.makeCallScope s .block label).2 := .newScope w rfl
  have fresh : (w.makeCallScope s .block label).2.scope (w.makeCallScope s .block label).1 =
      (w.scope s).derived s .block label (some s) := w.scope_derive s .block label (some s)
  exact made.enters old (w.derive_new s .block label (some s)) (w.derive_in s .block label (some s))
    (congrArg (fun x : Scope => x.kind.isActivation) fresh) (congrArg Scope.site fresh)

/-- A call is entered, or it is refused and leaves the tree alone. -/
theorem enters_enter (old : s.In w.count) (parent : ScopeId) {kind : ScopeKind}
    (call : kind = .functionCall ∨ kind = .methodCall) (label : String) :
    match (Action.enter s parent kind label).runIn w with
    | (.ok t, w') => w.Enters s t w'
    | (.error _, w') => w.SameTree w' := by
  have made : w.SameTree (w.makeCallScope parent kind label).2 := .newScope w rfl
  have new : ¬ (w.makeCallScope parent kind label).1.In w.count := w.derive_new _ _ _ _
  have there : (w.makeCallScope parent kind label).1.In
      (w.makeCallScope parent kind label).2.count := w.derive_in _ _ _ _
  have fresh : (w.makeCallScope parent kind label).2.scope (w.makeCallScope parent kind label).1 =
      (w.scope parent).derived parent kind label (some parent) :=
    w.scope_derive parent kind label (some parent)
  rw [Action.enter, runIn_change_bind]
  generalize w.makeCallScope parent kind label = m at made new there fresh ⊢
  have called : w.SameTree (m.2.setCaller m.1 s) := made.setNew new rfl
  have self : (m.2.setCaller m.1 s).scope m.1 = { m.2.scope m.1 with caller := some s } := by
    rw [setCaller, scope_setScope, if_pos ⟨rfl, there⟩]
  rw [runIn_modify_bind, Action.appendChild, bind_assoc, runIn_look_bind]
  by_cases ring : ((m.2.setCaller m.1 s).ownerChain s).contains m.1 = true
  · rw [if_pos ring]
    exact called
  · rw [if_neg ring]
    refine called.enters old new (m.2.count_setScope m.1 _ ▸ there) ?_ ?_
    · rw [self, fresh]
      exact call.elim (fun e => e ▸ rfl) (fun e => e ▸ rfl)
    · rw [self, fresh]
      exact call.elim (fun e => e ▸ rfl) (fun e => e ▸ rfl)

theorem enters_enterMethod (old : s.In w.count) (receiver : InstanceId) (name : String) :
    match (Action.enterMethod s receiver name).runIn w with
    | (.ok t, w') => w.Enters s t w'
    | (.error _, w') => w.SameTree w' := by
  rw [Action.enterMethod, runIn_look_bind]
  exact enters_enter old (w.inst receiver).scope (.inr rfl) name

namespace Enters

/-- A scope that has been entered is held, and everything that is listed is there. -/
theorem tidy (h : w.Enters s t w₁) (tidy : w.Tidy) : (w₁.hold [t.cell]).Tidy where
  child u c hc := by
    have hc' : c ∈ (w₁.scope u).children := hc
    rw [h.children] at hc'
    split at hc'
    · rcases List.mem_append.mp hc' with old | last
      · exact h.scopes (tidy.child s c old)
      · exact List.mem_singleton.mp last ▸ h.there
    · exact h.scopes (tidy.child u c hc')
  held u hu := by
    rcases List.mem_cons.mp hu with same | old
    · have eq : u = t := congrArg (fun c : Cell => (⟨c.index⟩ : ScopeId)) same
      exact eq ▸ h.there
    · exact h.scopes (tidy.held u (h.held ▸ old))
  home := h.homes tidy

theorem activations (h : w.Enters s t w₁) (tidy : w.Tidy) :
    (w₁.hold [t.cell]).activations = t :: w.activations := by
  have first : t.cell.activation? w₁ = some t := if_pos ⟨rfl, h.activation⟩
  calc (w₁.hold [t.cell]).activations
      = (t.cell :: w₁.held).filterMap (Cell.activation? w₁) := rfl
    _ = t :: w₁.held.filterMap (Cell.activation? w₁) := by rw [List.filterMap_cons, first]
    _ = t :: w.activations := by rw [h.held, h.activations_eq tidy]

/-- A scope that is left is taken off the list: the lists are as they were. -/
theorem leave (h : w.Enters s t w₁) (tidy : w.Tidy)
    (inside : (w₁.hold [t.cell]).SameTree w₂) :
    w.SameTree (({ w₂ with held := w₁.held } : World).removeChild s t) := by
  have inside : w₁.SameTree { w₂ with held := w₁.held } := inside.restore
  generalize ({ w₂ with held := w₁.held } : World) = w₃ at inside ⊢
  have retains := h.toRetains.trans inside.toRetains
  have listed : w₃.Lists s t := by
    rw [Lists, inside.children, h.children, if_pos rfl]
    exact List.mem_append.mpr (.inr (List.mem_singleton.mpr rfl))
  have unlisted : t ∉ (w.scope s).children := fun mem => h.new (tidy.child s t mem)
  have after := w₃.scope_removeChild listed (inside.scopes h.there)
  have linked : ∀ u, ((w₃.removeChild s t).scope u).kind = (w₃.scope u).kind ∧
      ((w₃.removeChild s t).scope u).site = (w₃.scope u).site := by
    intro u
    simp only [removeChild, List.contains_iff_mem.mpr listed, if_true, scope_setScope,
      count_setScope]
    grind [Scope.site]
  have classOf : (w₃.removeChild s t).classOf = w₃.classOf := by
    simp only [removeChild, List.contains_iff_mem.mpr listed, if_true]
    rfl
  have count : (w₃.removeChild s t).count = w₃.count := w₃.count_removeChild s t
  have held : (w₃.removeChild s t).held = w₃.held := by
    simp only [removeChild, List.contains_iff_mem.mpr listed, if_true]
    rfl
  exact
    { scopes := fun there => count ▸ retains.scopes there
      classes := fun there => count ▸ retains.classes there
      kind := fun there => (linked _).1.trans (retains.kind there)
      site := fun there => (linked _).2.trans (retains.site there)
      home := fun there => classOf ▸ retains.home there
      newHome := fun there new => by
        rw [classOf, count]
        exact retains.newHome (count ▸ there) new
      children := fun u => by
        rw [(after u).1, inside.children, inside.children, h.children, h.children, if_pos rfl]
        split
        · rename_i same
          rw [same, List.erase_append_right _ unlisted, List.erase_cons_head, List.append_nil]
        · rfl
      held := (held.trans inside.held).trans h.held }

end Enters

/-! ## Moments -/

namespace Opens

theorem refl (tidy : w.Tidy) : w.Opens [] w :=
  { Retains.refl w with
    tidy
    activations := rfl
    new := nofun
    sited := nofun
    children := fun _ => (List.append_nil _).symm
    newest := .nil }

theorem after (h : w.SameTree w₁) (tidy : w.Tidy) (i : w₁.Opens opened w₂) :
    w.Opens opened w₂ :=
  { h.toRetains.trans i.toRetains with
    tidy := i.tidy
    activations := i.activations.trans (by rw [h.activations tidy])
    new := fun c hc old => i.new c hc (h.scopes old)
    sited := i.sited
    children := fun t => (i.children t).trans (by rw [h.children])
    newest := i.newest }

/-- Holding what is no scope opens nothing. -/
theorem hold (none : Scopeless cells) (i : (w.hold cells).Opens opened w₂) :
    w.Opens opened w₂ :=
  { i with
    scopes := i.scopes
    activations := i.activations.trans (by rw [w.activations_hold none]) }

/-- A moment inside a block or a call, which is the outermost of the scopes that are open. -/
theorem inside (h : w.Enters s t w₁) (tidy : w.Tidy) (old : s.In w.count)
    (i : (w₁.hold [t.cell]).Opens opened w₂) : w.Opens (opened ++ [t]) w₂ := by
  have inner : w₁.Retains w₂ := { i.toRetains with scopes := i.scopes }
  have site : (w₂.scope t).site = some s := (i.site (t := t) h.there).trans h.entered
  have last : ∀ u, w₂.enteredFrom u (opened ++ [t]) =
      (if s = u then [t] else []) ++ w₂.enteredFrom u opened := by
    intro u
    simp only [enteredFrom, List.filter_append, List.reverse_append, List.filter_cons,
      List.filter_nil, site, Option.some.injEq, decide_eq_true_eq]
    split <;> rfl
  refine
    { h.toRetains.trans inner with
      tidy := i.tidy
      activations := ?_
      new := fun c hc old => ?_
      sited := fun c hc => ?_
      children := fun u => ?_
      newest := ?_ }
  · rw [i.activations, h.activations tidy, List.append_assoc]
    rfl
  · rcases List.mem_append.mp hc with inner | outer
    · exact i.new c inner (h.scopes old)
    · exact h.new (List.mem_singleton.mp outer ▸ old)
  · rcases List.mem_append.mp hc with inner | outer
    · exact i.sited c inner
    · exact List.mem_singleton.mp outer ▸ ⟨s, site, inner.scopes (h.scopes old)⟩
  · have listed : (w₂.scope u).children = (w₁.scope u).children ++ w₂.enteredFrom u opened :=
      i.children u
    rw [listed, h.children, last]
    by_cases same : s = u
    · rw [if_pos same.symm, if_pos same, same, List.append_assoc]
    · rw [if_neg fun eq => same eq.symm, if_neg same, List.nil_append]
  · refine List.pairwise_append.mpr ⟨i.newest, List.pairwise_singleton _ _, fun c hc d hd => ?_⟩
    -- what was entered inside was not there when `t` was
    have new : ¬ c.index < w₁.count .scope := i.new c hc
    have there : t.index < w₁.count .scope := h.there
    rw [List.mem_singleton.mp hd]
    omega

/-- Where nothing was in progress and nothing listed, the lists are made of what has been
opened. -/
theorem stacked (i : w.Opens opened w₂) (idle : w.activations = [])
    (bare : ∀ t, (w.scope t).children = []) : w₂.Stacked := by
  have active : w₂.activations = opened := by rw [i.activations, idle, List.append_nil]
  refine ⟨fun t => ?_, fun c hc => ?_, ?_⟩
  · rw [i.children, bare, active, List.nil_append]
  · exact i.sited c (active ▸ hc)
  · exact active ▸ i.newest

end Opens

end World

end ScopeLang
