/-
# Teardown

Tearing a scope down walks the lists of children and empties them on the way, so the
graph that it walks changes under it.  What it clears can be told beforehand all the same:
the scopes that it `Brings` down, which are reached over scopes that are standing.
A scope that has been torn down is left alone with all below it, and this is also what
ends the walk where a scope is listed twice or the lists make a ring.

`World.Razes` says what has been cleared.  Two steps of the walk compose where the first has
cleared a set that `Confines` its ways, so that no way that is still open led through it
(`Razes.comp`).  The depth that is needed is the number of scopes that are standing,
since each level of the recursion begins by clearing one of them (`razes_teardownWithin`).
-/
import Mathlib.Data.Finset.Card
import Mathlib.Data.Finset.Range
import ScopeLang.Proofs.Trees

namespace ScopeLang

/-- Stores of one size that hold the same cells are equal. -/
theorem Store.eq_of_get {k : CellKind} {α : Type} [Inhabited α] {s s' : Store k α}
    (size : s.size = s'.size) (same : ∀ h, s.get h = s'.get h) : s = s' := by
  obtain ⟨a⟩ := s
  obtain ⟨b⟩ := s'
  refine congrArg Store.mk (Array.ext size fun i hi hi' => ?_)
  have read := same ⟨i⟩
  simp only [Store.get, Array.getD_eq_getD_getElem?, Array.getElem?_eq_getElem hi,
    Array.getElem?_eq_getElem hi', Option.getD_some] at read
  exact read

open Relation

variable {w w' w₁ w₂ : World} {s t u : ScopeId} {X Y : ScopeId → Prop}

namespace World

/-! ## Ways over standing scopes -/

/-- The scope lists another one, which has not been torn down. -/
def ListsStanding (w : World) (s t : ScopeId) : Prop := w.Lists s t ∧ (w.scope t).tornDown = false

/-- The scopes that come down with `s`, if `s` has not been torn down. -/
def Brings (w : World) : ScopeId → ScopeId → Prop := ReflTransGen w.ListsStanding

/-- Some scopes of which none leads out. -/
def Confines (w : World) (X : ScopeId → Prop) : Prop := ∀ {s t}, X s → w.ListsStanding s t → X t

theorem Confines.brings (closed : w.Confines X) (hs : X s) (way : w.Brings s t) : X t := by
  induction way with
  | refl => exact hs
  | tail _ last ih => exact closed ih last

/-- The scopes that come down with those of a list that are standing. -/
def BroughtBy (w : World) (l : List ScopeId) (t : ScopeId) : Prop :=
  ∃ c ∈ l, (w.scope c).tornDown = false ∧ w.Brings c t

theorem BroughtBy.confined (l : List ScopeId) : w.Confines (w.BroughtBy l) := by
  rintro s t ⟨c, mem, standing, way⟩ last
  exact ⟨c, mem, standing, way.tail last⟩

theorem broughtBy_singleton :
    w.BroughtBy [s] t ↔ (w.scope s).tornDown = false ∧ w.Brings s t := by
  simp only [BroughtBy, List.mem_singleton, exists_eq_left]

theorem broughtBy_cons {l : List ScopeId} :
    w.BroughtBy (s :: l) t ↔ w.BroughtBy [s] t ∨ w.BroughtBy l t := by
  rw [broughtBy_singleton]
  simp only [BroughtBy, List.mem_cons, exists_eq_or_imp]

/-- What comes down is standing. -/
theorem BroughtBy.standing {l : List ScopeId} (h : w.BroughtBy l t) :
    (w.scope t).tornDown = false := by
  obtain ⟨c, -, up, way⟩ := h
  rcases ReflTransGen.cases_tail way with same | ⟨u, -, last⟩
  · exact same ▸ up
  · exact last.2

/-! ## What has been cleared -/

/-- The scopes in `X` have been cleared, and nothing else has changed. -/
structure Razes (w : World) (X : ScopeId → Prop) (w' : World) : Prop where
  cleared : ∀ {t}, X t → w'.scope t = (w.scope t).cleared
  other : ∀ {t}, ¬ X t → w'.scope t = w.scope t
  size : w'.scopes.size = w.scopes.size
  rest : w' = { w with scopes := w'.scopes }

namespace Razes

theorem none (w : World) (empty : ∀ t, ¬ X t) : w.Razes X w where
  cleared h := absurd h (empty _)
  other _ := rfl
  size := rfl
  rest := rfl

theorem congr (h : w.Razes X w') (same : ∀ t, X t ↔ Y t) : w.Razes Y w' where
  cleared hy := h.cleared ((same _).mpr hy)
  other ny := h.other fun hx => ny ((same _).mp hx)
  size := h.size
  rest := h.rest

/-- What has been cleared is torn down. -/
theorem tornDown (h : w.Razes X w') (ht : X t) : (w'.scope t).tornDown = true := by
  rw [h.cleared ht]
  rfl

theorem standing (h : w.Razes X w') (up : (w'.scope t).tornDown = false) : ¬ X t := fun ht => by
  rw [h.tornDown ht] at up
  cases up

/-- A way that is open after a closed set has been cleared is one that was open outside of it. -/
theorem brings_iff (h : w.Razes X w') (closed : w.Confines X) (hs : ¬ X s) :
    w'.Brings s t ↔ w.Brings s t ∧ ¬ X t := by
  constructor
  · intro way
    induction way with
    | refl => exact ⟨.refl, hs⟩
    | tail _ last ih =>
      have out := h.standing last.2
      refine ⟨ih.1.tail ⟨?_, ?_⟩, out⟩
      · have listed := last.1
        rwa [Lists, h.other ih.2] at listed
      · rw [← h.other out]
        exact last.2
  · rintro ⟨way, out⟩
    induction way with
    | refl => exact .refl
    | tail _ last ih =>
      have before := fun hx => out (closed hx last)
      refine (ih before).tail ⟨?_, ?_⟩
      · rw [Lists, h.other before]
        exact last.1
      · rw [h.other out]
        exact last.2

/-- What is cleared first and what is cleared next. -/
theorem trans (h : w.Razes X w₁) (i : w₁.Razes Y w₂) (apart : ∀ t, X t → ¬ Y t) :
    w.Razes (fun t => X t ∨ Y t) w₂ where
  cleared {t} ht := by
    by_cases hy : Y t
    · rw [i.cleared hy, h.other fun hx => apart t hx hy]
    · rw [i.other hy, h.cleared (ht.resolve_right hy)]
  other nt := by rw [i.other fun hy => nt (.inr hy), h.other fun hx => nt (.inl hx)]
  size := i.size.trans h.size
  rest := by rw [i.rest, h.rest]

/-- A closed set is cleared, and then what comes down with `s`. -/
theorem comp (h : w.Razes X w₁) (closed : w.Confines X) (i : w₁.Razes (w₁.BroughtBy [s]) w₂) :
    w.Razes (fun t => X t ∨ w.BroughtBy [s] t) w₂ := by
  refine (h.trans i fun t hx new => ?_).congr fun t => or_congr_right' fun out => ?_
  · exact h.standing new.standing hx
  · rw [broughtBy_singleton, broughtBy_singleton]
    by_cases hs : X s
    · have torn := h.tornDown hs
      refine ⟨fun ⟨up, _⟩ => absurd (torn.symm.trans up) nofun, fun ⟨_, way⟩ => ?_⟩
      exact absurd (closed.brings hs way) out
    · rw [h.other hs, h.brings_iff closed hs]
      exact ⟨fun ⟨up, way⟩ => ⟨up, way.1⟩, fun ⟨up, way⟩ => ⟨up, way, out⟩⟩

end Razes

/-! ## The walk -/

/-- The scopes that are listed are there. -/
def Listed (w : World) : Prop := ∀ s t, w.Lists s t → t.In w.count

/-- The number of scopes that have not been torn down. -/
def standing (w : World) : Nat :=
  ((Finset.range w.scopes.size).filter fun i => (w.scope ⟨i⟩).tornDown = false).card

theorem standing_le (w : World) : w.standing ≤ w.scopes.size :=
  (Finset.card_filter_le _ _).trans_eq (Finset.card_range _)

namespace Razes

theorem there (h : w.Razes X w') : t.In w'.count ↔ t.In w.count := by
  simp only [Handle.In, count, h.size]

theorem children_sub (h : w.Razes X w') (listed : w'.Lists s t) : w.Lists s t := by
  by_cases hs : X s
  · rw [Lists, h.cleared hs] at listed
    cases listed
  · rwa [Lists, h.other hs] at listed

theorem listed (h : w.Razes X w') (all : w.Listed) : w'.Listed :=
  fun s t lists => h.there.mpr (all s t (h.children_sub lists))

theorem standing_sub (h : w.Razes X w') :
    ((Finset.range w'.scopes.size).filter fun i => (w'.scope ⟨i⟩).tornDown = false) ⊆
      (Finset.range w.scopes.size).filter fun i => (w.scope ⟨i⟩).tornDown = false := by
  intro i hi
  rw [Finset.mem_filter] at hi ⊢
  rw [h.size, h.other (h.standing hi.2)] at hi
  exact hi

theorem standing_le (h : w.Razes X w') : w'.standing ≤ w.standing :=
  Finset.card_le_card h.standing_sub

theorem standing_lt (h : w.Razes X w') (hs : X s) (there : s.In w.count)
    (up : (w.scope s).tornDown = false) : w'.standing < w.standing := by
  refine Finset.card_lt_card ⟨h.standing_sub, fun sub => ?_⟩
  have mem := sub (Finset.mem_filter.mpr ⟨Finset.mem_range.mpr there, up⟩)
  exact absurd ((h.tornDown hs).symm.trans (Finset.mem_filter.mp mem).2) nofun

end Razes

/-- Scopes are torn down in order. -/
theorem razes_foldl {f : World → ScopeId → World} {n : Nat}
    (each : ∀ {w₁ : World} {c : ScopeId}, w₁.Listed → c.In w₁.count → w₁.standing < n →
      w₁.Razes (w₁.BroughtBy [c]) (f w₁ c)) (listed : w.Listed) (few : w.standing < n) :
    ∀ {l : List ScopeId} {X : ScopeId → Prop} {w₁ : World}, (∀ c ∈ l, c.In w.count) →
      w.Razes X w₁ → w.Confines X → w.Razes (fun t => X t ∨ w.BroughtBy l t) (l.foldl f w₁)
  | [], X, w₁, _, h, _ => h.congr fun t => ⟨.inl, fun g => g.resolve_right nofun⟩
  | c :: rest, X, w₁, there, h, closed => by
    have first := h.comp closed (each (h.listed listed)
      (h.there.mpr (there c List.mem_cons_self)) (Nat.lt_of_le_of_lt h.standing_le few))
    have both : w.Confines fun t => X t ∨ w.BroughtBy [c] t := by
      rintro s t (hx | brought) last
      · exact .inl (closed hx last)
      · exact .inr (BroughtBy.confined [c] brought last)
    refine (razes_foldl each listed few (fun c hc => there c (List.mem_cons_of_mem _ hc)) first
      both).congr fun t => ?_
    rw [or_assoc, ← broughtBy_cons]

/-- A scope is cleared first, and then its children bring down the rest. -/
theorem Razes.brings_iff_children (h : w.Razes (· = s) w₁) :
    w.Brings s t ↔ t = s ∨ w₁.BroughtBy (w.scope s).children t := by
  constructor
  · intro way
    induction way with
    | refl => exact .inl rfl
    | @tail b c _ last ih =>
      by_cases same : c = s
      · exact .inl same
      have up : (w₁.scope c).tornDown = false := by
        rw [h.other same]
        exact last.2
      rcases ih with rfl | brought
      · exact .inr ⟨c, last.1, up, .refl⟩
      · have listed : w₁.Lists b c := by
          rw [Lists, h.other (h.standing brought.standing)]
          exact last.1
        exact .inr (BroughtBy.confined _ brought ⟨listed, up⟩)
  · have old : ∀ {a b}, w₁.ListsStanding a b → w.ListsStanding a b := fun next =>
      ⟨h.children_sub next.1, h.other (h.standing next.2) ▸ next.2⟩
    rintro (rfl | ⟨c, mem, up, way⟩)
    · exact .refl
    · exact .head ⟨mem, h.other (h.standing up) ▸ up⟩ (ReflTransGen.mono (fun _ _ => old) _ _ way)

theorem razes_clear (there : s.In w.count) :
    w.Razes (· = s) (w.setScope s (w.scope s).cleared) where
  cleared {t} same := by
    subst same
    rw [scope_setScope, if_pos ⟨rfl, there⟩]
  other ne := by rw [scope_setScope, if_neg fun same => ne same.1]
  size := Store.size_set _ _ _
  rest := rfl

/-- To tear a scope down is to clear what comes down with it. -/
theorem razes_teardownWithin : ∀ {n : Nat} {w : World} {s : ScopeId}, w.Listed → s.In w.count →
    w.standing < n → w.Razes (w.BroughtBy [s]) (teardownWithin n s w)
  | 0, _, _, _, _, few => absurd few (Nat.not_lt_zero _)
  | n + 1, w, s, listed, there, few => by
    rw [teardownWithin]
    cases torn : (w.scope s).tornDown with
    | true => exact .none w fun t brought => by simp [broughtBy_singleton, torn] at brought
    | false =>
      have first := razes_clear there
      have fewer := first.standing_lt rfl there torn
      have walk := razes_foldl (fun listed there few => razes_teardownWithin listed there few)
        (first.listed listed) (by omega : _ < n) (l := (w.scope s).children)
        (X := fun _ => False) (fun c mem => first.there.mpr (listed s c mem)) (.none _ fun _ => id)
        (fun no _ => no)
      refine (first.trans walk fun t same brought => ?_).congr fun t => ?_
      · exact first.standing (brought.resolve_left id).standing same
      · rw [broughtBy_singleton, first.brings_iff_children]
        simp [torn]

/-- What has been cleared determines the world. -/
theorem Razes.unique (h : w.Razes X w₁) (i : w.Razes X w₂) : w₁ = w₂ := by
  have same : ∀ t, w₁.scope t = w₂.scope t := by
    intro t
    by_cases ht : X t
    · rw [h.cleared ht, i.cleared ht]
    · rw [h.other ht, i.other ht]
  rw [h.rest, i.rest, Store.eq_of_get (h.size.trans i.size.symm) same]

theorem razes_teardown (listed : w.Listed) (there : s.In w.count) :
    w.Razes (w.BroughtBy [s]) (w.teardown s) :=
  razes_teardownWithin listed there (Nat.lt_succ_of_le w.standing_le)

/-! ## Histories -/

/-- Scopes stay, and what is listed was listed before or is there. -/
structure KeepsLists (w w' : World) : Prop where
  there : ∀ {t : ScopeId}, t.In w.count → t.In w'.count
  lists : ∀ {s t}, w'.Lists s t → w.Lists s t ∨ t.In w'.count

namespace KeepsLists

theorem refl (w : World) : w.KeepsLists w := ⟨id, .inl⟩

theorem trans (h : w.KeepsLists w₁) (i : w₁.KeepsLists w₂) : w.KeepsLists w₂ where
  there old := i.there (h.there old)
  lists now := (i.lists now).elim (fun before => (h.lists before).imp_right i.there) .inr

theorem of_scopes (same : w'.scopes = w.scopes) : w.KeepsLists w' where
  there old := by
    rw [Handle.In, count, same]
    exact old
  lists now := by
    rw [Lists, scope, same] at now
    exact .inl now

theorem newScope (w : World) {x : Scope} (empty : x.children = []) :
    w.KeepsLists (w.newScope x).2 where
  there old := old.mono (w.count_newScope x ▸ Census.le_grow _ _)
  lists {s t} now := by
    rw [Lists, scope_newScope] at now
    split at now
    · rw [empty] at now
      cases now
    · exact .inl now

theorem setScope (w : World) (s : ScopeId) {x : Scope}
    (children : ∀ c ∈ x.children, w.Lists s c ∨ c.In w.count) :
    w.KeepsLists (w.setScope s x) where
  there old := w.count_setScope s x ▸ old
  lists {t c} now := by
    rw [count_setScope]
    rw [Lists, scope_setScope] at now
    split at now
    · rename_i same
      exact same.1 ▸ children c now
    · exact .inl now

theorem addChild (w : World) (s : ScopeId) {child : ScopeId} (there : child.In w.count) :
    w.KeepsLists (w.addChild s child) := by
  have owned : w.KeepsLists (w.setScope child { w.scope child with owner := some s }) :=
    setScope w child fun _ => .inl
  refine owned.trans (setScope _ s fun c mem => ?_)
  rcases List.mem_append.mp mem with old | new
  · exact .inl old
  · rw [count_setScope]
    exact .inr (List.mem_singleton.mp new ▸ there)

theorem removeChild (w : World) (s child : ScopeId) : w.KeepsLists (w.removeChild s child) := by
  rw [World.removeChild]
  split
  · exact (setScope w s fun c mem => .inl (List.mem_of_mem_erase mem)).trans
      (setScope _ child fun _ => .inl)
  · exact .refl w

theorem appendChild (w : World) (s : ScopeId) {child : ScopeId} (there : child.In w.count) :
    w.KeepsLists ((Action.appendChild s child).runIn w).2 := by
  rw [Action.runIn_appendChild]
  split
  · exact .refl w
  · exact addChild w s there

end KeepsLists

instance : Mild KeepsLists where
  refl := .refl
  trans := .trans
  keeps kept := .of_scopes kept.scopes
  newScope before starts := before.trans (.newScope _ starts.children)
  newClass _ := .of_scopes rfl
  fill w s _ _ _ _ := .setScope w s fun _ => .inl

/-- One operation on scopes.  The scopes of definitions are detached or isolated ones, and those of
classes and calls are made for calls. -/
inductive ScopeStep (w : World) : World → Prop
  | root (options : MatchOptions) : ScopeStep w (w.newRoot options).2
  | child (s : ScopeId) (kind : ScopeKind) (label : String) :
      ScopeStep w (w.createChild s kind label).2
  | forCall (s : ScopeId) (kind : ScopeKind) (label : String) :
      ScopeStep w (w.makeCallScope s kind label).2
  | detach (s : ScopeId) (kind : ScopeKind) (names : List String) (label : String) :
      ScopeStep w (w.detachAs s kind names label).2
  | isolate (s : ScopeId) (names : List String) (label : String) :
      ScopeStep w (w.isolate s names label).2
  | enter (caller parent : ScopeId) (kind : ScopeKind) (label : String) :
      ScopeStep w ((Action.enter caller parent kind label).runIn w).2
  | members (c : ClassId) : ScopeStep w (w.makeInstance c).2
  | duplicate (s : ScopeId) : ScopeStep w (w.duplicateScope s).2
  | copy (v : Value) : ScopeStep w (w.deepCopy v).2
  | append (s : ScopeId) {child : ScopeId} (there : child.In w.count) :
      ScopeStep w ((Action.appendChild s child).runIn w).2
  | remove (s child : ScopeId) : ScopeStep w (w.removeChild s child)
  | declare (s : ScopeId) (name : String) (b : Binding) :
      ScopeStep w ((Action.declareVariable s name b).runIn w).2
  | update (s : ScopeId) (name : String) (v : Value) :
      ScopeStep w ((Action.updateVariable s name v).runIn w).2
  | updateLocal (s : ScopeId) (name : String) (v : Value) :
      ScopeStep w ((Action.updateLocalVariable s name v).runIn w).2
  | addFunction (s : ScopeId) (name : String) (o : Overload) :
      ScopeStep w (w.registerFunction s name o)
  | addClass (s : ScopeId) (c : ClassId) : ScopeStep w ((Action.registerClass s c).runIn w).2
  | bindAlias (s : ScopeId) (name : String) (t : TypeExpr) : ScopeStep w (w.bindAlias s name t).2
  | teardown {s : ScopeId} (there : s.In w.count) : ScopeStep w (w.teardown s)
  /-- Whatever leaves the scopes alone: values, containers, types and what is held. -/
  | besides {w' : World} (same : w'.scopes = w.scopes) : ScopeStep w w'

theorem KeepsLists.enter (w : World) (caller parent : ScopeId) (kind : ScopeKind) (label : String) :
    w.KeepsLists ((Action.enter caller parent kind label).runIn w).2 := by
  have made : w.KeepsLists (w.makeCallScope parent kind label).2 :=
    w.within_derive parent kind label (some parent)
  have new : (w.makeCallScope parent kind label).1.In (w.makeCallScope parent kind label).2.count :=
    w.derive_in parent kind label (some parent)
  rw [Action.enter, runIn_change_bind, runIn_modify_bind]
  generalize w.makeCallScope parent kind label = call at made new
  have called : w.KeepsLists (call.2.setCaller call.1 caller) :=
    made.trans (.setScope _ _ fun _ => .inl)
  rw [Action.appendChild, bind_assoc, runIn_look_bind]
  split
  · exact called
  · exact called.trans (.addChild _ caller (call.2.count_setScope call.1 _ ▸ new))

/-- Scopes that are listed are there, whatever has been done to scopes. -/
theorem ScopeStep.listed (step : w.ScopeStep w') (listed : w.Listed) : w'.Listed := by
  have later : w.KeepsLists w' → w'.Listed := fun keeps s t now =>
    (keeps.lists now).elim (fun before => keeps.there (listed s t before)) id
  have stores : ∀ {s : ScopeId} {name : String} (w : World) (b : Binding),
      w.KeepsLists (w.setVariable s name b) := fun w b => w.within_setVariable _ _ b
  cases step with
  | root options =>
    have typed : w.KeepsLists (w.newTypes ⟨.initial, options⟩).2 := .of_scopes rfl
    exact later (typed.trans (.newScope _ rfl))
  | child s kind label =>
    have made : w.KeepsLists (w.makeCallScope s kind label).2 := w.within_derive s kind label _
    exact later (made.trans (.addChild _ s (w.derive_in s kind label _)))
  | forCall s kind label => exact later (w.within_derive s kind label _)
  | detach s kind names label => exact later (w.within_detachAs s kind names label)
  | isolate s names label =>
    have made : w.KeepsLists (w.derive s .isolated label none).2 := w.within_derive s _ label _
    have captured := made.trans (within_captureVariables _ s names)
    exact later (captured.trans (.setScope _ _ fun _ => .inl))
  | enter caller parent kind label => exact later (.enter w caller parent kind label)
  | members c => exact later (w.within_makeInstance c)
  | duplicate s => exact later (w.within_duplicateScope s)
  | copy v => exact later (within_copyWithin _ v w)
  | append s there => exact later (.appendChild w s there)
  | remove s child => exact later (.removeChild w s child)
  | declare s name b => exact later (Action.within_declareVariable stores b w)
  | update s name v => exact later (Action.within_updateVariable (fun w t b => stores w b) s v w)
  | updateLocal s name v => exact later (Action.within_updateLocalVariable stores v w)
  | addFunction s name o => exact later (w.within_registerFunction s name o)
  | addClass s c =>
    have stored : ∀ (w : World) classes, w.KeepsLists (w.setClassTable s classes) :=
      fun w classes => w.within_setClassTable s classes
    exact later (Action.within_registerClass stored c w)
  | bindAlias s name t =>
    have bound : w.KeepsLists (w.bindType s (some t)).2 := w.within_bindType s (some t)
    exact later (bound.trans (.setScope _ s fun _ => .inl))
  | teardown there => exact (razes_teardown listed there).listed listed
  | besides same => exact later (.of_scopes same)

/-- A world to which operations on scopes lead from the empty one. -/
def ScopesReachable : World → Prop := ReflTransGen ScopeStep .empty

theorem ScopesReachable.listed (history : w.ScopesReachable) : w.Listed := by
  induction history with
  | refl => exact fun _ _ now => absurd now List.not_mem_nil
  | tail _ step ih => exact step.listed ih

/-! ## Completeness -/

/-- What tearing down a scope comes to. -/
structure TearsDown (w : World) (s : ScopeId) (w' : World) : Prop where
  /-- The recursion ends, and all levels that are more than there are scopes do the same. -/
  ends : ∀ n, w.scopes.size < n → teardownWithin n s w = w'
  /-- All that is reached over standing scopes is torn down, and its tables are empty. -/
  complete : ∀ {t}, w.Brings s t → (w'.scope t).tornDown = true ∧
    (w'.scope t).bindings = .empty ∧ (w'.scope t).functions = .empty ∧
    (w'.scope t).classes = .empty ∧ (w'.scope t).aliases = .empty ∧ (w'.scope t).children = []
  /-- With a root its globals are emptied. -/
  globals : ∀ {root}, w.Brings s root →
    w'.globalFunctions root = .empty ∧ w'.globalClasses root = .empty
  /-- All other globals are as they were. -/
  otherGlobals : ∀ {root}, ¬ w.Brings s root →
    w'.globalFunctions root = w.globalFunctions root ∧
      w'.globalClasses root = w.globalClasses root
  /-- Every other scope is as it was. -/
  others : ∀ {t}, ¬ w.Brings s t → w'.scope t = w.scope t
  /-- Nothing but scopes changes, and there are as many as before. -/
  rest : w' = { w with scopes := w'.scopes } ∧ w'.scopes.size = w.scopes.size
  /-- A second time nothing happens. -/
  again : w'.teardown s = w'

theorem Razes.tearsDown (h : w.Razes (w.BroughtBy [s]) w') (listed : w.Listed)
    (there : s.In w.count) (up : (w.scope s).tornDown = false) : w.TearsDown s w' := by
  have brought : ∀ {t}, w.BroughtBy [s] t ↔ w.Brings s t := fun {t} => by
    rw [broughtBy_singleton, and_iff_right up]
  have cleared : ∀ {t}, w.Brings s t → w'.scope t = (w.scope t).cleared :=
    fun way => h.cleared (brought.mpr way)
  have others : ∀ {t}, ¬ w.Brings s t → w'.scope t = w.scope t :=
    fun no => h.other fun way => no (brought.mp way)
  refine ⟨fun n enough => ?_, fun way => ?_, fun way => ?_, fun no => ?_, others, ⟨h.rest, h.size⟩,
    ?_⟩
  · have few := Nat.lt_of_le_of_lt w.standing_le enough
    exact (razes_teardownWithin listed there few).unique h
  · rw [cleared way]
    exact ⟨rfl, rfl, rfl, rfl, rfl, rfl⟩
  · rw [globalFunctions, globalClasses, cleared way, Scope.cleared]
    cases (w.scope _).globals <;> exact ⟨rfl, rfl⟩
  · rw [globalFunctions, globalClasses, others no]
    exact ⟨rfl, rfl⟩
  · have torn : (w'.scope s).tornDown = true := h.tornDown (brought.mpr .refl)
    rw [World.teardown, teardownWithin, torn]
    rfl

/-- In every world that operations on scopes lead to, whatever lists of children share and however
they run in rings, a scope that has not been torn down comes down with all that it
brings down, and with nothing else. -/
theorem teardown_tearsDown (history : w.ScopesReachable) (there : s.In w.count)
    (standing : (w.scope s).tornDown = false) : w.TearsDown s (w.teardown s) :=
  (razes_teardown history.listed there).tearsDown history.listed there standing

end World

/-- The family in which the first child is appended to the grandchild, too. -/
def Ring.closed : World := ((Action.appendChild ⟨3⟩ ⟨1⟩).runIn Ring.shared).2

namespace World

theorem scopesReachable_closed : Ring.closed.ScopesReachable := by
  have root : (World.empty.newRoot {}).2.ScopesReachable := ReflTransGen.single (.root {})
  have planted : (World.planted {}).ScopesReachable := root.tail (.besides rfl)
  have family : Ring.family.ScopesReachable :=
    ((planted.tail (.child ⟨0⟩ .block "first")).tail (.child ⟨0⟩ .block "second")).tail
      (.child ⟨1⟩ .block "grandchild")
  have shared : Ring.shared.ScopesReachable :=
    family.tail (.append ⟨2⟩ (by decide +kernel))
  exact shared.tail (.append ⟨3⟩ (by decide +kernel))

/-- The root brings down the grandchild, which two scopes list and which is on a ring. -/
theorem ring_comes_down :
    Ring.closed.TearsDown ⟨0⟩ (Ring.closed.teardown ⟨0⟩) ∧
      ((Ring.closed.teardown ⟨0⟩).scope ⟨3⟩).tornDown = true := by
  have torn : Ring.closed.TearsDown ⟨0⟩ (Ring.closed.teardown ⟨0⟩) :=
    teardown_tearsDown scopesReachable_closed (by decide +kernel) (by decide +kernel)
  have first : Ring.closed.ListsStanding ⟨0⟩ ⟨2⟩ := by
    unfold ListsStanding Lists
    decide +kernel
  have second : Ring.closed.ListsStanding ⟨2⟩ ⟨3⟩ := by
    unfold ListsStanding Lists
    decide +kernel
  exact ⟨torn, (torn.complete (.tail (.single first) second)).1⟩

end World

end ScopeLang
