/-
# Where scopes hang

A scope has a level, and links to a parent and to a caller.  These are given to it when it
is made, from scopes that are there by then, and no operation on scopes changes them afterwards.
So a scope is newer than those it hangs from, and a parent is exactly one level above
(`World.Strung`).  A copy of a scope has the level and the parent of what it is a copy
of, which are right for it for the same reason, and it has no caller.

An owner is another thing: it is given to a scope later on, and more than once.  What is
shown here of owners is only that nothing but an append makes a scope owned.  Both are said by one
relation between worlds (`World.Spreads`), which lets scopes be copied, so that it holds
of everything that is made of copies of values.
-/
import ScopeLang.Proofs.Children
import ScopeLang.Proofs.Paths

namespace ScopeLang

variable {w w₁ w₂ : World} {s t p c o : ScopeId} {x : Scope}

/-- The level of a scope, its parent and its caller. -/
def Scope.place (x : Scope) : Nat × Option ScopeId × Option ScopeId :=
  (x.level, x.parent, x.caller)

namespace World

/-- Scopes are newer than their parents and their callers, and one level below their parents. -/
structure Strung (w : World) : Prop where
  parent : ∀ {s p}, (w.scope s).parent = some p →
    p.index < s.index ∧ (w.scope s).level = (w.scope p).level + 1
  caller : ∀ {s c}, (w.scope s).caller = some c → c.index < s.index

/-- Only scopes that are there have parents. -/
theorem in_of_parent (link : (w.scope s).parent = some p) : s.In w.count := by
  by_contra absent
  rw [scope_default absent] at link
  cases link

theorem Strung.parent_in (strung : w.Strung) (link : (w.scope s).parent = some p) : p.In w.count :=
  (strung.parent link).1.trans (in_of_parent link)

theorem Strung.parentsOlder (strung : w.Strung) : w.ParentsOlder :=
  fun link => (strung.parent link).1

theorem Strung.congr (strung : w.Strung) (place : ∀ s, (w₁.scope s).place = (w.scope s).place) :
    w₁.Strung where
  parent {s p} link := by
    obtain ⟨level, parent, -⟩ : _ ∧ _ ∧ _ := by simpa only [Scope.place, Prod.mk.injEq] using place s
    obtain ⟨level', -⟩ : _ ∧ _ ∧ _ := by simpa only [Scope.place, Prod.mk.injEq] using place p
    rw [level, level']
    exact strung.parent (parent ▸ link)
  caller {s c} link := by
    obtain ⟨-, -, caller⟩ : _ ∧ _ ∧ _ := by simpa only [Scope.place, Prod.mk.injEq] using place s
    exact strung.caller (caller ▸ link)

/-- A later world, in which the scopes that were there hang where they did, new ones are strung to
them, and no scope has come to be owned. -/
structure Spreads (w w₁ : World) : Prop where
  count : w.count .scope ≤ w₁.count .scope
  place : ∀ {s : ScopeId}, s.In w.count → (w₁.scope s).place = (w.scope s).place
  owner : ∀ {s o}, (w₁.scope s).owner = some o → (w.scope s).owner = some o
  strung : w.Strung → w₁.Strung

namespace Spreads

theorem refl (w : World) : w.Spreads w := ⟨le_rfl, fun _ => rfl, id, id⟩

theorem trans (h : w.Spreads w₁) (i : w₁.Spreads w₂) : w.Spreads w₂ where
  count := h.count.trans i.count
  place there := (i.place (there.trans_le h.count)).trans (h.place there)
  owner now := h.owner (i.owner now)
  strung := i.strung ∘ h.strung

/-- All scopes hang where they did. -/
theorem of_place (count : w.count .scope ≤ w₁.count .scope)
    (place : ∀ s, (w₁.scope s).place = (w.scope s).place)
    (owner : ∀ {s o}, (w₁.scope s).owner = some o → (w.scope s).owner = some o) : w.Spreads w₁ :=
  ⟨count, fun _ => place _, owner, fun strung => strung.congr place⟩

theorem of_scopes (same : w₁.scopes = w.scopes) : w.Spreads w₁ := by
  have scope : ∀ s, w₁.scope s = w.scope s := fun s => by rw [World.scope, same, World.scope]
  exact .of_place (congrArg Store.size same).ge (fun s => by rw [scope]) fun now => scope _ ▸ now

/-- A new scope that is strung to those that are there. -/
theorem newScope (h : w.Spreads w₁) (owner : x.owner = none)
    (parent : w.Strung → ∀ p, x.parent = some p →
      p.In w₁.count ∧ x.level = (w₁.scope p).level + 1)
    (caller : ∀ c, x.caller = some c → c.In w₁.count) : w.Spreads (w₁.newScope x).2 := by
  have old : ∀ {t : ScopeId}, t.In w₁.count → (w₁.newScope x).2.scope t = w₁.scope t := by
    intro t there
    rw [scope_newScope, if_neg (Census.ne_next there)]
  have grown : w₁.count .scope ≤ (w₁.newScope x).2.count .scope := by
    rw [count_newScope]
    exact Census.le_grow _ _ _
  refine ⟨h.count.trans grown, fun there => ?_, fun {s o} now => ?_, fun strung => ⟨?_, ?_⟩⟩
  · rw [old (there.trans_le h.count)]
    exact h.place there
  · rw [scope_newScope] at now
    split at now
    · exact absurd (owner.symm.trans now) nofun
    · exact h.owner now
  · intro s p link
    have strung₁ := h.strung strung
    rw [scope_newScope] at link ⊢
    split at link
    · rename_i new
      obtain ⟨there, level⟩ := parent strung p link
      rw [if_pos new, old there]
      exact ⟨there.trans_eq new.symm, level⟩
    · rename_i ne
      rw [if_neg ne, old (strung₁.parent_in link)]
      exact strung₁.parent link
  · intro s c link
    rw [scope_newScope] at link
    split at link
    · rename_i new
      exact Nat.lt_of_lt_of_eq (caller c link) new.symm
    · exact (h.strung strung).caller link

/-- A scope stays where it hangs, except that a new one may be given a caller. -/
theorem setScope (h : w.Spreads w₁) (level : x.level = (w₁.scope t).level)
    (parent : x.parent = (w₁.scope t).parent)
    (caller : x.caller = (w₁.scope t).caller ∨
      ¬ t.In w.count ∧ ∃ c, x.caller = some c ∧ c.index < t.index)
    (owner : ∀ o, x.owner = some o → (w₁.scope t).owner = some o) :
    w.Spreads (w₁.setScope t x) := by
  have levels : ∀ s, ((w₁.setScope t x).scope s).level = (w₁.scope s).level := by
    intro s
    rw [scope_setScope]
    split
    · rename_i same
      rw [same.1, level]
    · rfl
  refine ⟨(w₁.count_setScope t x).symm ▸ h.count, fun {s} there => ?_, fun {s o} now => ?_,
    fun strung => ⟨?_, ?_⟩⟩
  · rw [scope_setScope]
    split
    · rename_i same
      obtain ⟨rfl, -⟩ := same
      have called : x.caller = (w₁.scope s).caller := caller.resolve_right fun new => new.1 there
      rw [Scope.place, level, parent, called]
      exact h.place there
    · exact h.place there
  · rw [scope_setScope] at now
    split at now
    · rename_i same
      exact h.owner (same.1 ▸ owner o now)
    · exact h.owner now
  · intro s p link
    rw [levels, levels]
    rw [scope_setScope] at link
    split at link
    · rename_i same
      rw [same.1]
      exact (h.strung strung).parent (parent ▸ link)
    · exact (h.strung strung).parent link
  · intro s c link
    rw [scope_setScope] at link
    split at link
    · rename_i same
      rw [same.1]
      rcases caller with old | ⟨-, c', new, older⟩
      · exact (h.strung strung).caller (old ▸ link)
      · obtain rfl := Option.some.inj (new.symm.trans link)
        exact older
    · exact (h.strung strung).caller link

/-- A scope is given other contents. -/
theorem fill (h : w.Spreads w₁) (place : x.place = (w₁.scope t).place)
    (owner : ∀ o, x.owner = some o → (w₁.scope t).owner = some o) :
    w.Spreads (w₁.setScope t x) := by
  obtain ⟨level, parent, caller⟩ : _ ∧ _ ∧ _ := by
    simpa only [Scope.place, Prod.mk.injEq] using place
  exact h.setScope level parent (.inl caller) owner

/-- A scope derived from one that is there. -/
theorem derive (h : w.Spreads w₁) (there : s.In w₁.count) (kind : ScopeKind) (label : String)
    {parent : Option ScopeId} (known : ∀ p, parent = some p → p = s) :
    w.Spreads (w₁.derive s kind label parent).2 :=
  h.newScope rfl (fun _ p link => (known p link).symm ▸ ⟨there, rfl⟩) nofun

end Spreads

/-- A copy of a scope hangs where that does. -/
instance : Tame Spreads where
  refl := .refl
  trans := .trans
  keeps kept := .of_scopes kept.scopes
  twin {w w₁ s bindings} h := by
    refine h.newScope rfl (fun strung p link => ?_) nofun
    have there := strung.parent_in link
    obtain ⟨level, -⟩ : _ ∧ _ ∧ _ := by
      simpa only [Scope.place, Prod.mk.injEq] using h.place there
    exact ⟨there.trans_le h.count, level ▸ (strung.parent link).2⟩

/-! ## What operations do -/

theorem spreads_newRoot (w : World) (options : MatchOptions) :
    w.Spreads (w.newRoot options).2 := by
  have typed : w.Spreads (w.newTypes ⟨.initial, options⟩).2 := .of_scopes rfl
  exact typed.newScope rfl (fun _ p link => nomatch link) fun c link => nomatch link

theorem spreads_detachAs (there : s.In w.count) (kind : ScopeKind) (names : List String)
    (label : String) : w.Spreads (w.detachAs s kind names label).2 := by
  have derived : w.Spreads (w.derive s kind label (some s)).2 :=
    (Spreads.refl w).derive there kind label fun p link => (Option.some.inj link).symm
  have captured := derived.trans (within_captureVariables _ s names)
  rw [detachAs_eq]
  exact captured.fill rfl fun _ => id

theorem spreads_isolate (there : s.In w.count) (names : List String) (label : String) :
    w.Spreads (w.isolate s names label).2 := by
  have derived : w.Spreads (w.derive s .isolated label none).2 :=
    (Spreads.refl w).derive there .isolated label nofun
  have captured := derived.trans (within_captureVariables _ s names)
  rw [isolate_eq]
  exact captured.fill rfl fun _ => id

theorem spreads_instanceScope {c : ClassId} (there : (w.classOf c).scope.In w.count) :
    w.Spreads (w.instanceScope c).2 := by
  have made : w.Spreads (w.emptyMembers c).2 :=
    (Spreads.refl w).derive there .members _ fun p link => (Option.some.inj link).symm
  have copied : (w.emptyMembers c).2.Spreads (w.members c).2 :=
    within_mapBindings (fun v w => w.within_duplicate v) _ _
  exact (made.trans copied).fill rfl fun _ => id

theorem spreads_makeCallScope (there : s.In w.count) (kind : ScopeKind) (label : String) :
    w.Spreads (w.makeCallScope s kind label).2 :=
  (Spreads.refl w).derive there kind label fun _ link => (Option.some.inj link).symm

/-- A call scope is newer than its caller. -/
theorem spreads_called (parent : p.In w.count) (caller : c.In w.count) (kind : ScopeKind)
    (label : String) :
    w.Spreads ((w.makeCallScope p kind label).2.setCaller (w.makeCallScope p kind label).1 c) := by
  have new : ¬ (w.makeCallScope p kind label).1.In w.count := w.derive_new p kind label (some p)
  exact (spreads_makeCallScope parent kind label).setScope rfl rfl
    (.inr ⟨new, c, rfl, Nat.lt_of_lt_of_le caller (Nat.le_of_not_lt new)⟩) fun _ => id

theorem spreads_removeChild (w : World) (s child : ScopeId) : w.Spreads (w.removeChild s child) := by
  rw [removeChild]
  split
  · have unlisted : w.Spreads (w.setScope s { w.scope s with
        children := (w.scope s).children.erase child }) := (Spreads.refl w).fill rfl fun _ => id
    exact unlisted.fill rfl (by simp)
  · exact .refl w

/-! ## Appends -/

/-- An append leaves scopes where they hang. -/
theorem place_addChild (w : World) (s child t : ScopeId) :
    ((w.addChild s child).scope t).place = (w.scope t).place := by
  simp only [addChild, scope_setScope]
  grind [Scope.place]

/-- It makes one scope the owner of the other, and changes no other owner. -/
theorem owner_addChild {child : ScopeId} (now : ((w.addChild s child).scope t).owner = some o) :
    (w.scope t).owner = some o ∨ t = child ∧ o = s := by
  simp only [addChild, scope_setScope] at now
  grind

end World

end ScopeLang
