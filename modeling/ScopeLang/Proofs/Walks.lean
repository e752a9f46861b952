/-
# Walks end

Five loops follow links of scopes without keeping count: two that look for a variable
follow parents as far as variables are in sight, one that looks for an alias follows all
parents, the search of tables follows parents and goes on to the callers it meets, and an
append follows owners.  Parents and callers are older, so links to them never lead
back.  Owners can be given and taken at any time, and what keeps them from making a
ring is the walk of the append itself.

The walk follows owners that are alive, and it is as good as the links to those that are
not.  So the argument needs that what is gone stays gone (`World.Buries`).  An operation has
this if what it is given is at hand: it then upholds the world, whether it makes scopes
(`World.Makes`) or lists them, or it makes less of what is owned.

`World.Lineal` is the invariant.  What a step does to owners is said once, in `rehang`: the new
links lead from one scope, and from no owner that it is given was there a way to it.
Walks are told without a bound, as a `Path` to the last scope, or as the `Rounds` of a search.
-/
import ScopeLang.Proofs.Lineage
import ScopeLang.Proofs.SearchOrder

namespace ScopeLang

open Relation

variable {w w₁ w₂ : World} {s t o child : ScopeId} {l : List ScopeId} {made : ScopeId × World}

/-! ## Following links that make no ring -/

namespace Path

variable {next : ScopeId → Option ScopeId}

/-- A path passes all that the links lead to. -/
theorem mem_of_reach (path : Path next s l) (way : ReflTransGen (fun a b => next a = some b) s t) :
    t ∈ l := by
  induction path with
  | last done =>
    rcases ReflTransGen.cases_head way with rfl | ⟨u, link, -⟩
    · exact List.mem_singleton_self _
    · exact nomatch done.symm.trans link
  | step link rest ih =>
    rcases ReflTransGen.cases_head way with rfl | ⟨u, link', way⟩
    · exact List.mem_cons_self
    · obtain rfl := Option.some.inj (link.symm.trans link')
      exact List.mem_cons_of_mem _ (ih way)

/-- Links that make no ring are followed to the end in as many steps as there are scopes that have
links.  The scopes passed so far are distinct, and links lead on from each of them. -/
theorem follow_of_passed {n : Nat} (inside : ∀ s t, next s = some t → s.index < n)
    (ringless : ∀ s, ¬ TransGen (fun a b => next a = some b) s s) :
    ∀ {m : Nat} {s : ScopeId} {passed : List ScopeId}, passed.Nodup →
      (∀ u ∈ passed, u.index < n ∧ TransGen (fun a b => next a = some b) u s) →
      n ≤ passed.length + m → Path next s (ScopeLang.follow next m s) := by
  intro m
  induction m with
  | zero =>
    intro s passed distinct way enough
    refine .last (Option.eq_none_iff_forall_ne_some.mpr fun t link => ?_)
    -- a link from here would be one more than there can be
    have new : s ∉ passed := fun mem => ringless s (way s mem).2
    have few := length_le_of_index_lt (List.nodup_cons.mpr ⟨new, distinct⟩)
      (List.forall_mem_cons.mpr ⟨inside s t link, fun u mem => (way u mem).1⟩)
    rw [List.length_cons] at few
    omega
  | succ m ih =>
    intro s passed distinct way enough
    simp only [ScopeLang.follow]
    cases link : next s with
    | none => exact .last link
    | some t =>
      have new : s ∉ passed := fun mem => ringless s (way s mem).2
      refine .step link (ih (List.nodup_cons.mpr ⟨new, distinct⟩) (fun u mem => ?_) ?_)
      · rcases List.mem_cons.mp mem with rfl | mem
        · exact ⟨inside u t link, .single link⟩
        · exact ⟨(way u mem).1, (way u mem).2.tail link⟩
      · rw [List.length_cons]
        omega

end Path

namespace World

/-! ## Nothing comes back -/

/-- A scope that is there and alive. -/
def AtHand (w : World) (s : ScopeId) : Prop := s.In w.count ∧ w.alive s.cell = true

theorem AtHand.not_gone (hand : w.AtHand s) : ¬ w.Gone s.cell := not_gone_of_alive hand.2

/-- A later world, in which nothing that was gone is alive. -/
structure Buries (w w₁ : World) : Prop where
  count : w.count ≤ w₁.count
  closed : w₁.Closed
  dead : ∀ {c}, w.Gone c → w₁.alive c = false

namespace Buries

theorem refl (closed : w.Closed) : w.Buries w := ⟨le_refl _, closed, And.right⟩

theorem trans (h : w.Buries w₁) (i : w₁.Buries w₂) : w.Buries w₂ where
  count := le_trans h.count i.count
  closed := i.closed
  dead gone := i.dead ⟨gone.1.mono h.count, h.dead gone⟩

/-- What was there and is alive was alive. -/
theorem alive (h : w.Buries w₁) (there : o.In w.count) (now : w₁.alive o.cell = true) :
    w.alive o.cell = true :=
  alive_of_not_gone there fun gone => Bool.false_ne_true ((h.dead gone).symm.trans now)

theorem of_sealed (count : w.count ≤ w₁.count) (sealed : w₁.Sealed w.Gone)
    (present : ∀ {c}, c ∈ w₁.held → c.In w₁.count ∧ ¬ w.Gone c)
    (owned : ∀ {a c}, w.Gone a → w.Gone c → c ∈ w₁.owned a → c ∈ w.owned a) : w.Buries w₁ where
  count := count
  closed := ⟨sealed.values, sealed.home, fun mem => (present mem).1⟩
  dead := dead_of_sealed count sealed present owned

/-- What is held from outside is changed among what is alive. -/
theorem keep (closed : w.Closed) {cells : List Cell}
    (alive : ∀ c ∈ cells, c.In w.count ∧ w.alive c = true) : w.Buries { w with held := cells } := by
  have sealed : World.Sealed w.Gone { w with held := cells } :=
    ⟨And.left, (sealed_gone closed).owned, closed.values, closed.home⟩
  exact .of_sealed (le_refl w.count) sealed
    (fun mem => ⟨(alive _ mem).1, not_gone_of_alive (alive _ mem).2⟩) fun _ _ mem => mem

/-- A scope owns less than it did. -/
theorem setScope (closed : w.Closed) {x : Scope} (bindings : x.bindings = (w.scope t).bindings)
    (less : ∀ d ∈ x.cells, d ∈ (w.scope t).cells) : w.Buries (w.setScope t x) := by
  have before := sealed_gone closed
  have sealed : (w.setScope t x).Sealed w.Gone := by
    refine before.putScope (fun there found d hd => ?_) (fun b hb d hd => ?_)
    · exact before.owned (a := t.cell) there found (less d hd)
    · exact closed.values (a := t.cell) (List.mem_map_of_mem (bindings ▸ hb)) hd
  refine .of_sealed (w.count_setScope t x).ge sealed (fun mem => ?_) fun {a d} _ _ mem => ?_
  · exact ⟨(w.count_setScope t x).symm ▸ closed.held mem, not_gone_of_held mem⟩
  · obtain ⟨k, i⟩ := a
    cases k with
    | scope =>
      have has : d ∈ ((w.setScope t x).scope ⟨i⟩).cells := mem
      rw [scope_setScope] at has
      split at has
      · rename_i same
        obtain ⟨rfl, -⟩ := same
        exact less d has
      · exact has
    | _ => exact mem

theorem removeChild (closed : w.Closed) (s child : ScopeId) : w.Buries (w.removeChild s child) := by
  rw [World.removeChild]
  split
  · have unlisted : w.Buries (w.setScope s { w.scope s with
        children := (w.scope s).children.erase child }) := by
      refine setScope closed rfl fun d hd => ?_
      simp only [Scope.cells, List.mem_append, List.mem_map] at hd ⊢
      exact hd.imp_left (.imp_left (.imp_left (.imp_left fun child =>
        child.imp fun _ => And.imp_left List.mem_of_mem_erase)))
    exact unlisted.trans (setScope unlisted.closed rfl fun _ => id)
  · exact refl closed

end Buries

theorem Upholds.buries (h : w.Upholds w₁) : w.Buries w₁ :=
  .of_sealed h.count h.sealed h.present h.gone

/-! ## Making scopes -/

/-- The world after an operation whose result, a scope, is held. -/
def keeping (made : ScopeId × World) : World := made.2.hold [made.1.cell]

/-- An operation that makes a scope and upholds the world. -/
structure Makes (w : World) (made : ScopeId × World) : Prop where
  new : ¬ made.1.In w.count
  there : made.1.In made.2.count
  spreads : w.Spreads made.2
  upholds : w.Upholds made.2

theorem Makes.buries (h : w.Makes made) : w.Buries (keeping made) := by
  refine (h.upholds.hold fun c mem => ?_).buries
  obtain rfl := List.mem_singleton.mp mem
  exact ⟨h.there, fun gone => h.new gone.1⟩

theorem makes_newRoot (closed : w.Closed) (options : MatchOptions) :
    w.Makes (w.newRoot options) where
  new := Census.not_in_next w.count .scope
  there := newScope_in _ _
  spreads := w.spreads_newRoot options
  upholds := ((Upholds.refl closed).aside (.newTypes w ⟨.initial, options⟩)).newScope rfl

theorem makes_makeCallScope (closed : w.Closed) (there : s.In w.count) (kind : ScopeKind)
    (label : String) : w.Makes (w.makeCallScope s kind label) where
  new := w.derive_new s kind label (some s)
  there := w.derive_in s kind label (some s)
  spreads := spreads_makeCallScope there kind label
  upholds := (Upholds.refl closed).newScope (Scope.cells_derived _ _ _ _ _)

theorem makes_called (closed : w.Closed) {parent caller : ScopeId} (hp : parent.In w.count)
    (hc : caller.In w.count) (kind : ScopeKind) (label : String) :
    w.Makes ((w.makeCallScope parent kind label).1,
      (w.makeCallScope parent kind label).2.setCaller
        (w.makeCallScope parent kind label).1 caller) := by
  have made := makes_makeCallScope closed hp kind label
  refine ⟨made.new, ?_, spreads_called hp hc kind label, made.upholds.relink rfl rfl rfl⟩
  rw [setCaller, count_setScope]
  exact made.there

section Copies

variable (formed : w.WellFormed) (hand : w.AtHand s)

include formed hand

theorem makes_detachAs (kind : ScopeKind) (names : List String) (label : String) :
    w.Makes (w.detachAs s kind names label) where
  new := w.derive_new s kind label (some s)
  there := by
    rw [detachAs_eq, count_setScope]
    exact (w.derive_in s kind label (some s)).mono (spares_captureVariables _ s names).count
  spreads := spreads_detachAs hand.1 kind names label
  upholds := formed.upholds_detachAs hand.1 hand.2 kind names label

theorem makes_isolate (names : List String) (label : String) :
    w.Makes (w.isolate s names label) where
  new := w.derive_new s .isolated label none
  there := by
    rw [isolate_eq, count_setScope]
    exact (w.derive_in s .isolated label none).mono (spares_captureVariables _ s names).count
  spreads := spreads_isolate hand.1 names label
  upholds := formed.upholds_isolate hand.1 hand.2 names label

theorem makes_duplicateScope : w.Makes (w.duplicateScope s) := by
  have before := sealed_gone formed.toClosed
  have amends : w.Amends Nowhere Nowhere (w.duplicateScope s).2 :=
    Amends.duplicateScopeBy (fun v w => amends_copyWithin _ v w) s w
  obtain ⟨sealed, there, -⟩ := guards_deepCopy.duplicateScopeBy before hand.1 hand.not_gone
  obtain ⟨copied, -, -⟩ := guards_deepCopy.duplicateBy.mapBindings before fun b hb =>
    before.binding hand.1 hand.not_gone hb
  refine ⟨fun old => ?_, there, w.within_duplicateScope s,
    (Upholds.refl formed.toClosed).copied amends sealed⟩
  exact Census.not_in_next _ .scope (old.mono copied.count)

end Copies

/-- An instance has the functions of its class, which is at hand, and copies of the members. -/
theorem makes_instanceScope (formed : w.WellFormed) {c : ClassId}
    (hand : w.AtHand (w.classOf c).scope) : w.Makes (w.instanceScope c) := by
  have before := sealed_gone formed.toClosed
  have made : w.Upholds (w.emptyMembers c).2 :=
    (Upholds.refl formed.toClosed).newScope (Scope.cells_derived _ _ _ _ _)
  have new : ¬ (w.emptyMembers c).1.In w.count := w.derive_new _ _ _ _
  have there : (w.emptyMembers c).1.In (w.emptyMembers c).2.count := w.derive_in _ _ _ _
  have fresh := w.scope_derive (w.classOf c).scope .members (w.classOf c).name
    (some (w.classOf c).scope)
  obtain ⟨amends, sealed, present⟩ := guards_deepCopy.duplicateBy.mapBindings made.sealed
    (t := (w.scope (w.classOf c).scope).bindings.filter fun b => !b.flags.isStatic)
    fun b hb => (before.binding hand.1 hand.not_gone (Table.mem_values_filter hb)).mono made.count
  have copied : w.Upholds (w.members c).2 := made.copied amends sealed
  have same : (w.members c).2.scope (w.emptyMembers c).1 = _ := (amends.scope there id).trans fresh
  refine ⟨new, ?_, spreads_instanceScope hand.1, ?_⟩
  · show (w.emptyMembers c).1.In (w.furnished c).count
    rw [furnished, furnish, count_setScope]
    exact there.mono amends.count
  · show w.Upholds (w.furnished c)
    rw [furnished, furnish]
    refine copied.furnish new (fun d hd => ?_) present
    refine before.owned (a := (w.classOf c).scope.cell) hand.1 hand.not_gone ?_
    simp only [Scope.outline, same, Scope.cells, Scope.derived, Globals.cells_share, List.map_nil,
      List.nil_append, List.append_nil, Table.values, Table.empty, List.flatMap_nil] at hd
    have listed : d ∈ FunctionTable.cells (w.scope (w.classOf c).scope).functions := by
      simpa [ClassTable.cells, Table.values] using hd
    show d ∈ (w.scope (w.classOf c).scope).cells
    simp only [Scope.cells, List.mem_append]
    exact .inl (.inl (.inr listed))

/-! ## Owners -/

/-- The owner of a scope, if it is alive. -/
def OwnedBy (w : World) (s o : ScopeId) : Prop := w.owner? s = some o

theorem owner?_eq_some :
    w.owner? s = some o ↔ (w.scope s).owner = some o ∧ w.alive o.cell = true := bind_upgrade_eq_some

/-- A closed world in which scopes are strung and owners, which have been there, make no ring. -/
structure Lineal (w : World) : Prop where
  closed : w.Closed
  strung : w.Strung
  ownerThere : ∀ {s o}, (w.scope s).owner = some o → o.In w.count
  ringless : ∀ s, ¬ TransGen w.OwnedBy s s

namespace Lineal

theorem wellFormed (lineal : w.Lineal) : w.WellFormed := ⟨lineal.closed, lineal.strung.parentsOlder⟩

/-- An append comes to the last owner. -/
theorem path_ownerChain (lineal : w.Lineal) (s : ScopeId) : Path w.owner? s (w.ownerChain s) := by
  refine .follow_of_passed (n := w.scopes.size) (fun t o link => ?_) lineal.ringless List.nodup_nil
    (fun u mem => absurd mem List.not_mem_nil) (Nat.le_add_left _ _)
  by_contra absent
  rw [owner?_eq_some, scope_default absent] at link
  cases link.1

/-- Nothing that is there leads to a scope that is not. -/
theorem not_reaches_new (lineal : w.Lineal) (there : s.In w.count) (new : ¬ t.In w.count) :
    ¬ ReflTransGen w.OwnedBy s t := by
  intro way
  rcases ReflTransGen.cases_tail way with rfl | ⟨u, -, link⟩
  · exact new there
  · exact new (lineal.ownerThere (owner?_eq_some.mp link).1)

/-- A scope may be given owners from which no way leads to it, in a world in which nothing comes
back.  A link that is followed there has been followed before, or it is one of these. -/
theorem rehang (lineal : w.Lineal) (buries : w.Buries w₁) (strung : w₁.Strung)
    (child : ScopeId) (Y : ScopeId → Prop) (owner : ∀ {t o}, (w₁.scope t).owner = some o →
      (w.scope t).owner = some o ∨ t = child ∧ Y o)
    (there : ∀ o, Y o → o.In w₁.count) (noWayBack : ∀ o, Y o → ¬ ReflTransGen w.OwnedBy o child) :
    w₁.Lineal := by
  refine ⟨buries.closed, strung, fun {t o} link => ?_,
    acyclic_of_edges (fun t o link => ?_) lineal.ringless noWayBack⟩
  · rcases owner link with old | ⟨-, new⟩
    · exact (lineal.ownerThere old).mono buries.count
    · exact there o new
  · obtain ⟨link, alive⟩ := owner?_eq_some.mp link
    refine (owner link).imp_left fun old => owner?_eq_some.mpr ⟨old, ?_⟩
    exact buries.alive (lineal.ownerThere old) alive

/-- No scope has come to be owned. -/
theorem spread (lineal : w.Lineal) (buries : w.Buries w₁) (spreads : w.Spreads w₁) : w₁.Lineal :=
  lineal.rehang buries (spreads.strung lineal.strung) ⟨0⟩ (fun _ => False)
    (fun now => .inl (spreads.owner now)) (fun _ => False.elim) fun _ => False.elim

theorem keeping (lineal : w.Lineal) (makes : w.Makes made) : (keeping made).Lineal :=
  lineal.spread makes.buries (makes.spreads.trans (.of_scopes rfl))

/-- A scope that has been made is listed as a child. -/
theorem adopt (lineal : w.Lineal) (makes : w.Makes made) (there : s.In w.count) :
    (made.2.addChild s made.1).Lineal := by
  have upholds := makes.upholds.addChild (s := s) fun gone => makes.new gone.1
  have strung := (makes.spreads.strung lineal.strung).congr (made.2.place_addChild s made.1)
  refine lineal.rehang upholds.buries strung made.1 (· = s)
    (fun now => (owner_addChild now).imp_left makes.spreads.owner) ?_ ?_
  · rintro o rfl
    exact there.mono upholds.count
  · rintro o rfl
    exact lineal.not_reaches_new there makes.new

/-- An append goes through only if the walk has not met the child. -/
theorem appendChild (lineal : w.Lineal) (there : s.In w.count) (hand : w.AtHand child) :
    ((Action.appendChild s child).runIn w).2.Lineal := by
  rw [Action.runIn_appendChild]
  by_cases met : (w.ownerChain s).contains child = true
  · rw [if_pos met]
    exact lineal
  · rw [if_neg met]
    have upholds := (Upholds.refl lineal.closed).addChild (s := s) hand.not_gone
    have strung := lineal.strung.congr (w.place_addChild s child)
    refine lineal.rehang upholds.buries strung child (· = s) owner_addChild ?_ ?_
    · rintro o rfl
      exact there.mono upholds.count
    · rintro o rfl way
      exact met (List.contains_iff_mem.mpr ((lineal.path_ownerChain o).mem_of_reach way))

/-- A call scope is owned by its caller as long as the call lasts. -/
theorem enter (lineal : w.Lineal) {parent caller : ScopeId} (hp : parent.In w.count)
    (hc : caller.In w.count) (kind : ScopeKind) (label : String) :
    ((Action.enter caller parent kind label).runIn w).2.Lineal := by
  have makes := makes_called lineal.closed hp hc kind label
  rw [Action.enter, runIn_change_bind]
  generalize w.makeCallScope parent kind label = m at makes ⊢
  rw [runIn_modify_bind, Action.appendChild, bind_assoc, runIn_look_bind]
  split
  · exact lineal.spread makes.upholds.buries makes.spreads
  · exact lineal.adopt makes hc

end Lineal

theorem lineal_empty : World.empty.Lineal := by
  have absent : ∀ {k : CellKind} {h : Handle k}, ¬ h.In World.empty.count := fun {k h} there => by
    cases k <;> exact Nat.not_lt_zero _ there
  have none : ∀ s, World.empty.scope s = default := fun s => scope_default absent
  have nothing : ∀ c, World.empty.values c = [] := by
    rintro ⟨k, i⟩
    cases k with
    | scope =>
      simp only [values, none]
      rfl
    | _ => rfl
  have unowned : ∀ {s o}, (World.empty.scope s).owner ≠ some o := by
    intro s o link
    rw [none] at link
    cases link
  refine ⟨⟨fun hv => ?_, fun there => absurd there absent, fun mem => ?_⟩,
    ⟨fun link => ?_, fun link => ?_⟩, fun link => absurd link unowned, fun s ring => ?_⟩
  · exact absurd (nothing _ ▸ hv) List.not_mem_nil
  · exact absurd mem List.not_mem_nil
  · rw [none] at link
    cases link
  · rw [none] at link
    cases link
  · obtain ⟨o, link, -⟩ := TransGen.head'_iff.mp ring
    exact unowned (owner?_eq_some.mp link).1

/-! ## Histories -/

/-- One operation on scopes that are at hand, since nothing else can be passed to one.  A scope that
nothing owns yet is held, and what is held can be changed at any time.  Besides, anything can happen
that neither moves scopes nor brings anything back. -/
inductive Operation (w : World) : World → Prop
  | root (options : MatchOptions) : Operation w (keeping (w.newRoot options))
  | child {s : ScopeId} (hand : w.AtHand s) (kind : ScopeKind) (label : String) :
      Operation w (w.createChild s kind label).2
  | call {s : ScopeId} (hand : w.AtHand s) (kind : ScopeKind) (label : String) :
      Operation w (keeping (w.makeCallScope s kind label))
  | detach {s : ScopeId} (hand : w.AtHand s) (kind : ScopeKind) (names : List String)
      (label : String) : Operation w (keeping (w.detachAs s kind names label))
  | isolate {s : ScopeId} (hand : w.AtHand s) (names : List String) (label : String) :
      Operation w (keeping (w.isolate s names label))
  | duplicate {s : ScopeId} (hand : w.AtHand s) : Operation w (keeping (w.duplicateScope s))
  | members {c : ClassId} (hand : w.AtHand (w.classOf c).scope) :
      Operation w (keeping (w.instanceScope c))
  | enter {caller parent : ScopeId} (hc : w.AtHand caller) (hp : w.AtHand parent)
      (kind : ScopeKind) (label : String) :
      Operation w ((Action.enter caller parent kind label).runIn w).2
  | append {s child : ScopeId} (hs : w.AtHand s) (hc : w.AtHand child) :
      Operation w ((Action.appendChild s child).runIn w).2
  | remove (s child : ScopeId) : Operation w (w.removeChild s child)
  | copy {v : Value} (present : v.Present w.Gone w) :
      Operation w ((w.deepCopy v).2.hold (w.deepCopy v).1.cells)
  | keep {cells : List Cell} (alive : ∀ c ∈ cells, c.In w.count ∧ w.alive c = true) :
      Operation w { w with held := cells }
  | besides {w₁ : World} (place : ∀ s, (w₁.scope s).place = (w.scope s).place)
      (owner : ∀ s, (w₁.scope s).owner = (w.scope s).owner) (buries : w.Buries w₁) :
      Operation w w₁

section Builders

/-! The scopes of definitions and of calls come from these operations.  Those of class definitions
are detached, and those of class bodies are made like call scopes. -/

variable (hand : w.AtHand s)

include hand

theorem Operation.functionDefScope (f : FunctionDecl) :
    w.Operation (keeping (w.functionDefScope s f)) := by
  rw [World.functionDefScope]
  split
  · exact .isolate hand [] f.name
  · exact .detach hand .detached f.freeNames f.name

theorem Operation.enterFunction {f : Function} (captured : ∀ t, f.captured = some t → w.AtHand t) :
    w.Operation ((Action.enterFunction s f).runIn w).2 := by
  have home : w.AtHand (f.captured.getD s) := by
    cases link : f.captured with
    | none => exact hand
    | some t => exact captured t link
  exact .enter hand home .functionCall f.procedure.name

theorem Operation.enterMethod {i : InstanceId} (home : w.AtHand (w.inst i).scope) (name : String) :
    w.Operation ((Action.enterMethod s i name).runIn w).2 := by
  rw [Action.enterMethod, runIn_look_bind]
  exact .enter hand home .methodCall name

end Builders

/-- A copy of a value that is at hand upholds the world, and can be held. -/
theorem buries_deepCopy (closed : w.Closed) {v : Value} (present : v.Present w.Gone w) :
    w.Buries ((w.deepCopy v).2.hold (w.deepCopy v).1.cells) := by
  obtain ⟨amends, sealed, copied⟩ := guards_deepCopy v w (sealed_gone closed) present
  exact (((Upholds.refl closed).copied amends sealed).hold copied).buries

theorem Operation.lineal (op : w.Operation w₁) (lineal : w.Lineal) : w₁.Lineal := by
  have formed := lineal.wellFormed
  cases op with
  | root options => exact lineal.keeping (makes_newRoot lineal.closed options)
  | child hand kind label =>
    exact lineal.adopt (makes_makeCallScope lineal.closed hand.1 kind label) hand.1
  | call hand kind label =>
    exact lineal.keeping (makes_makeCallScope lineal.closed hand.1 kind label)
  | detach hand kind names label =>
    exact lineal.keeping (makes_detachAs formed hand kind names label)
  | isolate hand names label => exact lineal.keeping (makes_isolate formed hand names label)
  | duplicate hand => exact lineal.keeping (makes_duplicateScope formed hand)
  | members hand => exact lineal.keeping (makes_instanceScope formed hand)
  | enter hc hp kind label => exact lineal.enter hp.1 hc.1 kind label
  | append hs hc => exact lineal.appendChild hs.1 hc
  | remove s child =>
    exact lineal.spread (.removeChild lineal.closed s child) (w.spreads_removeChild s child)
  | copy present =>
    exact lineal.spread (buries_deepCopy lineal.closed present)
      ((Calm.copy _ _ w : w.Spreads _).trans (.of_scopes rfl))
  | keep alive => exact lineal.spread (.keep lineal.closed alive) (.of_scopes rfl)
  | besides place owner buries =>
    exact lineal.spread buries (.of_place (buries.count .scope) place fun now => owner _ ▸ now)

/-- A world that operations on scopes lead to, from an empty one. -/
def Operated : World → Prop := ReflTransGen Operation .empty

theorem Operated.lineal (history : w.Operated) : w.Lineal := by
  induction history with
  | refl => exact lineal_empty
  | tail _ op ih => exact op.lineal ih

/-! ## The search of tables -/

/-- The loop of a search, from where it has started from some scopes and others are queued.  In a
round it goes up from the first one of the queue, and queues the callers that it meets. -/
inductive Rounds (w : World) : List ScopeId → List ScopeId → List (List ScopeId) → Prop
  | over {done : List ScopeId} : Rounds w done [] []
  | round {s : ScopeId} {done queue chain : List ScopeId} {chains : List (List ScopeId)}
      (up : Path w.parent? s chain)
      (rest : Rounds w (done ++ [s])
        (addUnseen (done ++ [s]) queue (chain.filterMap w.caller?)) chains) :
      Rounds w done (s :: queue) (chain :: chains)

/-- No scope is queued twice, so that there are no more rounds than scopes, and the first one. -/
theorem rounds_searchChains (older : w.ParentsOlder) : ∀ {n : Nat} {done queue : List ScopeId},
    w.scopes.size + 1 ≤ done.length + n →
    done ++ queue = (s :: done.flatMap w.callersMet).eraseDups →
    w.Rounds done queue (w.searchChains n done queue) := by
  intro n
  induction n with
  | zero =>
    intro done queue fuel pending
    have few := w.length_eraseDups_le s done
    rw [← pending, List.length_append] at few
    obtain rfl : queue = [] := List.eq_nil_of_length_eq_zero (by omega)
    exact .over
  | succ n ih =>
    intro done queue fuel pending
    cases queue with
    | nil => exact .over
    | cons t queue =>
      refine .round (path_lookupChain older t) (ih ?_ ?_)
      · rw [List.length_append, List.length_singleton]
        omega
      · rw [List.flatMap_append, ← List.cons_append, List.flatMap_singleton]
        exact addUnseen_eq (by rw [← pending, List.append_assoc, List.singleton_append])

/-! ## All walks -/

/-- Parents are one level up, no links lead back, and every loop that follows them ends: those that
look for variables in sight, for aliases and in the tables of functions and classes, and the one
that an append starts with. -/
structure WalksEnd (w : World) : Prop where
  levels : ∀ s p, w.parent? s = some p → (w.scope s).level = (w.scope p).level + 1
  upward : ∀ s, ¬ TransGen (fun a b => w.parent? a = some b ∨ w.caller? a = some b) s s
  owners : ∀ s, ¬ TransGen w.OwnedBy s s
  inSight : ∀ s, Path w.variableParent? s (w.variableChain s)
  aliases : ∀ s, Path w.parent? s (w.lookupChain s)
  tables : ∀ s, ∃ chains, w.Rounds [] [s] chains ∧ w.searchOrder s = chains.flatten
  appends : ∀ s, Path w.owner? s (w.ownerChain s)

/-- Parents and callers, in any mix, are older. -/
theorem Strung.older (strung : w.Strung)
    (way : TransGen (fun a b => w.parent? a = some b ∨ w.caller? a = some b) s t) :
    t.index < s.index := by
  have link : ∀ {a b}, w.parent? a = some b ∨ w.caller? a = some b → b.index < a.index := by
    rintro a b (parent | caller)
    · exact (strung.parent (parent?_eq_some.mp parent).1).1
    · exact strung.caller (bind_upgrade_eq_some.mp caller).1
  induction way with
  | single last => exact link last
  | tail _ last ih => exact (link last).trans ih

theorem walks_end (history : w.Operated) : w.WalksEnd := by
  have lineal := history.lineal
  have older : w.ParentsOlder := lineal.strung.parentsOlder
  constructor
  case levels => exact fun s p link => (lineal.strung.parent (parent?_eq_some.mp link).1).2
  case upward => exact fun s ring => Nat.lt_irrefl _ (lineal.strung.older ring)
  case owners => exact lineal.ringless
  case inSight => exact path_variableChain older
  case aliases => exact path_lookupChain older
  case tables =>
    refine fun s => ⟨_, rounds_searchChains (s := s) older (Nat.le_add_left _ _) ?_, rfl⟩
    rw [List.flatMap_nil, List.eraseDups_cons]
    rfl
  case appends => exact lineal.path_ownerChain

/-- A root with a block, a call from the block, and a copy of the call scope that this one owns.
The block has not become a child of the call, and the call scope is gone in the end. -/
def entangled : World :=
  let w := keeping (World.empty.newRoot {})
  let w := (w.createChild ⟨0⟩ .block "block").2
  let w := ((Action.enter ⟨1⟩ ⟨0⟩ .functionCall "call").runIn w).2
  let w := ((Action.appendChild ⟨2⟩ ⟨1⟩).runIn w).2
  let w := keeping (w.duplicateScope ⟨2⟩)
  let w := ((Action.appendChild ⟨2⟩ ⟨3⟩).runIn w).2
  w.removeChild ⟨1⟩ ⟨2⟩

theorem walks_end_of_entangled : entangled.Operated ∧ entangled.WalksEnd := by
  have rooted : Operated _ := .single (.root {})
  have block := rooted.tail (.child (s := ⟨0⟩) ⟨by decide +kernel, by decide +kernel⟩ .block "block")
  have called := block.tail (@Operation.enter _ ⟨1⟩ ⟨0⟩ ⟨by decide +kernel, by decide +kernel⟩
    ⟨by decide +kernel, by decide +kernel⟩ .functionCall "call")
  have refused := called.tail (@Operation.append _ ⟨2⟩ ⟨1⟩ ⟨by decide +kernel, by decide +kernel⟩
    ⟨by decide +kernel, by decide +kernel⟩)
  have copied := refused.tail (.duplicate (s := ⟨2⟩) ⟨by decide +kernel, by decide +kernel⟩)
  have owned := copied.tail (@Operation.append _ ⟨2⟩ ⟨3⟩ ⟨by decide +kernel, by decide +kernel⟩
    ⟨by decide +kernel, by decide +kernel⟩)
  have history : entangled.Operated := owned.tail (.remove ⟨1⟩ ⟨2⟩)
  exact ⟨history, walks_end history⟩

end World

end ScopeLang
