/-
# Variables share nothing

In a program that declares nothing as mutable, whatever is stored in a variable is
copied first.  So the cells that variables lead to are kept apart by every step,
although the values that expressions come to do share cells, with variables and
with each other: a step that stores puts a fresh tree into one cell, and a step
that does not leaves all the slots of variables alone.

In a reached world no two variables share a container or an instance, nothing
leads back to itself, and copies and texts of variables are complete.
-/
import Mathlib.Data.List.Flatten
import ScopeLang.Host.Kit
import ScopeLang.Proofs.Apart
import ScopeLang.Proofs.Depths
import ScopeLang.Proofs.Sessions

namespace ScopeLang

open Relation

variable {D : Dialect} {w w₁ : World} {c : Cell} {kept : Cell → Prop}

/-! ## Steps on scopes -/

/-- The cells that variables lead to can be kept apart. -/
def World.Unshared (w : World) : Prop := ∃ kept, w.Apart kept

namespace World.Unshared

theorem derive (h : w.Unshared) (sound : Sound D w) (s : ScopeId) (kind : ScopeKind)
    (label : String) (parent : Option ScopeId) (older : ∀ p, parent = some p → p.In w.count) :
    (w.derive s kind label parent).2.Unshared := by
  obtain ⟨kept, apart⟩ := h
  have derived := sound.derive s kind label parent older
  rw [World.derive_eq] at derived ⊢
  exact ⟨_, apart.sprouts sound ((Sprouts.refl sound).newScope derived)⟩

/-- A scope is given copied variables and any tables. -/
theorem fill (h : w.Unshared) (sound : Sound D w) {t : Table Binding}
    (s : Sprouts D w (bindingContents t) w₁) {u : ScopeId} (there : u.In w.count) {x : Scope}
    (bindings : x.bindings = t) : (w₁.setScope u x).Unshared := by
  obtain ⟨kept, apart⟩ := h
  have writes := writes_setScope (x := x) (there.mono s.spares.count)
  refine ⟨_, apart.put sound s writes there ?_⟩
  rw [bindings]
  exact (List.sublist_append_right _ _).subperm

theorem store (h : w.Unshared) (sound : Sound D w) (fixed : ¬ D.sharing) {t : ScopeId}
    (there : t.In w.count) (name : String) {b : Binding} {v : Value}
    (flags : b.flags.isMutable = true → D.sharing) (ok : v.Ok D w.count) :
    (w.store t name b v).Unshared := by
  obtain ⟨kept, apart⟩ := h
  have s := prepare_sprouts fixed apart.acyclic sound flags ok
  have writes := writes_setScope (there.mono s.spares.count)
    (x := { (b.prepare v w).2.scope t with
      bindings := ((b.prepare v w).2.scope t).bindings.insert name
        { b with value := (b.prepare v w).1 } })
  refine ⟨_, apart.put sound s writes there ?_⟩
  rw [World.slots_scope, s.spares.scope there]
  exact bindingContents_insert _ name _

/-- A new scope is given copies of variables in sight, and any tables. -/
theorem capture (h : w.Unshared) (sound : Sound D w) (fixed : ¬ D.sharing) {s : ScopeId}
    {kind : ScopeKind} {label : String} {parent : Option ScopeId} (names : List String)
    (older : ∀ p, parent = some p → p.In w.count) {x : Scope}
    (bindings : x.bindings =
      ((w.derive s kind label parent).2.captureVariables s names).1) :
    (((w.derive s kind label parent).2.captureVariables s names).2.setScope
      (w.derive s kind label parent).1 x).Unshared := by
  have derived := sound.derive s kind label parent older
  have first := h.derive sound s kind label parent older
  obtain ⟨_, apart⟩ := first
  have copies := captureVariables_sprouts fixed apart.acyclic derived s names
  exact fill ⟨_, apart⟩ derived copies (w.derive_in s kind label parent) bindings

theorem makeInstance (h : w.Unshared) (sound : Sound D w) (fixed : ¬ D.sharing) {c : ClassId}
    (hc : c.In w.count) : (w.makeInstance c).2.Unshared := by
  have emptied := sound.emptyMembers hc
  have first : (w.emptyMembers c).2.Unshared :=
    h.derive sound _ _ _ _ fun _ hp => Option.some.inj hp ▸ sound.classScope hc
  have members : Sprouts D (w.emptyMembers c).2 (bindingContents (w.members c).1)
      (w.members c).2 := by
    obtain ⟨_, apart⟩ := first
    refine members_sprouts fixed apart.acyclic emptied fun b hb => ?_
    exact (sound.binding (Table.mem_values_filter hb)).mono (w.grows_derive _ _ _ _).count
  have furnished : (w.furnished c).Unshared :=
    first.fill emptied members (w.derive_in _ _ _ _) rfl
  obtain ⟨kept, apart⟩ := furnished
  rw [World.makeInstance_eq]
  refine ⟨kept, apart.alloc (sound.furnished hc).1 (World.writes_newInstance _ _)
    (World.newInstance_new _ _) nofun fun d hd => ?_⟩
  rw [List.mem_singleton.mp hd]
  exact World.emptyMembers_in sound hc

theorem setPool (h : w.Unshared) (s : ScopeId) (pool : TypePool) : (w.setPool s pool).Unshared := by
  obtain ⟨kept, apart⟩ := h
  exact ⟨kept, apart.of_same (w.count_setTypeContext _ _) fun _ => slots_congr rfl fun _ => rfl⟩

theorem addClass (h : w.Unshared) (sound : Sound D w) {home : ScopeId} {name accessor : String}
    {captured : Option ScopeId} (ht : home.In w.count) :
    (w.addClass home name accessor captured).2.Unshared := by
  have older : ∀ p, some home = some p → p.In w.count := fun _ hp => Option.some.inj hp ▸ ht
  have derived := sound.derive home .classScope name (some home) older
  have first := h.derive sound home .classScope name (some home) older
  rw [World.addClass_eq]
  generalize w.derive home .classScope name (some home) = d at derived first ⊢
  have pooled := derived.setPool home ((d.2.poolOf home).declare name).2
  obtain ⟨kept, apart⟩ := first.setPool home ((d.2.poolOf home).declare name).2
  exact ⟨kept, apart.alloc pooled (World.writes_newClass _ _) (World.newClass_new _ _) nofun
    fun x hx => absurd hx List.not_mem_nil⟩

theorem registerFunction (h : w.Unshared) (s : ScopeId) (name : String) (o : Overload) :
    (w.registerFunction s name o).Unshared := by
  obtain ⟨kept, apart⟩ := h
  refine ⟨kept, ?_⟩
  simp only [World.registerFunction]
  split
  · exact apart.setScope rfl
  · exact apart.setScope rfl

theorem setClassTable (h : w.Unshared) (s : ScopeId) (classes : ClassTable) :
    (w.setClassTable s classes).Unshared := by
  obtain ⟨kept, apart⟩ := h
  refine ⟨kept, ?_⟩
  simp only [World.setClassTable]
  split
  · exact apart.setScope rfl
  · exact apart.setScope rfl

end World.Unshared

/-! ## Steps on containers -/

/-- The contents of values that may be put into a container. -/
theorem contents_in {vs : List Value} {n : Census} (ok : ∀ v ∈ vs, v.Ok D n) :
    ∀ x ∈ vs.flatMap Value.contents, x.In n := by
  intro x hx
  obtain ⟨v, hv, mem⟩ := List.mem_flatMap.mp hx
  exact (ok v hv).cells x (Value.mem_cells_of_contents mem).1

theorem contents_subperm {xs ys : List Value} (sub : xs.Subperm ys) :
    (xs.flatMap Value.contents).Subperm (ys.flatMap Value.contents) := by
  obtain ⟨zs, perm, sublist⟩ := sub
  exact ⟨_, perm.flatMap_right _, sublist.flatMap _⟩

/-- An element that is put into a set adds its contents at most. -/
theorem contents_insertElement {equal : Value → Value → Bool} {xs : List Value} {x : Value} :
    ((insertElement equal xs x).flatMap Value.contents).Subperm
      (xs.flatMap Value.contents ++ x.contents) := by
  simp only [insertElement]
  split
  · exact (List.sublist_append_left _ _).subperm
  · rw [List.flatMap_append, List.flatMap_singleton]

/-- An entry that is put into a dictionary adds the contents of its key and its value at most. -/
theorem contents_insertEntry {equal : Value → Value → Bool} {key value : Value}
    (es : List (Value × Value)) :
    ((insertEntry equal key value es).flatMap fun e => e.1.contents ++ e.2.contents).Subperm
      ((es.flatMap fun e => e.1.contents ++ e.2.contents) ++ (key.contents ++ value.contents)) := by
  rw [List.subperm_iff_count]
  intro c
  induction es with
  | nil => simp [insertEntry]
  | cons e rest ih =>
    obtain ⟨k, v⟩ := e
    simp only [insertEntry, List.flatMap_cons, List.count_append] at ih ⊢
    split <;> simp only [List.flatMap_cons, List.count_append] <;> omega

theorem Contents.unshared (h : Contents D w w₁) (sound : Sound D w) (fixed : ¬ D.sharing)
    (unshared : w.Unshared) : w₁.Unshared := by
  have same : w.Unshared := unshared
  obtain ⟨kept, apart⟩ := unshared
  have acyclic := apart.acyclic
  cases h with
  | held => exact ⟨kept, apart.of_same rfl fun _ => World.slots_congr rfl fun _ => rfl⟩
  | newItems ok =>
    exact ⟨kept, apart.alloc sound (w.writes_newItems _) (w.newItems_new _) nofun (contents_in ok)⟩
  | newSet ok =>
    refine ⟨kept, apart.alloc sound (w.writes_newElements _) (w.newElements_new _) nofun
      (contents_in (D := D) fun v hv => ?_)⟩
    rcases mem_foldl_insertElement _ hv with hv | hv
    · exact absurd hv List.not_mem_nil
    · exact ok v hv
  | newDict ok =>
    refine ⟨kept, apart.alloc sound (w.writes_newEntries _) (w.newEntries_new _) nofun ?_⟩
    rw [← World.contents_entries]
    refine contents_in (D := D) fun v hv => ?_
    rcases mem_entryValues_foldl _ hv with hv | hv
    · exact absurd hv List.not_mem_nil
    · exact ok v hv
  | copy ok => exact ⟨_, apart.sprouts sound (deepCopy_sprouts fixed acyclic sound ok)⟩
  | @dropItems h xs sub =>
    by_cases there : h.In w.count
    · refine ⟨_, apart.put sound (.refl sound) (World.writes_setItems there) there ?_⟩
      rw [List.append_nil, World.slots_list]
      exact (sub.flatMap _).subperm
    · rw [World.setItems_absent there]
      exact same
  | @storeItem h v xs there ok sub =>
    have s := duplicate_sprouts fixed acyclic sound ok
    refine ⟨_, apart.put sound s (World.writes_setItems (there.mono s.spares.count)) there ?_⟩
    refine (contents_subperm sub).trans ?_
    rw [List.flatMap_cons, World.slots_list]
    exact List.perm_append_comm.subperm
  | @dropElements h xs sub =>
    by_cases there : h.In w.count
    · refine ⟨_, apart.put sound (.refl sound) (World.writes_setElements there) there ?_⟩
      rw [List.append_nil, World.slots_set]
      exact (sub.flatMap _).subperm
    · rw [World.setElements_absent there]
      exact same
  | @storeElement h v there ok =>
    have s := duplicate_sprouts fixed acyclic sound ok
    refine ⟨_, apart.put sound s (World.writes_setElements (there.mono s.spares.count)) there ?_⟩
    rw [World.slots_set, s.spares.elements there]
    exact contents_insertElement
  | @dropEntries h es sub =>
    by_cases there : h.In w.count
    · refine ⟨_, apart.put sound (.refl sound) (World.writes_setEntries there) there ?_⟩
      rw [List.append_nil, World.slots_dict]
      exact (sub.flatMap _).subperm
    · rw [World.setEntries_absent there]
      exact same
  | @storeEntry h key value k v there ok₁ ok₂ e₁ e₂ =>
    have first := duplicate_sprouts fixed acyclic sound ok₁
    rw [e₁] at first
    have second := duplicate_sprouts fixed (first.acyclic acyclic) first.sound
      (ok₂.mono first.spares.count)
    rw [e₂] at second
    have both := first.trans second
    refine ⟨_, apart.put sound both (World.writes_setEntries (there.mono both.spares.count)) there ?_⟩
    rw [World.slots_dict, both.spares.entries there]
    exact contents_insertEntry _

/-! ## Steps -/

variable {s : ScopeId}

theorem Step.unshared (h : Step D s w w₁) (sound : Sound D w) (hs : s.In w.count)
    (fixed : ¬ D.sharing) (alone : ∀ body, ¬ D.natives body) (quiet : ¬ D.hostWrites)
    (unshared : w.Unshared) : w₁.Unshared := by
  have same : w.Unshared := unshared
  obtain ⟨kept, apart⟩ := unshared
  have empty : ∀ x ∈ ([] : List Cell), x.In w.count := fun _ hx => absurd hx List.not_mem_nil
  cases h with
  | contents h => exact h.unshared sound fixed same
  | native body => exact absurd body (alone _)
  | hostWrite _ _ writes => exact absurd writes quiet
  | overloads =>
    exact ⟨kept, apart.alloc sound (w.writes_newOverloads _) (w.newOverloads_new _) nofun empty⟩
  | pool t => exact same.setPool t _
  | addAlias => exact ⟨kept, apart.setScope rfl⟩
  | relink => exact ⟨kept, apart.setScope rfl⟩
  | declare may _ flags ok _ => exact same.store sound fixed (may.there sound hs) _ flags ok
  | assign may found _ ok _ =>
    have flags := (sound.scope _).flags _ (World.mem_values_of_localBinding? found)
    exact same.store sound fixed (may.there sound hs) _ flags ok
  | detach names label _ =>
    exact same.capture sound fixed names (fun _ hp => Option.some.inj hp ▸ hs) rfl
  | isolate names label =>
    have older : ∀ p : ScopeId, none = some p → p.In w.count := nofun
    exact same.capture sound fixed names older rfl
  | newFunction =>
    exact ⟨kept, apart.alloc sound (w.writes_newFunction _) (w.newFunction_new _) nofun empty⟩
  | newMethod =>
    exact ⟨kept, apart.alloc sound (w.writes_newMethod _) (w.newMethod_new _) nofun empty⟩
  | newClass name accessor home _ => exact same.addClass sound home
  | register name => exact same.registerFunction _ name _
  | registerClass name => exact same.setClassTable _ _
  | makeInstance hc => exact same.makeInstance sound fixed hc

theorem unshared_invariant (fixed : ¬ D.sharing) (alone : ∀ body, ¬ D.natives body)
    (quiet : ¬ D.hostWrites) : Invariant D fun _ _ w => w.Unshared := by
  refine .of_world ?_ ?_
  · intro f calls w w' ready unshared h
    exact h.unshared ready.sound ready.frame.scope fixed alone quiet unshared
  · intro f calls w f' calls' w' ready unshared h
    cases h with
    | scope label _ =>
      exact unshared.derive ready.sound _ _ _ _ fun _ hp => Option.some.inj hp ▸ ready.frame.scope
    | classBody _ _ home => exact unshared.addClass ready.sound home
    | invocation => exact unshared
    | receiver => exact unshared

theorem unshared_start (config : Config) (host : Host) :
    (Session.start config host).world.Unshared := by
  have slots : ∀ {c : Cell}, c.In (Session.start config host).world.count →
      (Session.start config host).world.slots c = [] := by
    rintro ⟨k, i⟩ there
    by_cases object : k = .object
    · subst object
      exact absurd there (Session.vacant_start config host (h := ⟨i⟩) nofun nofun)
    · rw [World.slots_of_values object, Session.values_start]
      rfl
  refine ⟨fun c => c.In (Session.start config host).world.count, ?_⟩
  constructor
  case there => exact id
  case scope => exact id
  case closed =>
    intro a b ka mem
    rw [slots ka] at mem
    exact absurd mem List.not_mem_nil
  case nodup =>
    intro a ka
    rw [slots ka]
    exact .nil
  case single =>
    intro a b d ka _ ha _
    rw [slots ka] at ha
    exact absurd ha List.not_mem_nil
  case acyclic =>
    intro c ring
    obtain ⟨_, ⟨there, mem⟩, -⟩ := TransGen.head'_iff.mp ring
    rw [slots there] at mem
    exact absurd mem List.not_mem_nil

/-! ## Reached worlds -/

/-- The cells that variables lead to: the scopes, and what sits in the slots of such cells. -/
inductive World.Stored (w : World) : Cell → Prop
  | scope {s : ScopeId} : s.In w.count → Stored w s.cell
  | slot {a b : Cell} : Stored w a → b ∈ w.slots a → Stored w b

/-- A cell that a value is, or holds at some depth. -/
def Value.Contains (w : World) (v : Value) (c : Cell) : Prop :=
  ∃ a ∈ v.contents, ReflTransGen w.Holds a c

/-- Every container and every instance has one place among the slots that variables lead to. -/
structure World.ValueSemantics (w : World) : Prop where
  /-- No cell sits twice in the slots of a cell. -/
  once : ∀ {a}, w.Stored a → (w.slots a).Nodup
  /-- No cell sits in slots of two cells. -/
  alone : ∀ {a b d}, w.Stored a → w.Stored b → d ∈ w.slots a → d ∈ w.slots b → a = b
  /-- No two variables have the same container or instance. -/
  distinct : ∀ {s t x y a b d}, w.localBinding? s x = some a → w.localBinding? t y = some b →
    d ∈ a.value.contents → d ∈ b.value.contents → s = t ∧ x = y
  /-- Nor do they share anything deeper, unless one is a member of an instance in the other. -/
  disjoint : ∀ {s t x y a b d}, w.localBinding? s x = some a → w.localBinding? t y = some b →
    a.value.Contains w d → b.value.Contains w d →
      s = t ∧ x = y ∨ a.value.Contains w t.cell ∨ b.value.Contains w s.cell
  /-- Nothing leads back to itself. -/
  acyclic : ∀ {a}, w.Stored a → ¬ TransGen w.Holds a a
  /-- A copy of the value of a variable is complete, however deep it may go. -/
  copy : ∀ {s x b n}, w.localBinding? s x = some b → w.size < n →
    World.copyWithin n b.value w = w.deepCopy b.value
  /-- So is its text. -/
  text : ∀ {s x b n}, w.localBinding? s x = some b → w.size < n →
    (w.hold b.value.cells).textWithin n b.value = w.text b.value

/-- Variables of one table that have the same container or instance have the same name. -/
theorem name_eq_of_contents {t : Table Binding} {x y : String} {a b : Binding}
    (nodup : (bindingContents t).Nodup) (hx : t.get? x = some a) (hy : t.get? y = some b)
    (ha : c ∈ a.value.contents) (hb : c ∈ b.value.contents) : x = y := by
  let contents : String × Binding → List Cell := fun e => e.2.value.contents
  have apart : t.entries.Pairwise (Function.onFun List.Disjoint contents) := by
    rw [bindingContents, Table.values, List.flatMap_map, List.nodup_flatMap] at nodup
    exact nodup.2
  have symm : Std.Symm (Function.onFun List.Disjoint contents) := ⟨fun _ _ h _ hd hd' => h hd' hd⟩
  by_contra ne
  have disjoint := apart.forall (Table.mem_entries_of_get? hx) (Table.mem_entries_of_get? hy)
    fun same => ne (congrArg Prod.fst same)
  exact disjoint ha hb

namespace World.Apart

theorem stored (h : w.Apart kept) {a : Cell} (stored : w.Stored a) : kept a := by
  induction stored with
  | scope there => exact h.scope there
  | slot _ mem ih => exact h.closed ih mem

theorem below (h : w.Apart kept) {a b : Cell} (ka : kept a) (way : ReflTransGen w.Holds a b) :
    kept b := by
  induction way with
  | refl => exact ka
  | tail _ last ih => exact h.closed ih last.2

/-- Of two ways down to the same cell one is the end of the other. -/
theorem comparable (h : w.Apart kept) {a b d : Cell} (ka : kept a) (kb : kept b)
    (fromA : ReflTransGen w.Holds a d) (fromB : ReflTransGen w.Holds b d) :
    ReflTransGen w.Holds a b ∨ ReflTransGen w.Holds b a := by
  induction fromA with
  | refl => exact .inr fromB
  | @tail m d toM last ih =>
    rcases ReflTransGen.cases_tail fromB with rfl | ⟨m', toM', last'⟩
    · exact .inl (toM.tail last)
    · have same : m = m' := h.single (h.below ka toM) (h.below kb toM') last.2 last'.2
      exact ih (same ▸ toM')

section Variables

variable {s t : ScopeId} {x y : String} {a b : Binding} {d : Cell}

/-- What a variable has sits in a slot of its scope, which is kept. -/
theorem variable_ (h : w.Apart kept) (hx : w.localBinding? s x = some a)
    (hd : d ∈ a.value.contents) : kept s.cell ∧ d ∈ w.slots s.cell := by
  have there : s.In w.count := by
    by_contra absent
    rw [World.localBinding?, World.scope_default absent] at hx
    exact absurd hx nofun
  refine ⟨h.scope there, ?_⟩
  rw [World.slots_scope]
  exact List.mem_flatMap.mpr ⟨a, World.mem_values_of_localBinding? hx, hd⟩

theorem distinct (h : w.Apart kept) (hx : w.localBinding? s x = some a)
    (hy : w.localBinding? t y = some b) (ha : d ∈ a.value.contents) (hb : d ∈ b.value.contents) :
    s = t ∧ x = y := by
  obtain ⟨ks, memS⟩ := h.variable_ hx ha
  obtain ⟨kt, memT⟩ := h.variable_ hy hb
  obtain rfl : s = t := congrArg (fun c : Cell => (⟨c.index⟩ : ScopeId)) (h.single ks kt memS memT)
  have nodup := h.nodup ks
  rw [World.slots_scope] at nodup
  exact ⟨rfl, name_eq_of_contents nodup hx hy ha hb⟩

/-- A cell above one that a variable has is this one, or leads to the scope of the variable. -/
theorem through (h : w.Apart kept) (hy : w.localBinding? t y = some b) (hd : d ∈ b.value.contents)
    {p : Cell} (kp : kept p) (way : ReflTransGen w.Holds p d) :
    d = p ∨ ReflTransGen w.Holds p t.cell := by
  obtain ⟨kt, mem⟩ := h.variable_ hy hd
  rcases ReflTransGen.cases_tail way with same | ⟨m, toM, last⟩
  · exact .inl same
  · have same : m = t.cell := h.single (h.below kp toM) kt last.2 mem
    exact .inr (same ▸ toM)

theorem disjoint (h : w.Apart kept) (hx : w.localBinding? s x = some a)
    (hy : w.localBinding? t y = some b) (ha : a.value.Contains w d) (hb : b.value.Contains w d) :
    s = t ∧ x = y ∨ a.value.Contains w t.cell ∨ b.value.Contains w s.cell := by
  obtain ⟨p, hp, fromP⟩ := ha
  obtain ⟨q, hq, fromQ⟩ := hb
  have kp : kept p := h.closed (h.variable_ hx hp).1 (h.variable_ hx hp).2
  have kq : kept q := h.closed (h.variable_ hy hq).1 (h.variable_ hy hq).2
  rcases h.comparable kp kq fromP fromQ with way | way
  · rcases h.through hy hq kp way with rfl | up
    · exact .inl (h.distinct hx hy hp hq)
    · exact .inr (.inl ⟨p, hp, up⟩)
  · rcases h.through hx hp kq way with rfl | up
    · exact .inl (h.distinct hx hy hp hq)
    · exact .inr (.inr ⟨q, hq, up⟩)

end Variables

theorem to_valueSemantics (h : w.Apart kept) (sound : Sound D w) (fixed : ¬ D.sharing) :
    w.ValueSemantics := by
  have within : ∀ {s x b}, w.localBinding? s x = some b → b.value.Within w w.size :=
    fun hb => h.acyclic.value_within sound (sound.binding (World.mem_values_of_localBinding? hb))
  constructor
  case once => exact fun stored => h.nodup (h.stored stored)
  case alone => exact fun storedA storedB => h.single (h.stored storedA) (h.stored storedB)
  case distinct => exact h.distinct
  case disjoint => exact h.disjoint
  case acyclic => exact fun _ => h.acyclic _
  case copy =>
    intro s x b n hb deep
    have ok := sound.binding (World.mem_values_of_localBinding? hb)
    have enough : ∀ m, w.size ≤ m → World.copyWithin m b.value w = World.copyWithin w.size b.value w :=
      fun m le => copyWithin_of_le fixed sound le ok (within hb)
    rw [World.deepCopy, enough n (Nat.le_of_lt deep), enough (w.size + 1) (Nat.le_succ _)]
  case text =>
    intro s x b n hb deep
    obtain ⟨m, rfl⟩ := Nat.exists_eq_succ_of_ne_zero (Nat.ne_zero_of_lt deep)
    have inner : b.value.Within (w.hold b.value.cells) w.size := by
      intro c hc
      have slots : ∀ c, (w.hold b.value.cells).slots c = w.slots c := fun _ => rfl
      exact (within hb c hc).congr slots
    exact World.textWithin_of_le (Nat.le_of_lt_succ deep) inner

end World.Apart

/-- At every moment of a program that declares nothing as mutable, and with hosts without bodies,
every container and every instance has one place. -/
theorem Session.Reachable.valueSemantics {s : Session} (h : s.Reachable .copying)
    {program : List Statement} (fixed : ∀ f ∈ blockMarks program, f.isMutable = false)
    (fuel : Nat) : (s.reached fuel program).world.ValueSemantics := by
  have invariant : Invariant .copying fun _ _ w => w.Unshared :=
    unshared_invariant id (fun _ => id) id
  obtain ⟨sound, kept, apart⟩ := h.reached_fixed invariant unshared_start fixed fuel
  exact apart.to_valueSemantics sound id

/-- A program that declares `xs` as `[1]` and `ys` as `[xs, xs]`. -/
def pairUp : List Statement :=
  let list (items : List Expr) : Option Expr := some (.ofTerm (.sequence .list items))
  [⟨.declare ⟨"xs", none, list [.ofTerm (.literal (.int 1))], {}⟩, Span.none⟩,
    ⟨.declare ⟨"ys", none, list [.ofTerm (.variable "xs"), .ofTerm (.variable "xs")], {}⟩, Span.none⟩]

/-- The list in `ys` has two lists in it, which are not the same. -/
theorem valueSemantics_pairUp :
    (∀ f ∈ blockMarks pairUp, f.isMutable = false) ∧
    (((Session.start {} Kit.host).reached 30 pairUp).world.localBinding? ⟨0⟩ "ys").any
      (fun b => b.value.contents.any fun c =>
        (((Session.start {} Kit.host).reached 30 pairUp).world.slots c).length == 2) = true ∧
    ((Session.start {} Kit.host).reached 30 pairUp).world.ValueSemantics := by
  have fixed : ∀ f ∈ blockMarks pairUp, f.isMutable = false := by decide +kernel
  exact ⟨fixed, by decide +kernel, Session.Reachable.valueSemantics (.start {} Kit.host) fixed 30⟩

end ScopeLang
