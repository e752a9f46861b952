/-
# Parting a scope from its source

A host that holds a scope and the ancestors of it detaches a new one, and then
works with both sides.  `World.part` is the world that it starts out from.  There
the links that either side looks names up along are settled, and no container is
within reach of both sides: the detached side has copies only, and the containers
of a deep copy are new however deep they nest.
-/
import ScopeLang.Proofs.Captures
import ScopeLang.Proofs.Parallel

namespace ScopeLang

variable {β : Pairing} {P : ScopeId → Prop} {lost : Cell → Prop} {w₀ w u : World}
  {c : Cell} {d s t p : ScopeId} {names : List String} {label : String}

/-! ## Within reach -/

/-- The cells that the variables of some scopes lead to. -/
inductive World.InReach (w : World) (P : ScopeId → Prop) : Cell → Prop
  | bound {s : ScopeId} {b : Binding} {c : Cell} : P s → b ∈ (w.scope s).bindings.values →
      c ∈ b.value.cells → InReach w P c
  | inside {a c : Cell} {v : Value} : InReach w P a → v ∈ w.values a → c ∈ v.cells → InReach w P c

theorem Value.ne_scope {v : Value} (hc : c ∈ v.cells) : c.kind ≠ .scope := by
  obtain ⟨d, a⟩ := v
  cases d with
  | null | bool _ | number _ | char _ | string _ => exact absurd hc List.not_mem_nil
  | callable k =>
    rw [List.mem_singleton.mp hc]
    cases k with
    | _ => exact nofun
  | _ =>
    rw [List.mem_singleton.mp hc]
    exact nofun

namespace World

theorem InReach.ne_scope (h : w.InReach P c) : c.kind ≠ .scope := by
  cases h with
  | bound _ _ hc => exact Value.ne_scope hc
  | inside _ _ hc => exact Value.ne_scope hc

/-- What is within reach is there and not gone. -/
theorem InReach.present (h : w.InReach P c) (sealed : w.Sealed lost)
    (there : ∀ {s}, P s → s.In w.count) (found : ∀ {s}, P s → ¬ lost s.cell) :
    c.In w.count ∧ ¬ lost c := by
  induction h with
  | bound hs hb hc => exact sealed.binding (there hs) (found hs) hb _ hc
  | inside _ hv hc ih => exact sealed.value ih.1 ih.2 hv _ hc

/-- What is within reach is in every list that the variables lead to and nothing leads out of. -/
theorem InReach.mem {cells : List Cell} (h : w.InReach P c)
    (bound : ∀ s, P s → ∀ b ∈ (w.scope s).bindings.values, ∀ c ∈ b.value.cells, c ∈ cells)
    (inside : ∀ a ∈ cells, ∀ v ∈ w.values a, ∀ c ∈ v.cells, c ∈ cells) : c ∈ cells := by
  induction h with
  | bound hs hb hc => exact bound _ hs _ hb _ hc
  | inside _ hv hc ih => exact inside _ ih _ hv _ hc

/-- Cells that anyone may use: they are there, and are neither scopes nor containers. -/
structure Shares (w : World) (shared : Cell → Prop) : Prop where
  plain : ∀ {c}, shared c → c.kind.isContainer = false ∧ c.kind ≠ .scope
  present : ∀ {c}, shared c → c.In w.count ∧ ¬ w.Gone c

/-- The cells within reach of some scopes and those that are shared, each paired with itself. -/
def within (w : World) (P : ScopeId → Prop) (shared : Cell → Prop) : Pairing :=
  fun c c' => c' = c ∧ (w.InReach P c ∨ shared c)

end World

/-- A value whose cells are paired with themselves matches itself. -/
theorem Value.Matches.self {v : Value} (all : ∀ c ∈ v.cells, β c c) : v.Matches β v := by
  refine ⟨?_, rfl⟩
  obtain ⟨d, a⟩ := v
  have only : ∀ c, d.cell? = some c → β c c := by
    intro c hc
    refine all c ?_
    rw [Value.cells, hc]
    exact List.mem_singleton_self c
  cases d with
  | null | bool _ | number _ | char _ | string _ => exact .scalar rfl
  | list h => exact .list (only _ rfl)
  | array h => exact .array (only _ rfl)
  | dict h => exact .dict (only _ rfl)
  | set h => exact .set (only _ rfl)
  | object h => exact .object (only _ rfl)
  | callable k => exact .callable (only _ rfl)
  | overloads h => exact .overloads (only _ rfl)

namespace World

/-- A closed world is its own twin. -/
theorem Ground.twins (ground : w.Ground P) (closed : w.Closed) {shared : Cell → Prop}
    (shares : w.Shares shared) (classes : ∀ h : Handle .method,
      w.InReach P h.cell ∨ shared h.cell → w.Settled (w.method h).classId.cell) :
    Twins w P (w.within P shared) w w := by
  have sealed := sealed_gone closed
  have present : ∀ {c}, w.InReach P c ∨ shared c → c.In w.count ∧ ¬ w.Gone c := fun h =>
    h.elim (fun reach => reach.present sealed ground.there ground.found) shares.present
  refine ⟨?_, .refl closed, .refl closed, fun p => classes _ p.2⟩
  constructor
  case there =>
    rintro c c' ⟨rfl, h⟩
    exact ⟨(present h).1, (present h).1⟩
  case kind =>
    rintro c c' ⟨rfl, h⟩
    exact ⟨rfl, h.elim InReach.ne_scope fun given => (shares.plain given).2⟩
  case single => exact fun ⟨same, _⟩ ⟨same', _⟩ => same ▸ same' ▸ Iff.rfl
  case found =>
    rintro c c' ⟨rfl, h⟩
    exact ⟨(present h).2, (present h).2⟩
  case values =>
    rintro c c' ⟨rfl, h⟩
    refine List.forall₂_same.mpr fun v hv => .self fun d hd => ⟨rfl, .inl ?_⟩
    rcases h with reach | given
    · exact reach.inside hv hd
    · obtain ⟨container, scope⟩ := shares.plain given
      rw [values_eq_nil container scope] at hv
      cases hv
  case classId =>
    rintro h h' ⟨same, -⟩
    rw [Handle.cell_injective same]
  case scope => exact fun hs => ⟨ground.there hs, ground.there hs⟩
  case outline => exact fun _ => rfl
  case bindings =>
    refine fun hs => List.forall₂_same.mpr fun e he => ⟨rfl, .self fun d hd => ?_, rfl, rfl⟩
    exact ⟨rfl, .inl (.bound hs (List.mem_map_of_mem he) hd)⟩
  case functions | methods | classes | overloads | types => rfl
  case sealed | sealed' => exact sealed

end World

/-! ## Sequels -/

namespace World

/-- A settled cell stays settled. -/
theorem Sequel.settled (h : w₀.Sequel w) (settled : w₀.Settled c) : w.Settled c := by
  rcases settled with kept | gone
  · exact .inl (h.kept kept)
  · exact .inr ⟨gone.1.mono h.count, h.dead gone⟩

theorem Sequel.closed (h : w₀.Sequel w) : w.Closed where
  values := h.sealed.values
  home := h.sealed.home
  held mem := (h.present mem).1

/-- Common ground stays common ground while it is not lost. -/
theorem Ground.later (ground : w₀.Ground P) (h : w₀.Sequel w)
    (found : ∀ {s}, P s → ¬ w.Gone s.cell) : w.Ground P where
  there hs := (ground.there hs).mono h.count
  found := found
  parent {s p} hs shown link := by
    have outline := h.outline (ground.there hs)
    have kind : (w.scope s).kind = (w₀.scope s).kind := (congrArg Scope.kind outline :)
    have parent : (w.scope s).parent = (w₀.scope s).parent := (congrArg Scope.parent outline :)
    exact h.settled (ground.parent hs (kind ▸ shown) (parent ▸ link))
  closed hs next := ground.closed hs (by rwa [h.variableParent?_eq ground hs] at next)

/-- What is in sight when cells have been added is what was in sight before. -/
theorem Sequel.binding?_eq (h : w₀.Sequel w) (ground : w₀.Ground P)
    (amends : w₀.Amends Nowhere Nowhere w) (hs : P s) (name : String) :
    w.binding? s name = w₀.binding? s name := by
  obtain ⟨chain, all⟩ := h.variableChain_eq ground hs
  rw [binding?, binding?, chain]
  have same : ∀ u ∈ w₀.variableChain s, w.localBinding? u name = w₀.localBinding? u name := by
    intro u hu
    rw [localBinding?, localBinding?, amends.scope (ground.there (all u hu)) id]
  generalize w₀.variableChain s = chain at same
  induction chain with
  | nil => rfl
  | cons u rest ih =>
    rw [List.findSome?_cons, List.findSome?_cons, same u List.mem_cons_self,
      ih fun v hv => same v (List.mem_cons_of_mem u hv)]

end World

/-! ## What a detached scope holds -/

/-- A copy that was made since `w₀`, down to the bottom. -/
def Value.Fresh (w₀ w : World) (v : Value) : Prop :=
  ∃ k, v.Inside w₀.Gone (fun c => ¬ c.In w₀.count) k w

/-- The deep copies that are captured are new. -/
theorem fresh_captureVariables (closed : w₀.Closed) (ground : w₀.Ground P) (hs : P s)
    (finite : ∀ n ∈ names, ∀ b, w₀.binding? s n = some b → b.value.Finite w₀)
    (later : w₀.Sequel w) (amends : w₀.Amends Nowhere Nowhere w) :
    w₀.Amends Nowhere Nowhere (w.captureVariables s names).2 ∧
      (w.captureVariables s names).2.Sealed w₀.Gone ∧
      ∀ b ∈ (w.captureVariables s names).1.values,
        b.value.Fresh w₀ (w.captureVariables s names).2 := by
  induction names with
  | nil => exact ⟨amends, later.sealed, fun _ hb => absurd hb List.not_mem_nil⟩
  | cons n rest ih =>
    have captured := ih fun m hm => finite m (List.mem_cons_of_mem n hm)
    simp only [World.captureVariables]
    generalize w.captureVariables s rest = made at captured ⊢
    obtain ⟨table, w₁⟩ := made
    obtain ⟨amends₁, sealed, fresh⟩ := captured
    have sequel : w₀.Sequel w₁ := .amend (.refl closed) amends₁ (fun _ => False.elim)
      (fun _ => False.elim) sealed
    rw [sequel.binding?_eq ground amends₁ hs n]
    cases found : w₀.binding? s n with
    | none => exact ⟨amends₁, sealed, fresh⟩
    | some b =>
      -- the value is at hand, and as finite as it was
      obtain ⟨t, mem, here⟩ := World.localBinding?_of_binding? found
      have ht : P t := ((World.Sequel.refl closed).variableChain_eq ground hs).2 t mem
      have present : b.value.Present w₀.Gone w₀ := (World.sealed_gone closed).binding
        (ground.there ht) (ground.found ht) (World.mem_values_of_localBinding? here)
      have present₁ := present.mono amends₁.count
      have nested : b.value.Nested w₁ w₁.size := by
        obtain ⟨k, nested⟩ := finite n List.mem_cons_self b found
        exact Value.Finite.nested ⟨k, nested.later (World.sealed_gone closed) present amends₁⟩
          sealed.region fun c hc => (present₁ c (Value.mem_containers.mp hc).1).1
      have inside := inside_copyWithin w₀.count w₁.size.lt_succ_self amends₁.count sealed present₁
        nested
      obtain ⟨more, sealed₂, -⟩ := guards_deepCopy b.value w₁ sealed present₁
      refine ⟨amends₁.also more, sealed₂, fun b' hb' => ?_⟩
      rcases Table.mem_values_insert hb' with rfl | old
      · exact ⟨_, inside⟩
      · obtain ⟨k, before⟩ := fresh b' old
        exact ⟨k, before.later sealed more⟩

/-- A world in which a scope has been detached, which has fresh values only. -/
structure World.Detaches (w₀ : World) (d : ScopeId) (w : World) : Prop where
  sequel : w₀.Sequel w
  amends : w₀.Amends (· = d) Nowhere w
  new : ¬ d.In w₀.count
  there : d.In w.count
  hides : (w.scope d).kind.hidesParent = true
  fresh : ∀ b ∈ (w.scope d).bindings.values, b.value.Fresh w₀ w

theorem World.detaches_detach (closed : w₀.Closed) (ground : w₀.Ground P) (hs : P s)
    (finite : ∀ n ∈ names, ∀ b, w₀.binding? s n = some b → b.value.Finite w₀) (label : String) :
    w₀.Detaches (w₀.detach s names label).1 (w₀.detach s names label).2 := by
  have new := w₀.derive_new s .detached label (some s)
  have there := w₀.derive_in s .detached label (some s)
  have read := w₀.scope_derive s .detached label (some s)
  have added : w₀.Amends Nowhere Nowhere (w₀.derive s .detached label (some s)).2 :=
    (w₀.spares_newScope _).amends rfl rfl
  have sealed : (w₀.derive s .detached label (some s)).2.Sealed w₀.Gone := by
    rw [derive_eq]
    refine (sealed_gone closed).newScope (fun d hd => ?_) fun b hb => absurd hb List.not_mem_nil
    rw [Scope.cells, Scope.outline, Scope.derived, Globals.cells_share] at hd
    exact absurd hd List.not_mem_nil
  have sequel : w₀.Sequel (w₀.derive s .detached label (some s)).2 :=
    .amend (.refl closed) added (fun _ => False.elim) (fun _ => False.elim) sealed
  have captured := fresh_captureVariables closed ground hs finite sequel added
  have spares := (w₀.derive s .detached label (some s)).2.spares_captureVariables s names
  rw [detach, detachAs_eq]
  generalize w₀.derive s .detached label (some s) = derived at new there read captured spares ⊢
  obtain ⟨d, w⟩ := derived
  simp only at new there read captured spares ⊢
  generalize w.captureVariables s names = made at captured spares ⊢
  obtain ⟨table, w₁⟩ := made
  obtain ⟨amends, sealed, fresh⟩ := captured
  have there₁ : d.In w₁.count := there.mono spares.count
  have same : w₁.scope d = (w₀.scope s).derived s .detached label (some s) :=
    (spares.scope there).trans read
  have set : w₁.Amends (· = d) Nowhere (w₁.setScope d { w₁.scope d with bindings := table })  :=
    amends_setScope rfl rfl
  have sealed' : (w₁.setScope d { w₁.scope d with bindings := table }).Sealed w₀.Gone :=
    sealed.setScope rfl fun b hb => (fresh b hb).choose_spec.present
  have whole : w₀.Amends (· = d) Nowhere (w₁.setScope d { w₁.scope d with bindings := table }) :=
    (amends.mono (fun _ => False.elim) fun _ => id).trans set fun _ _ => id
  have stored : (w₁.setScope d { w₁.scope d with bindings := table }).scope d =
      { w₁.scope d with bindings := table } := by
    rw [scope_setScope, if_pos ⟨rfl, there₁⟩]
  refine ⟨?_, whole, new, ?_, ?_, ?_⟩
  · refine .amend (.refl closed) whole ?_ (fun _ => False.elim) sealed'
    rintro _ rfl gone
    exact new gone.1
  · rw [count_setScope]
    exact there₁
  · rw [stored, same]
    rfl
  · rw [stored]
    exact fun b hb => (fresh b hb).imp fun k inside => inside.later sealed set

namespace World.Detaches

variable (h : w₀.Detaches d w)

include h

/-- The containers within reach of the detached scope are new. -/
theorem new_of_inReach (reach : w.InReach (· = d) c) (kind : c.kind.isContainer = true) :
    ¬ c.In w₀.count := by
  have inside : ∀ {c}, w.InReach (· = d) c → c.kind.isContainer = true →
      ∃ k, w.NestsIn (fun c => ¬ c.In w₀.count) k c := by
    intro c reach
    induction reach with
    | bound same hb hc =>
      subst same
      intro kind
      obtain ⟨k, inside⟩ := h.fresh _ hb
      exact ⟨k, inside.nests _ (Value.mem_containers.mpr ⟨hc, kind⟩)⟩
    | @inside a c v reach hv hc ih =>
      intro kind
      have container : a.kind.isContainer = true := by
        by_contra other
        rw [values_eq_nil (Bool.not_eq_true _ ▸ other) reach.ne_scope] at hv
        cases hv
      obtain ⟨k, nests⟩ := ih container
      cases k with
      | zero => exact nests.elim
      | succ k => exact ⟨k, nests.2 _ ⟨v, hv, Value.mem_containers.mpr ⟨hc, kind⟩⟩⟩
  obtain ⟨k, nests⟩ := inside reach kind
  exact nests.below .refl

/-- What is within reach of the other scopes has been there before. -/
theorem old_of_inReach (closed : w₀.Closed) (there : ∀ {t}, P t → t.In w₀.count)
    (reach : w.InReach P c) : c.In w₀.count := by
  induction reach with
  | @bound t b c ht hb hc =>
    have old := there ht
    rw [h.amends.scope old fun same => h.new (same ▸ old)] at hb
    have hv : b.value ∈ w₀.values t.cell := List.mem_map_of_mem hb
    exact closed.values hv hc
  | inside reach hv hc ih =>
    rw [h.amends.values_of_ne_scope ih reach.ne_scope fun _ => id] at hv
    exact closed.values hv hc

end World.Detaches

/-! ## Parting -/

namespace World

/-- A closed world in which a scope is newer than its parent. -/
structure WellFormed (w : World) : Prop extends w.Closed where
  older : ∀ {s p}, (w.scope s).parent = some p → p.index < s.index

end World

theorem Sound.wellFormed {D : Dialect} (sound : Sound D w) : w.WellFormed where
  values hv hd := (sound.value hv).cells _ hd
  home := sound.home
  held mem := sound.held _ mem
  older link := (sound.scope _).older _ link

/-- Whatever a program comes to, its world is well formed. -/
theorem Session.Reachable.wellFormed {natives : String → Prop} {S : Session}
    (h : S.Reachable (.full natives)) (obeys : S.host.Obeys (.full natives)) (fuel : Nat)
    (program : List Statement) : (S.reached fuel program).world.WellFormed := by
  have admitted := Dialect.admits_of_sharing (D := .full natives) trivial
  obtain ⟨f, ready, -⟩ := h.reached kin_invariant kin_start obeys (admitted _) fuel
  exact ready.sound.wellFormed

namespace World

/-- A world in which a scope and its ancestors are held. -/
def holdChain (w : World) (s : ScopeId) : World := w.hold ((w.lookupChain s).map Handle.cell)

theorem mem_lookupChain (w : World) (s : ScopeId) : s ∈ w.lookupChain s := by
  rw [lookupChain]
  unfold follow
  split
  · exact List.mem_singleton_self _
  · split
    · exact List.mem_cons_self
    · exact List.mem_singleton_self _

namespace WellFormed

variable (h : w.WellFormed) (there : s.In w.count) (alive : w.alive s.cell = true)

include h

/-- A scope is followed by its parent, unless that is gone. -/
theorem parent (ht : t ∈ w.lookupChain s) (old : t.In w.count)
    (link : (w.scope t).parent = some p) : p ∈ w.lookupChain s ∨ w.Gone p.cell := by
  cases living : w.alive p.cell with
  | false => exact .inr ⟨Nat.lt_trans (h.older link) old, living⟩
  | true =>
    refine .inl (mem_follow_next (fun _ _ e => ?_) (parent?_eq_some.mpr ⟨link, living⟩)
      (Nat.le_refl _) ht)
    exact h.older (parent?_eq_some.mp e).1

include there alive

/-- The ancestors of a scope that is alive are alive. -/
theorem chain : ∀ t ∈ w.lookupChain s, t.In w.count ∧ w.alive t.cell = true := by
  intro t ht
  refine of_mem_follow (P := fun t => t.In w.count ∧ w.alive t.cell = true) ?_ ⟨there, alive⟩ ht
  rintro t p ⟨old, -⟩ next
  obtain ⟨link, living⟩ := parent?_eq_some.mp next
  exact ⟨Nat.lt_trans (h.older link) old, living⟩

theorem sequel_holdChain : w.Sequel (w.holdChain s) := by
  refine (Sequel.refl h.toClosed).hold fun c hc => ?_
  obtain ⟨t, ht, rfl⟩ := List.mem_map.mp hc
  obtain ⟨old, living⟩ := h.chain there alive t ht
  exact ⟨old, not_gone_of_alive living⟩

/-- Whether the parents along the chain are alive does not hang on who holds it. -/
theorem alive_holdChain (ht : t ∈ w.lookupChain s) (link : (w.scope t).parent = some p) :
    (w.holdChain s).alive p.cell = w.alive p.cell := by
  rcases h.parent ht (h.chain there alive t ht).1 link with mem | gone
  · have held : p.cell ∈ (w.holdChain s).held := List.mem_append_left _ (List.mem_map_of_mem mem)
    rw [(anchored_of_held held).alive, (h.chain there alive p mem).2]
  · rw [(h.sequel_holdChain there alive).dead gone, gone.2]

theorem variableParent?_holdChain (ht : t ∈ w.lookupChain s) :
    (w.holdChain s).variableParent? t = w.variableParent? t := by
  have same : (w.holdChain s).parent? t = w.parent? t := by
    have scope : (w.holdChain s).scope t = w.scope t := rfl
    rw [parent?, parent?, scope]
    cases link : (w.scope t).parent with
    | none => rfl
    | some p => simp only [Option.bind_some, upgrade, h.alive_holdChain there alive ht link]
  rw [variableParent?, variableParent?, same]
  rfl

/-- The chain is common ground for all who hold it. -/
theorem ground : (w.holdChain s).Ground (· ∈ w.lookupChain s) where
  there ht := (h.chain there alive _ ht).1
  found ht := not_gone_of_held (List.mem_append_left _ (List.mem_map_of_mem ht))
  parent ht _ link := by
    rcases h.parent ht (h.chain there alive _ ht).1 link with mem | gone
    · exact .inl (.held (List.mem_append_left _ (List.mem_map_of_mem mem)))
    · exact (h.sequel_holdChain there alive).settled (.inr gone)
  closed {t p} ht next := by
    rw [h.variableParent?_holdChain there alive ht] at next
    obtain ⟨-, link, living⟩ := variableParent?_eq_some.mp next
    exact (h.parent ht (h.chain there alive t ht).1 link).resolve_right (not_gone_of_alive living)

theorem binding?_holdChain (name : String) :
    (w.holdChain s).binding? s name = w.binding? s name := by
  have chain := (follow_eq (P := (· ∈ w.lookupChain s))
    (fun t ht => (h.variableParent?_holdChain there alive ht).symm)
    (fun t p => (h.ground there alive).closed) s.index s (w.mem_lookupChain s)).1
  rw [binding?, binding?, variableChain, variableChain, ← chain]
  rfl

end WellFormed

/-- Detaches a scope from one that is held with its ancestors, and holds it. -/
def part (w : World) (s : ScopeId) (names : List String) (label : String) : ScopeId × World :=
  let (d, w) := (w.holdChain s).detach s names label
  (d, w.hold [d.cell])

end World

/-! ## Sides -/

/-- Scopes that several parties work with, each with its own, so that the links that names are
looked up along are settled and no container is within reach of two parties. -/
structure World.Splits {ι : Type} (w : World) (sides : ι → ScopeId → Prop) : Prop where
  closed : w.Closed
  ground : ∀ i, w.Ground (sides i)
  scopes : ∀ {i j s}, i ≠ j → sides i s → ¬ sides j s
  containers : ∀ {i j c}, i ≠ j → c.kind.isContainer = true → w.InReach (sides i) c →
    ¬ w.InReach (sides j) c

/-- The two sides of a scope that has been parted. -/
inductive Side where
  | detached | source
deriving DecidableEq

/-- The scopes of each side: the new scope `d`, and its source with the ancestors. -/
def World.sides (w : World) (s d : ScopeId) : Side → ScopeId → Prop
  | .detached => (· = d)
  | .source => (· ∈ w.lookupChain s)

/-- Holding cells brings nothing within reach. -/
theorem World.InReach.of_hold {cells : List Cell} (h : (w.hold cells).InReach P c) :
    w.InReach P c := by
  induction h with
  | bound hs hb hc => exact .bound hs hb hc
  | inside _ hv hc ih => exact .inside ih hv hc

theorem Value.Finite.hold {v : Value} {cells : List Cell} (h : v.Finite w) :
    v.Finite (w.hold cells) := by
  obtain ⟨n, nested⟩ := h
  exact ⟨n, fun c hc => (nested c hc).congr (by intro; rfl)⟩

/-- A scope that is detached parts from its source. -/
theorem World.WellFormed.splits (h : w.WellFormed) (there : s.In w.count)
    (alive : w.alive s.cell = true)
    (finite : ∀ n ∈ names, ∀ b, w.binding? s n = some b → b.value.Finite w)
    (made : w.part s names label = (d, u)) : u.Splits (w.sides s d) := by
  have held := h.sequel_holdChain there alive
  have ground := h.ground there alive
  have detaches := World.detaches_detach held.closed ground (w.mem_lookupChain s)
    (fun n hn b found => by
      rw [h.binding?_holdChain there alive] at found
      exact (finite n hn b found).hold) label
  simp only [World.part] at made
  generalize (w.holdChain s).detach s names label = m at detaches made
  obtain ⟨rfl, rfl⟩ := Prod.mk.inj made
  have new := detaches.new
  have sequel : (w.holdChain s).Sequel (m.2.hold [m.1.cell]) := by
    refine detaches.sequel.hold fun c hc => ?_
    rw [List.mem_singleton.mp hc]
    exact ⟨detaches.there, fun gone => new gone.1⟩
  have apart : ∀ {c}, c.kind.isContainer = true →
      (m.2.hold [m.1.cell]).InReach (w.sides s m.1 .detached) c →
        ¬ (m.2.hold [m.1.cell]).InReach (w.sides s m.1 .source) c := by
    intro c kind reach reach'
    refine detaches.new_of_inReach reach.of_hold kind ?_
    exact detaches.old_of_inReach held.closed ground.there reach'.of_hold
  have other : ¬ w.sides s m.1 .source m.1 := fun mem => new (ground.there mem)
  constructor
  case closed => exact sequel.closed
  case ground =>
    intro side
    cases side with
    | detached =>
      constructor
      case there => exact fun same => same ▸ detaches.there
      case found => exact fun same => same ▸ not_gone_of_held List.mem_cons_self
      case parent =>
        rintro _ p rfl shown -
        exact absurd (detaches.hides.symm.trans shown) nofun
      case closed =>
        rintro _ t rfl next
        obtain ⟨shown, -⟩ := variableParent?_eq_some.mp next
        exact absurd (detaches.hides.symm.trans shown) nofun
    | source =>
      refine ground.later sequel fun hs => not_gone_of_held ?_
      exact sequel.held (List.mem_append_left _ (List.mem_map_of_mem hs))
  case scopes =>
    intro i j t ne hi hj
    cases i <;> cases j
    case detached.source => exact other (hi ▸ hj)
    case source.detached => exact other (hj ▸ hi)
    all_goals exact ne rfl
  case containers =>
    intro i j c ne kind hi hj
    cases i <;> cases j
    case detached.source => exact apart kind hi hj
    case source.detached => exact apart kind hj hi
    all_goals exact ne rfl

end ScopeLang
