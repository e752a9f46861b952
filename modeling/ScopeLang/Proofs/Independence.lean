/-
# How independent copies are

A deep copy goes down through containers and instances.  Of an instance it
copies the scope, and there it leaves a value shared that is flagged mutable,
as storing a value does; in a container it copies a value whatever its flags.
`World.Descends` is this way down, and `World.Holds` the way along all slots.

What is come to from the copy on its way down is new, and what is come to from
anything that was there before is as old as that (`Buds`).  So the two meet
only behind a member whose value is flagged mutable.  Nothing is said of values
that contain themselves on the way down, whose copy does not come to an end.
-/
import ScopeLang.Proofs.Parting
import ScopeLang.Proofs.Sprouts

namespace ScopeLang

open Relation

variable {w w₁ w₂ : World} {v : Value} {a b c d : Cell} {n m : Nat}

/-! ## The way down of a deep copy -/

/-- What is copied of a value that a variable holds: a mutable one stays shared. -/
def Value.owned (v : Value) : List Cell := if v.attrs.isMutable then [] else v.contents

namespace World

/-- What a deep copy that comes to a cell goes on to. -/
def copied (w : World) (c : Cell) : List Cell :=
  match c.kind with
  | .scope => (w.values c).flatMap Value.owned
  | _ => w.slots c

/-- A deep copy goes on from one cell to the other. -/
def Descends (w : World) (a b : Cell) : Prop := a.In w.count ∧ b ∈ w.copied a

instance (w : World) (a b : Cell) : Decidable (w.Holds a b) :=
  inferInstanceAs (Decidable (a.In w.count ∧ b ∈ w.slots a))

instance (w : World) (a b : Cell) : Decidable (w.Descends a b) :=
  inferInstanceAs (Decidable (a.In w.count ∧ b ∈ w.copied a))

theorem owned_subset (v : Value) : v.owned ⊆ v.contents := by
  rw [Value.owned]
  split
  · exact List.nil_subset _
  · exact List.Subset.refl _

theorem copied_of_ne (ne : c.kind ≠ .scope) : w.copied c = w.slots c := by
  obtain ⟨k, i⟩ := c
  cases k with
  | scope => exact absurd rfl ne
  | _ => rfl

theorem copied_scope (w : World) (s : ScopeId) :
    w.copied s.cell = (w.scope s).bindings.values.flatMap fun b => b.value.owned :=
  List.flatMap_map _ _ _

/-- The way down goes along slots. -/
theorem copied_subset (w : World) (c : Cell) : w.copied c ⊆ w.slots c := by
  by_cases scope : c.kind = .scope
  · intro d hd
    obtain ⟨k, i⟩ := c
    obtain rfl : k = .scope := scope
    obtain ⟨v, hv, mem⟩ := List.mem_flatMap.mp hd
    exact List.mem_flatMap.mpr ⟨v, hv, owned_subset v mem⟩
  · rw [copied_of_ne scope]
    exact List.Subset.refl _

theorem Descends.holds (h : w.Descends a b) : w.Holds a b := ⟨h.1, w.copied_subset a h.2⟩

theorem copied_setScope (w : World) {s : ScopeId} (x : Scope) (ne : c ≠ s.cell) :
    (w.setScope s x).copied c = w.copied c := by
  have values : (w.setScope s x).values c = w.values c := by
    rw [values_setScope, if_neg fun both => ne both.1]
  by_cases scope : c.kind = .scope
  · obtain ⟨k, i⟩ := c
    obtain rfl : k = .scope := scope
    exact congrArg (List.flatMap Value.owned) values
  · rw [copied_of_ne scope, copied_of_ne scope]
    exact slots_congr values fun _ => rfl

/-- Cells that were there are copied as before when others are added. -/
theorem Spares.copied (h : w.Spares w₁) (there : c.In w.count) : w₁.copied c = w.copied c := by
  by_cases scope : c.kind = .scope
  · obtain ⟨k, i⟩ := c
    obtain rfl : k = .scope := scope
    have same : w₁.scope ⟨i⟩ = w.scope ⟨i⟩ := h.scope there
    exact (w₁.copied_scope ⟨i⟩).trans ((by rw [same]) : _ = _) |>.trans (w.copied_scope ⟨i⟩).symm
  · rw [copied_of_ne scope, copied_of_ne scope, h.slots there]

theorem Spares.descends (h : w.Spares w₁) (there : a.In w.count) :
    w₁.Descends a b ↔ w.Descends a b := by
  rw [Descends, Descends, h.copied there]
  exact ⟨fun g => ⟨there, g.2⟩, fun g => ⟨there.mono h.count, g.2⟩⟩

/-! ## Coming to an end -/

/-- A deep copy that comes to a cell goes down through at most `n` cells, this one included. -/
def Ends (w : World) : Nat → Cell → Prop
  | 0, _ => False
  | n + 1, c => ∀ d ∈ w.copied c, Ends w n d

instance decidableEnds (w : World) : ∀ n c, Decidable (w.Ends n c)
  | 0, _ => isFalse id
  | n + 1, c =>
    have := decidableEnds w n
    inferInstanceAs (Decidable (∀ d ∈ w.copied c, w.Ends n d))

theorem Ends.succ : ∀ {n : Nat} {c : Cell}, w.Ends n c → w.Ends (n + 1) c
  | 0, _, h => h.elim
  | _ + 1, _, h => fun d hd => (h d hd).succ

theorem Ends.mono (le : n ≤ m) (h : w.Ends n c) : w.Ends m c := by
  induction le with
  | refl => exact h
  | step _ ih => exact ih.succ

/-- From a cell at which the copy ends it goes on to such cells only. -/
theorem Ends.below (h : w.Ends n a) (way : ReflTransGen w.Descends a b) : ∃ m, w.Ends m b := by
  induction way with
  | refl => exact ⟨n, h⟩
  | tail _ last ih =>
    obtain ⟨m, ends⟩ := ih
    cases m with
    | zero => exact ends.elim
    | succ m => exact ⟨m, ends _ last.2⟩

/-- A copy that comes to an end does not come back. -/
theorem Ends.irrefl : ∀ {n : Nat} {c : Cell}, w.Ends n c → ¬ TransGen w.Descends c c
  | 0, _, h, _ => h.elim
  | n + 1, c, h, way => by
    obtain ⟨d, first, rest⟩ := TransGen.head'_iff.mp way
    exact (h d first.2).irrefl (.tail' rest first)

namespace WellFormed

/-- What a slot holds is there. -/
theorem owner (h : w.WellFormed) (held : w.Holds a b) : b ∈ w.owners := by
  obtain ⟨there, mem⟩ := held
  by_cases object : a.kind = .object
  · obtain ⟨k, i⟩ := a
    obtain rfl : k = .object := object
    rw [List.mem_singleton.mp mem]
    exact mem_owners.mpr ⟨by simp [ownerKinds, Handle.cell], h.home (i := ⟨i⟩) there⟩
  · rw [slots_of_values object] at mem
    obtain ⟨v, hv, mem⟩ := List.mem_flatMap.mp mem
    obtain ⟨cell, kind⟩ := Value.mem_cells_of_contents mem
    exact mem_owners.mpr ⟨kind, h.values hv cell⟩

theorem there (h : w.WellFormed) (held : w.Holds a b) : b.In w.count :=
  (mem_owners.mp (h.owner held)).2

/-- A copy that does not end within `n` cells goes down through as many. -/
theorem exists_descent (h : w.WellFormed) : ∀ {n : Nat} {c : Cell}, c ∈ w.owners → ¬ w.Ends n c →
    ∃ l, (c :: l).IsChain w.Descends ∧ l.length = n ∧ ∀ d ∈ l, d ∈ w.owners
  | 0, _, _, _ => ⟨[], .singleton _, rfl, fun _ h => absurd h List.not_mem_nil⟩
  | n + 1, c, there, deep => by
    simp only [Ends, not_forall] at deep
    obtain ⟨d, hd, deep⟩ := deep
    have step : w.Descends c d := ⟨(mem_owners.mp there).2, hd⟩
    obtain ⟨l, chain, length, owners⟩ := h.exists_descent (h.owner step.holds) deep
    refine ⟨d :: l, .cons_cons step chain, congrArg (· + 1) length, fun e he => ?_⟩
    rcases List.mem_cons.mp he with rfl | he
    · exact h.owner step.holds
    · exact owners e he

/-- A copy that comes to an end at all does so within as many cells as there are. -/
theorem ends_size (h : w.WellFormed) (there : c ∈ w.owners) (ends : w.Ends n c) :
    w.Ends w.size c := by
  by_contra deep
  obtain ⟨l, chain, length, owners⟩ := h.exists_descent there deep
  have ways : (c :: l).Pairwise (TransGen w.Descends) :=
    (chain.imp fun _ _ => TransGen.single).pairwise
  have nodup : (c :: l).Nodup := by
    refine ways.imp_of_mem ?_
    rintro a _ ha - way rfl
    have top : ReflTransGen w.Descends c a := by
      rcases List.mem_cons.mp ha with rfl | ha
      · exact .refl
      · exact (List.rel_of_pairwise_cons ways ha).to_reflTransGen
    obtain ⟨m, below⟩ := ends.below top
    exact below.irrefl way
  have le := (nodup.subperm (List.cons_subset.mpr ⟨there, owners⟩)).length_le
  have := w.owners_length_le
  rw [List.length_cons] at le
  omega

end WellFormed

end World

/-- A deep copy of the value comes to an end. -/
def Value.Copyable (w : World) (v : Value) : Prop := ∃ n, ∀ c ∈ v.contents, w.Ends n c

/-! ## Buds -/

/-- A world with more cells: from a new cell a deep copy goes on to new cells only, and so it
does from those on top. -/
structure Buds (w : World) (top : List Cell) (w₁ : World) : Prop where
  spares : w.Spares w₁
  new : ∀ {a}, a ∈ top → ¬ a.In w.count
  fresh : ∀ {a b}, ¬ a.In w.count → w₁.Descends a b → ¬ b.In w.count

namespace Buds

variable {top more : List Cell}

theorem refl (w : World) : Buds w [] w where
  spares := .refl w
  new mem := absurd mem List.not_mem_nil
  fresh new step := absurd step.1 new

theorem trans (h : Buds w top w₁) (i : Buds w₁ more w₂) : Buds w (top ++ more) w₂ where
  spares := h.spares.trans i.spares
  new {a} mem old := by
    rcases List.mem_append.mp mem with mem | mem
    · exact h.new mem old
    · exact i.new mem (old.mono h.spares.count)
  fresh {a b} new step old := by
    by_cases first : a.In w₁.count
    · exact h.fresh new ((i.spares.descends first).mp step) old
    · exact i.fresh first step (old.mono h.spares.count)

/-- What is on top is put into one new cell. -/
theorem cap (h : Buds w top w₁) (spares : w₁.Spares w₂) (new : ¬ c.In w₁.count)
    (there : ∀ {d}, d.In w₂.count → d.In w₁.count ∨ d = c) (copied : w₂.copied c ⊆ top) :
    Buds w [c] w₂ where
  spares := h.spares.trans spares
  new {a} mem old := new (List.mem_singleton.mp mem ▸ old.mono h.spares.count)
  fresh {a b} newer step old := by
    rcases there step.1 with first | same
    · exact h.fresh newer ((spares.descends first).mp step) old
    · exact h.new (copied (same ▸ step.2)) old

/-- From a new cell one descends to new cells only. -/
theorem away (h : Buds w top w₁) (new : ¬ a.In w.count) (way : ReflTransGen w₁.Descends a b) :
    ¬ b.In w.count := by
  induction way with
  | refl => exact new
  | tail _ last ih => exact h.fresh ih last

theorem newScope {x : Scope} (h : Buds w (x.bindings.values.flatMap fun b => b.value.owned) w₁) :
    Buds w [(w₁.newScope x).1.cell] (w₁.newScope x).2 := by
  have writes := w₁.writes_newScope x
  refine h.cap (w₁.spares_newScope x) (w₁.newScope_new x) writes.there.mp ?_
  have self : (w₁.newScope x).2.scope (w₁.newScope x).1 = x := by
    rw [World.scope_newScope]
    exact if_pos rfl
  rw [World.copied_scope, self]
  exact List.Subset.refl _

theorem newCell (h : Buds w top w₁) (spares : w₁.Spares w₂) (new : ¬ c.In w₁.count)
    (writes : w₁.Writes c top w₂) : Buds w [c] w₂ :=
  h.cap spares new writes.there.mp fun _ hd => writes.slots ▸ w₂.copied_subset c hd

end Buds

/-! ## Copies are buds -/

/-- A way of copying values of a world, also once cells have been added to it: where it comes to
an end within `n` cells, the copy is a bud. -/
def Grafts (w : World) (n : Nat) (copy : Value → World → Value × World) : Prop :=
  ∀ v w₁, w.Spares w₁ → (∀ c ∈ v.contents, c.In w.count ∧ w.Ends n c) →
    Buds w₁ (copy v w₁).1.contents (copy v w₁).2

/-- Items copied one after the other; `cells` are the cells on top of a copy. -/
theorem mapState_buds {α β : Type} {f : α → World → β × World} (cells : β → List Cell)
    (items : List α)
    (each : ∀ a ∈ items, ∀ w₁, w.Spares w₁ → Buds w₁ (cells (f a w₁).1) (f a w₁).2) :
    ∀ w₁, w.Spares w₁ →
      Buds w₁ ((mapState f items w₁).1.flatMap cells) (mapState f items w₁).2 := by
  induction items with
  | nil => exact fun w₁ _ => .refl w₁
  | cons a rest ih =>
    intro w₁ spares
    have first := each a List.mem_cons_self w₁ spares
    exact first.trans (ih (fun x hx => each x (List.mem_cons_of_mem a hx)) _
      (spares.trans first.spares))

namespace Grafts

variable {copy : Value → World → Value × World}

/-- What stays shared is not on top of the copy of a scope. -/
theorem duplicateBy (h : Grafts w n copy) (attrs : ∀ v w, (copy v w).1.attrs = v.attrs)
    (v : Value) (w₁ : World) (spares : w.Spares w₁)
    (inside : ∀ c ∈ v.owned, c.In w.count ∧ w.Ends n c) :
    Buds w₁ (duplicateBy copy v w₁).1.owned (duplicateBy copy v w₁).2 := by
  rw [Value.owned] at inside
  cases shared : v.attrs.isMutable with
  | true =>
    simp only [ScopeLang.duplicateBy, Value.owned, shared, if_true]
    exact .refl w₁
  | false =>
    rw [shared] at inside
    simp only [ScopeLang.duplicateBy, Value.owned, shared, attrs, Bool.false_eq_true, if_false]
    exact h v w₁ spares inside

/-- The variables of a table, each with its value duplicated. -/
theorem mapBindings (h : Grafts w n copy) (attrs : ∀ v w, (copy v w).1.attrs = v.attrs)
    {t : Table Binding}
    (inside : ∀ b ∈ t.values, ∀ c ∈ b.value.owned, c.In w.count ∧ w.Ends n c)
    (w₁ : World) (spares : w.Spares w₁) :
    Buds w₁ ((mapBindings (ScopeLang.duplicateBy copy) t w₁).1.values.flatMap fun b => b.value.owned)
      (mapBindings (ScopeLang.duplicateBy copy) t w₁).2 := by
  have made := mapState_buds (fun e : String × Binding => e.2.value.owned) t.entries
    (f := fun e w => ((e.1, { e.2 with value := (ScopeLang.duplicateBy copy e.2.value w).1 }),
      (ScopeLang.duplicateBy copy e.2.value w).2))
    (fun e he w₁ spares => h.duplicateBy attrs e.2.value w₁ spares
      (inside e.2 (List.mem_map_of_mem he))) w₁ spares
  rw [Table.values, List.flatMap_map]
  exact made

end Grafts

theorem World.attrs_copyWithin : ∀ (n : Nat) (v : Value) (w : World),
    (World.copyWithin n v w).1.attrs = v.attrs
  | 0, _, _ => rfl
  | _ + 1, ⟨d, _⟩, _ => by cases d <;> rfl

theorem copyWithin_grafts (h : w.WellFormed) : ∀ n, Grafts w n (World.copyWithin n)
  | 0 => by
    intro v w₁ _ inside
    have empty : v.contents = [] :=
      List.eq_nil_iff_forall_not_mem.mpr fun c hc => (inside c hc).2
    rw [World.copyWithin, empty]
    exact .refl w₁
  | n + 1 => by
    have ih : Grafts w n (World.copyWithin n) := copyWithin_grafts h n
    intro v w₁ spares inside
    -- the values of a container that the copy comes to are copied in turn
    have items : ∀ {k : CellKind} (x : Handle k), k ≠ .object → k ≠ .scope →
        x.cell.In w.count ∧ w.Ends (n + 1) x.cell → ∀ y ∈ w.values x.cell, ∀ w₁, w.Spares w₁ →
          Buds w₁ (World.copyWithin n y w₁).1.contents (World.copyWithin n y w₁).2 := by
      rintro k x object scope ⟨there, ends⟩ y hy w₁ spares
      refine ih y w₁ spares fun d hd => ?_
      have slot : d ∈ w.slots x.cell := Value.contents_subset_slots object hy hd
      have copied : w.copied x.cell = w.slots x.cell := World.copied_of_ne scope
      exact ⟨h.there ⟨there, slot⟩, ends d (copied ▸ slot)⟩
    obtain ⟨d, a⟩ := v
    cases d with
    | list x =>
      have top := inside x.cell (List.mem_singleton_self _)
      have same : w₁.items x = w.items x := spares.items top.1
      rw [World.copyWithin_list, same]
      have made := mapState_buds Value.contents (w.items x) (items x (by simp) (by simp) top) w₁ spares
      exact made.newCell (World.spares_newItems _ _) (World.newItems_new _ _)
        (World.writes_newItems _ _)
    | array x =>
      have top := inside x.cell (List.mem_singleton_self _)
      have same : w₁.items x = w.items x := spares.items top.1
      rw [World.copyWithin_array, same]
      have made := mapState_buds Value.contents (w.items x) (items x (by simp) (by simp) top) w₁ spares
      exact made.newCell (World.spares_newItems _ _) (World.newItems_new _ _)
        (World.writes_newItems _ _)
    | dict x =>
      have top := inside x.cell (List.mem_singleton_self _)
      have same : w₁.entries x = w.entries x := spares.entries top.1
      rw [World.copyWithin_dict, same]
      have made := mapState_buds (f := copyEntry (World.copyWithin n))
        (fun e : Value × Value => e.1.contents ++ e.2.contents) (w.entries x) (fun e he w₁ spares => by
          obtain ⟨key, value⟩ := World.mem_values_of_entry he
          have first := items x (by simp) (by simp) top e.1 key w₁ spares
          have second := items x (by simp) (by simp) top e.2 value _ (spares.trans first.spares)
          exact first.trans second) w₁ spares
      exact made.newCell (World.spares_newEntries _ _) (World.newEntries_new _ _)
        (World.writes_newEntries _ _)
    | set x =>
      have top := inside x.cell (List.mem_singleton_self _)
      have same : w₁.elements x = w.elements x := spares.elements top.1
      rw [World.copyWithin_set, same]
      have made := mapState_buds Value.contents (w.elements x) (items x (by simp) (by simp) top) w₁
        spares
      exact made.newCell (World.spares_newElements _ _) (World.newElements_new _ _)
        (World.writes_newElements _ _)
    | object x =>
      obtain ⟨there, ends⟩ := inside x.cell (List.mem_singleton_self _)
      have same : w₁.inst x = w.inst x := spares.inst there
      have home : (w.inst x).scope.In w.count := h.home there
      have scope : w₁.scope (w.inst x).scope = w.scope (w.inst x).scope := spares.scope home
      have ends : w.Ends (n + 1) (w.inst x).scope.cell :=
        (ends _ (List.mem_singleton_self _)).succ
      rw [World.copyWithin_object, same]
      have members := ih.mapBindings (t := (w.scope (w.inst x).scope).bindings)
        (fun v w => World.attrs_copyWithin n v w) (fun b hb c hc => by
          have mem : c ∈ w.copied (w.inst x).scope.cell := by
            rw [World.copied_scope]
            exact List.mem_flatMap.mpr ⟨b, hb, hc⟩
          have step : w.Descends (w.inst x).scope.cell c := ⟨home, mem⟩
          exact ⟨h.there step.holds, ends c mem⟩) w₁ spares
      have made := members.newScope (x := (w.scope (w.inst x).scope).twin (w.inst x).scope _)
      rw [← scope] at made
      exact made.newCell (World.spares_newInstance _ _) (World.newInstance_new _ _)
        (World.writes_newInstance _ _)
    | _ => exact .refl w₁

/-! ## Deep copies of values -/

namespace World

/-- Along slots one comes from what was there before to nothing else. -/
theorem WellFormed.stays (h : w.WellFormed) (spares : w.Spares w₁) (there : a.In w.count)
    (way : ReflTransGen w₁.Holds a b) : b.In w.count := by
  induction way with
  | refl => exact there
  | tail _ last ih => exact h.there ((spares.holds ih).mp last)

theorem WellFormed.deepCopy_buds (h : w.WellFormed) (there : ∀ c ∈ v.cells, c.In w.count)
    (ends : v.Copyable w) : Buds w (w.deepCopy v).1.contents (w.deepCopy v).2 := by
  obtain ⟨n, ends⟩ := ends
  refine copyWithin_grafts h (w.size + 1) v w (.refl w) fun c hc => ?_
  obtain ⟨cell, kind⟩ := Value.mem_cells_of_contents hc
  have owner : c ∈ w.owners := mem_owners.mpr ⟨kind, there c cell⟩
  exact ⟨there c cell, (h.ends_size owner (ends c hc)).succ⟩

/-- A deep copy leaves everything as it is that was there before.  From the copy one comes to
nothing that is reached from the original, unless through a variable of an instance whose value
is flagged mutable. -/
theorem WellFormed.deepCopy_apart (h : w.WellFormed) (there : ∀ c ∈ v.cells, c.In w.count)
    (ends : v.Copyable w) :
    w.Spares (w.deepCopy v).2 ∧
      ∀ c ∈ (w.deepCopy v).1.contents, ∀ d, ReflTransGen (w.deepCopy v).2.Descends c d →
        ∀ e ∈ v.contents, ¬ ReflTransGen (w.deepCopy v).2.Holds e d := by
  have buds := h.deepCopy_buds there ends
  refine ⟨buds.spares, fun c hc d down e he way => ?_⟩
  have old : e.In w.count := there e (Value.mem_cells_of_contents he).1
  exact buds.away (buds.new hc) down (h.stays buds.spares old way)

end World

/-! ### A list in a mutable variable of an instance -/

/-- A class with a variable that is declared mutable and holds a list. -/
def bag : Statement :=
  ⟨.classDef ⟨"Bag", none,
    [⟨.declare ⟨"items", none, some (.ofTerm (.sequence .list [])), { isMutable := true }⟩,
        Span.none⟩,
      methodNamed "construct" []]⟩, Span.none⟩

/-- A list with an instance of the class. -/
def bagged : World :=
  ((Session.start {} Kit.host).reached 60
    [bag, declaring "l" (.sequence .list [.ofTerm (.call "Bag" [])])]).world

/-- The list that the variable `l` holds. -/
def packed : Value := ((bagged.binding? ⟨0⟩ "l").map (·.value)).getD .null

theorem bagged_sound : Sound (.full fun _ => True) bagged := by
  have obeys : Kit.host.Obeys (.full fun _ => True) := Kit.host_obeys fun _ _ => .inl trivial
  have admitted := Dialect.admits_of_sharing (D := .full fun _ => True) trivial
  obtain ⟨f, ready, -⟩ := Session.Reachable.reached kin_invariant kin_start (.start {} Kit.host)
    obeys (admitted _) 60
  exact ready.sound

/-- The copy of the list has an instance of its own, with a scope of its own, and from there the
way down goes on to nothing of the list that was copied. -/
theorem deepCopy_apart_bagged :
    ((bagged.deepCopy packed).1.contents = [⟨.list, 3⟩] ∧
      (bagged.deepCopy packed).2.Descends ⟨.list, 3⟩ ⟨.object, 3⟩ ∧
      (bagged.deepCopy packed).2.Descends ⟨.object, 3⟩ ⟨.scope, 7⟩) ∧
    bagged.Spares (bagged.deepCopy packed).2 ∧
      ∀ c ∈ (bagged.deepCopy packed).1.contents, ∀ d,
        ReflTransGen (bagged.deepCopy packed).2.Descends c d →
          ∀ e ∈ packed.contents, ¬ ReflTransGen (bagged.deepCopy packed).2.Holds e d :=
  ⟨⟨by decide +kernel, by decide +kernel, by decide +kernel⟩,
    World.WellFormed.deepCopy_apart bagged_sound.wellFormed (by decide +kernel)
      ⟨4, by decide +kernel⟩⟩

/-- Through the variable that is declared mutable one comes from both lists to the same list. -/
theorem not_deepCopy_apart_mutableMember :
    (bagged.binding? ⟨0⟩ "l").map (·.value.contents) = some packed.contents ∧
      ∃ c ∈ (bagged.deepCopy packed).1.contents, ∃ e ∈ packed.contents, ∃ d : Handle .list,
        ReflTransGen (bagged.deepCopy packed).2.Holds c d.cell ∧
          ReflTransGen (bagged.deepCopy packed).2.Holds e d.cell := by
  refine ⟨by decide +kernel, ⟨.list, 3⟩, by decide +kernel, ⟨.list, 2⟩, by decide +kernel, ⟨0⟩,
    ?_, ?_⟩
  · exact List.relationReflTransGen_of_exists_isChain_cons
      [⟨.object, 3⟩, ⟨.scope, 7⟩, ⟨.list, 0⟩] (by decide +kernel) rfl
  · exact List.relationReflTransGen_of_exists_isChain_cons
      [⟨.object, 2⟩, ⟨.scope, 6⟩, ⟨.list, 0⟩] (by decide +kernel) rfl

/-! ## Instances -/

/-- The copies of the members that are not static come to an end. -/
def World.Instantiable (w : World) (c : ClassId) : Prop :=
  ∀ b ∈ (w.scope (w.classOf c).scope).bindings.values, b.flags.isStatic = false →
    ∃ n, ∀ d ∈ b.value.owned, w.Ends n d

section Instances

variable {D : Dialect} {k : ClassId}

/-- A deep copy goes deep enough in any world with more cells. -/
theorem deepCopy_grafts (h : w.WellFormed) : Grafts w w.size fun v w => w.deepCopy v := by
  intro v w₁ spares inside
  have le : w.size ≤ w₁.size + 1 := Nat.le_succ_of_le (World.size_mono spares.count)
  exact copyWithin_grafts h (w₁.size + 1) v w₁ spares fun c hc =>
    ⟨(inside c hc).1, (inside c hc).2.mono le⟩

/-- The variables of a new instance are buds. -/
theorem Sound.members_buds (sound : Sound D w) (hk : k.In w.count) (ends : w.Instantiable k) :
    Buds (w.emptyMembers k).2 ((w.members k).1.values.flatMap fun b => b.value.owned)
      (w.members k).2 := by
  have h := sound.wellFormed
  have spares : w.Spares (w.emptyMembers k).2 := w.spares_newScope _
  refine (deepCopy_grafts h).mapBindings (fun v w => World.attrs_copyWithin _ v w)
    (fun b hb c hc => ?_) _ spares
  obtain ⟨e, he, rfl⟩ := List.mem_map.mp hb
  obtain ⟨he, dynamic⟩ := List.mem_filter.mp he
  have hb : e.2 ∈ (w.scope (w.classOf k).scope).bindings.values := List.mem_map_of_mem he
  have mem : c ∈ w.copied (w.classOf k).scope.cell := by
    rw [World.copied_scope]
    exact List.mem_flatMap.mpr ⟨e.2, hb, hc⟩
  have step : w.Descends (w.classOf k).scope.cell c := ⟨sound.classScope hk, mem⟩
  obtain ⟨n, ends⟩ := ends e.2 hb (by simpa using dynamic)
  exact ⟨h.there step.holds, h.ends_size (h.owner step.holds) (ends c hc)⟩

/-- What becomes of a new scope is no change of what was there before. -/
theorem World.Spares.setNew (spares : w.Spares w₁) {s : ScopeId} (new : ¬ s.In w.count)
    (x : Scope) : w.Spares (w₁.setScope s x) :=
  { spares with
    count := by rw [World.count_setScope]; exact spares.count
    scope := by
      intro t old
      have ne : t ≠ s := fun same => new (same ▸ old)
      rw [World.scope_setScope, if_neg fun both => ne both.1, spares.scope old] }

/-- A new instance is a bud. -/
theorem Sound.makeInstance_buds (sound : Sound D w) (hk : k.In w.count)
    (ends : w.Instantiable k) : Buds w [(w.makeInstance k).1.cell] (w.makeInstance k).2 := by
  have members := sound.members_buds hk ends
  have made : w.Spares (w.emptyMembers k).2 := w.spares_newScope _
  have new : ¬ (w.emptyMembers k).1.In w.count := w.derive_new _ _ _ _
  have there : (w.emptyMembers k).1.In (w.emptyMembers k).2.count := w.derive_in _ _ _ _
  have self : (w.furnished k).copied (w.emptyMembers k).1.cell =
      (w.members k).1.values.flatMap fun b => b.value.owned := by
    rw [World.copied_scope, sound.scope_furnished hk]
  have home : Buds w [(w.emptyMembers k).1.cell] (w.furnished k) := by
    refine ⟨(made.trans members.spares).setNew new _, fun {a} mem => ?_,
      fun {a b} newer step old => ?_⟩
    · exact List.mem_singleton.mp mem ▸ new
    · by_cases same : a = (w.emptyMembers k).1.cell
      · have top : b ∈ (w.members k).1.values.flatMap fun b => b.value.owned :=
          self ▸ same ▸ step.2
        exact members.new top (old.mono made.count)
      · -- apart from the scope of the instance, what is new is a copy
        have first : ¬ a.In (w.emptyMembers k).2.count := by
          intro there
          rw [World.emptyMembers, World.derive_eq, World.count_newScope] at there
          exact (Census.in_grow.mp there).elim newer same
        obtain ⟨there, mem⟩ := step
        rw [World.furnished, World.furnish, World.count_setScope] at there
        rw [World.furnished, World.furnish, World.copied_setScope _ _ same] at mem
        exact members.fresh first ⟨there, mem⟩ (old.mono made.count)
  rw [World.makeInstance_eq]
  exact home.newCell (World.spares_newInstance _ _) (World.newInstance_new _ _)
    (World.writes_newInstance _ _)

end Instances

/-! ### Changes that are not seen -/

/-- A world in which cells with the property may have been changed, and others been added. -/
structure World.Changes (w : World) (P : Cell → Prop) (w₁ : World) : Prop where
  count : w.count ≤ w₁.count
  values : ∀ {c}, c.In w.count → ¬ P c → w₁.values c = w.values c
  inst : ∀ {i : InstanceId}, i.In w.count → ¬ P i.cell → w₁.inst i = w.inst i

namespace World.Changes

variable {P : Cell → Prop}

theorem slots (h : w.Changes P w₁) (there : c.In w.count) (same : ¬ P c) :
    w₁.slots c = w.slots c := by
  refine slots_congr (h.values there same) fun object => ?_
  obtain ⟨k, i⟩ := c
  obtain rfl : k = .object := object
  exact h.inst (i := ⟨i⟩) there same

theorem copied (h : w.Changes P w₁) (there : c.In w.count) (same : ¬ P c) :
    w₁.copied c = w.copied c := by
  by_cases scope : c.kind = .scope
  · obtain ⟨k, i⟩ := c
    obtain rfl : k = .scope := scope
    exact congrArg (List.flatMap Value.owned) (h.values there same)
  · rw [copied_of_ne scope, copied_of_ne scope, h.slots there same]

end World.Changes

/-- Ways along which nothing has been changed lead to nothing else. -/
theorem follows {R S : Cell → Cell → Prop} {P : Cell → Prop} {n : Census} (there : a.In n)
    (closed : ∀ {b c}, R b c → c.In n) (same : ∀ {b c}, b.In n → ¬ P b → S b c → R b c)
    (apart : ∀ {d}, ReflTransGen R a d → ¬ P d) (way : ReflTransGen S a d) :
    ReflTransGen R a d ∧ d.In n := by
  induction way with
  | refl => exact ⟨.refl, there⟩
  | tail _ last ih =>
    have step := same ih.2 (apart ih.1) last
    exact ⟨ih.1.tail step, closed step⟩

/-- A cell and another one: from the other one comes to nothing that a deep copy of the first
comes to, and what is changed behind one of them is not seen from the other. -/
structure World.Aloof (w : World) (a b : Cell) : Prop where
  apart : ∀ {d}, ReflTransGen w.Descends a d → ¬ ReflTransGen w.Holds b d
  unseen : ∀ {w₁}, w.Changes (ReflTransGen w.Descends a) w₁ → ∀ {d}, ReflTransGen w₁.Holds b d →
    ReflTransGen w.Holds b d ∧ w₁.values d = w.values d
  unmoved : ∀ {w₁}, w.Changes (ReflTransGen w.Holds b) w₁ → ∀ {d}, ReflTransGen w₁.Descends a d →
    ReflTransGen w.Descends a d ∧ w₁.values d = w.values d

theorem World.WellFormed.aloof (h : w.WellFormed) (ha : a.In w.count) (hb : b.In w.count)
    (apart : ∀ {d}, ReflTransGen w.Descends a d → ¬ ReflTransGen w.Holds b d) : w.Aloof a b where
  apart := apart
  unseen {w₁} changes {d} way := by
    obtain ⟨way, there⟩ := follows hb h.there
      (fun there same step => ⟨there, changes.slots there same ▸ step.2⟩)
      (fun other own => apart own other) way
    exact ⟨way, changes.values there fun own => apart own way⟩
  unmoved {w₁} changes {d} way := by
    obtain ⟨way, there⟩ := follows ha (fun step => h.there (Descends.holds step))
      (fun there same step => ⟨there, changes.copied there same ▸ step.2⟩) apart way
    exact ⟨way, changes.values there (apart way)⟩

section Instances

variable {D : Dialect} {k : ClassId}

/-- An instance that has just been made changes nothing that was there before, and is aloof from
all of it: from other instances of its class and from the scope of the class. -/
theorem Sound.makeInstance_aloof (sound : Sound D w) (hk : k.In w.count)
    (ends : w.Instantiable k) :
    w.Spares (w.makeInstance k).2 ∧ (w.classOf k).scope.In w.count ∧
      ∀ c, c.In w.count → (w.makeInstance k).2.Aloof (w.makeInstance k).1.cell c := by
  have buds := sound.makeInstance_buds hk ends
  have made : (w.makeInstance k).2.WellFormed := (sound.makeInstance hk).1.wellFormed
  have there : (w.makeInstance k).1.In (w.makeInstance k).2.count := World.newInstance_in _ _
  refine ⟨buds.spares, sound.classScope hk, fun c old => ?_⟩
  refine made.aloof there (old.mono buds.spares.count) fun {d} down way => ?_
  exact buds.away (buds.new (List.mem_singleton_self _)) down
    (sound.wellFormed.stays buds.spares old way)

end Instances

/-! ### A list in a mutable variable of a class -/

/-- Next to the instance in the list another one of the same class is made: both have a scope,
and so has the class. -/
theorem makeInstance_aloof_bagged :
    ((bagged.inst ⟨2⟩).classId = ⟨0⟩ ∧ (bagged.makeInstance ⟨0⟩).1 = ⟨3⟩ ∧
      (bagged.makeInstance ⟨0⟩).2.Descends ⟨.object, 3⟩ ⟨.scope, 7⟩) ∧
    bagged.Spares (bagged.makeInstance ⟨0⟩).2 ∧ (bagged.classOf ⟨0⟩).scope.In bagged.count ∧
      ∀ c, c.In bagged.count →
        (bagged.makeInstance ⟨0⟩).2.Aloof (bagged.makeInstance ⟨0⟩).1.cell c := by
  have ends : bagged.Instantiable ⟨0⟩ := by
    have shallow : ∀ b ∈ (bagged.scope (bagged.classOf ⟨0⟩).scope).bindings.values,
        ∀ d ∈ b.value.owned, bagged.Ends 1 d := by decide +kernel
    exact fun b hb _ => ⟨1, shallow b hb⟩
  exact ⟨⟨by decide +kernel, by decide +kernel, by decide +kernel⟩,
    Sound.makeInstance_aloof bagged_sound (by decide +kernel) ends⟩

/-- Through the variable that is declared mutable one comes from both instances, and from the
scope of the class, to the same list. -/
theorem not_makeInstance_apart_mutableMember :
    (bagged.inst ⟨2⟩).classId = ⟨0⟩ ∧
      ((bagged.makeInstance ⟨0⟩).2.scope
        ((bagged.makeInstance ⟨0⟩).2.inst (bagged.makeInstance ⟨0⟩).1).scope).bindings.values.all
          (fun b => !b.flags.isStatic) = true ∧
      ∃ d : Handle .list,
        ReflTransGen (bagged.makeInstance ⟨0⟩).2.Holds (bagged.makeInstance ⟨0⟩).1.cell d.cell ∧
          ReflTransGen (bagged.makeInstance ⟨0⟩).2.Holds ⟨.object, 2⟩ d.cell ∧
          ReflTransGen (bagged.makeInstance ⟨0⟩).2.Holds (bagged.classOf ⟨0⟩).scope.cell d.cell := by
  have chain : ∀ {a b : Cell} (l : List Cell), (a :: l).IsChain (bagged.makeInstance ⟨0⟩).2.Holds →
      (a :: l).getLast (List.cons_ne_nil a l) = b →
      ReflTransGen (bagged.makeInstance ⟨0⟩).2.Holds a b :=
    fun l => List.relationReflTransGen_of_exists_isChain_cons l
  refine ⟨by decide +kernel, by decide +kernel, ⟨0⟩, ?_, ?_, ?_⟩
  · exact chain [⟨.scope, 7⟩, ⟨.list, 0⟩] (by decide +kernel) rfl
  · exact chain [⟨.scope, 6⟩, ⟨.list, 0⟩] (by decide +kernel) rfl
  · exact chain [⟨.list, 0⟩] (by decide +kernel) rfl

end ScopeLang
