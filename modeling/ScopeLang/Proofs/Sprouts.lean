/-
# Deep copies are trees

All cells of a deep copy are new, none of them sits in two slots, and the one on
top sits in none (`Sprouts`).  Copies are made one after the other and then put
into a new container; accordingly sprouts are joined (`Sprouts.trans`) and capped
(`Sprouts.cap`), and every copying function is one of the two or both.

The copy has to go down to the bottom, for one that runs out of depth ends in the
old cells.  It does where no cell reaches itself.
-/
import Mathlib.Data.List.Nodup
import ScopeLang.Proofs.Slots

namespace ScopeLang

open Relation

variable {D : Dialect} {w w₁ w₂ : World} {c : Cell} {roots : List Cell}

theorem nodup_of_subperm {α : Type} {xs ys : List α} (sub : xs.Subperm ys) (nodup : ys.Nodup) :
    xs.Nodup := by
  obtain ⟨zs, perm, sublist⟩ := sub
  exact perm.nodup_iff.mp (nodup.sublist sublist)

/-- A world with more cells.  Apart from the roots, which sit in no slot, every new cell sits in
one slot of another one, and none leads back to an old cell. -/
structure Sprouts (D : Dialect) (w : World) (roots : List Cell) (w₁ : World) : Prop where
  sound : Sound D w₁
  spares : w.Spares w₁
  fresh : ∀ {a b}, ¬ a.In w.count → w₁.Holds a b → ¬ b.In w.count
  nodup : ∀ {a}, ¬ a.In w.count → a.In w₁.count → (w₁.slots a).Nodup
  single : ∀ {a b d}, ¬ a.In w.count → ¬ b.In w.count → w₁.Holds a d → w₁.Holds b d → a = b
  acyclic : w.Acyclic → w₁.Acyclic
  distinct : roots.Nodup
  there : ∀ {r}, r ∈ roots → r.In w₁.count
  new : ∀ {r}, r ∈ roots → ¬ r.In w.count
  top : ∀ {r a}, r ∈ roots → ¬ w₁.Holds a r

namespace Sprouts

theorem refl (sound : Sound D w) : Sprouts D w [] w where
  sound := sound
  spares := .refl w
  fresh new held := absurd held.1 new
  nodup new there := absurd there new
  single new _ held := absurd held.1 new
  acyclic := id
  distinct := .nil
  there mem := absurd mem List.not_mem_nil
  new mem := absurd mem List.not_mem_nil
  top mem := absurd mem List.not_mem_nil

theorem trans {more : List Cell} (h : Sprouts D w roots w₁) (i : Sprouts D w₁ more w₂) :
    Sprouts D w (roots ++ more) w₂ := by
  have old : ∀ {a b}, a.In w₁.count → w₂.Holds a b → w₁.Holds a b :=
    fun there held => (i.spares.holds there).mp held
  have later : ∀ {c : Cell}, ¬ c.In w₁.count → ¬ c.In w.count :=
    fun new there => new (there.mono h.spares.count)
  -- both holders of a cell are as old as the cell
  have alike : ∀ {a b d}, a.In w₁.count → w₂.Holds a d → w₂.Holds b d → b.In w₁.count := by
    intro a b d there ha hb
    by_contra new
    exact i.fresh new hb ((old there ha).there h.sound)
  constructor
  case sound => exact i.sound
  case spares => exact h.spares.trans i.spares
  case fresh =>
    intro a b new held
    by_cases first : a.In w₁.count
    · exact h.fresh new (old first held)
    · exact later (i.fresh first held)
  case nodup =>
    intro a new there
    by_cases first : a.In w₁.count
    · rw [i.spares.slots first]
      exact h.nodup new first
    · exact i.nodup first there
  case single =>
    intro a b d newA newB ha hb
    by_cases first : a.In w₁.count
    · exact h.single newA newB (old first ha) (old (alike first ha hb) hb)
    · exact i.single first (fun there => first (alike there hb ha)) ha hb
  case acyclic => exact i.acyclic ∘ h.acyclic
  case distinct =>
    refine List.nodup_append'.mpr ⟨h.distinct, i.distinct, fun r hr mem => ?_⟩
    exact i.new mem (h.there hr)
  case there =>
    intro r hr
    rcases List.mem_append.mp hr with hr | hr
    · exact (h.there hr).mono i.spares.count
    · exact i.there hr
  case new =>
    intro r hr
    rcases List.mem_append.mp hr with hr | hr
    · exact h.new hr
    · exact later (i.new hr)
  case top =>
    intro r a hr held
    rcases List.mem_append.mp hr with hr | hr
    · by_cases first : a.In w₁.count
      · exact h.top hr (old first held)
      · exact i.fresh first held (h.there hr)
    · exact i.top hr held

/-- Some of the roots may be left alone. -/
theorem prune {fewer : List Cell} (h : Sprouts D w roots w₁) (sub : fewer.Subperm roots) :
    Sprouts D w fewer w₁ where
  sound := h.sound
  spares := h.spares
  fresh := h.fresh
  nodup := h.nodup
  single := h.single
  acyclic := h.acyclic
  distinct := nodup_of_subperm sub h.distinct
  there mem := h.there (sub.subset mem)
  new mem := h.new (sub.subset mem)
  top mem := h.top (sub.subset mem)

/-- The roots are put into one new cell. -/
theorem cap (h : Sprouts D w roots w₁) (sound : Sound D w₂) (spares : w₁.Spares w₂)
    (writes : w₁.Writes c roots w₂) (new : ¬ c.In w₁.count) : Sprouts D w [c] w₂ := by
  have unheld : ∀ {a}, ¬ w₁.Holds a c := fun held => new (held.there h.sound)
  have newer : ¬ c.In w.count := fun there => new (there.mono h.spares.count)
  constructor
  case sound => exact sound
  case spares => exact h.spares.trans spares
  case fresh =>
    intro a b newA held
    rcases writes.holds held with ⟨held, -⟩ | ⟨-, root⟩
    · exact h.fresh newA held
    · exact h.new root
  case nodup =>
    intro a newA there
    by_cases same : a = c
    · rw [same, writes.slots]
      exact h.distinct
    · rw [writes.other same]
      exact h.nodup newA ((writes.there.mp there).resolve_right same)
  case single =>
    intro a b d newA newB ha hb
    rcases writes.holds ha with ⟨ha, -⟩ | ⟨rfl, root⟩
    · rcases writes.holds hb with ⟨hb, -⟩ | ⟨rfl, root⟩
      · exact h.single newA newB ha hb
      · exact absurd ha (h.top root)
    · rcases writes.holds hb with ⟨hb, -⟩ | ⟨rfl, -⟩
      · exact absurd hb (h.top root)
      · rfl
  case acyclic =>
    intro acyclic
    refine acyclic_of_edges (x := c) (Y := (· ∈ roots)) (fun a b held => ?_) (h.acyclic acyclic) ?_
    · exact (writes.holds held).imp_left And.left
    · -- nothing leads to the new cell, which is none of the roots
      intro r root way
      rcases ReflTransGen.cases_tail way with same | ⟨a, -, held⟩
      · exact new (same ▸ h.there root)
      · exact unheld held
  case distinct => exact List.nodup_singleton c
  case there =>
    intro r hr
    rw [List.mem_singleton.mp hr]
    exact writes.there.mpr (.inr rfl)
  case new =>
    intro r hr
    rw [List.mem_singleton.mp hr]
    exact newer
  case top =>
    intro r a hr held
    rw [List.mem_singleton.mp hr] at held
    rcases writes.holds held with ⟨held, -⟩ | ⟨-, root⟩
    · exact unheld held
    · exact new (h.there root)

theorem newScope {x : Scope} (h : Sprouts D w (bindingContents x.bindings) w₁)
    (sound : Sound D (w₁.newScope x).2) :
    Sprouts D w [(w₁.newScope x).1.cell] (w₁.newScope x).2 :=
  h.cap sound (w₁.spares_newScope x) (w₁.writes_newScope x) (w₁.newScope_new x)

theorem newItems {xs : List Value} (h : Sprouts D w (xs.flatMap Value.contents) w₁)
    (sound : Sound D (w₁.newItems xs).2) :
    Sprouts D w [(w₁.newItems xs).1.cell] (w₁.newItems xs).2 :=
  h.cap sound (w₁.spares_newItems xs) (w₁.writes_newItems xs) (w₁.newItems_new xs)

theorem newEntries {es : List (Value × Value)} (h : Sprouts D w (es.flatMap fun e => e.1.contents ++ e.2.contents) w₁)
    (sound : Sound D (w₁.newEntries es).2) :
    Sprouts D w [(w₁.newEntries es).1.cell] (w₁.newEntries es).2 :=
  h.cap sound (w₁.spares_newEntries es) (w₁.writes_newEntries es) (w₁.newEntries_new es)

theorem newElements {xs : List Value} (h : Sprouts D w (xs.flatMap Value.contents) w₁)
    (sound : Sound D (w₁.newElements xs).2) :
    Sprouts D w [(w₁.newElements xs).1.cell] (w₁.newElements xs).2 :=
  h.cap sound (w₁.spares_newElements xs) (w₁.writes_newElements xs) (w₁.newElements_new xs)

theorem newInstance {x : Instance} (h : Sprouts D w [x.scope.cell] w₁)
    (sound : Sound D (w₁.newInstance x).2) :
    Sprouts D w [(w₁.newInstance x).1.cell] (w₁.newInstance x).2 :=
  h.cap sound (w₁.spares_newInstance x) (w₁.writes_newInstance x) (w₁.newInstance_new x)

/-- From a new cell one comes to new cells only. -/
theorem away (h : Sprouts D w roots w₁) {a b : Cell} (new : ¬ a.In w.count)
    (way : ReflTransGen w₁.Holds a b) : ¬ b.In w.count := by
  induction way with
  | refl => exact new
  | tail _ last ih => exact h.fresh ih last

end Sprouts

/-- A key and its value are values of the dictionary. -/
theorem World.mem_values_of_entry {h : Handle .dict} {e : Value × Value} (he : e ∈ w.entries h) :
    e.1 ∈ w.values h.cell ∧ e.2 ∈ w.values h.cell :=
  ⟨List.mem_flatMap.mpr ⟨e, he, by simp⟩, List.mem_flatMap.mpr ⟨e, he, by simp⟩⟩

/-! ## Copying several values -/

/-- Items copied one after the other; `cells` are the cells on top of a copy. -/
theorem mapState_sprouts {α β : Type} {f : α → World → β × World} (cells : β → List Cell)
    (items : List α)
    (each : ∀ a ∈ items, ∀ w₁ roots, Sprouts D w roots w₁ →
      Sprouts D w₁ (cells (f a w₁).1) (f a w₁).2) :
    ∀ {w₁ roots}, Sprouts D w roots w₁ →
      Sprouts D w₁ ((mapState f items w₁).1.flatMap cells) (mapState f items w₁).2 := by
  induction items with
  | nil => exact fun h => .refl h.sound
  | cons a rest ih =>
    intro w₁ roots h
    have first := each a List.mem_cons_self w₁ roots h
    have others := ih (fun x hx => each x (List.mem_cons_of_mem a hx)) (h.trans first)
    exact first.trans others

/-- The variables of a table, each with its value copied. -/
theorem mapBindings_sprouts {copy : Value → World → Value × World} {t : Table Binding}
    (sound : Sound D w)
    (each : ∀ b ∈ t.values, ∀ w₁ roots, Sprouts D w roots w₁ →
      Sprouts D w₁ (copy b.value w₁).1.contents (copy b.value w₁).2) :
    Sprouts D w (bindingContents (mapBindings copy t w).1) (mapBindings copy t w).2 := by
  have made := mapState_sprouts (fun e : String × Binding => e.2.value.contents) t.entries
    (f := fun e w =>
      ((e.1, { e.2 with value := (copy e.2.value w).1 }), (copy e.2.value w).2))
    (fun e he => each e.2 (List.mem_map_of_mem he)) (.refl sound)
  rw [bindingContents, Table.values, List.flatMap_map]
  exact made

/-! ## Deep copies -/

/-- A way of copying values that are nested at most `n` deep: the copies are trees. -/
def Plants (D : Dialect) (n : Nat) (copy : Value → World → Value × World) : Prop :=
  ∀ v w, Sound D w → v.Ok D w.count → v.Within w n →
    Sprouts D w (copy v w).1.contents (copy v w).2

section Copying

variable {n : Nat} {v : Value} {copy : Value → World → Value × World}

/-- A value can be copied as well when others have been copied before. -/
theorem Plants.later (h : Plants D n copy) (sound : Sound D w) (ok : v.Ok D w.count)
    (within : v.Within w n) (w₁ : World) (roots : List Cell) (s : Sprouts D w roots w₁) :
    Sprouts D w₁ (copy v w₁).1.contents (copy v w₁).2 :=
  h v w₁ s.sound (ok.mono s.spares.count) (within.later sound s.spares ok)

/-- Where nothing is shared on purpose, duplicating is copying. -/
theorem Plants.duplicateBy (fixed : ¬ D.sharing) (h : Plants D n copy) :
    Plants D n (duplicateBy copy) := by
  intro v w sound ok within
  rw [ScopeLang.duplicateBy, if_neg fun shared => fixed (ok.shared shared)]
  exact h v w sound ok within

/-- A copy of a scope has one new scope on top. -/
theorem Plants.duplicateScopeBy (fixed : ¬ D.sharing) (h : Plants D n copy) (copies : Copies D copy)
    (sound : Sound D w) {s : ScopeId} (hs : s.In w.count) (within : w.Within (n + 1) s.cell) :
    Sprouts D w [(duplicateScopeBy copy s w).1.cell] (duplicateScopeBy copy s w).2 := by
  have tables : Sprouts D w _ (mapBindings (ScopeLang.duplicateBy copy) (w.scope s).bindings w).2 :=
    mapBindings_sprouts sound fun b hb => (h.duplicateBy fixed).later sound (sound.binding hb)
      (.of_cell within nofun (List.mem_map_of_mem hb))
  have copied := (duplicateScopeBy_copies copies sound hs).1.sound
  exact tables.newScope (x := (w.scope s).twin s _) copied

theorem copyWithin_plants (fixed : ¬ D.sharing) : ∀ n, Plants D n (World.copyWithin n)
  | 0 => by
    intro v w sound _ within
    have empty : v.contents = [] := List.eq_nil_iff_forall_not_mem.mpr within
    rw [World.copyWithin, empty]
    exact .refl sound
  | n + 1 => by
    have ih : Plants D n (World.copyWithin n) := copyWithin_plants fixed n
    intro v w sound ok within
    have copied := (copyWithin_copies (n + 1) v w sound ok).1.sound
    obtain ⟨d, a⟩ := v
    cases d with
    | list h =>
      have inner : w.Within (n + 1) h.cell := within h.cell (List.mem_singleton_self _)
      rw [World.copyWithin_list] at copied ⊢
      refine Sprouts.newItems (mapState_sprouts _ (w.items h) (fun x hx => ?_) (.refl sound)) copied
      exact ih.later sound (sound.item hx) (.of_cell inner nofun hx)
    | array h =>
      have inner : w.Within (n + 1) h.cell := within h.cell (List.mem_singleton_self _)
      rw [World.copyWithin_array] at copied ⊢
      refine Sprouts.newItems (mapState_sprouts _ (w.items h) (fun x hx => ?_) (.refl sound)) copied
      exact ih.later sound (sound.item hx) (.of_cell inner nofun hx)
    | dict h =>
      have inner : w.Within (n + 1) h.cell := within h.cell (List.mem_singleton_self _)
      rw [World.copyWithin_dict] at copied ⊢
      refine Sprouts.newEntries (mapState_sprouts _ (w.entries h) (fun e he w₁ roots s => ?_)
        (.refl sound)) copied
      obtain ⟨key, value⟩ := World.mem_values_of_entry he
      have first := ih.later sound (sound.entry he).1 (.of_cell inner nofun key) w₁ roots s
      exact first.trans (ih.later sound (sound.entry he).2 (.of_cell inner nofun value) _ _
        (s.trans first))
    | set h =>
      have inner : w.Within (n + 1) h.cell := within h.cell (List.mem_singleton_self _)
      rw [World.copyWithin_set] at copied ⊢
      refine Sprouts.newElements (mapState_sprouts _ (w.elements h) (fun x hx => ?_) (.refl sound)) copied
      exact ih.later sound (sound.element hx) (.of_cell inner nofun hx)
    | object h =>
      have there : h.In w.count := ok.cells h.cell (by simp [Value.cells, Datum.cell?])
      have home : w.Within n (w.inst h).scope.cell :=
        within h.cell (List.mem_singleton_self _) _ (List.mem_singleton_self _)
      rw [World.copyWithin_object] at copied ⊢
      have scope := ih.duplicateScopeBy fixed (copyWithin_copies n) sound (sound.home there) home.succ
      exact scope.newInstance copied
    | _ => exact .refl sound

end Copying

/-! ## Copies that are stored -/

section Stored

variable {v : Value}

theorem deepCopy_sprouts (fixed : ¬ D.sharing) (acyclic : w.Acyclic) (sound : Sound D w)
    (ok : v.Ok D w.count) : Sprouts D w (w.deepCopy v).1.contents (w.deepCopy v).2 :=
  copyWithin_plants fixed _ v w sound ok fun c hc => (acyclic.value_within sound ok c hc).succ

theorem duplicate_sprouts (fixed : ¬ D.sharing) (acyclic : w.Acyclic) (sound : Sound D w)
    (ok : v.Ok D w.count) : Sprouts D w (w.duplicate v).1.contents (w.duplicate v).2 := by
  rw [World.duplicate, duplicateBy, if_neg fun shared => fixed (ok.shared shared)]
  exact deepCopy_sprouts fixed acyclic sound ok

theorem prepare_sprouts (fixed : ¬ D.sharing) (acyclic : w.Acyclic) (sound : Sound D w)
    {b : Binding} (flags : b.flags.isMutable = true → D.sharing) (ok : v.Ok D w.count) :
    Sprouts D w (b.prepare v w).1.contents (b.prepare v w).2 := by
  rw [Binding.prepare, if_neg fun shared => fixed (flags shared)]
  exact duplicate_sprouts fixed acyclic sound ok

/-- A variable that is put into a table adds its contents at most. -/
theorem bindingContents_insert (t : Table Binding) (name : String) (b : Binding) :
    (bindingContents (t.insert name b)).Subperm (bindingContents t ++ b.value.contents) := by
  have put : ∀ entries : List (String × Binding),
      (((Table.put name b entries).map (·.2)).flatMap fun b => b.value.contents).Subperm
        (((entries.map (·.2)).flatMap fun b => b.value.contents) ++ b.value.contents) := by
    intro entries
    rw [List.subperm_iff_count]
    intro c
    induction entries with
    | nil => simp [Table.put]
    | cons e rest ih =>
      obtain ⟨other, a⟩ := e
      simp only [Table.put, List.map_cons, List.flatMap_cons, List.count_append] at ih ⊢
      split <;> simp only [List.map_cons, List.flatMap_cons, List.count_append] <;> omega
  exact put t.entries

theorem captureVariables_sprouts (fixed : ¬ D.sharing) (acyclic : w.Acyclic) (sound : Sound D w)
    (t : ScopeId) (names : List String) :
    Sprouts D w (bindingContents (w.captureVariables t names).1)
      (w.captureVariables t names).2 := by
  induction names with
  | nil => exact .refl sound
  | cons name rest ih =>
    simp only [World.captureVariables]
    generalize w.captureVariables t rest = made at ih ⊢
    obtain ⟨captured, w₁⟩ := made
    cases found : w₁.binding? t name with
    | none => exact ih
    | some a =>
      obtain ⟨u, -, local_⟩ := World.localBinding?_of_binding? found
      have ok : a.value.Ok D w₁.count :=
        ih.sound.binding (World.mem_values_of_localBinding? local_)
      have copied := deepCopy_sprouts fixed (ih.acyclic acyclic) ih.sound ok
      exact (ih.trans copied).prune (bindingContents_insert captured name _)

/-- The variables of a new instance. -/
theorem members_sprouts (fixed : ¬ D.sharing) (acyclic : w.Acyclic) (sound : Sound D w)
    {t : Table Binding} (ok : ∀ b ∈ t.values, b.value.Ok D w.count) :
    Sprouts D w (bindingContents (mapBindings (fun v w => w.duplicate v) t w).1)
      (mapBindings (fun v w => w.duplicate v) t w).2 :=
  mapBindings_sprouts sound fun b hb _ _ s =>
    duplicate_sprouts fixed (s.acyclic acyclic) s.sound ((ok b hb).mono s.spares.count)

end Stored

end ScopeLang
