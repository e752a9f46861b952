/-
# Lost cells

A link that owns nothing, such as the one to the parent of a scope, is followed
only while its target is alive.  Assigning variables and filling containers can
end the life of a cell that nothing else owns.  Two sorts of cells it cannot
touch: one is `Kept` by what is held without the help of variables and
containers, and one that is not alive is lost for good.

The second needs an argument.  What is not lost owns nothing that is lost
(`World.Sealed`), every value that is at hand is not lost, and so no value is
ever put anywhere by which a lost cell would be owned again.
-/
import ScopeLang.Proofs.Amendments

namespace ScopeLang

variable {w w₁ w₂ : World} {lost : Cell → Prop} {P : ScopeId → Prop} {mine : Cell → Prop}
  {a c d : Cell} {v : Value} {vs : List Value}

/-! ## What cells own -/

theorem mem_cells_scope {x : Scope} :
    d ∈ x.cells ↔ d ∈ x.outline.cells ∨ ∃ b ∈ x.bindings.values, d ∈ b.value.cells := by
  simp only [Scope.cells, Scope.outline, Binding.cells, List.mem_append, List.mem_flatMap,
    Table.values, Table.empty, List.map_nil, List.not_mem_nil, false_and, exists_false, or_false]
  grind

/-- A twin owns the entries of the local tables, but no children and no globals. -/
theorem mem_cells_twin {x : Scope} {h : ScopeId} {t : Table Binding}
    (hd : d ∈ (x.twin h t).outline.cells) : d ∈ x.outline.cells := by
  have globals : (x.globals.share h).cells = [] := by
    cases x.globals with
    | owned functions classes => rfl
    | shared root => rfl
  simp only [Scope.cells, Scope.outline, Scope.twin, globals, List.mem_append, List.map_nil,
    List.not_mem_nil, or_false, false_or] at hd ⊢
  grind

namespace World

theorem owned_of_container (kind : c.kind.isContainer = true) :
    w.owned c = (w.values c).flatMap Value.cells := by
  obtain ⟨k, i⟩ := c
  cases k with
  | list => rfl
  | set => rfl
  | dict =>
    simp only [owned, values, List.flatMap_assoc, List.flatMap_cons, List.flatMap_nil,
      List.append_nil]
  | _ => cases kind

/-- A cell owns the cells of its values. -/
theorem mem_owned_of_value (hv : v ∈ w.values a) (hd : d ∈ v.cells) : d ∈ w.owned a := by
  by_cases kind : a.kind.isContainer = true
  · rw [owned_of_container kind]
    exact List.mem_flatMap.mpr ⟨v, hv, hd⟩
  · obtain ⟨k, i⟩ := a
    cases k with
    | scope =>
      obtain ⟨b, hb, rfl⟩ := List.mem_map.mp hv
      exact mem_cells_scope.mpr (.inr ⟨b, hb, hd⟩)
    | list | dict | set => exact absurd rfl kind
    | _ => cases hv

/-- What a cell owns depends on its scope, its values or its instance. -/
theorem owned_congr (functions : w₁.functions = w.functions) (classes : w₁.classes = w.classes)
    (overloads : w₁.overloads = w.overloads)
    (scope : c.kind = .scope → w₁.scope ⟨c.index⟩ = w.scope ⟨c.index⟩)
    (values : c.kind.isContainer = true → w₁.values c = w.values c)
    (inst : c.kind = .object → w₁.inst ⟨c.index⟩ = w.inst ⟨c.index⟩) : w₁.owned c = w.owned c := by
  by_cases kind : c.kind.isContainer = true
  · rw [owned_of_container kind, owned_of_container kind, values kind]
  · obtain ⟨k, i⟩ := c
    cases k with
    | scope => exact congrArg Scope.cells (scope rfl)
    | object => exact congrArg Instance.cells (inst rfl)
    | function => simp only [owned, function, functions]
    | classObject => simp only [owned, classOf, classes]
    | overloads => simp only [owned, overloadSet, overloads]
    | list | dict | set => exact absurd rfl kind
    | method | types => rfl

end World

/-! ## Sealing off what is lost -/

/-- A value whose cells are there and not lost. -/
def Value.Present (lost : Cell → Prop) (w : World) (v : Value) : Prop :=
  ∀ c ∈ v.cells, c.In w.count ∧ ¬ lost c

/-- What is there and not lost owns nothing that is lost, and what values and instances refer to
is there. -/
structure World.Sealed (lost : Cell → Prop) (w : World) : Prop where
  old : ∀ {c}, lost c → c.In w.count
  owned : ∀ {a d}, a.In w.count → ¬ lost a → d ∈ w.owned a → ¬ lost d
  values : ∀ {a v d}, v ∈ w.values a → d ∈ v.cells → d.In w.count
  home : ∀ {i}, i.In w.count → (w.inst i).scope.In w.count

theorem Value.Present.mono (le : w.count ≤ w₁.count) (h : v.Present lost w) : v.Present lost w₁ :=
  fun c hc => ⟨(h c hc).1.mono le, (h c hc).2⟩

/-- A value that is one new cell. -/
theorem Value.present_new (cells : v.cells = [c]) (there : c.In w.count) (new : ¬ lost c) :
    v.Present lost w := fun d hd => by
  rw [cells, List.mem_singleton] at hd
  exact hd ▸ ⟨there, new⟩

namespace World.Sealed

theorem new (h : w.Sealed lost) (absent : ¬ c.In w.count) : ¬ lost c := fun l => absent (h.old l)

theorem value (h : w.Sealed lost) (there : a.In w.count) (found : ¬ lost a) (hv : v ∈ w.values a) :
    v.Present lost w := fun _ hd =>
  ⟨h.values hv hd, h.owned there found (mem_owned_of_value hv hd)⟩

theorem binding (h : w.Sealed lost) {s : ScopeId} (there : s.In w.count) (found : ¬ lost s.cell)
    {b : Binding} (hb : b ∈ (w.scope s).bindings.values) : b.value.Present lost w :=
  h.value (a := s.cell) there found (List.mem_map_of_mem hb)

theorem hold (h : w.Sealed lost) {cells : List Cell} : (w.hold cells).Sealed lost :=
  ⟨h.old, h.owned, h.values, h.home⟩

/-- The scope of an instance is there, and not lost if the instance is not. -/
theorem inner (h : w.Sealed lost) {i : InstanceId} (there : i.In w.count) (found : ¬ lost i.cell) :
    (w.inst i).scope.In w.count ∧ ¬ lost (w.inst i).scope.cell := by
  have own : (w.inst i).scope.cell ∈ (w.inst i).cells := List.mem_cons_of_mem _ List.mem_cons_self
  exact ⟨h.home there, h.owned (a := i.cell) there found own⟩

/-- A container is filled with values at hand. -/
theorem fill (h : w.Sealed lost) (fills : w.Fills c vs w₁) (kind : c.kind.isContainer = true)
    (present : ∀ v ∈ vs, v.Present lost w) : w₁.Sealed lost := by
  have same : ∀ {i : InstanceId}, w₁.inst i = w.inst i := by
    intro i
    rw [inst, fills.instances]
    rfl
  constructor
  case old => exact fun l => (h.old l).mono fills.count
  case owned =>
    intro a d there found hd
    by_cases filled : a = c
    · subst filled
      rw [owned_of_container kind, fills.values] at hd
      obtain ⟨v, hv, hd⟩ := List.mem_flatMap.mp hd
      exact (present v hv d hd).2
    · have same : w₁.owned a = w.owned a :=
        owned_congr fills.functions fills.classes fills.overloads
          (fun _ => by rw [scope, fills.scopes]; rfl) (fun _ => fills.other filled) fun _ => same
      exact h.owned ((fills.only.mp there).resolve_right filled) found (same ▸ hd)
  case values =>
    intro a v d hv hd
    by_cases filled : a = c
    · subst filled
      rw [fills.values] at hv
      exact (present v hv d hd).1.mono fills.count
    · rw [fills.other filled] at hv
      exact (h.values hv hd).mono fills.count
  case home =>
    intro i there
    have old : i.In w.count := by
      refine (fills.only (d := i.cell).mp there).resolve_right ?_
      rintro rfl
      cases kind
    rw [same]
    exact (h.home old).mono fills.count

/-- A new scope has values at hand, and tables in which nothing is lost. -/
theorem newScope (h : w.Sealed lost) {x : Scope} (outline : ∀ d ∈ x.outline.cells, ¬ lost d)
    (present : ∀ b ∈ x.bindings.values, b.value.Present lost w) : (w.newScope x).2.Sealed lost := by
  have count := (w.spares_newScope x).count
  constructor
  case old => exact fun l => (h.old l).mono count
  case owned =>
    intro a d there found hd
    rw [count_newScope, Census.in_grow] at there
    by_cases made : a = ⟨.scope, w.count .scope⟩
    · subst made
      have cells : d ∈ x.cells := by
        have read := w.scope_newScope x ⟨w.count .scope⟩
        rw [if_pos rfl] at read
        exact read ▸ hd
      rcases mem_cells_scope.mp cells with hd | ⟨b, hb, hd⟩
      · exact outline d hd
      · exact (present b hb d hd).2
    · have same : (w.newScope x).2.owned a = w.owned a := by
        refine owned_congr rfl rfl rfl (fun kind => ?_) (fun _ => ?_) fun _ => rfl
        · rw [scope_newScope, if_neg fun e => made ?_]
          obtain ⟨k, i⟩ := a
          obtain rfl : k = .scope := kind
          exact congrArg (Cell.mk .scope) e
        · rw [values_newScope, if_neg made]
      exact h.owned (there.resolve_right made) found (same ▸ hd)
  case values =>
    intro a v d hv hd
    rw [values_newScope] at hv
    split at hv
    · obtain ⟨b, hb, rfl⟩ := List.mem_map.mp hv
      exact (present b hb d hd).1.mono count
    · exact (h.values hv hd).mono count
  case home =>
    intro i there
    rw [count_newScope, Handle.In, Census.grow, if_neg (by simp)] at there
    exact (h.home there).mono count

/-- A scope is given other cells, none of which is lost. -/
theorem putScope (h : w.Sealed lost) {s : ScopeId} {x : Scope}
    (found : s.In w.count → ¬ lost s.cell → ∀ d ∈ x.cells, ¬ lost d)
    (there : ∀ b ∈ x.bindings.values, ∀ d ∈ b.value.cells, d.In w.count) :
    (w.setScope s x).Sealed lost := by
  have count := w.count_setScope s x
  constructor
  case old => exact fun l => count ▸ h.old l
  case owned =>
    intro a d inside kept hd
    rw [count] at inside
    by_cases set : a = s.cell ∧ s.In w.count
    · obtain ⟨rfl, hs⟩ := set
      have read := w.scope_setScope s s x
      rw [if_pos ⟨rfl, hs⟩] at read
      exact found hs kept d (read ▸ hd)
    · have same : (w.setScope s x).owned a = w.owned a := by
        refine owned_congr rfl rfl rfl (fun kind => ?_) (fun _ => ?_) fun _ => rfl
        · rw [scope_setScope, if_neg]
          rintro ⟨rfl, hs⟩
          obtain ⟨k, i⟩ := a
          obtain rfl : k = .scope := kind
          exact set ⟨rfl, hs⟩
        · rw [values_setScope, if_neg set]
      exact h.owned inside kept (same ▸ hd)
  case values =>
    intro a v d hv hd
    rw [count]
    rw [values_setScope] at hv
    split at hv
    · obtain ⟨b, hb, rfl⟩ := List.mem_map.mp hv
      exact there b hb d hd
    · exact h.values hv hd
  case home =>
    intro i inside
    rw [count] at inside ⊢
    exact h.home inside

/-- A scope is given other variables with values at hand. -/
theorem setScope (h : w.Sealed lost) {s : ScopeId} {x : Scope}
    (outline : x.outline = (w.scope s).outline)
    (present : ∀ b ∈ x.bindings.values, b.value.Present lost w) : (w.setScope s x).Sealed lost := by
  refine h.putScope (fun inside kept d hd => ?_) fun b hb d hd => (present b hb d hd).1
  rcases mem_cells_scope.mp hd with hd | ⟨b, hb, hd⟩
  · rw [outline] at hd
    exact h.owned (a := s.cell) inside kept (mem_cells_scope.mpr (.inl hd))
  · exact (present b hb d hd).2

/-- A new instance owns nothing that is lost. -/
theorem newInstance (h : w.Sealed lost) {x : Instance} (cells : ∀ d ∈ x.cells, ¬ lost d)
    (home : x.scope.In w.count) : (w.newInstance x).2.Sealed lost := by
  have count := (w.spares_newInstance x).count
  constructor
  case old => exact fun l => (h.old l).mono count
  case owned =>
    intro a d there found hd
    rw [count_newInstance, Census.in_grow] at there
    by_cases made : a = ⟨.object, w.count .object⟩
    · subst made
      refine cells d ?_
      have read := w.inst_newInstance x ⟨w.count .object⟩
      rw [if_pos rfl] at read
      exact read ▸ hd
    · have same : (w.newInstance x).2.owned a = w.owned a := by
        refine owned_congr rfl rfl rfl (fun _ => rfl) (fun _ => rfl) fun kind => ?_
        rw [inst_newInstance, if_neg fun e => made ?_]
        obtain ⟨k, i⟩ := a
        obtain rfl : k = .object := kind
        exact congrArg (Cell.mk .object) e
      exact h.owned (there.resolve_right made) found (same ▸ hd)
  case values => exact fun hv hd => (h.values hv hd).mono count
  case home =>
    intro i there
    rw [inst_newInstance]
    split
    · exact home.mono count
    · rename_i ne
      rw [count_newInstance] at there
      exact (h.home (Census.in_of_grow there ne)).mono count

end World.Sealed

/-! ## Copies -/

/-- A way of copying that keeps what is lost sealed off. -/
def Guards (lost : Cell → Prop) (copy : Value → World → Value × World) : Prop :=
  ∀ v w, w.Sealed lost → v.Present lost w →
    w.Amends Nowhere Nowhere (copy v w).2 ∧ (copy v w).2.Sealed lost ∧
      (copy v w).1.Present lost (copy v w).2

/-- Several copies, one after the other, that keep `I`; `Q` says what is known of each that has been
made. -/
theorem mapState_kept {α γ : Type} {f : α → World → γ × World} {I : World → Prop}
    {Q : World → γ → Prop}
    (later : ∀ {w w₁ b}, I w → w.Amends Nowhere Nowhere w₁ → Q w b → Q w₁ b)
    (items : List α) (each : ∀ a ∈ items, ∀ w₁, w.Amends Nowhere Nowhere w₁ → I w₁ →
      w₁.Amends Nowhere Nowhere (f a w₁).2 ∧ I (f a w₁).2 ∧ Q (f a w₁).2 (f a w₁).1) :
    ∀ {w₁}, w.Amends Nowhere Nowhere w₁ → I w₁ →
      w₁.Amends Nowhere Nowhere (mapState f items w₁).2 ∧ I (mapState f items w₁).2 ∧
        ∀ b ∈ (mapState f items w₁).1, Q (mapState f items w₁).2 b := by
  induction items with
  | nil => exact fun _ h => ⟨.refl _, h, fun _ hb => absurd hb List.not_mem_nil⟩
  | cons a rest ih =>
    intro w₁ amends h
    obtain ⟨first, kept, good⟩ := each a List.mem_cons_self w₁ amends h
    obtain ⟨others, kept', all⟩ :=
      ih (fun x hx => each x (List.mem_cons_of_mem a hx)) (amends.also first) kept
    refine ⟨first.also others, kept', fun b hb => ?_⟩
    rcases List.mem_cons.mp hb with rfl | hb
    · exact later kept others good
    · exact all b hb

/-- Copies that keep what is lost sealed off. -/
theorem mapState_sealed {α γ : Type} {f : α → World → γ × World} {Q : World → γ → Prop}
    (later : ∀ {w w₁ b}, w.Sealed lost → w.Amends Nowhere Nowhere w₁ → Q w b → Q w₁ b)
    (items : List α) (each : ∀ a ∈ items, ∀ w₁, w.Amends Nowhere Nowhere w₁ → w₁.Sealed lost →
      w₁.Amends Nowhere Nowhere (f a w₁).2 ∧ (f a w₁).2.Sealed lost ∧ Q (f a w₁).2 (f a w₁).1) :
    ∀ {w₁}, w.Amends Nowhere Nowhere w₁ → w₁.Sealed lost →
      w₁.Amends Nowhere Nowhere (mapState f items w₁).2 ∧ (mapState f items w₁).2.Sealed lost ∧
        ∀ b ∈ (mapState f items w₁).1, Q (mapState f items w₁).2 b :=
  mapState_kept (I := World.Sealed lost) (Q := Q) later items each

namespace Guards

variable {copy : Value → World → Value × World}

theorem values (h : Guards lost copy) (sealed : w.Sealed lost) {vs : List Value}
    (present : ∀ v ∈ vs, v.Present lost w) :
    (mapState copy vs w).2.Sealed lost ∧
      ∀ v ∈ (mapState copy vs w).1, v.Present lost (mapState copy vs w).2 :=
  (mapState_sealed (Q := fun w (v : Value) => v.Present lost w) (fun _ g p => p.mono g.count) vs
    (fun v hv w₁ g s => h v w₁ s ((present v hv).mono g.count)) (.refl w) sealed).2

theorem entry (h : Guards lost copy) {e : Value × Value} (sealed : w.Sealed lost)
    (key : e.1.Present lost w) (value : e.2.Present lost w) :
    w.Amends Nowhere Nowhere (copyEntry copy e w).2 ∧ (copyEntry copy e w).2.Sealed lost ∧
      (copyEntry copy e w).1.1.Present lost (copyEntry copy e w).2 ∧
        (copyEntry copy e w).1.2.Present lost (copyEntry copy e w).2 := by
  obtain ⟨g, sealed, first⟩ := h e.1 w sealed key
  obtain ⟨g', sealed, second⟩ := h e.2 _ sealed (value.mono g.count)
  exact ⟨g.also g', sealed, first.mono g'.count, second⟩

theorem duplicateBy (h : Guards lost copy) : Guards lost (duplicateBy copy) := by
  intro v w sealed present
  simp only [ScopeLang.duplicateBy]
  split
  · exact ⟨.refl w, sealed, present⟩
  · exact h v w sealed present

/-- The variables of a table, copied one after the other. -/
theorem mapBindings (h : Guards lost copy) (sealed : w.Sealed lost) {t : Table Binding}
    (present : ∀ b ∈ t.values, b.value.Present lost w) :
    w.Amends Nowhere Nowhere (ScopeLang.mapBindings copy t w).2 ∧
      (ScopeLang.mapBindings copy t w).2.Sealed lost ∧
        ∀ b ∈ (ScopeLang.mapBindings copy t w).1.values,
          b.value.Present lost (ScopeLang.mapBindings copy t w).2 := by
  have made := mapState_sealed (Q := fun w (e : String × Binding) => e.2.value.Present lost w)
    (fun _ g p => p.mono g.count) t.entries
    (f := fun e w => ((e.1, { e.2 with value := (copy e.2.value w).1 }), (copy e.2.value w).2))
    (fun e he w₁ g sealed₁ =>
      h e.2.value w₁ sealed₁ ((present e.2 (List.mem_map_of_mem he)).mono g.count)) (.refl w) sealed
  obtain ⟨amends, sealed₁, good⟩ := made
  refine ⟨amends, sealed₁, fun b hb => ?_⟩
  obtain ⟨e, he, rfl⟩ := List.mem_map.mp hb
  exact good e he

theorem duplicateScopeBy (h : Guards lost copy) (sealed : w.Sealed lost) {s : ScopeId}
    (there : s.In w.count) (found : ¬ lost s.cell) :
    (duplicateScopeBy copy s w).2.Sealed lost ∧
      (duplicateScopeBy copy s w).1.In (duplicateScopeBy copy s w).2.count ∧
        ¬ lost (duplicateScopeBy copy s w).1.cell := by
  obtain ⟨-, sealed₁, present⟩ := h.duplicateBy.mapBindings sealed fun b hb =>
    sealed.binding there found hb
  refine ⟨sealed₁.newScope (fun d hd => ?_) present, World.newScope_in _ _,
    sealed₁.new (World.newScope_new _ _)⟩
  exact sealed.owned (a := s.cell) there found (mem_cells_scope.mpr (.inl (mem_cells_twin hd)))

end Guards

/-- Deep copies keep what is lost sealed off. -/
theorem guards_copyWithin : ∀ n, Guards lost (World.copyWithin n)
  | 0 => fun _ w sealed present => ⟨.refl w, sealed, present⟩
  | n + 1 => by
    have ih : Guards lost (World.copyWithin n) := guards_copyWithin n
    intro v w sealed present
    refine ⟨World.amends_copyWithin _ v w, ?_⟩
    obtain ⟨d, a⟩ := v
    have top : ∀ c : Cell, d.cell? = some c → c.In w.count ∧ ¬ lost c := by
      intro c hc
      refine present c ?_
      rw [Value.cells, hc]
      exact List.mem_singleton_self c
    cases d with
    | list h =>
      obtain ⟨there, found⟩ := top h.cell rfl
      obtain ⟨made, good⟩ := ih.values sealed fun v (hv : v ∈ w.items h) =>
        sealed.value there found hv
      rw [World.copyWithin_list]
      exact ⟨made.fill (World.fills_newItems _ _) rfl good,
        Value.present_new rfl (World.newItems_in _ _) (made.new (World.newItems_new _ _))⟩
    | array h =>
      obtain ⟨there, found⟩ := top h.cell rfl
      obtain ⟨made, good⟩ := ih.values sealed fun v (hv : v ∈ w.items h) =>
        sealed.value there found hv
      rw [World.copyWithin_array]
      exact ⟨made.fill (World.fills_newItems _ _) rfl good,
        Value.present_new rfl (World.newItems_in _ _) (made.new (World.newItems_new _ _))⟩
    | dict h =>
      obtain ⟨there, found⟩ := top h.cell rfl
      have entries := mapState_sealed
        (Q := fun w (e : Value × Value) => e.1.Present lost w ∧ e.2.Present lost w)
        (fun _ g p => ⟨p.1.mono g.count, p.2.mono g.count⟩) (w.entries h)
        (f := copyEntry (World.copyWithin n)) (fun e he w₁ g sealed₁ => by
          obtain ⟨key, value⟩ := World.mem_values_of_entry he
          exact ih.entry sealed₁ ((sealed.value there found key).mono g.count)
            ((sealed.value there found value).mono g.count)) (.refl w) sealed
      obtain ⟨-, made, good⟩ := entries
      rw [World.copyWithin_dict]
      refine ⟨made.fill (World.fills_newEntries _ _) rfl fun v hv => ?_,
        Value.present_new rfl (World.newEntries_in _ _) (made.new (World.newEntries_new _ _))⟩
      obtain ⟨e, he, hv⟩ := List.mem_flatMap.mp hv
      simp only [List.mem_cons, List.not_mem_nil, or_false] at hv
      rcases hv with rfl | rfl
      · exact (good e he).1
      · exact (good e he).2
    | set h =>
      obtain ⟨there, found⟩ := top h.cell rfl
      obtain ⟨made, good⟩ := ih.values sealed fun v (hv : v ∈ w.elements h) =>
        sealed.value there found hv
      rw [World.copyWithin_set]
      exact ⟨made.fill (World.fills_newElements _ _) rfl good,
        Value.present_new rfl (World.newElements_in _ _) (made.new (World.newElements_new _ _))⟩
    | object h =>
      obtain ⟨there, found⟩ := top h.cell rfl
      have own : ∀ d ∈ (w.inst h).cells, ¬ lost d := fun d hd =>
        sealed.owned (a := h.cell) there found hd
      obtain ⟨inside, home⟩ := sealed.inner there found
      obtain ⟨made, new, fresh⟩ := ih.duplicateScopeBy sealed inside home
      rw [World.copyWithin_object]
      refine ⟨made.newInstance (fun d hd => ?_) new,
        Value.present_new rfl (World.newInstance_in _ _) (made.new (World.newInstance_new _ _))⟩
      simp only [Instance.cells, List.cons_append, List.nil_append, List.mem_cons] at hd own
      rcases hd with rfl | rfl | hd
      · exact own _ (.inl rfl)
      · exact fresh
      · exact own d (.inr (.inr hd))
    | _ => exact ⟨sealed, present⟩

theorem guards_deepCopy : Guards lost fun v w => w.deepCopy v :=
  fun v w => guards_copyWithin (w.size + 1) v w

/-! ## Lifetimes -/

namespace World

/-- What a cell owns without the help of variables and containers. -/
def links (w : World) (c : Cell) : List Cell :=
  match c.kind with
  | .scope => (w.scope ⟨c.index⟩).outline.cells
  | .list | .dict | .set => []
  | _ => w.owned c

/-- A cell that is held, or that a kept cell links to. -/
inductive Kept (w : World) : Cell → Prop
  | held {c : Cell} : c ∈ w.held → Kept w c
  | linked {a c : Cell} : Kept w a → a.In w.count → c ∈ w.links a → Kept w c

/-- A cell that is there and no longer alive. -/
def Gone (w : World) (c : Cell) : Prop := c.In w.count ∧ w.alive c = false

/-- A cell whose life does not hang on variables and containers. -/
def Settled (w : World) (c : Cell) : Prop := w.Kept c ∨ w.Gone c

/-- What values and instances refer to and what is held is there. -/
structure Closed (w : World) : Prop where
  values : ∀ {a v d}, v ∈ w.values a → d ∈ v.cells → d.In w.count
  home : ∀ {i}, i.In w.count → (w.inst i).scope.In w.count
  held : ∀ {c}, c ∈ w.held → c.In w.count

theorem mem_owned_of_links (h : d ∈ w.links a) : d ∈ w.owned a := by
  obtain ⟨k, i⟩ := a
  cases k with
  | scope => exact mem_cells_scope.mpr (.inl h)
  | list | dict | set => cases h
  | _ => exact h

theorem Kept.anchored (h : w.Kept c) : w.Anchored c := by
  induction h with
  | held mem => exact anchored_of_held mem
  | linked _ there link ih => exact ih.owned there (mem_owned_of_links link)

theorem not_gone_of_alive (alive : w.alive c = true) : ¬ w.Gone c :=
  fun gone => Bool.false_ne_true (gone.2.symm.trans alive)

theorem alive_of_not_gone (there : c.In w.count) (found : ¬ w.Gone c) : w.alive c = true := by
  by_contra dead
  exact found ⟨there, Bool.not_eq_true _ ▸ dead⟩

theorem not_gone_of_held (h : c ∈ w.held) : ¬ w.Gone c :=
  not_gone_of_alive (anchored_of_held h).alive

/-- What is alive owns nothing that is gone. -/
theorem sealed_gone (closed : w.Closed) : w.Sealed w.Gone where
  old := And.left
  owned {a d} there found owned := by
    have alive := alive_of_not_gone there found
    have anchored := (anchored_of_alive (owner_of_owned there owned) alive).owned there owned
    exact not_gone_of_alive anchored.alive
  values := closed.values
  home := closed.home

/-- A later world, in which every cell that has not been lost may have been given other variables
or other contents. -/
structure Sequel (w w₁ : World) : Prop where
  count : w.count ≤ w₁.count
  held : ∀ {c}, c ∈ w.held → c ∈ w₁.held
  outline : ∀ {s}, s.In w.count → (w₁.scope s).outline = (w.scope s).outline
  methods : w₁.methods = w.methods
  links : ∀ {c}, c.In w.count → w₁.links c = w.links c
  gone : ∀ {c}, w.Gone c → w₁.owned c = w.owned c
  sealed : w₁.Sealed w.Gone
  present : ∀ {c}, c ∈ w₁.held → c.In w₁.count ∧ ¬ w.Gone c

theorem size_mono (le : w.count ≤ w₁.count) : w.size ≤ w₁.size := by
  have each := fun k => le k
  have := each .scope
  have := each .list
  have := each .dict
  have := each .set
  have := each .object
  have := each .function
  have := each .method
  have := each .classObject
  have := each .overloads
  simp only [size, count] at *
  omega

/-- What was gone is gone in a later world that seals it off: its owners are gone too, and have not
come to own anything. -/
theorem dead_of_sealed (count : w.count ≤ w₁.count) (sealed : w₁.Sealed w.Gone)
    (present : ∀ {c}, c ∈ w₁.held → c.In w₁.count ∧ ¬ w.Gone c)
    (owned : ∀ {a c}, w.Gone a → w.Gone c → c ∈ w₁.owned a → c ∈ w.owned a) (gone : w.Gone c) :
    w₁.alive c = false := by
  have earlier : ∀ n {c}, w.Gone c → w₁.aliveWithin n c = true → w.aliveWithin n c = true := by
    intro n
    induction n with
    | zero => exact fun _ _ => rfl
    | succ n ih =>
      intro c gone alive
      rw [aliveWithin_succ] at alive ⊢
      rcases alive with held | ⟨o, there, has, alive⟩
      · exact absurd gone (present held).2
      · have there : o.In w₁.count := there.elim (fun mem => (present mem).1)
          fun owner => (mem_owners.mp owner).2
        have goneO : w.Gone o := by
          by_contra found
          exact sealed.owned there found has gone
        have had := owned goneO gone has
        exact .inr ⟨o, .inr (owner_of_owned goneO.1 had), had, ih goneO alive⟩
  by_contra alive
  rw [Bool.not_eq_false] at alive
  exact not_gone_of_alive (aliveWithin_of_le (size_mono count) (earlier _ gone alive)) gone

namespace Sequel

theorem refl (closed : w.Closed) : w.Sequel w where
  count := le_refl _
  held := id
  outline _ := rfl
  methods := rfl
  links _ := rfl
  gone _ := rfl
  sealed := sealed_gone closed
  present mem := ⟨closed.held mem, not_gone_of_held mem⟩

theorem kept (h : w.Sequel w₁) (kept : w.Kept c) : w₁.Kept c := by
  induction kept with
  | held mem => exact .held (h.held mem)
  | linked _ there link ih => exact .linked ih (there.mono h.count) (h.links there ▸ link)

/-- What is gone stays gone, since it owns what it has always owned. -/
theorem dead (h : w.Sequel w₁) (gone : w.Gone c) : w₁.alive c = false :=
  dead_of_sealed h.count h.sealed h.present (fun lost _ mem => h.gone lost ▸ mem) gone

/-- Whether a settled cell is alive does not change. -/
theorem alive_eq (h : w.Sequel w₁) (settled : w.Settled c) : w₁.alive c = w.alive c := by
  rcases settled with kept | gone
  · rw [kept.anchored.alive, (h.kept kept).anchored.alive]
  · rw [gone.2, h.dead gone]

theorem upgrade_eq {k : CellKind} {t : Handle k} (h : w.Sequel w₁) (settled : w.Settled t.cell) :
    w₁.upgrade t = w.upgrade t := by
  simp only [upgrade, h.alive_eq settled]

/-- Cells that are not gone are given other variables or other contents. -/
theorem amend (h : w.Sequel w₁) (amends : w₁.Amends P mine w₂) (scopes : ∀ s, P s → ¬ w.Gone s.cell)
    (cells : ∀ c, mine c → ¬ w.Gone c) (sealed : w₂.Sealed w.Gone) : w.Sequel w₂ where
  count := le_trans h.count amends.count
  held mem := amends.held ▸ h.held mem
  outline there := (amends.outline (there.mono h.count)).trans (h.outline there)
  methods := amends.methods.trans h.methods
  links {c} there := by
    rw [← h.links there]
    have there := there.mono h.count
    obtain ⟨k, i⟩ := c
    cases k with
    | scope => exact congrArg Scope.cells (amends.outline (s := ⟨i⟩) there)
    | list | dict | set => rfl
    | object => exact congrArg Instance.cells (amends.inst (i := ⟨i⟩) there)
    | function => simp only [World.links, owned, function, amends.functions]
    | classObject => simp only [World.links, owned, classOf, amends.classes]
    | overloads => simp only [World.links, owned, overloadSet, amends.overloads]
    | method | types => rfl
  gone {c} gone := by
    rw [← h.gone gone]
    have there := gone.1.mono h.count
    refine owned_congr amends.functions amends.classes amends.overloads (fun kind => ?_)
      (fun kind => amends.values there kind fun m => cells c m gone) fun kind => ?_
    · obtain ⟨k, i⟩ := c
      obtain rfl : k = .scope := kind
      exact amends.scope (s := ⟨i⟩) there fun p => scopes ⟨i⟩ p gone
    · obtain ⟨k, i⟩ := c
      obtain rfl : k = .object := kind
      exact amends.inst (i := ⟨i⟩) there
  sealed := sealed
  present mem := by
    obtain ⟨there, found⟩ := h.present (amends.held ▸ mem)
    exact ⟨there.mono amends.count, found⟩

/-- More cells are held. -/
theorem hold (h : w.Sequel w₁) {cells : List Cell}
    (present : ∀ c ∈ cells, c.In w₁.count ∧ ¬ w.Gone c) : w.Sequel (w₁.hold cells) where
  count := h.count
  held mem := List.mem_append_right _ (h.held mem)
  outline := h.outline
  methods := h.methods
  links := h.links
  gone := h.gone
  sealed := h.sealed.hold
  present mem := (List.mem_append.mp mem).elim (present _) h.present

end Sequel

end World

end ScopeLang
