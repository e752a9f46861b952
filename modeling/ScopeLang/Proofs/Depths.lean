/-
# A depth that is enough

Deep copies and texts are made down to a depth, which is one more than there are
cells.  Nothing is nested deeper where no cell reaches itself, and then every
greater depth comes to the same result: the bound is not felt, and a copy or a
text that asks for none comes to an end.

Copying changes the world while it goes along, so two depths are compared where
the copies made so far are trees beside the old cells.
-/
import ScopeLang.Proofs.Sprouts

namespace ScopeLang

variable {D : Dialect} {w : World} {c : Cell}

/-! ## Deep copies -/

/-- Items copied in two ways that agree where the copies are trees. -/
theorem mapState_congr {α β : Type} {f g : α → World → β × World} (cells : β → List Cell)
    (items : List α)
    (each : ∀ a ∈ items, ∀ w₁ roots, Sprouts D w roots w₁ →
      Sprouts D w₁ (cells (f a w₁).1) (f a w₁).2 ∧ g a w₁ = f a w₁) :
    ∀ {w₁ roots}, Sprouts D w roots w₁ → mapState g items w₁ = mapState f items w₁ := by
  induction items with
  | nil => exact fun _ => rfl
  | cons a rest ih =>
    intro w₁ roots s
    obtain ⟨first, same⟩ := each a List.mem_cons_self w₁ roots s
    have others := ih (fun x hx => each x (List.mem_cons_of_mem a hx)) (s.trans first)
    simp only [mapState, same, others]

/-- Two ways of copying that agree on values nested at most `n` deep. -/
def Agrees (D : Dialect) (n : Nat) (f g : Value → World → Value × World) : Prop :=
  ∀ v w, Sound D w → v.Ok D w.count → v.Within w n → g v w = f v w

section Depth

variable {n : Nat} {v : Value} {f g : Value → World → Value × World}

theorem Agrees.later (h : Agrees D n f g) (sound : Sound D w) (ok : v.Ok D w.count)
    (within : v.Within w n) (w₁ : World) (roots : List Cell) (s : Sprouts D w roots w₁) :
    g v w₁ = f v w₁ :=
  h v w₁ s.sound (ok.mono s.spares.count) (within.later sound s.spares ok)

theorem Agrees.duplicateBy (h : Agrees D n f g) : Agrees D n (duplicateBy f) (duplicateBy g) := by
  intro v w sound ok within
  simp only [ScopeLang.duplicateBy, h v w sound ok within]

/-- The values of a cell, each copied. -/
theorem Agrees.mapState (h : Agrees D n f g) (plants : Plants D n f) (sound : Sound D w)
    (within : w.Within (n + 1) c) (ne : c.kind ≠ .object) :
    mapState g (w.values c) w = mapState f (w.values c) w := by
  refine mapState_congr Value.contents _ (fun v hv w₁ roots s => ?_) (.refl sound)
  have inner : v.Within w n := .of_cell within ne hv
  exact ⟨plants.later sound (sound.value hv) inner w₁ roots s,
    h.later sound (sound.value hv) inner w₁ roots s⟩

/-- The variables of a scope, each with its value copied. -/
theorem Agrees.mapBindings (h : Agrees D n f g) (plants : Plants D n f) (sound : Sound D w)
    {s : ScopeId} (within : w.Within (n + 1) s.cell) :
    mapBindings g (w.scope s).bindings w = mapBindings f (w.scope s).bindings w := by
  have entries := mapState_congr (fun e : String × Binding => e.2.value.contents)
    (w.scope s).bindings.entries
    (f := fun e w => ((e.1, { e.2 with value := (f e.2.value w).1 }), (f e.2.value w).2))
    (g := fun e w => ((e.1, { e.2 with value := (g e.2.value w).1 }), (g e.2.value w).2))
    (fun e he w₁ roots s => by
    have local_ : e.2 ∈ (w.scope _).bindings.values := List.mem_map_of_mem he
    have inner : e.2.value.Within w n := .of_cell within nofun (List.mem_map_of_mem local_)
    refine ⟨plants.later sound (sound.binding local_) inner w₁ roots s, ?_⟩
    simp only [h.later sound (sound.binding local_) inner w₁ roots s]) (.refl sound)
  simp only [ScopeLang.mapBindings, entries]

theorem Agrees.duplicateScopeBy (h : Agrees D n f g) (fixed : ¬ D.sharing) (plants : Plants D n f)
    (sound : Sound D w) {s : ScopeId} (within : w.Within (n + 1) s.cell) :
    duplicateScopeBy g s w = duplicateScopeBy f s w := by
  simp only [ScopeLang.duplicateScopeBy,
    h.duplicateBy.mapBindings (plants.duplicateBy fixed) sound within]

end Depth

/-- A depth that is enough stays enough. -/
theorem copyWithin_agrees (fixed : ¬ D.sharing) :
    ∀ n, Agrees D n (World.copyWithin n) (World.copyWithin (n + 1))
  | 0 => by
    intro v w _ _ within
    obtain ⟨d, a⟩ := v
    cases d with
    | list h => exact (within h.cell (List.mem_singleton_self _)).elim
    | array h => exact (within h.cell (List.mem_singleton_self _)).elim
    | dict h => exact (within h.cell (List.mem_singleton_self _)).elim
    | set h => exact (within h.cell (List.mem_singleton_self _)).elim
    | object h => exact (within h.cell (List.mem_singleton_self _)).elim
    | _ => rfl
  | n + 1 => by
    have ih := copyWithin_agrees fixed n
    have plants : Plants D n (World.copyWithin n) := copyWithin_plants fixed n
    intro v w sound ok within
    obtain ⟨d, a⟩ := v
    cases d with
    | list h =>
      have inner : w.Within (n + 1) h.cell := within h.cell (List.mem_singleton_self _)
      have items : mapState (World.copyWithin (n + 1)) (w.items h) w =
          mapState (World.copyWithin n) (w.items h) w := ih.mapState plants sound inner nofun
      rw [World.copyWithin_list, World.copyWithin_list, items]
    | array h =>
      have inner : w.Within (n + 1) h.cell := within h.cell (List.mem_singleton_self _)
      have items : mapState (World.copyWithin (n + 1)) (w.items h) w =
          mapState (World.copyWithin n) (w.items h) w := ih.mapState plants sound inner nofun
      rw [World.copyWithin_array, World.copyWithin_array, items]
    | dict h =>
      have inner : w.Within (n + 1) h.cell := within h.cell (List.mem_singleton_self _)
      have entries := mapState_congr (fun e => e.1.contents ++ e.2.contents) (w.entries h)
        (f := copyEntry (World.copyWithin n)) (g := copyEntry (World.copyWithin (n + 1)))
        (fun e he w₁ roots s => by
          have key := Value.Within.of_cell inner nofun (World.mem_values_of_entry he).1
          have value := Value.Within.of_cell inner nofun (World.mem_values_of_entry he).2
          have first := plants.later sound (sound.entry he).1 key w₁ roots s
          refine ⟨first.trans (plants.later sound (sound.entry he).2 value _ _ (s.trans first)), ?_⟩
          simp only [copyEntry, ih.later sound (sound.entry he).1 key w₁ roots s,
            ih.later sound (sound.entry he).2 value _ _ (s.trans first)]) (.refl sound)
      rw [World.copyWithin_dict, World.copyWithin_dict, entries]
    | set h =>
      have inner : w.Within (n + 1) h.cell := within h.cell (List.mem_singleton_self _)
      have elements : mapState (World.copyWithin (n + 1)) (w.elements h) w =
          mapState (World.copyWithin n) (w.elements h) w := ih.mapState plants sound inner nofun
      rw [World.copyWithin_set, World.copyWithin_set, elements]
    | object h =>
      have home : w.Within n (w.inst h).scope.cell :=
        within h.cell (List.mem_singleton_self _) _ (List.mem_singleton_self _)
      have scope := ih.duplicateScopeBy fixed plants sound home.succ
      rw [World.copyWithin_object, World.copyWithin_object, scope]
    | _ => rfl

theorem copyWithin_of_le (fixed : ¬ D.sharing) (sound : Sound D w) {n m : Nat} {v : Value}
    (le : n ≤ m) (ok : v.Ok D w.count) (within : v.Within w n) :
    World.copyWithin m v w = World.copyWithin n v w := by
  induction le with
  | refl => rfl
  | @step m le ih =>
    have deeper : v.Within w m := fun c hc => (within c hc).mono le
    exact (copyWithin_agrees fixed m v w sound ok deeper).trans ih

/-! ## Texts -/

namespace World

section Levels

variable (w : World) (n : Nat) (a : Attributes)

theorem textWithin_list (h : Handle .list) :
    w.textWithin (n + 1) ⟨.list h, a⟩ =
      "[" ++ ", ".intercalate ((w.items h).map (quoted (w.textWithin n))) ++ "]" := rfl

theorem textWithin_array (h : Handle .list) :
    w.textWithin (n + 1) ⟨.array h, a⟩ =
      "[" ++ ", ".intercalate ((w.items h).map (quoted (w.textWithin n))) ++ "]" := rfl

theorem textWithin_set (h : Handle .set) :
    w.textWithin (n + 1) ⟨.set h, a⟩ =
      "\x7b" ++ ", ".intercalate ((w.elements h).map (quoted (w.textWithin n))) ++ "\x7d" := rfl

theorem textWithin_dict (h : Handle .dict) :
    w.textWithin (n + 1) ⟨.dict h, a⟩ =
      "\x7b" ++ ", ".intercalate ((w.entries h).map fun e =>
        quoted (w.textWithin n) e.1 ++ ": " ++ quoted (w.textWithin n) e.2) ++ "\x7d" := rfl

end Levels

theorem quoted_congr {f g : Value → String} {v : Value} (same : g v = f v) :
    quoted g v = quoted f v := by
  simp only [quoted, same]

/-- A text that is written with one level to spare is complete. -/
theorem textWithin_succ {n : Nat} {v : Value} (within : v.Within w n) :
    w.textWithin (n + 2) v = w.textWithin (n + 1) v := by
  induction n generalizing v with
  | zero =>
    obtain ⟨d, a⟩ := v
    cases d with
    | list h => exact (within h.cell (List.mem_singleton_self _)).elim
    | array h => exact (within h.cell (List.mem_singleton_self _)).elim
    | dict h => exact (within h.cell (List.mem_singleton_self _)).elim
    | set h => exact (within h.cell (List.mem_singleton_self _)).elim
    | _ => rfl
  | succ n ih =>
    have each : ∀ {c : Cell}, w.Within (n + 1) c → c.kind ≠ .object → ∀ x ∈ w.values c,
        quoted (w.textWithin (n + 2)) x = quoted (w.textWithin (n + 1)) x :=
      fun inner ne x hx => quoted_congr (ih (.of_cell inner ne hx))
    obtain ⟨d, a⟩ := v
    cases d with
    | list h =>
      have inner : w.Within (n + 1) h.cell := within h.cell (List.mem_singleton_self _)
      have items : (w.items h).map (quoted (w.textWithin (n + 2))) =
          (w.items h).map (quoted (w.textWithin (n + 1))) := List.map_congr_left (each inner nofun)
      rw [textWithin_list, textWithin_list, items]
    | array h =>
      have inner : w.Within (n + 1) h.cell := within h.cell (List.mem_singleton_self _)
      have items : (w.items h).map (quoted (w.textWithin (n + 2))) =
          (w.items h).map (quoted (w.textWithin (n + 1))) := List.map_congr_left (each inner nofun)
      rw [textWithin_array, textWithin_array, items]
    | set h =>
      have inner : w.Within (n + 1) h.cell := within h.cell (List.mem_singleton_self _)
      have elements : (w.elements h).map (quoted (w.textWithin (n + 2))) =
          (w.elements h).map (quoted (w.textWithin (n + 1))) := List.map_congr_left (each inner nofun)
      rw [textWithin_set, textWithin_set, elements]
    | dict h =>
      have inner : w.Within (n + 1) h.cell := within h.cell (List.mem_singleton_self _)
      have entries : ∀ e ∈ w.entries h,
          quoted (w.textWithin (n + 2)) e.1 ++ ": " ++ quoted (w.textWithin (n + 2)) e.2 =
            quoted (w.textWithin (n + 1)) e.1 ++ ": " ++ quoted (w.textWithin (n + 1)) e.2 := by
        intro e he
        obtain ⟨key, value⟩ := mem_values_of_entry he
        rw [each inner nofun e.1 key, each inner nofun e.2 value]
      rw [textWithin_dict, textWithin_dict, List.map_congr_left entries]
    | _ => rfl

theorem textWithin_of_le {n m : Nat} {v : Value} (le : n ≤ m) (within : v.Within w n) :
    w.textWithin (m + 1) v = w.textWithin (n + 1) v := by
  induction le with
  | refl => rfl
  | @step m le ih =>
    have deeper : v.Within w m := fun c hc => (within c hc).mono le
    exact (textWithin_succ deeper).trans ih

end World

end ScopeLang
