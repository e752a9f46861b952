/-
# Amended worlds

What variables and containers are given is all that changes when a variable is
assigned or an intrinsic is applied.  `World.Amends` says of two worlds that the
later one has more cells, and that of the earlier cells only the variables of
some scopes and some containers have been given other values.  `World.Fills` is
one such change: a container, a new one or one that was there, is given values.
-/
import ScopeLang.Proofs.Depths
import ScopeLang.Proofs.Nesting

namespace ScopeLang

/-- A scope but for its variables. -/
def Scope.outline (x : Scope) : Scope := { x with bindings := .empty }

/-- The scopes in `P` may have been given other variables, the containers in `mine` other values,
and there may be more cells. -/
structure World.Amends (P : ScopeId → Prop) (mine : Cell → Prop) (w w₁ : World) : Prop where
  count : w.count ≤ w₁.count
  scope : ∀ {s}, s.In w.count → ¬ P s → w₁.scope s = w.scope s
  outline : ∀ {s}, s.In w.count → (w₁.scope s).outline = (w.scope s).outline
  values : ∀ {c}, c.In w.count → c.kind.isContainer = true → ¬ mine c → w₁.values c = w.values c
  inst : ∀ {i}, i.In w.count → w₁.inst i = w.inst i
  functions : w₁.functions = w.functions
  methods : w₁.methods = w.methods
  classes : w₁.classes = w.classes
  overloads : w₁.overloads = w.overloads
  types : w₁.types = w.types
  held : w₁.held = w.held

/-- A world in which one container has been given some values. -/
structure World.Fills (w : World) (c : Cell) (vs : List Value) (w₁ : World) : Prop where
  count : w.count ≤ w₁.count
  only : ∀ {d}, d.In w₁.count ↔ d.In w.count ∨ d = c
  values : w₁.values c = vs
  other : ∀ {d}, d ≠ c → w₁.values d = w.values d
  scopes : w₁.scopes = w.scopes
  instances : w₁.instances = w.instances
  functions : w₁.functions = w.functions
  methods : w₁.methods = w.methods
  classes : w₁.classes = w.classes
  overloads : w₁.overloads = w.overloads
  types : w₁.types = w.types
  held : w₁.held = w.held

/-- No scope and no cell. -/
abbrev Nowhere {α : Type} : α → Prop := fun _ => False

namespace World

variable {P P' : ScopeId → Prop} {mine mine' : Cell → Prop} {w w₁ w₂ : World} {c : Cell}
  {vs : List Value}

namespace Amends

theorem refl (w : World) : w.Amends P mine w :=
  ⟨fun _ => Nat.le_refl _, fun _ _ => rfl, fun _ => rfl, fun _ _ _ => rfl, fun _ => rfl, rfl, rfl,
    rfl, rfl, rfl, rfl⟩

/-- What the second change amends is new after the first, or amended by it as well. -/
theorem trans (h : w.Amends P mine w₁) (i : w₁.Amends P mine' w₂)
    (sub : ∀ c, c.In w.count → mine' c → mine c) : w.Amends P mine w₂ where
  count k := Nat.le_trans (h.count k) (i.count k)
  scope old other := (i.scope (old.mono h.count) other).trans (h.scope old other)
  outline old := (i.outline (old.mono h.count)).trans (h.outline old)
  values old kind other :=
    (i.values (old.mono h.count) kind fun m => other (sub _ old m)).trans (h.values old kind other)
  inst old := (i.inst (old.mono h.count)).trans (h.inst old)
  functions := i.functions.trans h.functions
  methods := i.methods.trans h.methods
  classes := i.classes.trans h.classes
  overloads := i.overloads.trans h.overloads
  types := i.types.trans h.types
  held := i.held.trans h.held

/-- Cells are added, and others after them. -/
theorem also (h : w.Amends Nowhere Nowhere w₁) (i : w₁.Amends Nowhere Nowhere w₂) :
    w.Amends Nowhere Nowhere w₂ :=
  h.trans i fun _ _ => id

theorem mono (h : w.Amends P mine w₁) (scopes : ∀ s, P s → P' s) (cells : ∀ c, mine c → mine' c) :
    w.Amends P' mine' w₁ :=
  { h with
    scope := fun old other => h.scope old fun p => other (scopes _ p)
    values := fun old kind other => h.values old kind fun m => other (cells _ m) }

/-- Cells that are no scopes keep their values unless they are amended. -/
theorem values_of_ne_scope (h : w.Amends P mine w₁) (old : c.In w.count) (kind : c.kind ≠ .scope)
    (other : c.kind.isContainer = true → ¬ mine c) : w₁.values c = w.values c := by
  by_cases container : c.kind.isContainer = true
  · exact h.values old container (other container)
  · rw [Bool.not_eq_true] at container
    rw [values_eq_nil container kind, values_eq_nil container kind]

/-- Where nothing is amended every cell keeps its values. -/
theorem all_values (h : w.Amends Nowhere Nowhere w₁) (old : c.In w.count) :
    w₁.values c = w.values c := by
  by_cases kind : c.kind = .scope
  · obtain ⟨k, i⟩ := c
    obtain rfl : k = .scope := kind
    exact congrArg (fun x : Scope => x.bindings.values.map Binding.value)
      (h.scope (s := ⟨i⟩) old id)
  · exact h.values_of_ne_scope old kind fun _ => id

/-- A change that amends nothing keeps how deep containers nest. -/
theorem nests (h : w.Amends P mine w₁) {all : Cell → Prop} (region : Region w all)
    (other : ∀ c, all c → ¬ mine c) : ∀ {n : Nat} {c : Cell}, all c → c.kind.isContainer = true →
      w.Nests n c → w₁.Nests n c
  | 0, _, _, _, no => no.elim
  | n + 1, c, hc, kind, nests => by
    rintro d ⟨v, hv, hd⟩
    rw [h.values (region.there hc) kind (other c hc)] at hv
    exact h.nests region other (region.encloses hc ⟨v, hv, hd⟩) (Value.mem_containers.mp hd).2
      (nests d ⟨v, hv, hd⟩)

/-- The same, with all that is passed on the way. -/
theorem nestsIn (h : w.Amends P mine w₁) {all : Cell → Prop} (region : Region w all)
    (other : ∀ c, all c → ¬ mine c) {inside : Cell → Prop} : ∀ {n : Nat} {c : Cell}, all c →
      c.kind.isContainer = true → w.NestsIn inside n c → w₁.NestsIn inside n c
  | 0, _, _, _, no => no.elim
  | n + 1, c, hc, kind, nests => by
    refine ⟨nests.1, ?_⟩
    rintro d ⟨v, hv, hd⟩
    rw [h.values (region.there hc) kind (other c hc)] at hv
    exact h.nestsIn region other (region.encloses hc ⟨v, hv, hd⟩) (Value.mem_containers.mp hd).2
      (nests.2 d ⟨v, hv, hd⟩)

end Amends

/-- Cells that are added amend nothing. -/
theorem Spares.amends (h : w.Spares w₁) (methods : w₁.methods = w.methods)
    (types : w₁.types = w.types) : w.Amends Nowhere Nowhere w₁ where
  count := h.count
  scope old _ := h.scope old
  outline old := by rw [h.scope old]
  values {c} old kind _ := by
    obtain ⟨k, i⟩ := c
    cases k with
    | list => exact h.items old
    | dict => exact congrArg (List.flatMap fun e => [e.1, e.2]) (h.entries old)
    | set => exact h.elements old
    | _ => cases kind
  inst := h.inst
  functions := h.functions
  methods := methods
  classes := h.classes
  overloads := h.overloads
  types := types
  held := h.held

/-- A scope is given other variables. -/
theorem amends_setScope {s : ScopeId} {x : Scope} (hs : P s)
    (outline : x.outline = (w.scope s).outline) : w.Amends P mine (w.setScope s x) where
  count := by rw [count_setScope]
  scope {t} _ other := by
    rw [scope_setScope, if_neg]
    rintro ⟨rfl, -⟩
    exact other hs
  outline {t} _ := by
    rw [scope_setScope]
    split
    · rename_i e
      rw [e.1, outline]
    · rfl
  values {c} _ kind _ := by
    rw [values_setScope, if_neg]
    rintro ⟨rfl, -⟩
    cases kind
  inst _ := rfl
  functions := rfl
  methods := rfl
  classes := rfl
  overloads := rfl
  types := rfl
  held := rfl

/-- A variable of a scope is set. -/
theorem amends_setVariable {s : ScopeId} (hs : P s) {name : String} {b : Binding} :
    w.Amends P mine (w.setVariable s name b) :=
  amends_setScope hs rfl

/-! ## Filling containers -/

/-- A container that is filled is one of those amended, or is new. -/
theorem Fills.amends (h : w.Fills c vs w₁) (mem : mine c ∨ ¬ c.In w.count) : w.Amends P mine w₁ where
  count := h.count
  scope _ _ := by rw [scope, h.scopes]; rfl
  outline _ := by rw [scope, h.scopes]; rfl
  values {d} old _ other := by
    refine h.other fun same => ?_
    subst same
    rcases mem with m | new
    · exact other m
    · exact new old
  inst _ := by rw [inst, h.instances]; rfl
  functions := h.functions
  methods := h.methods
  classes := h.classes
  overloads := h.overloads
  types := h.types
  held := h.held

section Filling

variable (w)

theorem fills_newItems (xs : List Value) :
    w.Fills (w.newItems xs).1.cell xs (w.newItems xs).2 where
  count := (w.spares_newItems xs).count
  only := by rw [count_newItems]; exact Census.in_grow
  values := by rw [values_newItems]; exact if_pos rfl
  other ne := by rw [values_newItems]; exact if_neg ne
  scopes := rfl
  instances := rfl
  functions := rfl
  methods := rfl
  classes := rfl
  overloads := rfl
  types := rfl
  held := rfl

theorem fills_newEntries (es : List (Value × Value)) :
    w.Fills (w.newEntries es).1.cell (es.flatMap fun e => [e.1, e.2]) (w.newEntries es).2 where
  count := (w.spares_newEntries es).count
  only := by rw [count_newEntries]; exact Census.in_grow
  values := by rw [values_newEntries]; exact if_pos rfl
  other ne := by rw [values_newEntries]; exact if_neg ne
  scopes := rfl
  instances := rfl
  functions := rfl
  methods := rfl
  classes := rfl
  overloads := rfl
  types := rfl
  held := rfl

theorem fills_newElements (xs : List Value) :
    w.Fills (w.newElements xs).1.cell xs (w.newElements xs).2 where
  count := (w.spares_newElements xs).count
  only := by rw [count_newElements]; exact Census.in_grow
  values := by rw [values_newElements]; exact if_pos rfl
  other ne := by rw [values_newElements]; exact if_neg ne
  scopes := rfl
  instances := rfl
  functions := rfl
  methods := rfl
  classes := rfl
  overloads := rfl
  types := rfl
  held := rfl

variable {w}

theorem fills_setItems {h : Handle .list} (hh : h.In w.count) (xs : List Value) :
    w.Fills h.cell xs (w.setItems h xs) where
  count := (w.grows_setItems h xs).count
  only := by
    rw [count_setItems]
    exact ⟨.inl, fun g => g.elim id fun e => e ▸ hh⟩
  values := by rw [values_setItems, if_pos ⟨rfl, hh⟩]
  other ne := by rw [values_setItems, if_neg fun e => ne e.1]
  scopes := rfl
  instances := rfl
  functions := rfl
  methods := rfl
  classes := rfl
  overloads := rfl
  types := rfl
  held := rfl

theorem fills_setEntries {h : Handle .dict} (hh : h.In w.count) (es : List (Value × Value)) :
    w.Fills h.cell (es.flatMap fun e => [e.1, e.2]) (w.setEntries h es) where
  count := (w.grows_setEntries h es).count
  only := by
    rw [count_setEntries]
    exact ⟨.inl, fun g => g.elim id fun e => e ▸ hh⟩
  values := by rw [values_setEntries, if_pos ⟨rfl, hh⟩]
  other ne := by rw [values_setEntries, if_neg fun e => ne e.1]
  scopes := rfl
  instances := rfl
  functions := rfl
  methods := rfl
  classes := rfl
  overloads := rfl
  types := rfl
  held := rfl

theorem fills_setElements {h : Handle .set} (hh : h.In w.count) (xs : List Value) :
    w.Fills h.cell xs (w.setElements h xs) where
  count := (w.grows_setElements h xs).count
  only := by
    rw [count_setElements]
    exact ⟨.inl, fun g => g.elim id fun e => e ▸ hh⟩
  values := by rw [values_setElements, if_pos ⟨rfl, hh⟩]
  other ne := by rw [values_setElements, if_neg fun e => ne e.1]
  scopes := rfl
  instances := rfl
  functions := rfl
  methods := rfl
  classes := rfl
  overloads := rfl
  types := rfl
  held := rfl

end Filling

/-! ## Copies -/

theorem Amends.mapState {α γ : Type} {f : α → World → γ × World}
    (each : ∀ a (w : World), w.Amends Nowhere Nowhere (f a w).2) :
    ∀ (items : List α) (w : World), w.Amends Nowhere Nowhere (mapState f items w).2
  | [], w => .refl w
  | a :: rest, w => (each a w).also (mapState each rest _)

/-- A copy of a scope, whose values are copied one way or another. -/
theorem Amends.duplicateScopeBy {copy : Value → World → Value × World}
    (each : ∀ v (w : World), w.Amends Nowhere Nowhere (copy v w).2) (s : ScopeId) (w : World) :
    w.Amends Nowhere Nowhere (duplicateScopeBy copy s w).2 := by
  have values : ∀ (e : String × Binding) (w : World),
      w.Amends Nowhere Nowhere (duplicateBy copy e.2.value w).2 := by
    intro e w
    simp only [duplicateBy]
    split
    · exact .refl w
    · exact each e.2.value w
  have bindings := Amends.mapState (f := fun e w => ((e.1, { e.2 with value := (duplicateBy copy e.2.value w).1 }),
    (duplicateBy copy e.2.value w).2)) values (w.scope s).bindings.entries w
  exact bindings.also ((spares_newScope _ _).amends rfl rfl)

/-- Copying amends nothing. -/
theorem amends_copyWithin : ∀ n v (w : World), w.Amends Nowhere Nowhere (copyWithin n v w).2
  | 0, _, w => .refl w
  | n + 1, ⟨d, a⟩, w => by
    have ih : ∀ v (w : World), w.Amends Nowhere Nowhere (copyWithin n v w).2 := amends_copyWithin n
    cases d with
    | list h =>
      rw [copyWithin_list]
      exact (Amends.mapState ih _ w).also ((spares_newItems _ _).amends rfl rfl)
    | array h =>
      rw [copyWithin_array]
      exact (Amends.mapState ih _ w).also ((spares_newItems _ _).amends rfl rfl)
    | dict h =>
      rw [copyWithin_dict]
      have entries := Amends.mapState (f := copyEntry (copyWithin n))
        (fun e w => (ih e.1 w).also (ih e.2 _)) (w.entries h) w
      exact entries.also ((spares_newEntries _ _).amends rfl rfl)
    | set h =>
      rw [copyWithin_set]
      exact (Amends.mapState ih _ w).also ((spares_newElements _ _).amends rfl rfl)
    | object h =>
      rw [copyWithin_object]
      exact (Amends.duplicateScopeBy ih _ w).also ((spares_newInstance _ _).amends rfl rfl)
    | _ => exact .refl w

end World

end ScopeLang
