/-
# Copies in matching worlds

Deep copies of two values that match, each made in its own world, match as well:
the new containers are paired in the order in which they are made.  The copies
have to go down to the bottom in both worlds, so the induction is on how deep the
value nests.  Copies of instances are paired as wholes, whatever their members are.
-/
import ScopeLang.Proofs.Answers

namespace ScopeLang

open List (Forall₂)

variable {β : Pairing} {P : ScopeId → Prop} {lost : Cell → Prop} {w w' w₁ w₁' : World}

/-! ## What a copy is made of -/

/-- All that there is, if values refer to what is there only. -/
theorem World.Sealed.region (sealed : w.Sealed lost) : w.Region fun c => c.In w.count where
  there := id
  encloses := fun _ ⟨_, hv, hd⟩ => sealed.values hv (Value.mem_containers.mp hd).1

/-- A value at hand in containers that are in `mine`, and nested at most `k` deep. -/
structure Value.Inside (lost mine : Cell → Prop) (k : Nat) (w : World) (v : Value) : Prop where
  present : v.Present lost w
  nests : ∀ c ∈ v.containers, w.NestsIn mine k c

theorem Value.Inside.later {mine : Cell → Prop} {k : Nat} {v : Value} (h : v.Inside lost mine k w)
    (sealed : w.Sealed lost) (amends : w.Amends P Nowhere w₁) : v.Inside lost mine k w₁ where
  present := h.present.mono amends.count
  nests c hc := by
    obtain ⟨cell, kind⟩ := Value.mem_containers.mp hc
    exact amends.nestsIn sealed.region (fun _ _ => id) (h.present c cell).1 kind (h.nests c hc)

/-- A value at hand is nested as deep as before when cells have been added. -/
theorem Value.Nested.later {k : Nat} {v : Value} (h : v.Nested w k) (sealed : w.Sealed lost)
    (present : v.Present lost w) (amends : w.Amends Nowhere Nowhere w₁) : v.Nested w₁ k := by
  intro c hc
  obtain ⟨cell, kind⟩ := Value.mem_containers.mp hc
  exact amends.nests sealed.region (fun _ _ => id) (present c cell).1 kind (h c hc)

/-- A new container nests one deeper than what it is made with. -/
theorem World.Fills.nestsIn {mine : Cell → Prop} {k : Nat} {c : Cell} {vs : List Value}
    (f : w.Fills c vs w₁) (new : ¬ c.In w.count) (sealed : w.Sealed lost) (hc : mine c)
    (inside : ∀ v ∈ vs, v.Inside lost mine k w) : w₁.NestsIn mine (k + 1) c := by
  refine ⟨hc, ?_⟩
  rintro d ⟨v, hv, hd⟩
  rw [f.values] at hv
  have amends : w.Amends Nowhere Nowhere w₁ := f.amends (.inr new)
  exact ((inside v hv).later sealed amends).nests d hd

theorem inside_mapState {mine : Cell → Prop} {k : Nat} {copy : Value → World → Value × World}
    (vs : List Value) (each : ∀ v ∈ vs, ∀ w₁, w.Amends Nowhere Nowhere w₁ → w₁.Sealed lost →
      w₁.Amends Nowhere Nowhere (copy v w₁).2 ∧ (copy v w₁).2.Sealed lost ∧
        (copy v w₁).1.Inside lost mine k (copy v w₁).2) (sealed : w.Sealed lost) :
    w.Amends Nowhere Nowhere (mapState copy vs w).2 ∧ (mapState copy vs w).2.Sealed lost ∧
      ∀ v ∈ (mapState copy vs w).1, v.Inside lost mine k (mapState copy vs w).2 :=
  mapState_sealed (Q := fun w (v : Value) => v.Inside lost mine k w) (fun s g i => i.later s g) vs
    each (.refl w) sealed

/-- The containers of a deep copy are new, and nest as deep as those of the value. -/
theorem inside_copyWithin (base : Census) {k : Nat} : ∀ {n : Nat} {v : Value} {w : World}, k < n →
    base ≤ w.count → w.Sealed lost → v.Present lost w → v.Nested w k →
      (World.copyWithin n v w).1.Inside lost (fun c => ¬ c.In base) k (World.copyWithin n v w).2 := by
  induction k using Nat.strong_induction_on with
  | _ k ih =>
    intro n v w lt le sealed present nested
    obtain ⟨n, rfl⟩ := Nat.exists_eq_add_of_lt lt
    refine ⟨(guards_copyWithin _ v w sealed present).2.2, ?_⟩
    obtain ⟨d, a⟩ := v
    have fresh : ∀ {c : Cell} {w₁ : World}, w.Amends Nowhere Nowhere w₁ → ¬ c.In w₁.count →
        ¬ c.In base := fun amends new old => new (old.mono (le_trans le amends.count))
    -- the values of the container, copied one by one
    have top : ∀ {c}, c ∈ Value.containers ⟨d, a⟩ → ∃ j, k = j + 1 ∧ ∀ x ∈ w.values c,
        ∀ w₁, w.Amends Nowhere Nowhere w₁ → w₁.Sealed lost →
          w₁.Amends Nowhere Nowhere (World.copyWithin (k + n) x w₁).2 ∧
            (World.copyWithin (k + n) x w₁).2.Sealed lost ∧
              (World.copyWithin (k + n) x w₁).1.Inside lost (fun c => ¬ c.In base) j
                (World.copyWithin (k + n) x w₁).2 := by
      intro c hc
      have nests := nested c hc
      obtain ⟨there, found⟩ := present c (Value.mem_containers.mp hc).1
      cases k with
      | zero => exact nests.elim
      | succ j =>
        refine ⟨j, rfl, fun x hx w₁ amends sealed₁ => ?_⟩
        have at_hand := sealed.value there found hx
        have here := at_hand.mono amends.count
        obtain ⟨more, sealed₂, -⟩ := guards_copyWithin (j + 1 + n) x w₁ sealed₁ here
        refine ⟨more, sealed₂, ih j j.lt_succ_self (by omega) (le_trans le amends.count) sealed₁ here ?_⟩
        exact .later (.of_nests nests hx) sealed at_hand amends
    cases d with
    | list h =>
      obtain ⟨j, rfl, copies⟩ := top (List.mem_singleton_self h.cell)
      obtain ⟨amends, made, inside⟩ := inside_mapState (w.items h) copies sealed
      rw [World.copyWithin_list]
      intro c hc
      rw [List.mem_singleton.mp hc]
      exact (World.fills_newItems _ _).nestsIn (World.newItems_new _ _) made
        (fresh amends (World.newItems_new _ _)) inside
    | array h =>
      obtain ⟨j, rfl, copies⟩ := top (List.mem_singleton_self h.cell)
      obtain ⟨amends, made, inside⟩ := inside_mapState (w.items h) copies sealed
      rw [World.copyWithin_array]
      intro c hc
      rw [List.mem_singleton.mp hc]
      exact (World.fills_newItems _ _).nestsIn (World.newItems_new _ _) made
        (fresh amends (World.newItems_new _ _)) inside
    | set h =>
      obtain ⟨j, rfl, copies⟩ := top (List.mem_singleton_self h.cell)
      obtain ⟨amends, made, inside⟩ := inside_mapState (w.elements h) copies sealed
      rw [World.copyWithin_set]
      intro c hc
      rw [List.mem_singleton.mp hc]
      exact (World.fills_newElements _ _).nestsIn (World.newElements_new _ _) made
        (fresh amends (World.newElements_new _ _)) inside
    | dict h =>
      obtain ⟨j, rfl, copies⟩ := top (List.mem_singleton_self h.cell)
      obtain ⟨amends, made, inside⟩ := mapState_sealed
        (Q := fun w (e : Value × Value) => e.1.Inside lost (fun c => ¬ c.In base) j w ∧
          e.2.Inside lost (fun c => ¬ c.In base) j w)
        (fun s g i => ⟨i.1.later s g, i.2.later s g⟩) (w.entries h)
        (f := copyEntry (World.copyWithin (j + 1 + n))) (fun e he w₁ amends sealed₁ => by
          obtain ⟨key, value⟩ := World.mem_values_of_entry he
          obtain ⟨more, sealed₂, inside⟩ := copies e.1 key w₁ amends sealed₁
          obtain ⟨more', sealed₃, inside'⟩ := copies e.2 value _ (amends.also more) sealed₂
          exact ⟨more.also more', sealed₃, inside.later sealed₂ more', inside'⟩) (.refl w) sealed
      rw [World.copyWithin_dict]
      intro c hc
      rw [List.mem_singleton.mp hc]
      refine (World.fills_newEntries _ _).nestsIn (World.newEntries_new _ _) made
        (fresh amends (World.newEntries_new _ _)) fun v hv => ?_
      obtain ⟨e, he, hv⟩ := List.mem_flatMap.mp hv
      simp only [List.mem_cons, List.not_mem_nil, or_false] at hv
      rcases hv with rfl | rfl
      · exact (inside e he).1
      · exact (inside e he).2
    | callable c =>
      cases c with
      | _ => exact fun _ hc => absurd hc List.not_mem_nil
    | _ => exact fun _ hc => absurd hc List.not_mem_nil

/-- What comes of the copies `(x, w₁)` and `(x', w₁')` of two things made in `w` and `w'`. -/
def Replicates {α : Type} (P : ScopeId → Prop) (lost : Cell → Prop) (β : Pairing) (w w' : World)
    (R : Pairing → α → α → Prop) (made made' : α × World) : Prop :=
  ∃ β₁, World.Onward P lost β w w' β₁ made.2 made'.2 ∧ R β₁ made.1 made'.1

/-- Copying several things in turn. -/
theorem replicates_mapState {α γ : Type} {f g : α → World → γ × World}
    {Q : Pairing → α → α → Prop} {R : Pairing → γ → γ → Prop}
    (laterQ : ∀ {β β₁ : Pairing} {a a'}, (∀ {c c'}, β c c' → β₁ c c') → Q β a a' → Q β₁ a a')
    (laterR : ∀ {β β₁ : Pairing} {b b'}, (∀ {c c'}, β c c' → β₁ c c') → R β b b' → R β₁ b b')
    (still : ∀ a (w : World), w.Amends Nowhere Nowhere (f a w).2) {xs ys : List α}
    (items : Forall₂ (Q β) xs ys) :
    ∀ {w w' : World}, w.Matches P lost β w' →
      (∀ a ∈ xs, ∀ {a' β₁ w₁ w₁'}, w.Amends Nowhere Nowhere w₁ → w₁.Matches P lost β₁ w₁' →
        Q β₁ a a' → Replicates P lost β₁ w₁ w₁' R (f a w₁) (g a' w₁')) →
      Replicates P lost β w w' (fun β => Forall₂ (R β)) (mapState f xs w) (mapState g ys w') := by
  induction xs generalizing ys β with
  | nil =>
    cases items
    exact fun m _ => ⟨β, .refl m, .nil⟩
  | cons a rest ih =>
    cases items with
    | cons first others =>
      intro w w' m each
      obtain ⟨β₁, onward, made⟩ := each a List.mem_cons_self (.refl w) m first
      obtain ⟨β₂, onward', all⟩ := ih (others.imp fun _ _ => laterQ onward.sub) onward.after
        fun b hb _ _ _ _ amends => each b (List.mem_cons_of_mem a hb) ((still a w).also amends)
      exact ⟨β₂, onward.trans onward', .cons (laterR onward'.sub made) all⟩

theorem replicates_values {f f' : Value → World → Value × World}
    (still : ∀ v (w : World), w.Amends Nowhere Nowhere (f v w).2) {xs ys : List Value}
    (items : Forall₂ (Value.Matches β) xs ys) (m : w.Matches P lost β w')
    (each : ∀ v ∈ xs, ∀ {v' β₁ w₁ w₁'}, w.Amends Nowhere Nowhere w₁ → w₁.Matches P lost β₁ w₁' →
      v.Matches β₁ v' → Replicates P lost β₁ w₁ w₁' Value.Matches (f v w₁) (f' v' w₁')) :
    Replicates P lost β w w' (fun β => Forall₂ (Value.Matches β)) (mapState f xs w)
      (mapState f' ys w') :=
  replicates_mapState (Q := Value.Matches) (R := Value.Matches) Value.Matches.mono
    Value.Matches.mono still items m each

theorem EntriesMatch.mono {β₁ : Pairing} {e e' : Value × Value} (sub : ∀ {c c'}, β c c' → β₁ c c')
    (h : EntriesMatch β e e') : EntriesMatch β₁ e e' :=
  ⟨h.1.mono sub, h.2.mono sub⟩

namespace World

/-- Containers that are made with matching values. -/
theorem Matches.make (m : w.Matches P lost β w') {c c' : Cell} {vs vs' : List Value}
    {d d' : Datum} {a a' : Attributes} (new : ¬ c.In w.count) (new' : ¬ c'.In w'.count)
    (kind : c.kind.isContainer = true) (same : c'.kind = c.kind) (f : w.Fills c vs w₁)
    (f' : w'.Fills c' vs' w₁') (match_ : Forall₂ (Value.Matches β) vs vs')
    (datum : d.Matches (β.add c c') d') (attrs : a' = a) :
    Replicates P lost β w w' Value.Matches (⟨d, a⟩, w₁) (⟨d', a'⟩, w₁') :=
  ⟨_, m.fill (.inr ⟨new, new'⟩) kind same f f' match_, datum, attrs⟩

theorem replicates_copyWithin {k : Nat} : ∀ {n n' : Nat} {v v' : Value} {β : Pairing}
    {w w' : World}, k < n → k < n' → w.Matches P lost β w' → v.Matches β v' → v.Nested w k →
      Replicates P lost β w w' Value.Matches (copyWithin n v w) (copyWithin n' v' w') := by
  induction k using Nat.strong_induction_on with
  | _ k ih =>
    intro n n' v v' β w w' lt lt' m h nested
    obtain ⟨n, rfl⟩ := Nat.exists_eq_add_of_lt lt
    obtain ⟨n', rfl⟩ := Nat.exists_eq_add_of_lt lt'
    obtain ⟨d, a⟩ := v
    obtain ⟨d', a'⟩ := v'
    -- the values of the container are copied less deep
    have below : ∀ {c}, c ∈ Value.containers ⟨d, a⟩ → ∀ x ∈ w.values c, ∀ {x' β₁ w₁ w₁'},
        w.Amends Nowhere Nowhere w₁ → w₁.Matches P lost β₁ w₁' → x.Matches β₁ x' →
          Replicates P lost β₁ w₁ w₁' Value.Matches (copyWithin (k + n) x w₁)
            (copyWithin (k + n') x' w₁') := by
      intro c hc x hx x' β₁ w₁ w₁' amends m₁ mx
      have nests := (nested.later m.sealed (m.present h).1 amends) c hc
      have hx : x ∈ w₁.values c := by
        rw [amends.all_values]
        · exact hx
        · obtain ⟨c', p⟩ := h.paired (Value.mem_containers.mp hc).1
          exact (m.there p).1
      cases k with
      | zero => exact nests.elim
      | succ j =>
        have before : j < j + 1 + n ∧ j < j + 1 + n' := by omega
        exact ih j j.lt_succ_self before.1 before.2 m₁ mx (.of_nests nests hx)
    have datum := h.datum
    cases datum with
    | scalar none =>
      cases d with
      | null | bool _ | number _ | char _ | string _ => exact ⟨β, .refl m, h⟩
      | _ => cases none
    | list p =>
      obtain ⟨β₁, onward, made⟩ := replicates_values (amends_copyWithin (k + n)) (m.values p) m
        (below (List.mem_singleton_self _))
      obtain ⟨β₂, onward', match_⟩ := onward.after.make (newItems_new _ _) (newItems_new _ _) rfl rfl
        (fills_newItems _ _) (fills_newItems _ _) made (.list (.inr ⟨rfl, rfl⟩)) h.attrs
      exact ⟨β₂, onward.trans onward', match_⟩
    | array p =>
      obtain ⟨β₁, onward, made⟩ := replicates_values (amends_copyWithin (k + n)) (m.values p) m
        (below (List.mem_singleton_self _))
      obtain ⟨β₂, onward', match_⟩ := onward.after.make (newItems_new _ _) (newItems_new _ _) rfl rfl
        (fills_newItems _ _) (fills_newItems _ _) made (.array (.inr ⟨rfl, rfl⟩)) h.attrs
      exact ⟨β₂, onward.trans onward', match_⟩
    | set p =>
      obtain ⟨β₁, onward, made⟩ := replicates_values (amends_copyWithin (k + n)) (m.values p) m
        (below (List.mem_singleton_self _))
      obtain ⟨β₂, onward', match_⟩ := onward.after.make (newElements_new _ _) (newElements_new _ _)
        rfl rfl (fills_newElements _ _) (fills_newElements _ _) made (.set (.inr ⟨rfl, rfl⟩)) h.attrs
      exact ⟨β₂, onward.trans onward', match_⟩
    | dict p =>
      have same := below (List.mem_singleton_self _)
      obtain ⟨β₁, onward, made⟩ := replicates_mapState (Q := EntriesMatch) (R := EntriesMatch)
        EntriesMatch.mono EntriesMatch.mono
        (fun e w => (amends_copyWithin (k + n) e.1 w).also (amends_copyWithin (k + n) e.2 _))
        (f := copyEntry (copyWithin (k + n))) (g := copyEntry (copyWithin (k + n')))
        (m.entries p) m fun e he _ _ _ _ amends m₁ me => by
          obtain ⟨key, value⟩ := mem_values_of_entry he
          obtain ⟨β₁, first, made⟩ := same _ key amends m₁ me.1
          obtain ⟨β₂, second, made'⟩ := same _ value (amends.also (amends_copyWithin _ _ _))
            first.after (me.2.mono first.sub)
          exact ⟨β₂, first.trans second, made.mono second.sub, made'⟩
      obtain ⟨β₂, onward', match_⟩ := onward.after.make (newEntries_new _ _) (newEntries_new _ _)
        rfl rfl (fills_newEntries _ _) (fills_newEntries _ _) (forall₂_entries.mpr made)
        (.dict (.inr ⟨rfl, rfl⟩)) h.attrs
      exact ⟨β₂, onward.trans onward', match_⟩
    | object p =>
      obtain ⟨inside, home⟩ := m.sealed.inner (m.there p).1 (m.found p).1
      obtain ⟨inside', home'⟩ := m.sealed'.inner (m.there p).2 (m.found p).2
      obtain ⟨sealed, -⟩ := (guards_copyWithin (k + n)).duplicateScopeBy m.sealed inside home
      obtain ⟨sealed', -⟩ := (guards_copyWithin (k + n')).duplicateScopeBy m.sealed' inside' home'
      have grown := m.grow (Amends.duplicateScopeBy (amends_copyWithin _) _ w)
        (Amends.duplicateScopeBy (amends_copyWithin _) _ w') sealed sealed'
      obtain ⟨-, whole, -⟩ := guards_copyWithin (k + n + 1) _ w m.sealed (m.present h).1
      obtain ⟨-, whole', -⟩ := guards_copyWithin (k + n' + 1) _ w' m.sealed' (m.present h).2
      have made := grown.after.newInstance whole whole' (m.classId p)
      exact ⟨_, grown.trans made, .object (.inr ⟨rfl, rfl⟩), h.attrs⟩
    | callable p => exact ⟨β, .refl m, h⟩
    | overloads p => exact ⟨β, .refl m, h⟩

theorem Matches.deepCopy (m : w.Matches P lost β w') {v v' : Value} (h : v.Matches β v')
    (finite : v.Finite w) : Replicates P lost β w w' Value.Matches (w.deepCopy v) (w'.deepCopy v') := by
  obtain ⟨k, le, le', nested⟩ := m.exists_depth h finite
  exact replicates_copyWithin (Nat.lt_succ_of_le le) (Nat.lt_succ_of_le le') m h nested

/-- The copy of a value that is stored in its place; a mutable value stays as it is. -/
theorem Matches.duplicate (m : w.Matches P lost β w') {v v' : Value} (h : v.Matches β v')
    (finite : v.attrs.isMutable = true ∨ v.Finite w) :
    Replicates P lost β w w' Value.Matches (w.duplicate v) (w'.duplicate v') := by
  simp only [World.duplicate, duplicateBy, h.attrs]
  split
  · exact ⟨β, .refl m, h⟩
  · rename_i immutable
    exact m.deepCopy h (finite.resolve_left immutable)

/-- A copy is finite if the value is. -/
theorem Sealed.finite_duplicate (sealed : w.Sealed lost) {v : Value} (present : v.Present lost w)
    (finite : v.Finite w) : (w.duplicate v).1.Finite (w.duplicate v).2 := by
  have nested := finite.nested sealed.region fun c hc =>
    (present c (Value.mem_containers.mp hc).1).1
  simp only [World.duplicate, duplicateBy]
  split
  · exact finite
  · have inside := inside_copyWithin (fun _ => 0) w.size.lt_succ_self (fun _ => Nat.zero_le _) sealed
      present nested
    exact ⟨w.size, fun c hc => (inside.nests c hc).nests⟩

/-- Duplicating amends nothing. -/
theorem amends_duplicate (v : Value) (w : World) : w.Amends Nowhere Nowhere (w.duplicate v).2 := by
  simp only [World.duplicate, duplicateBy]
  split
  · exact .refl w
  · exact amends_copyWithin _ v w

end World

end ScopeLang
