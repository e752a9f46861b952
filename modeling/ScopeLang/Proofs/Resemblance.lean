/-
# What resembles

A value of one world resembles a value of another one if both are the same scalar, or
are containers of one kind, with the same attributes, whose parts resemble each other one
by one, in order.  Nothing is said of which containers are one and the same: a list that
occurs twice resembles two lists.

A composite value is made of scalars and containers and does not hold itself.  It resembles
itself in every world in which cells have been added (`Composite.later`), and a copy of it,
made to any depth, is composite and resembles it (`copiesParts_copyWithin`).  The copy is the same
for all depths that are enough (`Composite.copyWithin_eq`), so that it is the one that a copy
without any bound comes to.
-/
import ScopeLang.Proofs.Answers
import ScopeLang.Proofs.LastingKeys
import ScopeLang.Proofs.SelfEquality

namespace ScopeLang

open List (Forall₂)

variable {w w' w₁ w₂ w₃ : World} {a b v v' : Value} {c c' : Cell} {k n m : Nat}

/-! ## Scalars and containers -/

/-- Neither a container nor an instance, nor a number that is none. -/
def Value.isScalar (v : Value) : Bool :=
  match v.datum with
  | .list _ | .array _ | .dict _ | .set _ | .object _ => false
  | .number n => !n.isNaN
  | _ => true

namespace Value

theorem containers_of_scalar (plain : v.isScalar = true) : v.containers = [] := by
  obtain ⟨d, s⟩ := v
  cases d with
  | list _ | array _ | dict _ | set _ | object _ => cases plain
  | callable f => cases f <;> rfl
  | _ => rfl

theorem isNaN_of_scalar (plain : v.isScalar = true) : v.isNaN = false := by
  obtain ⟨d, s⟩ := v
  cases d with
  | number n => exact Bool.not_inj plain
  | _ => rfl

/-- What has the kind of a container is a container. -/
theorem peers_of_kind (cells : a.containers = [c]) (kind : b.kind = a.kind) :
    ∃ d, Peers a c b d := by
  obtain ⟨d, s⟩ := a
  obtain ⟨e, t⟩ := b
  have like := Datum.like_of_kind kind
  cases d with
  | list x =>
    obtain ⟨y, rfl⟩ := like
    exact List.singleton_inj.mp cells ▸ ⟨_, .list x y s t⟩
  | array x =>
    obtain ⟨y, rfl⟩ := like
    exact List.singleton_inj.mp cells ▸ ⟨_, .array x y s t⟩
  | dict x =>
    obtain ⟨y, rfl⟩ := like
    exact List.singleton_inj.mp cells ▸ ⟨_, .dict x y s t⟩
  | set x =>
    obtain ⟨y, rfl⟩ := like
    exact List.singleton_inj.mp cells ▸ ⟨_, .set x y s t⟩
  | callable f => cases f <;> cases cells
  | _ => cases cells

/-- The four kinds of containers. -/
theorem peers_self (cells : a.containers = [c]) : Peers a c a c := by
  obtain ⟨d, peers⟩ := peers_of_kind cells rfl
  exact List.singleton_inj.mp (cells.symm.trans peers.containers.2) ▸ peers

end Value

/-- A value made of scalars and of containers that are there, and which does not hold itself. -/
inductive Composite (w : World) : Value → Prop
  | scalar {v : Value} (plain : v.isScalar = true) : Composite w v
  | container {v : Value} {c : Cell} (cells : v.containers = [c]) (here : c.In w.count)
      (parts : ∀ u ∈ w.values c, Composite w u) : Composite w v

/-- A value of one world looks like a value of another one, down to the attributes. -/
inductive Resembles (w w' : World) : Value → Value → Prop
  | scalar {v : Value} (plain : v.isScalar = true) : Resembles w w' v v
  | container {v v' : Value} {c c' : Cell} (peers : v.Peers c v' c') (attrs : v'.attrs = v.attrs)
      (parts : Forall₂ (Resembles w w') (w.values c) (w'.values c')) : Resembles w w' v v'

/-- The containers that there are hold what they held before. -/
structure World.KeepsContents (w w₁ : World) : Prop where
  count : w.count ≤ w₁.count
  values : ∀ {c : Cell}, c.In w.count → c.kind.isContainer = true → w₁.values c = w.values c

/-- Entries resemble each other if their keys and their values do. -/
def EntriesResemble (w w' : World) (e f : Value × Value) : Prop :=
  Resembles w w' e.1 f.1 ∧ Resembles w w' e.2 f.2

namespace Composite

/-- The container of a composite value, with its parts. -/
theorem parts (h : Composite w v) (hc : c ∈ v.containers) :
    c.In w.count ∧ ∀ u ∈ w.values c, Composite w u := by
  cases h with
  | scalar plain =>
    rw [Value.containers_of_scalar plain] at hc
    cases hc
  | container cells here parts =>
    obtain rfl := List.mem_singleton.mp (cells ▸ hc)
    exact ⟨here, parts⟩

theorem finite (h : Composite w v) : v.Finite w := by
  induction h with
  | scalar plain => exact ⟨0, Value.nested_of_containers (Value.containers_of_scalar plain)⟩
  | container cells _ _ ih =>
    exact Value.finite_of_values (fun e he => List.mem_singleton.mp (cells ▸ he)) ih

/-- The depth that copies and comparisons go to is enough. -/
theorem nested (h : Composite w v) : v.Nested w w.size := by
  have region : w.Region fun d => d.In w.count ∧ ∀ u ∈ w.values d, Composite w u := by
    refine ⟨fun inside => inside.1, fun inside enclosed => ?_⟩
    obtain ⟨u, hu, hd⟩ := enclosed
    exact (inside.2 u hu).parts hd
  exact h.finite.nested region fun d hd => h.parts hd

/-- A composite value is as before in a world where containers hold what they held. -/
theorem carry (h : Composite w v) (keeps : w.KeepsContents w') :
    Composite w' v ∧ Resembles w w' v v := by
  induction h with
  | scalar plain => exact ⟨.scalar plain, .scalar plain⟩
  | @container v c cells here _ ih =>
    have mem : c ∈ v.containers := cells ▸ List.mem_singleton_self c
    have same := keeps.values here (Value.mem_containers.mp mem).2
    refine ⟨.container cells (here.mono keeps.count) fun u hu => (ih u (same ▸ hu)).1,
      .container (Value.peers_self cells) rfl ?_⟩
    rw [same]
    exact List.forall₂_same.mpr fun u hu => (ih u hu).2

/-- So it is in a world in which cells have been added. -/
theorem later (h : Composite w v) (amends : w.Amends Nowhere Nowhere w') :
    Composite w' v ∧ Resembles w w' v v :=
  h.carry ⟨amends.count, fun old kind => amends.values old kind id⟩

theorem refl (h : Composite w v) : Resembles w w v v := (h.later (.refl w)).2

end Composite

namespace Resembles

theorem kind (h : Resembles w w' v v') : v'.kind = v.kind := by
  cases h with
  | scalar => rfl
  | container peers => exact peers.kind

theorem eq_of_scalar (h : Resembles w w' v v') (plain : v.isScalar = true) : v' = v := by
  cases h with
  | scalar => rfl
  | container peers =>
    have cells := peers.containers.1
    rw [Value.containers_of_scalar plain] at cells
    cases cells

theorem parts (h : Resembles w w' v v') (cells : v.containers = [c]) :
    ∃ c', v.Peers c v' c' ∧ v'.attrs = v.attrs ∧
      Forall₂ (Resembles w w') (w.values c) (w'.values c') := by
  cases h with
  | scalar plain =>
    rw [Value.containers_of_scalar plain] at cells
    cases cells
  | container peers attrs parts =>
    obtain rfl := List.singleton_inj.mp (peers.containers.1.symm.trans cells)
    exact ⟨_, peers, attrs, parts⟩

theorem trans (ha : Composite w₁ a) (h : Resembles w₁ w₂ a b) (i : Resembles w₂ w₃ b v) :
    Resembles w₁ w₃ a v := by
  induction ha generalizing b v with
  | scalar plain =>
    obtain rfl := h.eq_of_scalar plain
    obtain rfl := i.eq_of_scalar plain
    exact .scalar plain
  | container cells _ _ ih =>
    obtain ⟨c', peers, attrs, first⟩ := h.parts cells
    obtain ⟨c'', peers', attrs', second⟩ := i.parts peers.containers.2
    exact .container (peers.trans peers') (attrs'.trans attrs)
      (forall₂_trans_mem first second fun u hu _ _ => ih u hu)

end Resembles

/-! ## Copies -/

theorem copyWithin_scalar (plain : v.isScalar = true) (n : Nat) (w : World) :
    World.copyWithin n v w = (v, w) := by
  obtain ⟨d, s⟩ := v
  cases n with
  | zero => rfl
  | succ n =>
    cases d with
    | list _ | array _ | dict _ | set _ | object _ => cases plain
    | _ => rfl

/-- A value that is composite and resembles another one. -/
def Remakes (w : World) (v : Value) (w' : World) (v' : Value) : Prop :=
  Composite w' v' ∧ Resembles w w' v v'

/-- What resembles a composite value goes on to do so while containers hold what they held. -/
theorem Remakes.later (h : Remakes w₁ v w₂ v') (fit : Composite w₁ v)
    (keeps : w₂.KeepsContents w₃) : Remakes w₁ v w₃ v' := by
  obtain ⟨fit', alike⟩ := h.1.carry keeps
  exact ⟨fit', h.2.trans fit alike⟩

/-- A way of copying by which composite values resemble their copies. -/
structure CopiesParts (copy : Value → World → Value × World) : Prop where
  amends : ∀ v (w : World), w.Amends Nowhere Nowhere (copy v w).2
  remakes : ∀ {v w}, Composite w v → Remakes w v (copy v w).2 (copy v w).1

namespace CopiesParts

variable {copy : Value → World → Value × World} (h : CopiesParts copy)

include h

theorem values {vs : List Value} (parts : ∀ v ∈ vs, Composite w v)
    (onward : (mapState copy vs w).2.Amends Nowhere Nowhere w') :
    (∀ v ∈ (mapState copy vs w).1, Composite w' v) ∧
      Forall₂ (Resembles w w') vs (mapState copy vs w).1 := by
  have fresh : Fresh (fun _ => True) w := fun _ _ => trivial
  exact mapState_agree h.amends (fun onward part => part.later onward) .trans (fun _ => h.remakes)
    vs fresh parts onward

theorem entries {es : List (Value × Value)}
    (parts : ∀ e ∈ es, Composite w e.1 ∧ Composite w e.2)
    (onward : (mapState (copyEntry copy) es w).2.Amends Nowhere Nowhere w') :
    (∀ e ∈ (mapState (copyEntry copy) es w).1, Composite w' e.1 ∧ Composite w' e.2) ∧
      Forall₂ (EntriesResemble w w') es (mapState (copyEntry copy) es w).1 := by
  have fresh : Fresh (fun _ => True) w := fun _ _ => trivial
  exact mapState_agree_entries h.amends (fun onward part => part.later onward) .trans
    (fun _ => h.remakes) es fresh parts onward

end CopiesParts

/-- A new container with parts that resemble those of another one. -/
theorem Remakes.of_fills {vs : List Value} (peers : v.Peers c v' c') (attrs : v'.attrs = v.attrs)
    (fills : w₁.Fills c' vs w₂) (new : ¬ c'.In w₁.count)
    (parts : ∀ {w'}, w₁.Amends Nowhere Nowhere w' →
      (∀ u ∈ vs, Composite w' u) ∧ Forall₂ (Resembles w w') (w.values c) vs) :
    Remakes w v w₂ v' := by
  obtain ⟨fit, alike⟩ := parts (fills.amends (.inr new))
  rw [← fills.values] at fit alike
  exact ⟨.container peers.containers.2 (fills.only.mpr (.inr rfl)) fit,
    .container peers attrs alike⟩

/-- A copy of a composite value, made to any depth, is composite and resembles it. -/
theorem copiesParts_copyWithin : ∀ n, CopiesParts (World.copyWithin n)
  | 0 => ⟨World.amends_copyWithin 0, fun h => ⟨h, h.refl⟩⟩
  | n + 1 => by
    have ih := copiesParts_copyWithin n
    refine ⟨World.amends_copyWithin (n + 1), fun {v w} h => ?_⟩
    cases id h with
    | scalar plain =>
      rw [copyWithin_scalar plain]
      exact ⟨.scalar plain, .scalar plain⟩
    | @container _ c cells here parts =>
      cases Value.peers_self cells with
      | list =>
        rw [World.copyWithin_list]
        exact .of_fills (.list ..) rfl (World.fills_newItems _ _) (World.newItems_new _ _)
          (ih.values parts)
      | array =>
        rw [World.copyWithin_array]
        exact .of_fills (.array ..) rfl (World.fills_newItems _ _) (World.newItems_new _ _)
          (ih.values parts)
      | dict x =>
        rw [World.copyWithin_dict]
        refine .of_fills (.dict ..) rfl (World.fills_newEntries _ _) (World.newEntries_new _ _)
          fun onward => ?_
        have each := fun e (he : e ∈ w.entries x) =>
          And.intro (parts _ (World.mem_values_of_entry he).1)
            (parts _ (World.mem_values_of_entry he).2)
        obtain ⟨fit, alike⟩ := ih.entries each onward
        exact ⟨forall_entryValues (fun e he => (fit e he).1) fun e he => (fit e he).2,
          forall₂_entries.mpr alike⟩
      | set =>
        rw [World.copyWithin_set]
        exact .of_fills (.set ..) rfl (World.fills_newElements _ _) (World.newElements_new _ _)
          (ih.values parts)

/-! ## Depths that are enough -/

/-- Two ways of copying that agree on items in worlds with more cells. -/
theorem mapState_eq_of_amends {α β : Type} {f g : α → World → β × World}
    (amends : ∀ a (w : World), w.Amends Nowhere Nowhere (f a w).2) (items : List α)
    (each : ∀ a ∈ items, ∀ {w₁}, w.Amends Nowhere Nowhere w₁ → f a w₁ = g a w₁) :
    ∀ {w₁}, w.Amends Nowhere Nowhere w₁ → mapState f items w₁ = mapState g items w₁ := by
  induction items with
  | nil => exact fun _ => rfl
  | cons a rest ih =>
    intro w₁ more
    have first := each a List.mem_cons_self more
    have others := ih (fun x hx => each x (List.mem_cons_of_mem a hx)) (more.also (amends a w₁))
    simp only [mapState, ← first, others]

/-- A copy is the same for all depths that are enough, also when it is made later on. -/
theorem Composite.copyWithin_eq (h : Composite w v) : ∀ {k n m : Nat} {w₁ : World}, v.Nested w k →
    k < n → k < m → w.Amends Nowhere Nowhere w₁ →
      World.copyWithin n v w₁ = World.copyWithin m v w₁ := by
  induction h with
  | scalar plain =>
    intro _ n m _ _ _ _ _
    rw [copyWithin_scalar plain, copyWithin_scalar plain]
  | @container v c cells here _ ih =>
    intro k n m w₁ nested lt lt' more
    have mem : c ∈ v.containers := cells ▸ List.mem_singleton_self c
    obtain ⟨n, rfl⟩ := Nat.exists_eq_succ_of_ne_zero (Nat.ne_zero_of_lt lt)
    obtain ⟨m, rfl⟩ := Nat.exists_eq_succ_of_ne_zero (Nat.ne_zero_of_lt lt')
    cases k with
    | zero => exact (nested c mem).elim
    | succ k =>
      have same := more.all_values here
      have each : ∀ u ∈ w.values c, ∀ {w₂}, w.Amends Nowhere Nowhere w₂ →
          World.copyWithin n u w₂ = World.copyWithin m u w₂ := fun u hu _ amends =>
        ih u hu (.of_nests (nested c mem) hu) (Nat.lt_of_succ_lt_succ lt)
          (Nat.lt_of_succ_lt_succ lt') amends
      have amends := World.amends_copyWithin n
      cases Value.peers_self cells with
      | list x =>
        have items : w₁.items x = w.items x := same
        have parts := mapState_eq_of_amends amends (w.items x) each more
        simp only [World.copyWithin_list, items, parts]
      | array x =>
        have items : w₁.items x = w.items x := same
        have parts := mapState_eq_of_amends amends (w.items x) each more
        simp only [World.copyWithin_array, items, parts]
      | dict x =>
        have entries : w₁.entries x = w.entries x := entryValues_inj same
        have parts := mapState_eq_of_amends (f := copyEntry (World.copyWithin n))
          (g := copyEntry (World.copyWithin m))
          (fun e w => (amends e.1 w).also (amends e.2 _)) (w.entries x) (fun e he w₂ onward => by
            have key := each e.1 (World.mem_values_of_entry he).1 onward
            have value := each e.2 (World.mem_values_of_entry he).2 (onward.also (amends e.1 w₂))
            simp only [copyEntry, ← key, value]) more
        simp only [World.copyWithin_dict, entries, parts]
      | set x =>
        have elements : w₁.elements x = w.elements x := same
        have parts := mapState_eq_of_amends amends (w.elements x) each more
        simp only [World.copyWithin_set, elements, parts]

end ScopeLang
