/-
# Matching values answer alike

What is read off a value, such as its type, its text and whether it equals another
one, does not depend on the names of cells.  So it is the same for two values that
match, in two worlds that match.

Texts and comparisons go down into containers, to a depth that depends on the
number of cells, which may be larger in one of the worlds.  That makes no
difference where the values nest less deep.  The inductions are on that depth,
and a comparison needs it of one of the two values only.

Containers of one kind (`Value.Peers`) are loosely compared with the same result whatever it
is that their parts have in common, as long as the parts are compared with the same result
(`Value.Peers.looseEqWithin_eq`).
-/
import ScopeLang.Proofs.Lookalikes

namespace ScopeLang

open List (Forall₂)

variable {β : Pairing} {P : ScopeId → Prop} {lost : Cell → Prop} {w w' : World}

/-! ## Related lists -/

section Lists

variable {α γ δ ε : Type} {R : α → γ → Prop} {S : δ → ε → Prop} {xs : List α} {ys : List γ}

theorem map_eq_of_forall₂ {f : α → δ} {g : γ → δ} (h : Forall₂ R xs ys)
    (each : ∀ a ∈ xs, ∀ b ∈ ys, R a b → f a = g b) : xs.map f = ys.map g := by
  induction h with
  | nil => rfl
  | cons first _ ih =>
    rw [List.map_cons, List.map_cons, each _ List.mem_cons_self _ List.mem_cons_self first,
      ih fun a ha b hb => each a (List.mem_cons_of_mem _ ha) b (List.mem_cons_of_mem _ hb)]

theorem all_eq_of_forall₂ {p : α → Bool} {q : γ → Bool} (h : Forall₂ R xs ys)
    (each : ∀ a ∈ xs, ∀ b ∈ ys, R a b → p a = q b) : xs.all p = ys.all q := by
  have same := congrArg (List.all · id) (map_eq_of_forall₂ h each)
  simpa only [List.all_map, Function.id_comp] using same

theorem any_eq_of_forall₂ {p : α → Bool} {q : γ → Bool} (h : Forall₂ R xs ys)
    (each : ∀ a ∈ xs, ∀ b ∈ ys, R a b → p a = q b) : xs.any p = ys.any q := by
  have same := congrArg (List.any · id) (map_eq_of_forall₂ h each)
  simpa only [List.any_map, Function.id_comp] using same

theorem find?_of_forall₂ {p : α → Bool} {q : γ → Bool} (h : Forall₂ R xs ys)
    (each : ∀ a ∈ xs, ∀ b, R a b → p a = q b) :
    Option.Rel (fun a b => a ∈ xs ∧ R a b) (xs.find? p) (ys.find? q) := by
  have later : ∀ {us : List α}, us ⊆ xs → ∀ {vs}, Forall₂ R us vs →
      Option.Rel (fun a b => a ∈ xs ∧ R a b) (us.find? p) (vs.find? q) := by
    intro us sub vs related
    induction related with
    | nil => exact .none
    | cons first _ ih =>
      obtain ⟨mem, sub⟩ := List.cons_subset.mp sub
      rw [List.find?_cons, List.find?_cons, each _ mem _ first]
      split
      · exact .some ⟨mem, first⟩
      · exact ih sub
  exact later (List.Subset.refl xs) h

theorem forall₂_zipped {us : List δ} {vs : List ε} (h : Forall₂ R xs ys) (i : Forall₂ S us vs) :
    Forall₂ (fun p q => R p.1 q.1 ∧ S p.2 q.2) (xs.zip us) (ys.zip vs) := by
  induction h generalizing us vs with
  | nil => exact .nil
  | cons first _ ih =>
    cases i with
    | nil => exact .nil
    | cons second others => exact .cons ⟨first, second⟩ (ih others)

end Lists

theorem allPairs_eq {α : Type} {R S : α → α → Prop} {p q : α → α → Bool} {xs ys us vs : List α}
    (h : Forall₂ R xs ys) (i : Forall₂ S us vs)
    (each : ∀ a ∈ xs, ∀ b, R a b → ∀ c ∈ us, ∀ d, S c d → p a c = q b d) :
    allPairs p xs us = allPairs q ys vs := by
  rw [allPairs, allPairs, h.length_eq, i.length_eq]
  congr 1
  refine all_eq_of_forall₂ (forall₂_zipped h i) ?_
  rintro ⟨a, c⟩ mem ⟨b, d⟩ - ⟨r, s⟩
  exact each a (List.of_mem_zip mem).1 b r c (List.of_mem_zip mem).2 d s

/-- Entries are related if their keys and values, in a row, are. -/
theorem forall₂_entries {R : Value → Value → Prop} {es es' : List (Value × Value)} :
    Forall₂ R (es.flatMap fun e => [e.1, e.2]) (es'.flatMap fun e => [e.1, e.2]) ↔
      Forall₂ (fun e e' => R e.1 e'.1 ∧ R e.2 e'.2) es es' := by
  constructor
  · intro h
    induction es generalizing es' with
    | nil =>
      cases es' with
      | nil => exact .nil
      | cons _ _ => cases h
    | cons e rest ih =>
      cases es' with
      | nil => cases h
      | cons e' rest' =>
        simp only [List.flatMap_cons, List.cons_append, List.nil_append,
          List.forall₂_cons] at h
        exact .cons ⟨h.1, h.2.1⟩ (ih h.2.2)
  · intro h
    induction h with
    | nil => exact .nil
    | cons first _ ih => exact .cons first.1 (.cons first.2 ih)

/-- What two dictionaries have under related keys. -/
theorem lookupEntry_related {R : Value → Value → Prop} {equal equal' : Value → Value → Bool}
    {es es' : List (Value × Value)} {key key' : Value}
    (h : Forall₂ (fun e e' => R e.1 e'.1 ∧ R e.2 e'.2) es es')
    (same : ∀ e ∈ es, ∀ e' : Value × Value, R e.1 e'.1 → equal e.1 key = equal' e'.1 key') :
    Option.Rel (fun v v' => (∃ e ∈ es, e.2 = v) ∧ R v v') (lookupEntry equal es key)
      (lookupEntry equal' es' key') := by
  have found := find?_of_forall₂ (p := fun e => equal e.1 key) (q := fun e => equal' e.1 key') h
    fun e he e' r => same e he e' r.1
  rw [lookupEntry, lookupEntry]
  generalize es.find? _ = o at found ⊢
  generalize es'.find? _ = o' at found ⊢
  cases found with
  | none => exact .none
  | some e => exact .some ⟨⟨_, e.1, rfl⟩, e.2.2⟩

/-! ## Containers of one kind -/

/-- Two containers of one kind, with their cells. -/
inductive Value.Peers : Value → Cell → Value → Cell → Prop
  | list (x y : Handle .list) (s t : Attributes) : Peers ⟨.list x, s⟩ x.cell ⟨.list y, t⟩ y.cell
  | array (x y : Handle .list) (s t : Attributes) : Peers ⟨.array x, s⟩ x.cell ⟨.array y, t⟩ y.cell
  | dict (x y : Handle .dict) (s t : Attributes) : Peers ⟨.dict x, s⟩ x.cell ⟨.dict y, t⟩ y.cell
  | set (x y : Handle .set) (s t : Attributes) : Peers ⟨.set x, s⟩ x.cell ⟨.set y, t⟩ y.cell

namespace Value.Peers

variable {a a' b b' v : Value} {c c' d d' : Cell}

theorem symm (h : a.Peers c b d) : b.Peers d a c := by
  cases h with
  | list => exact .list ..
  | array => exact .array ..
  | dict => exact .dict ..
  | set => exact .set ..

theorem trans (h : a.Peers c b c') (i : b.Peers c' v d) : a.Peers c v d := by
  cases h with
  | list => cases i with | list => exact .list ..
  | array => cases i with | array => exact .array ..
  | dict => cases i with | dict => exact .dict ..
  | set => cases i with | set => exact .set ..

theorem kind (h : a.Peers c b d) : b.kind = a.kind := by
  cases h <;> rfl

theorem containers (h : a.Peers c b d) : a.containers = [c] ∧ b.containers = [d] := by
  cases h <;> exact ⟨rfl, rfl⟩

/-- Containers of one kind are compared with the same result if their parts are. -/
theorem looseEqWithin_eq {n n' : Nat} {R : Value → Value → Prop} (h : a.Peers c b d)
    (ha : a.Peers c a' c') (hb : b.Peers d b' d') (first : Forall₂ R (w.values c) (w'.values c'))
    (second : Forall₂ R (w.values d) (w'.values d'))
    (below : ∀ u ∈ w.values c, ∀ u', R u u' → ∀ v ∈ w.values d, ∀ v', R v v' →
      w.looseEqWithin n u v = w'.looseEqWithin n' u' v' ∧
        w.looseEqWithin n v u = w'.looseEqWithin n' v' u') :
    w.looseEqWithin (n + 1) a b = w'.looseEqWithin (n' + 1) a' b' := by
  cases h with
  | list | array =>
    cases ha
    cases hb
    exact allPairs_eq first second fun u hu u' r v hv v' q => (below u hu u' r v hv v' q).1
  | dict x y =>
    cases ha with
    | dict _ x' =>
      cases hb with
      | dict _ y' =>
        have entries : Forall₂ (fun e e' => R e.1 e'.1 ∧ R e.2 e'.2)
          (w.entries x) (w'.entries x') := forall₂_entries.mp first
        have others : Forall₂ (fun e e' => R e.1 e'.1 ∧ R e.2 e'.2)
          (w.entries y) (w'.entries y') := forall₂_entries.mp second
        refine congrArg₂ (· && ·) ?_ ?_
        · exact congrArg₂ (· == ·) entries.length_eq others.length_eq
        refine all_eq_of_forall₂ entries fun e he e' _ r => ?_
        have mine := World.mem_values_of_entry he
        have found := lookupEntry_related others fun f hf f' q =>
          (below _ mine.1 _ r.1 _ (World.mem_values_of_entry hf).1 _ q).2
        generalize lookupEntry (w.looseEqWithin n) (w.entries y) e.1 = o at found ⊢
        generalize lookupEntry (w'.looseEqWithin n') (w'.entries y') e'.1 = o' at found ⊢
        cases found with
        | none => rfl
        | some other =>
          obtain ⟨⟨f, hf, rfl⟩, q⟩ := other
          exact (below _ mine.2 _ r.2 _ (World.mem_values_of_entry hf).2 _ q).1
  | set =>
    cases ha
    cases hb
    refine congrArg₂ (· && ·) (congrArg₂ (· == ·) first.length_eq second.length_eq) ?_
    refine all_eq_of_forall₂ first fun u hu u' _ r => ?_
    exact any_eq_of_forall₂ second fun v hv v' _ q => (below u hu u' r v hv v' q).2

end Value.Peers

/-! ## Kinds and types -/

namespace World.Matches

variable (m : w.Matches P lost β w')

include m

theorem className_eq {h h' : InstanceId} (p : β h.cell h'.cell) : w.className h = w'.className h' := by
  rw [className, className, m.classId p, classOf, classOf, m.classes]

theorem typeName_eq {v v' : Value} (h : v.Matches β v') : w.typeName v = w'.typeName v' := by
  obtain ⟨d, a⟩ := v
  obtain ⟨d', a'⟩ := v'
  obtain ⟨datum, -⟩ := h
  cases datum with
  | object p => exact m.className_eq p
  | scalar none =>
    cases d with
    | object h => cases none
    | _ => rfl
  | _ p => rfl

theorem valueType_eq {v v' : Value} (h : v.Matches β v') : w.valueType v = w'.valueType v' := by
  obtain ⟨d, a⟩ := v
  obtain ⟨d', a'⟩ := v'
  obtain ⟨datum, -⟩ := h
  cases datum with
  | object p =>
    simp only [valueType, typeId, m.classId p, classOf, m.classes]
    rfl
  | scalar none =>
    cases d with
    | object h => cases none
    | _ => rfl
  | _ p => rfl

/-! ## Equality -/

/-- Paired handles are the same as others are. -/
theorem same_handle {k : CellKind} {x x' y y' : Handle k} (p : β x.cell x'.cell)
    (q : β y.cell y'.cell) : (x == y) = (x' == y') := by
  have same := m.single p q
  by_cases e : x = y
  · rw [e, Handle.cell_injective (same.mp (congrArg Handle.cell e)), beq_self_eq_true,
      beq_self_eq_true]
  · have e' : x' ≠ y' := fun e' => e (Handle.cell_injective (same.mpr (congrArg Handle.cell e')))
    rw [beq_eq_false_iff_ne.mpr e, beq_eq_false_iff_ne.mpr e']

end World.Matches

/-- Of two containers one nests at most so deep, and of their values one does less deep. -/
theorem exists_less {v u : Value} {k : Nat} {c d : Cell} (h : v.Nested w k ∨ u.Nested w k)
    (hc : c ∈ v.containers) (hd : d ∈ u.containers) :
    ∃ j, k = j + 1 ∧ ∀ x ∈ w.values c, ∀ y ∈ w.values d, x.Nested w j ∨ y.Nested w j := by
  cases k with
  | zero =>
    rcases h with h | h
    · exact (h c hc).elim
    · exact (h d hd).elim
  | succ j =>
    refine ⟨j, rfl, fun x hx y hy => ?_⟩
    rcases h with h | h
    · exact .inl (.of_nests (h c hc) hx)
    · exact .inr (.of_nests (h d hd) hy)

namespace World.Matches

section Equality

variable (m : w.Matches P lost β w') {a a' b b' : Value}

include m

/-- The entries of paired dictionaries. -/
theorem entries {h h' : Handle .dict} (p : β h.cell h'.cell) :
    Forall₂ (EntriesMatch β) (w.entries h) (w'.entries h') :=
  forall₂_entries.mp (m.values p)

omit m in
/-- Comparing with a value that is no cell takes no look at the world. -/
theorem strictEqWithin_scalar {n n' : Nat} (ha : a.Matches β a') (hb : b.Matches β b')
    (scalar : a.datum.cell? = none ∨ b.datum.cell? = none) :
    w.strictEqWithin (n + 1) a b = w'.strictEqWithin (n' + 1) a' b' := by
  obtain ⟨da, sa⟩ := a
  obtain ⟨da', sa'⟩ := a'
  obtain ⟨db, sb⟩ := b
  obtain ⟨db', sb'⟩ := b'
  have ma := ha.datum
  have mb := hb.datum
  cases ma with
  | scalar none =>
    cases da with
    | null | bool _ | number _ | char _ | string _ =>
      cases mb with
      | scalar none => cases db <;> rfl
      | _ => rfl
    | _ => cases none
  | _ =>
    cases mb with
    | scalar none =>
      cases db with
      | null | bool _ | number _ | char _ | string _ => rfl
      | _ => cases none
    | _ => exact absurd scalar (by simp [Datum.cell?])

theorem strictEqWithin_eq {k : Nat} : ∀ {n n' : Nat} {a a' b b' : Value}, k < n → k < n' →
    a.Matches β a' → b.Matches β b' → (a.Nested w k ∨ b.Nested w k) →
      w.strictEqWithin n a b = w'.strictEqWithin n' a' b' := by
  induction k using Nat.strong_induction_on with
  | _ k ih =>
    intro n n' a a' b b' lt lt' ha hb nested
    obtain ⟨n, rfl⟩ := Nat.exists_eq_add_of_lt lt
    obtain ⟨n', rfl⟩ := Nat.exists_eq_add_of_lt lt'
    by_cases scalar : a.datum.cell? = none ∨ b.datum.cell? = none
    · exact strictEqWithin_scalar ha hb scalar
    obtain ⟨da, sa⟩ := a
    obtain ⟨da', sa'⟩ := a'
    obtain ⟨db, sb⟩ := b
    obtain ⟨db', sb'⟩ := b'
    -- the values of two containers are compared less deep
    have below : ∀ {c d}, c ∈ Value.containers ⟨da, sa⟩ → d ∈ Value.containers ⟨db, sb⟩ →
        ∀ x ∈ w.values c, ∀ x', x.Matches β x' → ∀ y ∈ w.values d, ∀ y', y.Matches β y' →
          w.strictEqWithin (k + n) x y = w'.strictEqWithin (k + n') x' y' ∧
            w.strictEqWithin (k + n) y x = w'.strictEqWithin (k + n') y' x' := by
      intro c d hc hd x hx x' mx y hy y' my
      obtain ⟨j, rfl, depth⟩ := exists_less nested hc hd
      have le : j < j + 1 + n := by omega
      have le' : j < j + 1 + n' := by omega
      have either := depth x hx y hy
      exact ⟨ih j j.lt_succ_self le le' mx my either, ih j j.lt_succ_self le le' my mx either.symm⟩
    have ma := ha.datum
    have mb := hb.datum
    cases ma with
    | scalar none => exact absurd (.inl none) scalar
    | list p =>
      cases mb with
      | list q =>
        refine congrArg₂ (· || ·) (m.same_handle p q) (allPairs_eq (m.values p) (m.values q) ?_)
        exact fun x hx x' mx y hy y' my => (below (List.mem_singleton_self _)
          (List.mem_singleton_self _) x hx x' mx y hy y' my).1
      | scalar none => exact absurd (.inr none) scalar
      | _ => rfl
    | array p =>
      cases mb with
      | array q =>
        refine congrArg₂ (· || ·) (m.same_handle p q) (allPairs_eq (m.values p) (m.values q) ?_)
        exact fun x hx x' mx y hy y' my => (below (List.mem_singleton_self _)
          (List.mem_singleton_self _) x hx x' mx y hy y' my).1
      | scalar none => exact absurd (.inr none) scalar
      | _ => rfl
    | dict p =>
      cases mb with
      | dict q =>
        refine congrArg₂ (· || ·) (m.same_handle p q) (allPairs_eq (m.entries p) (m.entries q) ?_)
        intro e he e' me f hf f' mf
        have same := below (List.mem_singleton_self _) (List.mem_singleton_self _)
        have ve := mem_values_of_entry he
        have vf := mem_values_of_entry hf
        exact congrArg₂ (· && ·) (same _ ve.1 _ me.1 _ vf.1 _ mf.1).1
          (same _ ve.2 _ me.2 _ vf.2 _ mf.2).1
      | scalar none => exact absurd (.inr none) scalar
      | _ => rfl
    | set p =>
      cases mb with
      | set q =>
        refine congrArg₂ (· || ·) (m.same_handle p q) (congrArg₂ (· && ·) ?_ ?_)
        · exact congrArg₂ (· == ·) (m.values p).length_eq (m.values q).length_eq
        · refine all_eq_of_forall₂ (m.values p) fun x hx x' _ mx => ?_
          refine any_eq_of_forall₂ (m.values q) fun y hy y' _ my => ?_
          exact (below (List.mem_singleton_self _) (List.mem_singleton_self _) x hx x' mx
            y hy y' my).2
      | scalar none => exact absurd (.inr none) scalar
      | _ => rfl
    | object p =>
      cases mb with
      | object q => exact m.same_handle p q
      | scalar none => exact absurd (.inr none) scalar
      | _ => rfl
    | callable p =>
      cases mb with
      | scalar none => exact absurd (.inr none) scalar
      | _ => rfl
    | overloads p =>
      cases mb with
      | scalar none => exact absurd (.inr none) scalar
      | _ => rfl

theorem strictEq_eq {k : Nat} (le : k ≤ w.size) (le' : k ≤ w'.size) (ha : a.Matches β a')
    (hb : b.Matches β b') (nested : a.Nested w k ∨ b.Nested w k) :
    w.strictEq a b = w'.strictEq a' b' :=
  m.strictEqWithin_eq (Nat.lt_succ_of_le le) (Nat.lt_succ_of_le le') ha hb nested

omit m in
theorem looseEqWithin_scalar {n n' : Nat} (ha : a.Matches β a') (hb : b.Matches β b')
    (scalar : a.datum.cell? = none ∨ b.datum.cell? = none)
    (strict : w.strictEq a b = w'.strictEq a' b') :
    w.looseEqWithin (n + 1) a b = w'.looseEqWithin (n' + 1) a' b' := by
  obtain ⟨da, sa⟩ := a
  obtain ⟨da', sa'⟩ := a'
  obtain ⟨db, sb⟩ := b
  obtain ⟨db', sb'⟩ := b'
  have ma := ha.datum
  have mb := hb.datum
  cases ma with
  | scalar none =>
    cases da with
    | number x =>
      cases mb with
      | scalar none =>
        cases db with
        | number y => rfl
        | _ => exact strict
      | _ => exact strict
    | null | bool _ | char _ | string _ => exact strict
    | _ => cases none
  | _ =>
    cases mb with
    | scalar none =>
      cases db with
      | null | bool _ | number _ | char _ | string _ => exact strict
      | _ => cases none
    | _ => exact absurd scalar (by simp [Datum.cell?])

theorem looseEqWithin_eq {k : Nat} : ∀ {n n' : Nat} {a a' b b' : Value}, k ≤ w.size → k ≤ w'.size →
    k < n → k < n' → a.Matches β a' → b.Matches β b' → (a.Nested w k ∨ b.Nested w k) →
      w.looseEqWithin n a b = w'.looseEqWithin n' a' b' := by
  induction k using Nat.strong_induction_on with
  | _ k ih =>
    intro n n' a a' b b' le le' lt lt' ha hb nested
    obtain ⟨n, rfl⟩ := Nat.exists_eq_add_of_lt lt
    obtain ⟨n', rfl⟩ := Nat.exists_eq_add_of_lt lt'
    have strict := m.strictEq_eq le le' ha hb nested
    by_cases scalar : a.datum.cell? = none ∨ b.datum.cell? = none
    · exact looseEqWithin_scalar ha hb scalar strict
    obtain ⟨da, sa⟩ := a
    obtain ⟨da', sa'⟩ := a'
    obtain ⟨db, sb⟩ := b
    obtain ⟨db', sb'⟩ := b'
    have below : ∀ {c d}, c ∈ Value.containers ⟨da, sa⟩ → d ∈ Value.containers ⟨db, sb⟩ →
        ∀ x ∈ w.values c, ∀ x', x.Matches β x' → ∀ y ∈ w.values d, ∀ y', y.Matches β y' →
          w.looseEqWithin (k + n) x y = w'.looseEqWithin (k + n') x' y' ∧
            w.looseEqWithin (k + n) y x = w'.looseEqWithin (k + n') y' x' := by
      intro c d hc hd x hx x' mx y hy y' my
      obtain ⟨j, rfl, depth⟩ := exists_less nested hc hd
      have before : j ≤ w.size ∧ j ≤ w'.size ∧ j < j + 1 + n ∧ j < j + 1 + n' := by omega
      obtain ⟨le, le', lt, lt'⟩ := before
      have either := depth x hx y hy
      exact ⟨ih j j.lt_succ_self le le' lt lt' mx my either,
        ih j j.lt_succ_self le le' lt lt' my mx either.symm⟩
    have ma := ha.datum
    have mb := hb.datum
    cases ma with
    | scalar none => exact absurd (.inl none) scalar
    | list p =>
      cases mb with
      | list q =>
        exact Value.Peers.looseEqWithin_eq (.list ..) (.list ..) (.list ..) (m.values p)
          (m.values q) (below (List.mem_singleton_self _) (List.mem_singleton_self _))
      | scalar none => exact absurd (.inr none) scalar
      | _ => exact strict
    | array p =>
      cases mb with
      | array q =>
        exact Value.Peers.looseEqWithin_eq (.array ..) (.array ..) (.array ..) (m.values p)
          (m.values q) (below (List.mem_singleton_self _) (List.mem_singleton_self _))
      | scalar none => exact absurd (.inr none) scalar
      | _ => exact strict
    | dict p =>
      cases mb with
      | dict q =>
        exact Value.Peers.looseEqWithin_eq (.dict ..) (.dict ..) (.dict ..) (m.values p)
          (m.values q) (below (List.mem_singleton_self _) (List.mem_singleton_self _))
      | scalar none => exact absurd (.inr none) scalar
      | _ => exact strict
    | set p =>
      cases mb with
      | set q =>
        exact Value.Peers.looseEqWithin_eq (.set ..) (.set ..) (.set ..) (m.values p)
          (m.values q) (below (List.mem_singleton_self _) (List.mem_singleton_self _))
      | scalar none => exact absurd (.inr none) scalar
      | _ => exact strict
    | _ =>
      cases mb with
      | scalar none => exact absurd (.inr none) scalar
      | _ => exact strict

/-- Loose equality, if one of the values is finite. -/
theorem looseEq_eq (ha : a.Matches β a') (hb : b.Matches β b') (finite : a.Finite w ∨ b.Finite w) :
    w.looseEq a b = w'.looseEq a' b' := by
  have depth : ∃ k, k ≤ w.size ∧ k ≤ w'.size ∧ (a.Nested w k ∨ b.Nested w k) := by
    rcases finite with finite | finite
    · obtain ⟨k, le, le', nested⟩ := m.exists_depth ha finite
      exact ⟨k, le, le', .inl nested⟩
    · obtain ⟨k, le, le', nested⟩ := m.exists_depth hb finite
      exact ⟨k, le, le', .inr nested⟩
  obtain ⟨k, le, le', nested⟩ := depth
  exact m.looseEqWithin_eq le le' (Nat.lt_succ_of_le le) (Nat.lt_succ_of_le le') ha hb nested

end Equality

/-! ## Texts -/

/-- What is held makes no difference to what worlds look like. -/
theorem hold (m : w.Matches P lost β w') (cells cells' : List Cell) :
    (w.hold cells).Matches P lost β (w'.hold cells') where
  there := m.there
  kind := m.kind
  single := m.single
  found := m.found
  values := m.values
  classId := m.classId
  scope := m.scope
  outline := m.outline
  bindings := m.bindings
  functions := m.functions
  methods := m.methods
  classes := m.classes
  overloads := m.overloads
  types := m.types
  sealed := m.sealed.hold
  sealed' := m.sealed'.hold

section Texts

variable (m : w.Matches P lost β w') {v v' : Value}

/-- The classes of methods that are paired are there in both worlds or in neither. -/
def SameClasses (β : Pairing) (w w' : World) : Prop :=
  ∀ {h : Handle .method}, β h.cell h.cell →
    w'.upgrade (w.method h).classId = w.upgrade (w.method h).classId

theorem quoted_eq {text text' : Value → String} (h : v.Matches β v') (same : text v = text' v') :
    quoted text v = quoted text' v' := by
  obtain ⟨d, a⟩ := v
  obtain ⟨d', a'⟩ := v'
  have datum := h.datum
  cases datum with
  | scalar none =>
    cases d with
    | string s => rfl
    | char c => rfl
    | _ => exact same
  | _ => exact same

include m

theorem callableText_eq (classes : SameClasses β w w') {c : Callable} (p : β c.cell c.cell) :
    w.callableText c = w'.callableText c := by
  cases c with
  | function h => simp only [callableText, function, m.functions]
  | classObject h => simp only [callableText, classOf, m.classes]
  | method h =>
    have same := classes (h := h) p
    simp only [callableText, method, m.methods, classOf, m.classes] at same ⊢
    rw [same]

theorem textWithin_eq (classes : SameClasses β w w') {k : Nat} : ∀ {n n' : Nat} {v v' : Value},
    k < n → k < n' → v.Matches β v' → v.Nested w k → w.textWithin n v = w'.textWithin n' v' := by
  induction k using Nat.strong_induction_on with
  | _ k ih =>
    intro n n' v v' lt lt' h nested
    obtain ⟨n, rfl⟩ := Nat.exists_eq_add_of_lt lt
    obtain ⟨n', rfl⟩ := Nat.exists_eq_add_of_lt lt'
    obtain ⟨d, a⟩ := v
    obtain ⟨d', a'⟩ := v'
    have below : ∀ {c}, c ∈ Value.containers ⟨d, a⟩ → ∀ x ∈ w.values c, ∀ x', x.Matches β x' →
        quoted (w.textWithin (k + n)) x = quoted (w'.textWithin (k + n')) x' := by
      intro c hc x hx x' mx
      have nests := nested c hc
      cases k with
      | zero => exact nests.elim
      | succ j =>
        have before : j < j + 1 + n ∧ j < j + 1 + n' := by omega
        exact quoted_eq mx (ih j j.lt_succ_self before.1 before.2 mx (.of_nests nests hx))
    have datum := h.datum
    cases datum with
    | scalar none =>
      cases d with
      | null | bool _ | number _ | char _ | string _ => rfl
      | _ => cases none
    | list p =>
      have texts := map_eq_of_forall₂ (m.values p) fun x hx x' _ mx =>
        below (List.mem_singleton_self _) x hx x' mx
      exact congrArg (fun xs => "[" ++ ", ".intercalate xs ++ "]") texts
    | array p =>
      have texts := map_eq_of_forall₂ (m.values p) fun x hx x' _ mx =>
        below (List.mem_singleton_self _) x hx x' mx
      exact congrArg (fun xs => "[" ++ ", ".intercalate xs ++ "]") texts
    | set p =>
      have texts := map_eq_of_forall₂ (m.values p) fun x hx x' _ mx =>
        below (List.mem_singleton_self _) x hx x' mx
      exact congrArg (fun xs => "\x7b" ++ ", ".intercalate xs ++ "\x7d") texts
    | dict p =>
      have same := below (List.mem_singleton_self _)
      have texts := map_eq_of_forall₂ (m.entries p) fun e he e' _ me =>
        congrArg₂ (· ++ ": " ++ ·) (same _ (mem_values_of_entry he).1 _ me.1)
          (same _ (mem_values_of_entry he).2 _ me.2)
      exact congrArg (fun xs => "\x7b" ++ ", ".intercalate xs ++ "\x7d") texts
    | callable p => exact m.callableText_eq classes p
    | object p => exact congrArg (fun name => "<" ++ name ++ " instance>") (m.className_eq p)
    | overloads p => simp only [textWithin, overloadSet, m.overloads]

/-- The display text, of a value that is held while it is shown. -/
theorem text_eq (classes : SameClasses β (w.hold v.cells) (w'.hold v'.cells))
    (h : v.Matches β v') (finite : v.Finite w) : w.text v = w'.text v' := by
  obtain ⟨k, le, le', nested⟩ := m.exists_depth h finite
  have same : ∀ c, (w.hold v.cells).values c = w.values c := fun _ => rfl
  exact (m.hold v.cells v'.cells).textWithin_eq classes (Nat.lt_succ_of_le le)
    (Nat.lt_succ_of_le le') h fun c hc => (nested c hc).congr same

end Texts

end World.Matches

end ScopeLang
