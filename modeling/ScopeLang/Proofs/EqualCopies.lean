/-
# Equal copies

A deep copy has containers of its own, so that it is equal to the original by what it holds
and not by its handles.  Two facts about resemblance yield both equalities.

* Two values that resemble one and the same composite value are strictly equal
  (`Composite.strictEqWithin_of_resembles`).  For lists, arrays and dictionaries this is so
  place by place; a set asks for a partner to each element, and the place of the element has one.
* Whether two composite values are loosely equal is the same for all values that resemble
  them (`Composite.looseEqWithin_eq`).  So a copy is loosely equal to the original if the original
  is so to itself.

The second proviso is there for dictionaries alone.  What is compared with the value of an entry
is found under the key of the entry, and that is the value of the first entry with such a key.
Each entry finds itself where the keys are apart (`lookupEntry_self`).  The elements of a set may
be equal, as an element always has itself for a partner.
-/
import ScopeLang.Proofs.Resemblance

namespace ScopeLang

open List (Forall₂)

variable {w w' : World} {a a' b b' v v' : Value} {c c' d d' : Cell} {k n n' : Nat}

/-! ## Strict equality -/

/-- Lists that are both related to a third one are related to each other. -/
theorem forall₂_span {α β : Type} {R : α → β → Prop} {T : β → β → Prop} {xs : List α}
    {ys zs : List β} (h : Forall₂ R xs ys) (i : Forall₂ R xs zs)
    (each : ∀ x ∈ xs, ∀ {y z}, R x y → R x z → T y z) : Forall₂ T ys zs := by
  induction h generalizing zs with
  | nil =>
    cases i
    exact .nil
  | cons first _ ih =>
    cases i with
    | cons second others =>
      exact .cons (each _ List.mem_cons_self first second)
        (ih others fun x hx => each x (List.mem_cons_of_mem _ hx))

/-- Containers of one kind are strictly equal if their parts are, place by place. -/
theorem Value.Peers.strictEqWithin (h : a.Peers c b d)
    (each : Forall₂ (fun u v => w.strictEqWithin n u v = true ∧ w.strictEqWithin n v u = true)
      (w.values c) (w.values d)) : w.strictEqWithin (n + 1) a b = true := by
  cases h with
  | list | array =>
    exact Bool.or_eq_true_iff.mpr (.inr (allPairs_iff.mpr (each.imp fun _ _ both => both.1)))
  | dict =>
    refine Bool.or_eq_true_iff.mpr (.inr (allPairs_iff.mpr ?_))
    exact (forall₂_entries.mp each).imp fun _ _ both =>
      Bool.and_eq_true_iff.mpr ⟨both.1.1, both.2.1⟩
  | set =>
    have covers := Covers.of_forall₂ (each.imp fun _ _ both => both.2)
    exact Bool.or_eq_true_iff.mpr (.inr ((covers_iff fun _ _ => List.any_eq_true).mpr covers))

/-- Values that resemble one composite value are strictly equal. -/
theorem Composite.strictEqWithin_of_resembles (h : Composite w v) :
    ∀ {k n a b}, v.Nested w k → k < n → Resembles w w' v a → Resembles w w' v b →
      w'.strictEqWithin n a b = true := by
  induction h with
  | scalar plain =>
    intro k n a b _ lt ra rb
    obtain ⟨n, rfl⟩ := Nat.exists_eq_succ_of_ne_zero (Nat.ne_zero_of_lt lt)
    obtain rfl := ra.eq_of_scalar plain
    obtain rfl := rb.eq_of_scalar plain
    exact w'.strictEqWithin_self n (Value.isNaN_of_scalar plain)
  | @container v c cells _ _ ih =>
    intro k n a b nested lt ra rb
    obtain ⟨n, rfl⟩ := Nat.exists_eq_succ_of_ne_zero (Nat.ne_zero_of_lt lt)
    have nests := nested c (cells ▸ List.mem_singleton_self c)
    cases k with
    | zero => exact nests.elim
    | succ k =>
      obtain ⟨c₁, peers₁, -, parts₁⟩ := ra.parts cells
      obtain ⟨c₂, peers₂, -, parts₂⟩ := rb.parts cells
      refine (peers₁.symm.trans peers₂).strictEqWithin (forall₂_span parts₁ parts₂ ?_)
      intro u hu x y rx ry
      have less := Nat.lt_of_succ_lt_succ lt
      have inner := Value.Nested.of_nests nests hu
      exact ⟨ih u hu inner less rx ry, ih u hu inner less ry rx⟩

/-! ## Loose equality -/

/-- Comparing scalars takes no look at the world. -/
theorem looseEqWithin_of_scalars (plain : a.isScalar = true) (plain' : b.isScalar = true) :
    w.looseEqWithin (n + 1) a b = w'.looseEqWithin (n' + 1) a b := by
  obtain ⟨d, s⟩ := a
  obtain ⟨e, t⟩ := b
  cases d with
  | list _ | array _ | dict _ | set _ | object _ => cases plain
  | _ =>
    cases e with
    | list _ | array _ | dict _ | set _ | object _ => cases plain'
    | _ => rfl

theorem looseEqWithin_scalar_self (plain : v.isScalar = true) :
    w.looseEqWithin (n + 1) v v = true := by
  obtain ⟨d, s⟩ := v
  cases d with
  | list _ | array _ | dict _ | set _ | object _ => cases plain
  | number x => exact Number.looselyEqual_self (Value.isNaN_of_scalar plain)
  | _ => exact w.strictEqWithin_self w.size (Value.isNaN_of_scalar plain)

/-- A container is not equal to what is of another kind. -/
theorem looseEqWithin_unlike (cells : a.containers = [c]) (unlike : b.kind ≠ a.kind) :
    w.looseEqWithin n a b = false ∧ w.looseEqWithin n b a = false := by
  cases n with
  | zero => exact ⟨rfl, rfl⟩
  | succ n =>
    obtain ⟨e, t⟩ := b
    cases Value.peers_self cells <;> cases e <;>
      first | exact ⟨rfl, rfl⟩ | exact absurd rfl unlike

/-- What resembles is compared with the same result. -/
theorem Composite.looseEqWithin_eq : ∀ {n n' k a b a' b'}, Composite w a → Composite w b →
    a.Nested w k → b.Nested w k → k < n → k < n' → Resembles w w' a a' → Resembles w w' b b' →
      w.looseEqWithin n a b = w'.looseEqWithin n' a' b' := by
  intro n
  induction n with
  | zero => exact fun _ _ _ _ lt => absurd lt (Nat.not_lt_zero _)
  | succ n ih =>
    intro n' k a b a' b' ha hb na nb lt lt' ra rb
    obtain ⟨n', rfl⟩ := Nat.exists_eq_succ_of_ne_zero (Nat.ne_zero_of_lt lt')
    by_cases plain : a.isScalar = true ∧ b.isScalar = true
    · obtain rfl := ra.eq_of_scalar plain.1
      obtain rfl := rb.eq_of_scalar plain.2
      exact looseEqWithin_of_scalars plain.1 plain.2
    have holder : (∃ c, a.containers = [c]) ∨ ∃ d, b.containers = [d] := by
      cases ha with
      | container cells => exact .inl ⟨_, cells⟩
      | scalar first =>
        cases hb with
        | container cells => exact .inr ⟨_, cells⟩
        | scalar second => exact absurd ⟨first, second⟩ plain
    by_cases kind : b.kind = a.kind
    · have both : ∃ c d, a.Peers c b d := by
        rcases holder with ⟨c, cells⟩ | ⟨d, cells⟩
        · exact ⟨c, Value.peers_of_kind cells kind⟩
        · obtain ⟨c, peers⟩ := Value.peers_of_kind cells kind.symm
          exact ⟨c, d, peers.symm⟩
      obtain ⟨c, d, peers⟩ := both
      obtain ⟨c', peers₁, -, parts₁⟩ := ra.parts peers.containers.1
      obtain ⟨d', peers₂, -, parts₂⟩ := rb.parts peers.containers.2
      have memC : c ∈ a.containers := peers.containers.1 ▸ List.mem_singleton_self c
      have memD : d ∈ b.containers := peers.containers.2 ▸ List.mem_singleton_self d
      cases k with
      | zero => exact (na c memC).elim
      | succ k =>
        have less := Nat.lt_of_succ_lt_succ lt
        have less' := Nat.lt_of_succ_lt_succ lt'
        refine peers.looseEqWithin_eq peers₁ peers₂ parts₁ parts₂ fun u hu u' ru v hv v' rv => ?_
        have nu := Value.Nested.of_nests (na c memC) hu
        have nv := Value.Nested.of_nests (nb d memD) hv
        have cu := (ha.parts memC).2 u hu
        have cv := (hb.parts memD).2 v hv
        exact ⟨ih cu cv nu nv less less' ru rv, ih cv cu nv nu less less' rv ru⟩
    · have kind' : b'.kind ≠ a'.kind := by
        rw [ra.kind, rb.kind]
        exact kind
      rcases holder with ⟨c, cells⟩ | ⟨d, cells⟩
      · obtain ⟨c', peers, -⟩ := ra.parts cells
        rw [(looseEqWithin_unlike cells kind).1,
          (looseEqWithin_unlike peers.containers.2 kind').1]
      · obtain ⟨d', peers, -⟩ := rb.parts cells
        rw [(looseEqWithin_unlike cells (Ne.symm kind)).2,
          (looseEqWithin_unlike peers.containers.2 (Ne.symm kind')).2]

/-- The keys of all dictionaries in a value are apart: none is equal to a later one. -/
def Value.KeysApart (w : World) (v : Value) : Prop :=
  ∀ x : Handle .dict, v.Reaches w x.cell →
    (w.entries x).Pairwise fun e f => w.looseEq e.1 f.1 = false

/-- Under the key of an entry is its value, if the keys are apart. -/
theorem lookupEntry_self {equal : Value → Value → Bool} {es : List (Value × Value)}
    (self : ∀ e ∈ es, equal e.1 e.1 = true)
    (apart : es.Pairwise fun e f => equal e.1 f.1 = false) :
    ∀ e ∈ es, lookupEntry equal es e.1 = some e.2 := by
  induction apart with
  | nil => exact fun _ he => absurd he List.not_mem_nil
  | @cons e es first _ ih =>
    intro f hf
    rcases List.mem_cons.mp hf with rfl | hf
    · simp only [lookupEntry, List.find?_cons, self f List.mem_cons_self, Option.map_some]
    · have found := ih (fun g hg => self g (List.mem_cons_of_mem e hg)) f hf
      simp only [lookupEntry] at found
      simp only [lookupEntry, List.find?_cons, first f hf, found]

theorem Value.KeysApart.part (h : v.KeysApart w) (mem : c ∈ v.containers) (hu : a ∈ w.values c) :
    a.KeysApart w :=
  fun x reached => h x ⟨c, mem, reached.within hu⟩

/-- A composite value is loosely equal to itself if the keys in it are apart. -/
theorem Composite.looseEqWithin_self (h : Composite w v) : ∀ {k n}, v.KeysApart w → v.Nested w k →
    k ≤ w.size → k < n → w.looseEqWithin n v v = true := by
  induction h with
  | @scalar v plain =>
    intro k n _ _ _ lt
    obtain ⟨n, rfl⟩ := Nat.exists_eq_succ_of_ne_zero (Nat.ne_zero_of_lt lt)
    exact looseEqWithin_scalar_self plain
  | @container v c cells here parts ih =>
    intro k n apart nested le lt
    obtain ⟨n, rfl⟩ := Nat.exists_eq_succ_of_ne_zero (Nat.ne_zero_of_lt lt)
    have mem : c ∈ v.containers := cells ▸ List.mem_singleton_self c
    cases k with
    | zero => exact (nested c mem).elim
    | succ k =>
      have less := Nat.lt_of_succ_lt_succ lt
      have inner := fun u (hu : u ∈ w.values c) => Value.Nested.of_nests (nested c mem) hu
      have self := fun u hu =>
        ih u hu (apart.part mem hu) (inner u hu) (Nat.le_of_succ_le le) less
      cases Value.peers_self cells with
      | list | array => exact allPairs_self self
      | dict x =>
        have keys := fun e (he : e ∈ w.entries x) => self e.1 (World.mem_values_of_entry he).1
        have single : (w.entries x).Pairwise fun e f => w.looseEqWithin n e.1 f.1 = false := by
          refine (apart x ⟨_, mem, .refl⟩).imp_of_mem fun {e f} he hf unequal => ?_
          have me := (World.mem_values_of_entry he).1
          have mf := (World.mem_values_of_entry hf).1
          rw [← unequal]
          exact (parts _ me).looseEqWithin_eq (parts _ mf) (inner _ me) (inner _ mf) less
            (by omega) (parts _ me).refl (parts _ mf).refl
        rw [looseEqWithin_dict, beq_self_eq_true, Bool.true_and, List.all_eq_true]
        intro e he
        rw [lookupEntry_self keys single e he]
        exact self e.2 (World.mem_values_of_entry he).2
      | set x =>
        refine (covers_iff fun _ _ => List.any_eq_true).mpr (Covers.refl ?_)
        exact self

/-! ## Copies -/

namespace World

/-- What a copy of a value has in common with it. -/
structure EqualCopy (w : World) (v : Value) (made : Value × World) : Prop where
  /-- The original and all else are as before. -/
  amends : w.Amends Nowhere Nowhere made.2
  /-- The copy is composite, too. -/
  composite : Composite made.2 made.1
  kind : made.1.kind = v.kind
  /-- Elements, entries and attributes are the same at all levels, in the same order. -/
  resembles : Resembles w made.2 v made.1
  strict : made.2.strictEq made.1 v = true ∧ made.2.strictEq v made.1 = true
  loose : v.KeysApart w → made.2.looseEq made.1 v = true ∧ made.2.looseEq v made.1 = true

theorem EqualCopy.of_remakes {made : Value × World} (h : Composite w v)
    (amends : w.Amends Nowhere Nowhere made.2) (remakes : Remakes w v made.2 made.1) :
    w.EqualCopy v made where
  amends := amends
  composite := remakes.1
  kind := remakes.2.kind
  resembles := remakes.2
  strict := by
    have lt := Nat.lt_succ_of_le (size_mono amends.count)
    have same := (h.later amends).2
    exact ⟨h.strictEqWithin_of_resembles h.nested lt remakes.2 same,
      h.strictEqWithin_of_resembles h.nested lt same remakes.2⟩
  loose apart := by
    have lt := w.size.lt_succ_self
    have lt' := Nat.lt_succ_of_le (size_mono amends.count)
    have same := (h.later amends).2
    have self := h.looseEqWithin_self apart h.nested w.size.le_refl lt
    exact ⟨(h.looseEqWithin_eq h h.nested h.nested lt lt' remakes.2 same).symm.trans self,
      (h.looseEqWithin_eq h h.nested h.nested lt lt' same remakes.2).symm.trans self⟩

/-- Copies of a composite value are equal to it, and do not depend on how deep copying may go. -/
theorem equalCopy (h : Composite w v) :
    (∀ n, w.size < n → copyWithin n v w = w.deepCopy v) ∧
      w.EqualCopy v (w.deepCopy v) ∧ w.EqualCopy v (w.duplicate v) := by
  have copies := copiesParts_copyWithin (w.size + 1)
  have deep : w.EqualCopy v (w.deepCopy v) := .of_remakes h (copies.amends v w) (copies.remakes h)
  refine ⟨fun n lt => ?_, deep, ?_⟩
  · exact h.copyWithin_eq h.nested lt w.size.lt_succ_self (.refl w)
  · rw [duplicate, duplicateBy]
    split
    · exact .of_remakes h (.refl w) ⟨h, h.refl⟩
    · exact deep

/-- A dictionary with a constant list and a named set with two equal elements. -/
theorem equalCopy_nested :
    let items := empty.newItems [.int 1, .string "é"]
    let elements := items.2.newElements [.int 1, .long 1]
    let made := elements.2.newEntries
      [(.string "list", ⟨.list items.1, { isConst := true }⟩),
        (.int 2, ⟨.set elements.1, { displayName := some "set" }⟩)]
    let w := made.2
    let v : Value := ⟨.dict made.1, { isMutable := true }⟩
    Composite w v ∧ v.KeysApart w ∧ w.EqualCopy v (w.deepCopy v) ∧ w.EqualCopy v (w.duplicate v) ∧
      (w.deepCopy v).2.looseEq (w.deepCopy v).1 v = true := by
  intro items elements made w v
  have composite : Composite w v := by
    refine .container rfl (Nat.lt_add_one 0) ?_
    show ∀ u ∈ [Value.string "list", ⟨.list items.1, { isConst := true }⟩, .int 2,
      ⟨.set elements.1, { displayName := some "set" }⟩], Composite w u
    simp only [List.forall_mem_cons, List.not_mem_nil, false_imp_iff, implies_true, and_true]
    refine ⟨.scalar rfl, .container rfl (Nat.lt_add_one 0) ?_, .scalar rfl,
      .container rfl (Nat.lt_add_one 0) ?_⟩
    · show ∀ u ∈ [Value.int 1, .string "é"], Composite w u
      simp only [List.forall_mem_cons, List.not_mem_nil, false_imp_iff, implies_true, and_true]
      exact ⟨.scalar rfl, .scalar rfl⟩
    · show ∀ u ∈ [Value.int 1, .long 1], Composite w u
      simp only [List.forall_mem_cons, List.not_mem_nil, false_imp_iff, implies_true, and_true]
      exact ⟨.scalar rfl, .scalar rfl⟩
  have apart : v.KeysApart w := by
    intro x _
    simp only [w, made, entries_newEntries]
    split
    · exact List.pairwise_pair.mpr rfl
    · exact .nil
  obtain ⟨-, deep, duplicate⟩ := equalCopy composite
  exact ⟨composite, apart, deep, duplicate, (deep.loose apart).1⟩

end World

end ScopeLang
