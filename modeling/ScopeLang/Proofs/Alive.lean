/-
# Aliveness does not depend on the depth of the search

Whether a cell is alive is decided by a search along its owners which gives up
after as many steps as there are cells and then answers yes, because a path of
that many owners has to close a ring.  That is the one thing to prove here: the
answer at this depth is the answer at every greater depth.  What can be alive at
depth `n` shrinks with `n`, and it shrinks for the last time before the depth
reaches the number of cells, since every time costs a cell.

From then on a cell is alive if it is `Anchored`, and anchors are easy to carry
along: down to what an anchored cell owns, and into any world that only adds
cells.
-/
import ScopeLang.Proofs.Copies

namespace ScopeLang

namespace World

variable {w w' : World} {a c : Cell}

/-! ## Owners -/

/-- The kinds of cells that can own others. -/
def ownerKinds : List CellKind :=
  [.classObject, .function, .object, .overloads, .scope, .list, .dict, .set]

/-- The cells that can own others. -/
def owners (w : World) : List Cell :=
  ownerKinds.flatMap fun k => (List.range (w.count k)).map (Cell.mk k)

theorem mem_ownerKinds {k : CellKind} : k ∈ ownerKinds ↔ k ≠ .method ∧ k ≠ .types := by
  cases k <;> decide

theorem mem_owners : c ∈ w.owners ↔ c.kind ∈ ownerKinds ∧ c.In w.count := by
  obtain ⟨k, i⟩ := c
  simp only [owners, List.mem_flatMap, List.mem_map, List.mem_range, Cell.mk.injEq, Cell.In]
  constructor
  · rintro ⟨k', mem, j, lt, rfl, rfl⟩
    exact ⟨mem, lt⟩
  · rintro ⟨mem, lt⟩
    exact ⟨k, mem, i, lt, rfl, rfl⟩

theorem owners_length_le (w : World) : w.owners.length ≤ w.size := by
  simp only [owners, ownerKinds, List.flatMap_cons, List.flatMap_nil, List.length_append,
    List.length_map, List.length_range, List.length_nil, count, size]
  omega

theorem anyOwner_eq_true {p : Cell → Bool} :
    w.anyOwner p = true ↔ ∃ o, (o ∈ w.held ∨ o ∈ w.owners) ∧ p o = true := by
  have ofKind : ∀ k, (∃ h : Handle k, h.In w.count ∧ p h.cell = true) ↔
      ∃ o : Cell, o.kind = k ∧ o.In w.count ∧ p o = true := fun k =>
    ⟨fun ⟨h, there, ph⟩ => ⟨h.cell, rfl, there, ph⟩,
      fun ⟨⟨_, i⟩, kind, there, ph⟩ => by subst kind; exact ⟨⟨i⟩, there, ph⟩⟩
  have stored : ∀ {k : CellKind} {α : Type} (store : Store k α), store.size = w.count k →
      (store.anyHandle (p ·.cell) = true ↔
        ∃ o : Cell, o.kind = k ∧ o.In w.count ∧ p o = true) := fun store size => by
    rw [Store.anyHandle_eq_true, ← ofKind]
    simp only [Store.Has, size, Handle.In]
  simp only [anyOwner, Bool.or_eq_true, List.any_eq_true, mem_owners, ownerKinds, List.mem_cons,
    List.not_mem_nil, or_false, stored w.classes rfl, stored w.functions rfl,
    stored w.instances rfl, stored w.overloads rfl, stored w.scopes rfl, stored w.lists rfl,
    stored w.dicts rfl, stored w.sets rfl]
  grind

/-- An owner of a cell, as far as the search at depth `n` can tell. -/
theorem aliveWithin_succ {n : Nat} :
    w.aliveWithin (n + 1) c = true ↔ c ∈ w.held ∨
      ∃ o, (o ∈ w.held ∨ o ∈ w.owners) ∧ c ∈ w.owned o ∧ w.aliveWithin n o = true := by
  simp only [aliveWithin, Bool.or_eq_true, List.contains_iff_mem, anyOwner_eq_true,
    Bool.and_eq_true]

/-- A cell that owns something is of a kind that can. -/
theorem owner_of_owned (there : a.In w.count) (owned : c ∈ w.owned a) : a ∈ w.owners := by
  obtain ⟨k, i⟩ := a
  refine mem_owners.mpr ⟨mem_ownerKinds.mpr ⟨?_, ?_⟩, there⟩
  · rintro rfl
    exact absurd owned List.not_mem_nil
  · rintro rfl
    exact absurd owned List.not_mem_nil

/-! ## The depth of the search -/

/-- A cell that is alive however deep the search goes. -/
def Anchored (w : World) (c : Cell) : Prop := ∀ n, w.aliveWithin n c = true

theorem Anchored.alive (h : w.Anchored c) : w.alive c = true := h w.size

theorem aliveWithin_of_succ {n : Nat} :
    ∀ {c : Cell}, w.aliveWithin (n + 1) c = true → w.aliveWithin n c = true := by
  induction n with
  | zero => exact fun _ => rfl
  | succ n ih =>
    intro c h
    rw [aliveWithin_succ] at h ⊢
    refine h.imp_right fun ⟨o, there, owned, alive⟩ => ⟨o, there, owned, ih alive⟩

theorem aliveWithin_of_le {n m : Nat} (le : n ≤ m) (h : w.aliveWithin m c = true) :
    w.aliveWithin n c = true := by
  induction le with
  | refl => exact h
  | step _ ih => exact ih (aliveWithin_of_succ h)

theorem anchored_of_held (h : c ∈ w.held) : w.Anchored c := fun n => by
  cases n with
  | zero => rfl
  | succ n => exact aliveWithin_succ.mpr (.inl h)

theorem Anchored.owned (h : w.Anchored a) (there : a.In w.count) (owned : c ∈ w.owned a) :
    w.Anchored c := fun n => by
  cases n with
  | zero => rfl
  | succ n => exact aliveWithin_succ.mpr (.inr ⟨a, .inr (owner_of_owned there owned), owned, h n⟩)

/-- Once no owner is dropped from one depth to the next, none is dropped any more. -/
theorem aliveWithin_stable {n : Nat}
    (stable : ∀ o ∈ w.owners, w.aliveWithin n o = true → w.aliveWithin (n + 1) o = true) :
    ∀ (m : Nat) {c : Cell}, w.aliveWithin (n + 1) c = true → w.aliveWithin (n + 1 + m) c = true
  | 0, _, h => h
  | m + 1, c, h => by
    rw [aliveWithin_succ] at h
    refine aliveWithin_succ.mpr (h.imp_right fun ⟨o, there, owned, alive⟩ => ?_)
    refine ⟨o, there, owned, ?_⟩
    rcases there with held | owner
    · exact anchored_of_held held _
    · exact aliveWithin_stable stable m (stable o owner alive)

/-- At one of the first depths no owner is dropped. -/
theorem exists_stable (w : World) : ∃ n ≤ w.size,
    ∀ o ∈ w.owners, w.aliveWithin n o = true → w.aliveWithin (n + 1) o = true := by
  by_contra none
  have unstable : ∀ n ≤ w.size, ∃ o ∈ w.owners,
      w.aliveWithin n o = true ∧ w.aliveWithin (n + 1) o ≠ true := by
    intro n le
    by_contra all
    refine none ⟨n, le, fun o owner alive => ?_⟩
    by_contra dead
    exact all ⟨o, owner, alive, dead⟩
  -- every depth up to the number of cells drops one of them
  have drops : ∀ n ≤ w.size + 1, (w.owners.filter (w.aliveWithin n)).length + n ≤ w.owners.length := by
    intro n
    induction n with
    | zero => exact fun _ => List.length_filter_le _ _
    | succ n ih =>
      intro le
      obtain ⟨o, owner, alive, dead⟩ := unstable n (by omega)
      have fewer : (w.owners.filter (w.aliveWithin (n + 1))).length <
          (w.owners.filter (w.aliveWithin n)).length := by
        have sub : w.owners.filter (w.aliveWithin (n + 1)) =
            (w.owners.filter (w.aliveWithin n)).filter (w.aliveWithin (n + 1)) := by
          rw [List.filter_filter]
          refine List.filter_congr fun c _ => ?_
          cases later : w.aliveWithin (n + 1) c with
          | false => rfl
          | true => rw [aliveWithin_of_succ later]; rfl
        rw [sub, List.length_filter_lt_length_iff_exists]
        exact ⟨o, List.mem_filter.mpr ⟨owner, alive⟩, dead⟩
      have := ih (by omega)
      omega
  have := drops (w.size + 1) (Nat.le_refl _)
  have := w.owners_length_le
  omega

/-- A cell that can own others and is alive is anchored. -/
theorem anchored_of_alive (owner : c ∈ w.owners) (h : w.alive c = true) : w.Anchored c := by
  obtain ⟨n, le, stable⟩ := w.exists_stable
  have later : w.aliveWithin (n + 1) c = true := stable c owner (aliveWithin_of_le le h)
  intro m
  exact aliveWithin_of_le (Nat.le_add_left m (n + 1)) (aliveWithin_stable stable m later)

/-! ## Worlds that only add cells -/

namespace Spares

theorem owners (h : w.Spares w') (owner : c ∈ w.owners) : c ∈ w'.owners := by
  rw [mem_owners] at owner ⊢
  exact owner.imp_right (·.mono h.count)

theorem owned (h : w.Spares w') (owner : c ∈ w.owners) : w'.owned c = w.owned c := by
  obtain ⟨kind, there⟩ := mem_owners.mp owner
  obtain ⟨k, i⟩ := c
  cases k with
  | scope => exact congrArg Scope.cells (h.scope there)
  | list => exact congrArg (List.flatMap Value.cells) (h.items there)
  | dict => exact congrArg (List.flatMap fun e => e.1.cells ++ e.2.cells) (h.entries there)
  | set => exact congrArg (List.flatMap Value.cells) (h.elements there)
  | object => exact congrArg Instance.cells (h.inst there)
  | function => simp only [World.owned, function, h.functions]
  | classObject => simp only [World.owned, classOf, h.classes]
  | overloads => simp only [World.owned, overloadSet, h.overloads]
  | method | types => rfl

/-- What is anchored stays anchored.  What is held has to be there, as a held cell that is
added later on would come with owned cells of its own. -/
theorem anchored (h : w.Spares w') (there : ∀ o ∈ w.held, o.In w.count) (anchored : w.Anchored c) :
    w'.Anchored c := by
  have each : ∀ n {c}, w.aliveWithin n c = true → w'.aliveWithin n c = true := by
    intro n
    induction n with
    | zero => exact fun _ => rfl
    | succ n ih =>
      intro c alive
      rw [aliveWithin_succ] at alive ⊢
      rw [h.held]
      refine alive.imp_right fun ⟨o, owner, owned, up⟩ => ?_
      have owner : o ∈ w.owners := owner.elim (fun held => owner_of_owned (there o held) owned) id
      exact ⟨o, .inr (h.owners owner), h.owned owner ▸ owned, ih up⟩
  exact fun n => each n (anchored n)

end Spares

end World

end ScopeLang
