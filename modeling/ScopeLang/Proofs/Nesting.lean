/-
# How deep containers nest

Copies, texts and comparisons of values go down through containers and stop at
everything else, at a depth that is one more than the number of cells.  A value
is `Finite` if some depth is enough for it.  Then the number of cells is: a way
down that is longer passes a container twice, and could go round for ever.

Here instances count as leaves, unlike in `World.Within`.
-/
import ScopeLang.Proofs.Slots

namespace ScopeLang

open Relation

/-- Whether the cells of a kind are containers. -/
def CellKind.isContainer : CellKind → Bool
  | .list | .dict | .set => true
  | _ => false

/-- The container that a value is. -/
def Value.containers (v : Value) : List Cell := v.cells.filter fun c => c.kind.isContainer

theorem Value.mem_containers {v : Value} {c : Cell} :
    c ∈ v.containers ↔ c ∈ v.cells ∧ c.kind.isContainer = true := List.mem_filter

namespace World

variable {w w₁ : World} {a b c : Cell} {n m : Nat}

/-- What a container holds is in one of three stores. -/
theorem values_of_container (kind : c.kind.isContainer = true) (lists : w₁.lists = w.lists)
    (dicts : w₁.dicts = w.dicts) (sets : w₁.sets = w.sets) : w₁.values c = w.values c := by
  obtain ⟨k, i⟩ := c
  cases k with
  | list => rw [values, values, items, items, lists]
  | dict => rw [values, values, entries, entries, dicts]
  | set => rw [values, values, elements, elements, sets]
  | _ => cases kind

/-- Only scopes and containers have values. -/
theorem values_eq_nil (container : c.kind.isContainer = false) (scope : c.kind ≠ .scope) :
    w.values c = [] := by
  obtain ⟨k, i⟩ := c
  cases k with
  | scope => exact absurd rfl scope
  | list | dict | set => cases container
  | _ => rfl

/-- A container has another one among its values. -/
def Encloses (w : World) (a b : Cell) : Prop := ∃ v ∈ w.values a, b ∈ v.containers

/-- A way down from a container passes at most `n` containers, this one included. -/
def Nests (w : World) : Nat → Cell → Prop
  | 0, _ => False
  | n + 1, c => ∀ d, w.Encloses c d → Nests w n d

instance decidableNests (w : World) : ∀ n c, Decidable (w.Nests n c)
  | 0, _ => isFalse id
  | n + 1, c =>
    have := decidableNests w n
    decidable_of_iff (∀ v ∈ w.values c, ∀ d ∈ v.containers, w.Nests n d)
      ⟨fun h d ⟨v, hv, hd⟩ => h v hv d hd, fun h v hv d hd => h d ⟨v, hv, hd⟩⟩

theorem Nests.mono : ∀ {n m : Nat} {c : Cell}, n ≤ m → w.Nests n c → w.Nests m c
  | 0, _, _, _, h => h.elim
  | _ + 1, 0, _, le, _ => absurd le (Nat.not_succ_le_zero _)
  | _ + 1, _ + 1, _, le, h => fun d hd => (h d hd).mono (Nat.le_of_succ_le_succ le)

/-- How deep containers nest depends on what they hold only. -/
theorem Nests.congr (values : ∀ c, w₁.values c = w.values c) :
    ∀ {n : Nat} {c : Cell}, w.Nests n c → w₁.Nests n c
  | 0, _, h => h.elim
  | _ + 1, c, h => fun d ⟨v, hv, hd⟩ => (h d ⟨v, values c ▸ hv, hd⟩).congr values

theorem Nests.below (h : w.Nests n a) (way : ReflTransGen w.Encloses a b) : ∃ m, w.Nests m b := by
  induction way with
  | refl => exact ⟨n, h⟩
  | tail _ last ih =>
    obtain ⟨m, nests⟩ := ih
    cases m with
    | zero => exact nests.elim
    | succ m => exact ⟨m, nests _ last⟩

/-- A container that nests finitely deep does not enclose itself. -/
theorem Nests.irrefl : ∀ {n : Nat} {c : Cell}, w.Nests n c → ¬ TransGen w.Encloses c c
  | 0, _, h, _ => h.elim
  | n + 1, c, h, way => by
    obtain ⟨d, first, rest⟩ := TransGen.head'_iff.mp way
    exact (h d first).irrefl (.tail' rest first)

/-- The same, and all containers on the way are in `mine`. -/
def NestsIn (w : World) (mine : Cell → Prop) : Nat → Cell → Prop
  | 0, _ => False
  | n + 1, c => mine c ∧ ∀ d, w.Encloses c d → NestsIn w mine n d

theorem NestsIn.nests {mine : Cell → Prop} : ∀ {n : Nat} {c : Cell}, w.NestsIn mine n c → w.Nests n c
  | 0, _, h => h.elim
  | _ + 1, _, h => fun d hd => (h.2 d hd).nests

theorem NestsIn.below {mine : Cell → Prop} (h : w.NestsIn mine n a)
    (way : ReflTransGen w.Encloses a b) : mine b := by
  have each : ∃ m, w.NestsIn mine m b := by
    induction way with
    | refl => exact ⟨n, h⟩
    | tail _ last ih =>
      obtain ⟨m, nests⟩ := ih
      cases m with
      | zero => exact nests.elim
      | succ m => exact ⟨m, nests.2 _ last⟩
  obtain ⟨m, nests⟩ := each
  cases m with
  | zero => exact nests.elim
  | succ m => exact nests.1

/-- Some cells that are there, with all containers that they enclose. -/
structure Region (w : World) (mine : Cell → Prop) : Prop where
  there : ∀ {c}, mine c → c.In w.count
  encloses : ∀ {c d}, mine c → w.Encloses c d → mine d

section Region

variable {mine : Cell → Prop}

/-- A container that nests deeper starts a way down along as many containers. -/
theorem exists_way (region : Region w mine) : ∀ {n : Nat} {c : Cell}, mine c →
    c.kind.isContainer = true → ¬ w.Nests n c →
      ∃ l, (c :: l).IsChain w.Encloses ∧ l.length = n ∧ ∀ d ∈ c :: l, d ∈ w.owners
  | n, c, hc, kind, deep => by
    have owner : c ∈ w.owners := by
      refine mem_owners.mpr ⟨mem_ownerKinds.mpr ?_, region.there hc⟩
      constructor
      · intro method
        rw [method] at kind
        cases kind
      · intro types
        rw [types] at kind
        cases kind
    cases n with
    | zero => exact ⟨[], .singleton _, rfl, fun d hd => List.mem_singleton.mp hd ▸ owner⟩
    | succ n =>
      simp only [Nests, not_forall] at deep
      obtain ⟨d, encloses, deep⟩ := deep
      obtain ⟨v, hv, mem⟩ := encloses
      obtain ⟨l, chain, length, owners⟩ :=
        exists_way region (region.encloses hc ⟨v, hv, mem⟩) (Value.mem_containers.mp mem).2 deep
      refine ⟨d :: l, .cons_cons ⟨v, hv, mem⟩ chain, congrArg (· + 1) length, fun e he => ?_⟩
      rcases List.mem_cons.mp he with rfl | he
      · exact owner
      · exact owners e he

/-- Where some depth is enough, the number of cells is. -/
theorem Nests.le_size (region : Region w mine) (hc : mine c)
    (kind : c.kind.isContainer = true) (h : w.Nests n c) : w.Nests w.size c := by
  by_contra deep
  obtain ⟨l, chain, length, owners⟩ := exists_way region hc kind deep
  have ways : (c :: l).Pairwise (TransGen w.Encloses) :=
    (chain.imp fun _ _ => TransGen.single).pairwise
  have top : ∀ d ∈ c :: l, ReflTransGen w.Encloses c d := by
    intro d hd
    rcases List.mem_cons.mp hd with rfl | hd
    · exact .refl
    · exact (List.rel_of_pairwise_cons ways hd).to_reflTransGen
  have nodup : (c :: l).Nodup := by
    refine ways.imp_of_mem ?_
    rintro a _ ha - way rfl
    obtain ⟨m, nests⟩ := h.below (top a ha)
    exact nests.irrefl way
  have le := (nodup.subperm owners).length_le
  have := w.owners_length_le
  rw [List.length_cons] at le
  omega

end Region

end World

namespace Value

variable {w : World} {n m : Nat} {v : Value}

/-- A value nested at most `n` deep. -/
def Nested (w : World) (n : Nat) (v : Value) : Prop := ∀ c ∈ v.containers, w.Nests n c

instance decidableNested (w : World) (n : Nat) (v : Value) : Decidable (v.Nested w n) :=
  inferInstanceAs (Decidable (∀ c ∈ v.containers, w.Nests n c))

/-- A value nested finitely deep. -/
def Finite (w : World) (v : Value) : Prop := ∃ n, v.Nested w n

theorem Nested.mono (le : n ≤ m) (h : v.Nested w n) : v.Nested w m := fun c hc => (h c hc).mono le

/-- A value without containers nests not at all. -/
theorem nested_of_containers (none : v.containers = []) : v.Nested w n := fun c hc => by
  rw [none] at hc
  cases hc

/-- The values of a container nest less deep than the container. -/
theorem Nested.of_nests {c : Cell} (h : w.Nests (n + 1) c) (hv : v ∈ w.values c) : v.Nested w n :=
  fun d hd => h d ⟨v, hv, hd⟩

theorem Finite.nested {mine : Cell → Prop} (h : v.Finite w) (region : World.Region w mine)
    (hv : ∀ c ∈ v.containers, mine c) : v.Nested w w.size := by
  obtain ⟨n, nested⟩ := h
  exact fun c hc => (nested c hc).le_size region (hv c hc) (mem_containers.mp hc).2

end Value

end ScopeLang
