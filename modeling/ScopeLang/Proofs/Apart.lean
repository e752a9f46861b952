/-
# Cells that are kept apart

Expressions alias freely: a slice shares the items of the list it is taken from,
and a look-up answers what sits in a slot.  So there are two sorts of cells.
Those that variables lead to are kept apart from each other: each sits in one slot
of another.  The others are temporary; they may hold anything, but what is kept
holds none of them.

Two lemmas keep the cells apart.  A new temporary cell changes nothing
(`Apart.alloc`), and whatever else is written into a slot was there before or is
the top of a fresh copy (`Apart.put`).
-/
import ScopeLang.Proofs.Sprouts

namespace ScopeLang

open Relation

variable {D : Dialect} {w w₁ w₂ : World} {c : Cell} {kept : Cell → Prop} {roots xs : List Cell}

/-- The scopes, and all that their slots lead to, are among the kept cells.  None of these sits in
two slots of kept cells, and no cell at all reaches itself. -/
structure World.Apart (w : World) (kept : Cell → Prop) : Prop where
  there : ∀ {a}, kept a → a.In w.count
  scope : ∀ {s : ScopeId}, s.In w.count → kept s.cell
  closed : ∀ {a b}, kept a → b ∈ w.slots a → kept b
  nodup : ∀ {a}, kept a → (w.slots a).Nodup
  single : ∀ {a b d}, kept a → kept b → d ∈ w.slots a → d ∈ w.slots b → a = b
  acyclic : w.Acyclic

namespace World.Apart

/-- Nothing has changed in the slots. -/
theorem of_same (h : w.Apart kept) (count : w₁.count = w.count)
    (slots : ∀ c, w₁.slots c = w.slots c) : w₁.Apart kept := by
  have holds : w₁.Holds = w.Holds := by
    funext a b
    rw [Holds, Holds, count, slots]
  constructor
  case there => rw [count]; exact h.there
  case scope => rw [count]; exact h.scope
  case closed => simp only [slots]; exact h.closed
  case nodup => simp only [slots]; exact h.nodup
  case single => simp only [slots]; exact h.single
  case acyclic => rw [Acyclic, holds]; exact h.acyclic

/-- A scope has been given other links or tables. -/
theorem setScope (h : w.Apart kept) {s : ScopeId} {x : Scope}
    (same : x.bindings = (w.scope s).bindings) : (w.setScope s x).Apart kept := by
  refine h.of_same (w.count_setScope s x) fun c => slots_congr ?_ fun _ => rfl
  rw [values_setScope]
  split
  · rename_i e
    rw [e.1, same]
    rfl
  · rfl

/-- A new cell that is no scope, with anything in its slots. -/
theorem alloc (h : w.Apart kept) (sound : Sound D w) (writes : w.Writes c xs w₁)
    (new : ¬ c.In w.count) (kind : c.kind ≠ .scope) (old : ∀ x ∈ xs, x.In w.count) :
    w₁.Apart kept := by
  have slots : ∀ {a}, kept a → w₁.slots a = w.slots a := by
    intro a ka
    refine writes.other fun e => new ?_
    exact e ▸ h.there ka
  constructor
  case there => exact fun ka => writes.there.mpr (.inl (h.there ka))
  case scope =>
    intro s there
    refine h.scope ((writes.there.mp (Handle.cell_in.mpr there)).resolve_right fun e => kind ?_)
    exact e ▸ rfl
  case closed =>
    intro a b ka mem
    exact h.closed ka (slots ka ▸ mem)
  case nodup =>
    intro a ka
    rw [slots ka]
    exact h.nodup ka
  case single =>
    intro a b d ka kb ha hb
    exact h.single ka kb (slots ka ▸ ha) (slots kb ▸ hb)
  case acyclic =>
    refine acyclic_of_edges (x := c) (Y := (· ∈ xs)) (fun a b held => ?_) h.acyclic ?_
    · exact (writes.holds held).imp_left And.left
    · -- no slot leads to the new cell
      intro x hx way
      rcases ReflTransGen.cases_tail way with same | ⟨a, -, held⟩
      · exact new (same ▸ old x hx)
      · exact new (held.there sound)

/-- More cells, which are all kept. -/
theorem sprouts (h : w.Apart kept) (sound : Sound D w) (s : Sprouts D w roots w₁) :
    w₁.Apart fun a => a.In w₁.count ∧ (a.In w.count → kept a) := by
  have slots : ∀ {a}, a.In w.count → w₁.slots a = w.slots a := s.spares.slots
  -- what sits in a slot is as old as the cell
  have before : ∀ {a b}, a.In w.count → b ∈ w₁.slots a → b.In w.count := by
    intro a b there mem
    exact Holds.there sound ⟨there, slots there ▸ mem⟩
  have after : ∀ {a b}, a.In w₁.count → ¬ a.In w.count → b ∈ w₁.slots a → ¬ b.In w.count := by
    intro a b there new mem
    exact s.fresh new ⟨there, mem⟩
  constructor
  case there => exact And.left
  case scope => exact fun there => ⟨there, fun old => h.scope old⟩
  case closed =>
    rintro a b ⟨there, ka⟩ mem
    refine ⟨Holds.there s.sound ⟨there, mem⟩, fun oldB => ?_⟩
    by_cases old : a.In w.count
    · exact h.closed (ka old) (slots old ▸ mem)
    · exact absurd oldB (after there old mem)
  case nodup =>
    rintro a ⟨there, ka⟩
    by_cases old : a.In w.count
    · rw [slots old]
      exact h.nodup (ka old)
    · exact s.nodup old there
  case single =>
    rintro a b d ⟨thereA, ka⟩ ⟨thereB, kb⟩ ha hb
    by_cases oldA : a.In w.count
    · by_cases oldB : b.In w.count
      · exact h.single (ka oldA) (kb oldB) (slots oldA ▸ ha) (slots oldB ▸ hb)
      · exact absurd (before oldA ha) (after thereB oldB hb)
    · by_cases oldB : b.In w.count
      · exact absurd (before oldB hb) (after thereA oldA ha)
      · exact s.single oldA oldB ⟨thereA, ha⟩ ⟨thereB, hb⟩
  case acyclic => exact s.acyclic h.acyclic

/-- The slots of a cell are written with what was in them and with kept cells that sit in no slot
and from which no way leads to the cell. -/
theorem write (h : w.Apart kept) (writes : w.Writes c xs w₁) (there : c.In w.count)
    (nodup : kept c → xs.Nodup)
    (each : ∀ x ∈ xs, x ∈ w.slots c ∨
      kept x ∧ (∀ a, ¬ w.Holds a x) ∧ ¬ ReflTransGen w.Holds x c) : w₁.Apart kept := by
  have count : ∀ {a : Cell}, a.In w₁.count → a.In w.count := by
    intro a new
    rcases writes.there.mp new with old | rfl
    · exact old
    · exact there
  -- what is written into `c` sits in no slot of another kept cell
  have only : ∀ {a d}, kept a → kept c → d ∈ xs → d ∈ w.slots a → a = c := by
    intro a d ka kc mem ha
    rcases each d mem with old | ⟨-, unheld, -⟩
    · exact h.single ka kc ha old
    · exact absurd ⟨h.there ka, ha⟩ (unheld a)
  constructor
  case there => exact fun ka => writes.there.mpr (.inl (h.there ka))
  case scope => exact fun new => h.scope (count (Handle.cell_in.mpr new))
  case closed =>
    intro a b ka mem
    by_cases same : a = c
    · subst same
      rcases each b (writes.slots ▸ mem) with old | ⟨kb, -⟩
      · exact h.closed ka old
      · exact kb
    · exact h.closed ka (writes.other same ▸ mem)
  case nodup =>
    intro a ka
    by_cases same : a = c
    · subst same
      rw [writes.slots]
      exact nodup ka
    · rw [writes.other same]
      exact h.nodup ka
  case single =>
    intro a b d ka kb ha hb
    by_cases sameA : a = c
    · by_cases sameB : b = c
      · rw [sameA, sameB]
      · subst sameA
        exact (only kb ka (writes.slots ▸ ha) (writes.other sameB ▸ hb)).symm
    · by_cases sameB : b = c
      · subst sameB
        exact only ka kb (writes.slots ▸ hb) (writes.other sameA ▸ ha)
      · exact h.single ka kb (writes.other sameA ▸ ha) (writes.other sameB ▸ hb)
  case acyclic =>
    refine acyclic_of_edges (x := c) (Y := (· ∈ xs)) (fun a b held => ?_) h.acyclic ?_
    · exact (writes.holds held).imp_left And.left
    · intro x hx way
      rcases each x hx with old | ⟨-, -, away⟩
      · exact h.acyclic c (.head' ⟨there, old⟩ way)
      · exact away way

/-- The slots of a cell are written with what was in them and with the tops of fresh copies. -/
theorem put (h : w.Apart kept) (sound : Sound D w) (s : Sprouts D w roots w₁)
    (writes : w₁.Writes c xs w₂) (there : c.In w.count)
    (sub : xs.Subperm (w.slots c ++ roots)) :
    w₂.Apart fun a => a.In w₁.count ∧ (a.In w.count → kept a) := by
  refine (h.sprouts sound s).write writes (there.mono s.spares.count) ?_ ?_
  case refine_1 =>
    rintro ⟨-, kc⟩
    refine nodup_of_subperm sub (List.nodup_append'.mpr ⟨h.nodup (kc there), s.distinct, ?_⟩)
    intro d old root
    exact s.new root (Holds.there sound ⟨there, old⟩)
  case refine_2 =>
    intro x hx
    rcases List.mem_append.mp (sub.subset hx) with old | root
    · exact .inl ((s.spares.slots there).symm ▸ old)
    · refine .inr ⟨⟨s.there root, fun old => absurd old (s.new root)⟩, fun a => s.top root, ?_⟩
      intro way
      exact s.away (s.new root) way there

end World.Apart

end ScopeLang
