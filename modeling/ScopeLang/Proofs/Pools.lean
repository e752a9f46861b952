/-
# Pools only grow

Interning adds signatures and type names at the end of a pool and never takes
one away, so an id keeps its meaning.  A value that matches a signature once
therefore matches it in every later pool.  How well it matches may be told
apart by deeper searches only where the first one found nothing, hence the
statement is about matching at all, and not about the score.
-/
import ScopeLang.Call.Overload
import ScopeLang.Types.TypeExpr

namespace ScopeLang

/-- A pool with everything another one has, under the same ids. -/
structure TypePool.Grows (p q : TypePool) : Prop where
  names : p.registry.names <+: q.registry.names
  signatures : p.signatures <+: q.signatures

namespace TypePool

namespace Grows

theorem refl (p : TypePool) : p.Grows p := ⟨List.prefix_rfl, List.prefix_rfl⟩

theorem trans {p q r : TypePool} (h : p.Grows q) (i : q.Grows r) : p.Grows r :=
  ⟨h.names.trans i.names, h.signatures.trans i.signatures⟩

theorem size_le {p q : TypePool} (h : p.Grows q) : p.size ≤ q.size := h.signatures.length_le

/-- An id keeps its signature. -/
theorem get? {p q : TypePool} (h : p.Grows q) {s : SigId} {x : Signature}
    (found : p.get? s = some x) : q.get? s = some x := by
  obtain ⟨more, eq⟩ := h.signatures
  simp only [TypePool.get?] at found ⊢
  split at found
  · rename_i valid
    rw [if_pos valid, ← eq, List.getElem?_append_left]
    · exact found
    · exact (List.getElem?_eq_some_iff.mp found).1
  · exact absurd found nofun

end Grows

/-! ## Matching in a larger pool -/

theorem isSome_foldl_best (fits : List (Option Fit)) :
    ∀ start : Option Fit,
      (fits.foldl Fit.best start).isSome = true ↔ start.isSome ∨ ∃ f ∈ fits, f.isSome := by
  induction fits with
  | nil => intro start; simp
  | cons f rest ih =>
    intro start
    rw [List.foldl_cons, ih]
    cases start with
    | none => simp [Fit.best]
    | some a => cases f <;> simp [Fit.best]

variable {options : MatchOptions} {value : ValueType}

theorem fitWithin_grows {p q : TypePool} (h : p.Grows q) :
    ∀ {n m : Nat} {s : SigId}, n ≤ m → (p.fitWithin options value n s).isSome →
      (q.fitWithin options value m s).isSome := by
  intro n
  induction n with
  | zero => intro m s _ fit; simp [fitWithin] at fit
  | succ n ih =>
    intro m s le fit
    obtain ⟨m, rfl⟩ : ∃ m', m = m' + 1 := ⟨m - 1, by omega⟩
    simp only [fitWithin] at fit ⊢
    cases found : p.get? s with
    | none => rw [found] at fit; simp at fit
    | some x =>
      rw [found] at fit
      rw [h.get? found]
      cases x with
      | any => exact fit
      | nominal base => exact fit
      | container base arguments => exact fit
      | invocable type => exact fit
      | union members =>
        simp only [isSome_foldl_best, List.mem_map, Option.isSome_none, Bool.false_eq_true,
          false_or] at fit ⊢
        obtain ⟨_, ⟨t, member, rfl⟩, fit⟩ := fit
        exact ⟨_, ⟨t, member, rfl⟩, ih (by omega) fit⟩

/-- A value that matches a signature matches it in every larger pool. -/
theorem Grows.fit {p q : TypePool} (h : p.Grows q) {s : SigId}
    (fit : (p.fit options s value).isSome) : (q.fit options s value).isSome :=
  fitWithin_grows h (Nat.succ_le_succ h.size_le) fit

theorem Grows.admits {p q : TypePool} (h : p.Grows q) {s : SigId}
    (admitted : p.admits options s value = true) : q.admits options s value = true := by
  simp only [TypePool.admits, Bool.or_eq_true] at admitted ⊢
  rcases admitted with (unchecked | any) | fit
  · exact .inl (.inl unchecked)
  · exact .inl (.inr any)
  · exact .inr (h.fit fit)

/-! ## What interning does to a pool -/

variable (p : TypePool)

theorem grows_declare (name : String) : p.Grows (p.declare name).2 := by
  refine ⟨?_, List.prefix_rfl⟩
  simp only [declare, Registry.declare]
  split
  · exact List.prefix_rfl
  · exact List.prefix_append _ _

theorem grows_internNormal (s : Signature) : p.Grows (p.internNormal s).2 := by
  simp only [internNormal]
  split
  · exact .refl p
  · exact ⟨List.prefix_rfl, List.prefix_append _ _⟩

theorem grows_intern (s : Signature) : p.Grows (p.intern s).2 := by
  simp only [intern]
  split
  · exact .refl p
  · exact grows_internNormal p _

theorem grows_bare (base : TypeId) : p.Grows (p.bare base).2 := by
  simp only [bare]
  split
  · exact grows_intern p _
  · exact grows_intern p _

end TypePool

namespace TypeExpr

mutual

theorem grows_bind (alias? : String → Option SigId) :
    ∀ (t : TypeExpr) (p : TypePool), p.Grows (t.bind alias? p).2
  | any, p => by
    simp only [bind]
    exact .refl p
  | named name [], p => by
    unfold bind
    cases alias? name with
    | some s =>
      split
      · exact .refl p
      · exact .refl p
    | none =>
      split
      · exact .refl p
      · exact (p.grows_declare name).trans (TypePool.grows_bare _ _)
  | named name (t :: rest), p => by
    unfold bind
    split
    · exact .refl p
    · exact ((p.grows_declare name).trans (grows_bindAll alias? (t :: rest) _)).trans
        (TypePool.grows_intern _ _)
  | union members, p => by
    simp only [bind]
    exact (grows_bindAll alias? members p).trans (TypePool.grows_intern _ _)
  | invocable parameters returns _, p => by
    simp only [bind]
    exact ((grows_bindAll alias? parameters p).trans (grows_bind alias? returns _)).trans
      (TypePool.grows_intern _ _)

theorem grows_bindAll (alias? : String → Option SigId) :
    ∀ (ts : List TypeExpr) (p : TypePool), p.Grows (bindAll alias? ts p).2
  | [], p => by
    simp only [bindAll]
    exact .refl p
  | t :: rest, p => by
    simp only [bindAll]
    exact (grows_bind alias? t p).trans (grows_bindAll alias? rest _)

end

end TypeExpr

theorem grows_bindOptional (alias? : String → Option SigId) (t : Option TypeExpr) (p : TypePool) :
    p.Grows (bindOptional alias? t p).2 := by
  cases t with
  | none => exact .refl p
  | some t => exact t.grows_bind alias? p

/-! ## What choosing an overload does to a pool -/

namespace World

variable (w : World) (options : MatchOptions) (arguments : CallArguments)

theorem grows_examine (o : Overload) (p : TypePool) :
    p.Grows (w.examine options arguments o p).2 := by
  simp only [examine]
  split
  · exact .refl p
  · split
    · exact .refl p
    · split
      · exact p.grows_intern _
      · exact p.grows_intern _

theorem grows_examineAll (os : List Overload) :
    ∀ p : TypePool, p.Grows (w.examineAll options arguments os p).2 := by
  induction os with
  | nil => intro p; exact .refl p
  | cons o rest ih =>
    intro p
    exact (w.grows_examine options arguments o p).trans (ih _)

theorem grows_resolveOverload (name : String) (candidates : List Overload) (p : TypePool) :
    p.Grows (w.resolveOverload options name candidates arguments p).2 := by
  simp only [resolveOverload]
  split
  · exact .refl p
  · exact w.grows_examineAll options arguments candidates p

end World

end ScopeLang
