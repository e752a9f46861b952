/-
# Interning is canonical

A pool gives one id to each type, however the type is written.  What a type is
apart from its spelling is said by the relation `NormalForm`: a union is read as
the set of types reached by going into its unions, to any depth.  Interning goes
only one level deep and looks its answer up in the pool, so that the two agree
is a fact about the pools that interning builds, and not about one call.

`Regular` is the representation invariant.  No signature stands in the pool
twice, a signature refers to earlier ones only, and the unions in it are in
normal form.  The first part makes ids unique, the last makes one level of
flattening enough, and the second bounds the depth at which a signature is read,
so that reading it never depends on how many signatures came later.
-/
import Mathlib.Data.List.Sort
import ScopeLang.Proofs.Pools

namespace ScopeLang

/-- The order in which ids are given out. -/
def SigId.Before (a b : SigId) : Prop := a.index < b.index

instance : Std.Irrefl SigId.Before := ⟨fun a => Nat.lt_irrefl a.index⟩

instance : Std.Antisymm SigId.Before :=
  ⟨fun _ _ h i => absurd (Nat.lt_trans h i) (Nat.lt_irrefl _)⟩

namespace Signature

/-- The ids a signature refers to. -/
def ids : Signature → List SigId
  | any | nominal _ => []
  | container _ arguments => arguments
  | union members => members
  | invocable type => type.returns :: type.parameters

/-- The type names a signature refers to. -/
def bases : Signature → List TypeId
  | nominal base | container base _ => [base]
  | any | union _ | invocable _ => []

/-- Whether the signature is written as a union. -/
def IsUnion (x : Signature) : Prop := ∃ members, x = union members

end Signature

namespace TypePool

/-- The pool has a signature under the id. -/
def Holds (p : TypePool) (s : SigId) : Prop := ∃ x, p.get? s = some x

/-- The pool has a name for the type id. -/
def Declares (p : TypePool) (base : TypeId) : Prop := ∃ name, p.registry.name? base = some name

/-- All that a signature refers to is in the pool. -/
structure Describes (p : TypePool) (x : Signature) : Prop where
  ids : ∀ s ∈ x.ids, p.Holds s
  bases : ∀ base ∈ x.bases, p.Declares base

/-! ## What a union means -/

/-- `t` is a type that is not a union, and going into the unions under `s` leads
to it. -/
inductive Leaf (p : TypePool) : SigId → SigId → Prop
  | here {s : SigId} (plain : ∀ members, p.get? s ≠ some (.union members)) : Leaf p s s
  | inside {s m t : SigId} {members : List SigId} (found : p.get? s = some (.union members))
      (member : m ∈ members) (leaf : Leaf p m t) : Leaf p s t

/-- `t` is a leaf under one of the members. -/
def Leaves (p : TypePool) (members : List SigId) (t : SigId) : Prop :=
  ∃ m ∈ members, p.Leaf m t

/-- The normal form of a signature: a union is the sorted list of its leaves,
unless `Any` is among them or it has only one. -/
inductive NormalForm (p : TypePool) : Signature → Signature → Prop
  | itself {x : Signature} (plain : ¬ x.IsUnion) : NormalForm p x x
  | absorbed {members : List SigId} {t : SigId} (leaf : p.Leaves members t)
      (any : p.get? t = some .any) : NormalForm p (.union members) .any
  | collapsed {members : List SigId} {t : SigId} {x : Signature}
      (only : ∀ u, p.Leaves members u ↔ u = t) (found : p.get? t = some x) (known : x ≠ .any) :
      NormalForm p (.union members) x
  | sorted {members ids : List SigId} (leaves : ∀ u, p.Leaves members u ↔ u ∈ ids)
      (order : ids.Pairwise SigId.Before) (several : ids.length ≠ 1)
      (known : ∀ u ∈ ids, p.get? u ≠ some .any) : NormalForm p (.union members) (.union ids)

variable {p q r : TypePool} {s t : SigId} {x y a b : Signature} {members : List SigId}

theorem NormalForm.unique (h : p.NormalForm a x) (i : p.NormalForm a y) : x = y := by
  cases h with
  | itself plain =>
    cases i with
    | itself => rfl
    | absorbed | collapsed | sorted => exact absurd ⟨_, rfl⟩ plain
  | absorbed leaf any =>
    cases i with
    | itself plain => exact absurd ⟨_, rfl⟩ plain
    | absorbed => rfl
    | collapsed only found known =>
      rw [(only _).mp leaf] at any
      exact absurd (Option.some.inj (found.symm.trans any)) known
    | sorted leaves _ _ known => exact absurd any (known _ ((leaves _).mp leaf))
  | collapsed only found known =>
    cases i with
    | itself plain => exact absurd ⟨_, rfl⟩ plain
    | absorbed leaf any =>
      rw [(only _).mp leaf] at any
      exact absurd (Option.some.inj (found.symm.trans any)) known
    | collapsed only' found' _ =>
      rw [(only _).mp ((only' _).mpr rfl)] at found'
      exact Option.some.inj (found.symm.trans found')
    | sorted leaves order several _ =>
      have single : _ = [_] := List.Pairwise.eq_of_mem_iff order (List.pairwise_singleton _ _)
        fun u => ((leaves u).symm.trans (only u)).trans List.mem_singleton.symm
      exact absurd (congrArg List.length single) several
  | sorted leaves order several known =>
    cases i with
    | itself plain => exact absurd ⟨_, rfl⟩ plain
    | absorbed leaf any => exact absurd any (known _ ((leaves _).mp leaf))
    | collapsed only _ _ =>
      have single : _ = [_] := List.Pairwise.eq_of_mem_iff order (List.pairwise_singleton _ _)
        fun u => ((leaves u).symm.trans (only u)).trans List.mem_singleton.symm
      exact absurd (congrArg List.length single) several
    | sorted leaves' order' _ _ =>
      rw [List.Pairwise.eq_of_mem_iff order order' fun u => (leaves u).symm.trans (leaves' u)]

/-! ## Sorting -/

theorem mem_insertSorted : ∀ {ids : List SigId}, t ∈ insertSorted s ids ↔ t = s ∨ t ∈ ids
  | [] => by simp [insertSorted]
  | u :: rest => by
    simp only [insertSorted]
    split
    · exact List.mem_cons
    · split
      · rename_i eq
        simp [eq]
      · have inRest : t ∈ insertSorted s rest ↔ t = s ∨ t ∈ rest := mem_insertSorted
        simp [inRest, or_left_comm]

theorem insertSorted_sorted :
    ∀ {ids : List SigId}, ids.Pairwise SigId.Before → (insertSorted s ids).Pairwise SigId.Before
  | [], _ => List.pairwise_singleton _ _
  | u :: rest, h => by
    obtain ⟨first, later⟩ := List.pairwise_cons.mp h
    simp only [insertSorted]
    split
    · rename_i before
      refine List.pairwise_cons.mpr ⟨fun v mem => ?_, h⟩
      rcases List.mem_cons.mp mem with rfl | mem
      · exact before
      · exact Nat.lt_trans before (first v mem)
    · split
      · exact h
      · rename_i notBefore differs
        have after : u.Before s :=
          Nat.lt_of_le_of_ne (Nat.le_of_not_lt notBefore)
            fun eq => differs (congrArg SigId.mk eq).symm
        refine List.pairwise_cons.mpr ⟨fun v mem => ?_, insertSorted_sorted later⟩
        rcases mem_insertSorted.mp mem with rfl | mem
        · exact after
        · exact first v mem

theorem mem_sortDistinct {ids : List SigId} : t ∈ sortDistinct ids ↔ t ∈ ids := by
  induction ids with
  | nil => rfl
  | cons u rest ih => exact mem_insertSorted.trans ((or_congr_right ih).trans List.mem_cons.symm)

theorem sortDistinct_sorted (ids : List SigId) : (sortDistinct ids).Pairwise SigId.Before := by
  induction ids with
  | nil => exact List.Pairwise.nil
  | cons u rest ih => exact insertSorted_sorted ih

/-! ## Ids and their signatures -/

theorem get?_eq_some :
    p.get? s = some x ↔ s.index ≠ 0 ∧ p.signatures[s.index - 1]? = some x := by
  simp [get?, SigId.isValid]

theorem Holds.le_size (h : p.Holds s) : s.index ≤ p.size := by
  obtain ⟨_, found⟩ := h
  obtain ⟨inside, -⟩ := List.getElem?_eq_some_iff.mp (get?_eq_some.mp found).2
  simp only [size]
  omega

theorem Holds.grows (h : p.Holds s) (g : p.Grows q) : q.Holds s := h.imp fun _ => g.get?

/-- A type id keeps its name. -/
theorem Grows.name? {base : TypeId} {name : String} (g : p.Grows q)
    (found : p.registry.name? base = some name) : q.registry.name? base = some name := by
  obtain ⟨more, eq⟩ := g.names
  simp only [Registry.name?] at found ⊢
  split at found
  · rename_i valid
    rw [if_pos valid, ← eq, List.getElem?_append_left (List.getElem?_eq_some_iff.mp found).1]
    exact found
  · exact absurd found nofun

theorem Declares.grows {base : TypeId} (h : p.Declares base) (g : p.Grows q) :
    q.Declares base := h.imp fun _ => g.name?

theorem Describes.grows (h : p.Describes x) (g : p.Grows q) : q.Describes x :=
  ⟨fun s mem => (h.ids s mem).grows g, fun base mem => (h.bases base mem).grows g⟩

/-- The pool with one more signature at its end. -/
def add (p : TypePool) (x : Signature) : TypePool := { p with signatures := p.signatures ++ [x] }

theorem grows_add (p : TypePool) (x : Signature) : p.Grows (p.add x) :=
  ⟨List.prefix_rfl, List.prefix_append _ _⟩

theorem get?_add_new (p : TypePool) (x : Signature) :
    (p.add x).get? ⟨p.signatures.length + 1⟩ = some x := by
  simp [get?_eq_some, add]

theorem get?_internNormal (p : TypePool) (x : Signature) :
    (p.internNormal x).2.get? (p.internNormal x).1 = some x := by
  rw [internNormal]
  split
  · rename_i i found
    obtain ⟨inside, eq, -⟩ := List.idxOf?_eq_some_iff.mp found
    exact get?_eq_some.mpr ⟨Nat.succ_ne_zero i, List.getElem?_eq_some_iff.mpr ⟨inside, eq⟩⟩
  · exact p.get?_add_new x

theorem get?_add (h : (p.add x).get? s = some y) :
    p.get? s = some y ∨ s.index = p.size + 1 ∧ y = x := by
  obtain ⟨valid, found⟩ := get?_eq_some.mp h
  simp only [add, List.getElem?_append] at found
  split at found
  · exact .inl (get?_eq_some.mpr ⟨valid, found⟩)
  · rename_i outside
    obtain ⟨last, eq⟩ := List.getElem?_eq_some_iff.mp found
    simp only [List.length_singleton] at last
    simp only [List.getElem_singleton] at eq
    refine .inr ⟨?_, eq.symm⟩
    simp only [size]
    omega

/-! ## The representation invariant -/

/-- A type that may stand in a union: neither a union itself nor `Any`. -/
def Proper (p : TypePool) (s : SigId) : Prop :=
  ∃ x, p.get? s = some x ∧ x ≠ .any ∧ ¬ x.IsUnion

/-- A union in normal form; nothing is said of other signatures. -/
def Tidy (p : TypePool) (x : Signature) : Prop :=
  ∀ members, x = .union members →
    members.Pairwise SigId.Before ∧ members.length ≠ 1 ∧ ∀ m ∈ members, p.Proper m

structure Regular (p : TypePool) : Prop where
  any : p.get? .any = some .any
  nodup : p.signatures.Nodup
  described : ∀ {s x}, p.get? s = some x → p.Describes x
  earlier : ∀ {s x}, p.get? s = some x → ∀ t ∈ x.ids, t.Before s
  tidy : ∀ {s x}, p.get? s = some x → p.Tidy x

theorem Proper.grows (h : p.Proper s) (g : p.Grows q) : q.Proper s :=
  h.imp fun _ found => ⟨g.get? found.1, found.2⟩

theorem Tidy.grows (h : p.Tidy x) (g : p.Grows q) : q.Tidy x := fun members eq =>
  (h members eq).imp_right (And.imp_right fun proper m mem => (proper m mem).grows g)

theorem describes_any (p : TypePool) : p.Describes .any :=
  ⟨fun _ part => absurd part List.not_mem_nil, fun _ part => absurd part List.not_mem_nil⟩

theorem tidy_any (p : TypePool) : p.Tidy .any := fun _ eq => by cases eq

theorem regular_initial : initial.Regular where
  any := rfl
  nodup := by decide
  described found := by
    obtain ⟨-, found⟩ := get?_eq_some.mp found
    obtain rfl := List.mem_singleton.mp (List.mem_of_getElem? found)
    exact describes_any _
  earlier found := by
    obtain ⟨-, found⟩ := get?_eq_some.mp found
    obtain rfl := List.mem_singleton.mp (List.mem_of_getElem? found)
    exact fun _ part => absurd part List.not_mem_nil
  tidy found := by
    obtain ⟨-, found⟩ := get?_eq_some.mp found
    obtain rfl := List.mem_singleton.mp (List.mem_of_getElem? found)
    exact tidy_any _

namespace Regular

/-- Two ids of one signature are one id. -/
theorem get?_inj (h : p.Regular) (found : p.get? s = some x) (found' : p.get? t = some x) :
    s = t := by
  obtain ⟨valid, at_s⟩ := get?_eq_some.mp found
  obtain ⟨valid', at_t⟩ := get?_eq_some.mp found'
  have inside := (List.getElem?_eq_some_iff.mp at_s).1
  have same := (List.getElem?_inj inside h.nodup).mp (at_s.trans at_t.symm)
  cases s
  cases t
  simp only [SigId.mk.injEq] at *
  omega

theorem add (h : p.Regular) (new : x ∉ p.signatures) (described : p.Describes x)
    (tidy : p.Tidy x) : (p.add x).Regular where
  any := (p.grows_add x).get? h.any
  nodup := by
    rw [TypePool.add, List.nodup_append]
    refine ⟨h.nodup, List.nodup_singleton x, fun y old z last => ?_⟩
    obtain rfl := List.mem_singleton.mp last
    exact fun eq => new (eq ▸ old)
  described found := by
    rcases get?_add found with old | ⟨-, rfl⟩
    · exact (h.described old).grows (p.grows_add x)
    · exact described.grows (p.grows_add _)
  earlier found t part := by
    rcases get?_add found with old | ⟨last, rfl⟩
    · exact h.earlier old t part
    · have within := (described.ids t part).le_size
      simp only [SigId.Before]
      omega
  tidy found := by
    rcases get?_add found with old | ⟨-, rfl⟩
    · exact (h.tidy old).grows (p.grows_add x)
    · exact tidy.grows (p.grows_add _)

theorem declare (h : p.Regular) (name : String) : (p.declare name).2.Regular where
  any := h.any
  nodup := h.nodup
  described found := (h.described found).grows (p.grows_declare name)
  earlier found := h.earlier found
  tidy found := (h.tidy found).grows (p.grows_declare name)

/-- In a regular pool the leaves of an id lie one level deep. -/
theorem leaf_iff (h : p.Regular) : p.Leaf s t ↔ t ∈ p.flatten s := by
  constructor
  · intro leaf
    cases leaf with
    | here plain =>
      unfold flatten
      split
      · exact absurd ‹_› (plain _)
      · exact List.mem_singleton_self s
    | inside found member leaf =>
      obtain ⟨x, found', -, plain⟩ := (h.tidy found _ rfl).2.2 _ member
      cases leaf with
      | here =>
        rw [flatten, found]
        exact member
      | inside found'' =>
        exact absurd ⟨_, Option.some.inj (found'.symm.trans found'')⟩ plain
  · unfold flatten
    split
    · rename_i members found
      intro member
      obtain ⟨x, found', -, plain⟩ := (h.tidy found _ rfl).2.2 _ member
      exact .inside found member
        (.here fun _ union => plain ⟨_, Option.some.inj (found'.symm.trans union)⟩)
    · rename_i plain
      intro mem
      obtain rfl := List.mem_singleton.mp mem
      exact .here plain

theorem leaves_iff (h : p.Regular) :
    p.Leaves members t ↔ t ∈ sortDistinct (members.flatMap p.flatten) := by
  rw [mem_sortDistinct, List.mem_flatMap]
  exact exists_congr fun m => and_congr_right fun _ => h.leaf_iff

/-- `Any` is never inside a union, so it is a leaf only where it is a member. -/
theorem absorbs_iff (h : p.Regular) :
    (∃ t, p.Leaves members t ∧ p.get? t = some .any) ↔ ∃ m ∈ members, p.get? m = some .any := by
  constructor
  · rintro ⟨t, ⟨m, member, leaf⟩, any⟩
    cases leaf with
    | here => exact ⟨_, member, any⟩
    | inside found inner leaf =>
      have flat := h.leaf_iff.mp (.inside found inner leaf)
      rw [flatten, found] at flat
      obtain ⟨x, found', known, -⟩ := (h.tidy found _ rfl).2.2 _ flat
      exact absurd (Option.some.inj (found'.symm.trans any)) known
  · rintro ⟨m, member, any⟩
    exact ⟨m, ⟨m, member, .here fun _ union => nomatch any.symm.trans union⟩, any⟩

/-- A leaf of known members is itself known, and is not a union. -/
theorem leaf_plain (h : p.Regular) (known : ∀ m ∈ members, p.Holds m)
    (leaf : p.Leaves members t) : ∃ x, p.get? t = some x ∧ ¬ x.IsUnion := by
  obtain ⟨m, member, leaf⟩ := leaf
  cases leaf with
  | here plain =>
    obtain ⟨x, found⟩ := known t member
    exact ⟨x, found, fun ⟨_, union⟩ => plain _ (union ▸ found)⟩
  | inside found inner leaf =>
    have flat := h.leaf_iff.mp (.inside found inner leaf)
    rw [flatten, found] at flat
    obtain ⟨x, found', -, plain⟩ := (h.tidy found _ rfl).2.2 _ flat
    exact ⟨x, found', plain⟩

/-- What interning a signature does: it leaves a regular pool, which has the
normal form of the signature under the returned id. -/
structure Interns (p : TypePool) (a : Signature) (s : SigId) (q : TypePool) : Prop where
  regular : q.Regular
  normal : ∃ x, p.NormalForm a x ∧ q.get? s = some x

theorem internNormal (h : p.Regular) (described : p.Describes x) (tidy : p.Tidy x) :
    (p.internNormal x).2.Regular ∧ (p.internNormal x).2.get? (p.internNormal x).1 = some x := by
  rw [TypePool.internNormal]
  split
  · rename_i i found
    obtain ⟨inside, eq, -⟩ := List.idxOf?_eq_some_iff.mp found
    exact ⟨h, get?_eq_some.mpr ⟨Nat.succ_ne_zero i, List.getElem?_eq_some_iff.mpr ⟨inside, eq⟩⟩⟩
  · rename_i missing
    exact ⟨h.add (List.idxOf?_eq_none_iff.mp missing) described tidy, p.get?_add_new x⟩

theorem intern (h : p.Regular) (known : p.Describes a) :
    Interns p a (p.intern a).1 (p.intern a).2 := by
  by_cases isUnion : a.IsUnion
  · obtain ⟨members, rfl⟩ := isUnion
    simp only [TypePool.intern, normalize, normalUnion]
    by_cases absorbs : ∃ m ∈ members, p.get? m = some .any
    · obtain ⟨t, leaf, any⟩ := h.absorbs_iff.mpr absorbs
      rw [if_pos (by simpa using absorbs)]
      obtain ⟨regular, found⟩ := h.internNormal p.describes_any p.tidy_any
      exact ⟨regular, .any, .absorbed leaf any, found⟩
    · have noAny : ∀ u, p.Leaves members u → p.get? u ≠ some .any := fun u leaf any =>
        absorbs (h.absorbs_iff.mp ⟨u, leaf, any⟩)
      rw [if_neg (by simpa using absorbs)]
      have order := sortDistinct_sorted (members.flatMap p.flatten)
      have leaves : ∀ u, p.Leaves members u ↔ u ∈ sortDistinct (members.flatMap p.flatten) :=
        fun _ => h.leaves_iff
      generalize sortDistinct (members.flatMap p.flatten) = ids at order leaves
      have proper : ∀ u ∈ ids, p.Proper u := fun u mem => by
        have leaf := (leaves u).mpr mem
        obtain ⟨x, found, plain⟩ := h.leaf_plain known.ids leaf
        exact ⟨x, found, fun any => noAny u leaf (any ▸ found), plain⟩
      split
      · rename_i only eq
        obtain rfl := Signature.union.inj eq
        obtain ⟨x, found, notAny, -⟩ := proper only (List.mem_singleton_self only)
        exact ⟨h, x, .collapsed (fun u => (leaves u).trans List.mem_singleton) found notAny, found⟩
      · rename_i several
        have length : ids.length ≠ 1 := fun one => by
          obtain ⟨only, rfl⟩ := List.length_eq_one_iff.mp one
          exact several only rfl
        have described : p.Describes (.union ids) :=
          ⟨fun u mem => (proper u mem).imp fun _ found => found.1,
            fun _ part => absurd part List.not_mem_nil⟩
        have tidy : p.Tidy (.union ids) := fun _ eq => by
          obtain rfl := Signature.union.inj eq
          exact ⟨order, length, proper⟩
        obtain ⟨regular, found⟩ := h.internNormal described tidy
        refine ⟨regular, _, .sorted leaves order length fun u mem => ?_, found⟩
        exact noAny u ((leaves u).mpr mem)
  · have same : p.intern a = p.internNormal a := by
      cases a with
      | union members => exact absurd ⟨members, rfl⟩ isUnion
      | any | nominal | container | invocable => rfl
    rw [same]
    obtain ⟨regular, found⟩ := h.internNormal known fun members eq => absurd ⟨members, eq⟩ isUnion
    exact ⟨regular, a, .itself isUnion, found⟩

end Regular

theorem Regular.Interns.holds (h : Regular.Interns p a s q) : q.Holds s :=
  h.normal.imp fun _ found => found.2

/-! ## Reading in a larger pool

Reading goes from a signature to earlier ones, so a search as deep as the id is
large never ends early. -/

theorem registry_text_grows {base : TypeId} (h : p.Declares base) (g : p.Grows q) :
    q.registry.text base = p.registry.text base := by
  obtain ⟨name, found⟩ := h
  rw [Registry.text, Registry.text, found, g.name? found]

/-- Every signature refers to earlier ids only. -/
structure Grounded (p : TypePool) : Prop where
  earlier : ∀ {s x}, p.get? s = some x → ∀ t ∈ x.ids, t.Before s

/-- The id of a signature that the pool has, or the id of no signature. -/
def Knows (p : TypePool) (s : SigId) : Prop := s.index ≤ p.size

theorem Knows.get? (known : p.Knows s) (g : p.Grows q) : q.get? s = p.get? s := by
  obtain ⟨more, eq⟩ := g.signatures
  simp only [TypePool.get?, SigId.isValid, bne_iff_ne]
  split
  · rename_i valid
    have inside : s.index - 1 < p.signatures.length := by
      simp only [Knows, size] at known
      omega
    rw [← eq, List.getElem?_append_left inside]
  · rfl

namespace Grounded

theorem fitWithin_grows (h : p.Grounded) (g : p.Grows q) (options : MatchOptions)
    (value : ValueType) :
    ∀ {n m : Nat} {s : SigId}, p.Knows s → s.index < n → s.index < m →
      q.fitWithin options value m s = p.fitWithin options value n s := by
  intro n
  induction n with
  | zero => exact fun _ lt => absurd lt (Nat.not_lt_zero _)
  | succ n ih =>
    intro m s known lt lt'
    obtain ⟨m, rfl⟩ : ∃ m', m = m' + 1 := ⟨m - 1, by omega⟩
    simp only [fitWithin, known.get? g]
    cases found : p.get? s with
    | none => rfl
    | some x =>
      have parts : ∀ t ∈ x.ids, q.fitWithin options value m t = p.fitWithin options value n t := by
        intro t part
        have before := h.earlier found t part
        simp only [SigId.Before] at before
        refine ih ?_ (by omega) (by omega)
        simp only [Knows] at known ⊢
        omega
      cases x with
      | any | nominal | container | invocable => rfl
      | union members => exact congrArg (List.foldl Fit.best none) (List.map_congr_left parts)

theorem fit_grows (h : p.Grounded) (g : p.Grows q) (known : p.Knows s) (options : MatchOptions)
    (value : ValueType) : q.fit options s value = p.fit options s value :=
  h.fitWithin_grows g options value known (Nat.lt_succ_of_le known)
    (Nat.lt_succ_of_le (Nat.le_trans known g.size_le))

end Grounded

namespace Regular

theorem textWithin_grows (h : p.Regular) (g : p.Grows q) :
    ∀ {n m : Nat} {s : SigId}, p.Holds s → s.index ≤ n → s.index ≤ m →
      q.textWithin m s = p.textWithin n s := by
  intro n
  induction n with
  | zero =>
    rintro m s ⟨x, found⟩ le -
    exact absurd (Nat.le_zero.mp le) (get?_eq_some.mp found).1
  | succ n ih =>
    rintro m s ⟨x, found⟩ le le'
    obtain ⟨m, rfl⟩ : ∃ m', m = m' + 1 :=
      ⟨m - 1, by have := (get?_eq_some.mp found).1; omega⟩
    have described := h.described found
    have parts : ∀ t ∈ x.ids, q.textWithin m t = p.textWithin n t := fun t part => by
      have before := h.earlier found t part
      simp only [SigId.Before] at before
      exact ih (described.ids t part) (by omega) (by omega)
    simp only [textWithin, found, g.get? found]
    cases x with
    | any => rfl
    | nominal base => exact registry_text_grows (described.bases base (by simp [Signature.bases])) g
    | container base arguments =>
      have texts : arguments.map (q.textWithin m) = arguments.map (p.textWithin n) :=
        List.map_congr_left parts
      simp only
      rw [registry_text_grows (described.bases base (by simp [Signature.bases])) g, texts]
    | union members => exact congrArg (" | ".intercalate) (List.map_congr_left parts)
    | invocable type =>
      simp only
      rw [List.map_congr_left fun t mem => parts t (List.mem_cons_of_mem _ mem),
        parts type.returns List.mem_cons_self]

theorem text_grows (h : p.Regular) (g : p.Grows q) (held : p.Holds s) : q.text s = p.text s := by
  have le := held.le_size
  have le' := g.size_le
  exact h.textWithin_grows g held (by omega) (by omega)

theorem grounded (h : p.Regular) : p.Grounded := ⟨h.earlier⟩

theorem fit_grows (h : p.Regular) (g : p.Grows q) (held : p.Holds s) (options : MatchOptions)
    (value : ValueType) : q.fit options s value = p.fit options s value :=
  h.grounded.fit_grows g held.le_size options value

theorem holds_any (h : p.Regular) : p.Holds .any := ⟨.any, h.any⟩

end Regular

/-! ## The operations of a pool -/

/-- An operation that answers with the id of a signature, given nothing but ids
that the pool has.  The operations `nominal`, `container`, `union` and
`invocable` intern what their names say. -/
inductive Returns (p : TypePool) : SigId → TypePool → Prop
  | nominal {base : TypeId} (known : p.Declares base) :
      Returns p (p.nominal base).1 (p.nominal base).2
  | container {base : TypeId} {arguments : List SigId} (known : p.Declares base)
      (held : ∀ s ∈ arguments, p.Holds s) :
      Returns p (p.container base arguments).1 (p.container base arguments).2
  | union {members : List SigId} (held : ∀ s ∈ members, p.Holds s) :
      Returns p (p.union members).1 (p.union members).2
  | invocable {type : Invocable} (held : ∀ s ∈ type.returns :: type.parameters, p.Holds s) :
      Returns p (p.invocable type).1 (p.invocable type).2
  | infer {base : TypeId} (known : p.Declares base) : Returns p (p.bare base).1 (p.bare base).2
  | bind {alias? : String → Option SigId} {t : TypeExpr}
      (held : ∀ name s, alias? name = some s → p.Holds s) :
      Returns p (t.bind alias? p).1 (t.bind alias? p).2

/-- The pools that operations lead to. -/
inductive Reaches (p : TypePool) : TypePool → Prop
  | refl : Reaches p p
  | declare {q : TypePool} (earlier : Reaches p q) (name : String) : Reaches p (q.declare name).2
  | returns {q r : TypePool} {s : SigId} (earlier : Reaches p q) (operation : q.Returns s r) :
      Reaches p r

/-- What every operation keeps: the pool stays regular, it only grows, and it
has the ids it answers with. -/
structure Extends (p q : TypePool) : Prop where
  regular : q.Regular
  grows : p.Grows q

theorem Extends.trans (h : p.Extends q) (i : q.Extends r) : p.Extends r :=
  ⟨i.regular, h.grows.trans i.grows⟩

theorem Regular.extends_intern (h : p.Regular) (known : p.Describes a) :
    p.Extends (p.intern a).2 ∧ (p.intern a).2.Holds (p.intern a).1 :=
  ⟨⟨(h.intern known).regular, p.grows_intern a⟩, (h.intern known).holds⟩

theorem Regular.extends_declare (h : p.Regular) (name : String) : p.Extends (p.declare name).2 :=
  ⟨h.declare name, p.grows_declare name⟩

theorem Regular.extends_bare (h : p.Regular) {base : TypeId} (known : p.Declares base) :
    p.Extends (p.bare base).2 ∧ (p.bare base).2.Holds (p.bare base).1 := by
  simp only [bare]
  split
  · refine h.extends_intern ⟨fun s part => ?_, fun _ mem => List.mem_singleton.mp mem ▸ known⟩
    exact List.eq_of_mem_replicate part ▸ h.holds_any
  · exact h.extends_intern ⟨fun _ part => absurd part List.not_mem_nil,
      fun _ mem => List.mem_singleton.mp mem ▸ known⟩

/-- The id of a declared name has this name. -/
theorem name?_declare (p : TypePool) (name : String) :
    (p.declare name).2.registry.name? (p.declare name).1 = some name := by
  simp only [declare, Registry.declare, Registry.lookup?]
  cases found : p.registry.names.idxOf? name with
  | some i =>
    obtain ⟨inside, eq, -⟩ := List.idxOf?_eq_some_iff.mp found
    simp [Registry.name?, TypeId.isValid, inside, eq]
  | none => simp [Registry.name?, TypeId.isValid]

theorem declares_declare (p : TypePool) (name : String) :
    (p.declare name).2.Declares (p.declare name).1 := ⟨name, p.name?_declare name⟩

end TypePool

namespace TypeExpr

open TypePool

variable {alias? : String → Option SigId}

mutual

theorem extends_bind : ∀ (t : TypeExpr) {p : TypePool}, p.Regular →
    (∀ name s, alias? name = some s → p.Holds s) →
    p.Extends (t.bind alias? p).2 ∧ (t.bind alias? p).2.Holds (t.bind alias? p).1
  | any, p, h, _ => by
    simp only [bind]
    exact ⟨⟨h, .refl p⟩, h.holds_any⟩
  | named name [], p, h, held => by
    unfold bind
    split
    · exact ⟨⟨h, .refl p⟩, h.holds_any⟩
    · cases found : alias? name with
      | some s => exact ⟨⟨h, .refl p⟩, held name s found⟩
      | none =>
        have bare := (h.declare name).extends_bare (p.declares_declare name)
        exact bare.imp_left (h.extends_declare name).trans
  | named name (t :: rest), p, h, held => by
    unfold bind
    split
    · exact ⟨⟨h, .refl p⟩, h.holds_any⟩
    · have declared := h.extends_declare name
      obtain ⟨bound, ids⟩ := extends_bindAll (t :: rest) declared.regular
        fun other s eq => (held other s eq).grows declared.grows
      have interned := bound.regular.extends_intern (a := .container (p.declare name).1 _)
        ⟨ids, fun _ mem => List.mem_singleton.mp mem ▸
          (p.declares_declare name).grows bound.grows⟩
      exact interned.imp_left (declared.trans bound).trans
  | union members, p, h, held => by
    simp only [bind]
    obtain ⟨bound, ids⟩ := extends_bindAll members h held
    exact (bound.regular.extends_intern (a := .union _) ⟨ids, nofun⟩).imp_left bound.trans
  | invocable parameters returns variadic, p, h, held => by
    simp only [bind]
    obtain ⟨bound, ids⟩ := extends_bindAll parameters h held
    obtain ⟨bound', result⟩ := extends_bind returns bound.regular
      fun other s eq => (held other s eq).grows bound.grows
    refine (bound'.regular.extends_intern (a := .invocable _) ⟨fun s part => ?_, nofun⟩).imp_left
      (bound.trans bound').trans
    rcases List.mem_cons.mp part with rfl | part
    · exact result
    · exact (ids s part).grows bound'.grows

theorem extends_bindAll : ∀ (ts : List TypeExpr) {p : TypePool}, p.Regular →
    (∀ name s, alias? name = some s → p.Holds s) →
    p.Extends (bindAll alias? ts p).2 ∧
      ∀ s ∈ (bindAll alias? ts p).1, (bindAll alias? ts p).2.Holds s
  | [], p, h, _ => by
    simp only [bindAll]
    exact ⟨⟨h, .refl p⟩, nofun⟩
  | t :: rest, p, h, held => by
    simp only [bindAll]
    obtain ⟨first, result⟩ := extends_bind t h held
    obtain ⟨others, ids⟩ := extends_bindAll rest first.regular
      fun other s eq => (held other s eq).grows first.grows
    refine ⟨first.trans others, fun s mem => ?_⟩
    rcases List.mem_cons.mp mem with rfl | mem
    · exact result.grows others.grows
    · exact ids s mem

end

end TypeExpr

namespace TypePool

variable {p q r : TypePool} {s : SigId}

theorem Returns.extends (h : p.Returns s q) (regular : p.Regular) : p.Extends q ∧ q.Holds s := by
  cases h with
  | nominal known =>
    exact regular.extends_intern ⟨nofun, fun _ mem => List.mem_singleton.mp mem ▸ known⟩
  | container known held =>
    exact regular.extends_intern ⟨held, fun _ mem => List.mem_singleton.mp mem ▸ known⟩
  | union held => exact regular.extends_intern ⟨held, nofun⟩
  | invocable held => exact regular.extends_intern ⟨held, nofun⟩
  | infer known => exact regular.extends_bare known
  | bind held => exact TypeExpr.extends_bind _ regular held

theorem Reaches.extends (h : p.Reaches q) (regular : p.Regular) : p.Extends q := by
  induction h with
  | refl => exact ⟨regular, .refl p⟩
  | declare _ name ih => exact ih.trans (ih.regular.extends_declare name)
  | returns _ operation ih => exact ih.trans (operation.extends ih.regular).1

theorem Reaches.regular (h : initial.Reaches p) : p.Regular := (h.extends regular_initial).regular

/-- In any history of a pool, two signatures are interned under one id exactly if
they have one normal form, however far apart the two requests are, and an id that
an operation has answered with reads the same ever after. -/
theorem interning_canonical (history : initial.Reaches p) :
    (∀ {a b : Signature} {q : TypePool}, p.Describes a → (p.intern a).2.Reaches q →
      q.Describes b →
      ((p.intern a).1 = (q.intern b).1 ↔ ∃ x, p.NormalForm a x ∧ q.NormalForm b x)) ∧
    (∀ {s : SigId} {q r : TypePool}, p.Returns s q → q.Reaches r →
      (∃ x, q.get? s = some x ∧ r.get? s = some x) ∧ r.text s = q.text s ∧
      ∀ options value, r.fit options s value = q.fit options s value) := by
  constructor
  · intro a b q known later known'
    have first := history.regular.intern known
    have between := later.extends first.regular
    have second := between.regular.intern known'
    obtain ⟨x, normal, found⟩ := first.normal
    obtain ⟨y, normal', found'⟩ := second.normal
    have kept : (q.intern b).2.get? (p.intern a).1 = some x :=
      (between.grows.trans (q.grows_intern b)).get? found
    constructor
    · intro same
      rw [← same, kept] at found'
      exact ⟨x, normal, Option.some.inj found' ▸ normal'⟩
    · rintro ⟨z, ofFirst, ofSecond⟩
      obtain rfl := normal.unique ofFirst
      obtain rfl := normal'.unique ofSecond
      exact second.regular.get?_inj kept found'
  · intro s q r operation later
    obtain ⟨extended, x, found⟩ := operation.extends history.regular
    have rest := later.extends extended.regular
    exact ⟨⟨x, found, rest.grows.get? found⟩,
      extended.regular.text_grows rest.grows ⟨x, found⟩,
      extended.regular.fit_grows rest.grows ⟨x, found⟩⟩

/-- `Int | String` and a union that nests it are one type, and adding `Bool` to
the pool does not change its text. -/
theorem nested_union_interned_once :
    let p := ((initial.nominal Primitive.int.id).2.nominal Primitive.string.id).2
    let q := (p.union [⟨2⟩, ⟨3⟩]).2
    initial.Reaches p ∧
      (∃ x, p.NormalForm (.union [⟨2⟩, ⟨3⟩]) x ∧ q.NormalForm (.union [⟨3⟩, ⟨4⟩]) x) ∧
      (q.nominal Primitive.bool.id).2.text ⟨4⟩ = q.text ⟨4⟩ := by
  intro p q
  have string : (initial.nominal Primitive.int.id).2.Declares Primitive.string.id :=
    ⟨"String", rfl⟩
  have history : initial.Reaches p :=
    .returns (.returns .refl (.nominal ⟨"Int", rfl⟩)) (.nominal string)
  have flat : p.Describes (.union [⟨2⟩, ⟨3⟩]) :=
    ⟨List.forall_mem_cons.mpr ⟨⟨_, rfl⟩, List.forall_mem_singleton.mpr ⟨_, rfl⟩⟩, nofun⟩
  have nested : q.Describes (.union [⟨3⟩, ⟨4⟩]) :=
    ⟨List.forall_mem_cons.mpr ⟨⟨_, rfl⟩, List.forall_mem_singleton.mpr ⟨_, rfl⟩⟩, nofun⟩
  have bool : q.Declares Primitive.bool.id := ⟨"Bool", rfl⟩
  obtain ⟨canonical, stable⟩ := interning_canonical history
  refine ⟨history, (canonical flat .refl nested).mp rfl, ?_⟩
  exact (stable (.union flat.ids) (.returns .refl (.nominal bool))).2.1

end TypePool

end ScopeLang
