/-
# A union matches as its best member does

What a pool keeps for a union is seldom the list that was asked for.  Unions
among the members are opened, the members are sorted and each is kept once, and
a union of one member is that member.  Matching walks what is kept, and it tries
the members in the order in which it finds them.

`Fit.Best` says what the best of several fits is without an order in which they
are tried.  It determines the result, because of two different fits one is
better.  A held id matches as the best of the leaves under it, and interning a
union without `Any` keeps the leaves, so that the members asked for and the
union kept for them are compared leaf by leaf.
-/
import ScopeLang.Proofs.Interning

namespace ScopeLang

/-! ## The order of fits -/

namespace Fit

variable {a b c : Fit} {x y : Option Fit} {fits more : Fit → Prop}

theorem better_iff : a.better b = true ↔
    b.score < a.score ∨ a.score = b.score ∧ a.cost < b.cost := by
  simp [better]

theorem not_better_iff : a.better b = false ↔
    a.score ≤ b.score ∧ (a.score = b.score → b.cost ≤ a.cost) := by
  rw [Bool.eq_false_iff, ne_eq, better_iff]
  omega

theorem not_better_self (a : Fit) : a.better a = false :=
  not_better_iff.mpr ⟨Nat.le_refl _, fun _ => Nat.le_refl _⟩

theorem not_better_trans (h : a.better b = false) (i : b.better c = false) :
    a.better c = false := by
  rw [not_better_iff] at *
  omega

theorem not_better_antisymm (h : a.better b = false) (i : b.better a = false) : a = b := by
  rw [not_better_iff] at h i
  cases a
  cases b
  simp only [mk.injEq] at *
  omega

theorem not_better_of_better (h : a.better b = true) : b.better a = false := by
  rw [better_iff] at h
  rw [not_better_iff]
  omega

/-! ## The best of several fits -/

/-- A result is the best of the fits of a kind: there is none, or it is one of them and none of
them is better. -/
inductive Best (fits : Fit → Prop) : Option Fit → Prop
  | none (absent : ∀ f, ¬ fits f) : Best fits none
  | some {f : Fit} (found : fits f) (highest : ∀ g, fits g → g.better f = false) :
      Best fits (some f)

namespace Best

theorem unique (h : Best fits x) (i : Best fits y) : x = y := by
  cases h with
  | none absent =>
    cases i with
    | none => rfl
    | some found => exact absurd found (absent _)
  | some found highest =>
    cases i with
    | none absent => exact absurd found (absent _)
    | some found' highest' =>
      exact congrArg _ (not_better_antisymm (highest' _ found) (highest _ found'))

theorem congr (h : Best fits x) (same : ∀ f, fits f ↔ more f) : Best more x :=
  (funext fun f => propext (same f) : fits = more) ▸ h

/-- A result is the best of itself. -/
theorem self (x : Option Fit) : Best (fun f => x = Option.some f) x := by
  cases x with
  | none => exact .none nofun
  | some a => exact .some rfl fun g eq => Option.some.inj eq ▸ not_better_self a

/-- More fits of which none is better change nothing. -/
theorem cover (h : Best fits x) (sub : ∀ f, fits f → more f)
    (bound : ∀ g, more g → ∃ f, fits f ∧ g.better f = false) : Best more x := by
  cases h with
  | none absent =>
    refine .none fun g isMore => ?_
    obtain ⟨f, found, -⟩ := bound g isMore
    exact absent f found
  | some found highest =>
    refine .some (sub _ found) fun g isMore => ?_
    obtain ⟨f, found', le⟩ := bound g isMore
    exact not_better_trans le (highest f found')

/-- The best of the fits of several kinds is the best among the best ones of each kind. -/
theorem gather {ι : Type} {among : ι → Prop} {kind : ι → Fit → Prop} {result : ι → Option Fit}
    (h : Best (fun f => ∃ i, among i ∧ kind i f) x) (each : ∀ i, among i → Best (kind i) (result i)) :
    Best (fun f => ∃ i, among i ∧ result i = Option.some f) x := by
  have reached : ∀ {i f}, among i → result i = Option.some f → kind i f := by
    intro i f isAmong eq
    have best := each i isAmong
    rw [eq] at best
    cases best with
    | some found _ => exact found
  cases h with
  | none absent =>
    exact .none fun f ⟨i, isAmong, eq⟩ => absent f ⟨i, isAmong, reached isAmong eq⟩
  | @some f found highest =>
    refine .some ?_ fun g ⟨i, isAmong, eq⟩ => highest g ⟨i, isAmong, reached isAmong eq⟩
    obtain ⟨i, isAmong, ofKind⟩ := found
    refine ⟨i, isAmong, ?_⟩
    have best := each i isAmong
    generalize result i = y at best
    cases best with
    | none absent => exact absurd ofKind (absent f)
    | @some g ofKind' highest' =>
      have notBetter := highest g ⟨i, isAmong, ofKind'⟩
      rw [not_better_antisymm notBetter (highest' f ofKind)]

end Best

/-- One step of the search keeps one of the two, and the other is not better. -/
theorem best_pair (x y : Option Fit) :
    Best (fun f => x = some f ∨ y = some f) (best x y) := by
  cases x with
  | none => exact (Best.self y).congr fun f => by simp
  | some a =>
    cases y with
    | none => exact (Best.self (some a)).congr fun f => by simp
    | some b =>
      simp only [best]
      split
      · rename_i better
        refine .some (.inr rfl) ?_
        rintro g (eq | eq)
        · exact Option.some.inj eq ▸ not_better_of_better better
        · exact Option.some.inj eq ▸ not_better_self b
      · rename_i notBetter
        refine .some (.inl rfl) ?_
        rintro g (eq | eq)
        · exact Option.some.inj eq ▸ not_better_self a
        · exact Option.some.inj eq ▸ Bool.eq_false_iff.mpr notBetter

/-- The search through a list ends with the best of what it met. -/
theorem best_foldl (results : List (Option Fit)) : ∀ start : Option Fit,
    Best (fun f => start = some f ∨ some f ∈ results) (results.foldl best start) := by
  induction results with
  | nil => exact fun start => (Best.self start).congr fun f => by simp
  | cons y rest ih =>
    intro start
    have pair := best_pair start y
    -- the rest is searched from the better one of the first two, which stands for both
    refine (ih (best start y)).cover (fun f => ?_) fun g => ?_
    · rintro (eq | mem)
      · rw [eq] at pair
        cases pair with
        | some found _ =>
          exact found.imp_right fun eq => List.mem_cons.mpr (.inl eq.symm)
      · exact .inr (List.mem_cons_of_mem _ mem)
    · intro met
      by_cases mem : some g ∈ rest
      · exact ⟨g, .inr mem, not_better_self g⟩
      · have first : start = some g ∨ y = some g :=
          met.imp_right fun mem' => ((List.mem_cons.mp mem').resolve_right mem).symm
        generalize best start y = result at pair
        cases pair with
        | none absent => exact absurd first (absent g)
        | @some f _ highest => exact ⟨f, .inl rfl, highest g first⟩

end Fit

namespace TypePool

variable {p q r : TypePool} {s t : SigId} {x : Signature} {ids others : List SigId}
  {options : MatchOptions} {value : ValueType}

/-! ## Leaves in later pools -/

theorem Holds.get?_grows (held : p.Holds s) (g : p.Grows q) : q.get? s = p.get? s := by
  obtain ⟨x, found⟩ := held
  rw [found, g.get? found]

theorem Regular.leaf_grows (h : p.Regular) (i : q.Regular) (g : p.Grows q) (held : p.Holds s) :
    q.Leaf s t ↔ p.Leaf s t := by
  rw [h.leaf_iff, i.leaf_iff, flatten, flatten, held.get?_grows g]

theorem Regular.leaves_grows (h : p.Regular) (i : q.Regular) (g : p.Grows q)
    (held : ∀ s ∈ ids, p.Holds s) : q.Leaves ids t ↔ p.Leaves ids t :=
  exists_congr fun m => and_congr_right fun mem => h.leaf_grows i g (held m mem)

/-- What is no union is its own only leaf. -/
theorem leaf_of_plain (plain : ∀ members, p.get? s ≠ some (.union members)) :
    p.Leaf s t ↔ t = s := by
  constructor
  · intro leaf
    cases leaf with
    | here => rfl
    | inside found => exact absurd found (plain _)
  · rintro rfl
    exact .here plain

/-- Interning a union without `Any` keeps the leaves. -/
theorem Regular.leaf_union (h : p.Regular) (held : ∀ s ∈ ids, p.Holds s) (noAny : .any ∉ ids) :
    (p.union ids).2.Leaf (p.union ids).1 t ↔ p.Leaves ids t := by
  have interns := h.intern (a := .union ids) ⟨held, nofun⟩
  have grows := p.grows_intern (.union ids)
  rw [union]
  obtain ⟨x, normal, found⟩ := interns.normal
  cases normal with
  | itself plain => exact absurd ⟨_, rfl⟩ plain
  | absorbed leaf any =>
    obtain ⟨m, member, any⟩ := h.absorbs_iff.mp ⟨_, leaf, any⟩
    exact absurd (h.get?_inj any h.any ▸ member) noAny
  | collapsed isOnly found' _ =>
    obtain rfl := interns.regular.get?_inj found (grows.get? found')
    obtain ⟨y, found'', plain⟩ := h.leaf_plain held ((isOnly _).mpr rfl)
    have plain : ∀ members, (p.intern (.union ids)).2.get? (p.intern (.union ids)).1 ≠
        some (.union members) := fun members eq =>
      plain ⟨members, Option.some.inj ((grows.get? found'').symm.trans eq)⟩
    exact (leaf_of_plain plain).trans (isOnly t).symm
  | sorted leaves _ _ _ =>
    rw [interns.regular.leaf_iff, flatten, found]
    exact (leaves t).symm

/-! ## Matching leaf by leaf -/

/-- An id that the pool has matches as the best of the leaves under it. -/
theorem Regular.fit_leaves (h : p.Regular) (held : p.Holds s) :
    Fit.Best (fun f => ∃ t, p.Leaf s t ∧ p.fit options t value = some f)
      (p.fit options s value) := by
  by_cases isUnion : ∃ members, p.get? s = some (.union members)
  · obtain ⟨members, found⟩ := isUnion
    have leaf : ∀ t, p.Leaf s t ↔ t ∈ members := fun t => by rw [h.leaf_iff, flatten, found]
    -- the members are earlier than the union, so the search reaches the bottom of each
    have parts : members.map (p.fitWithin options value p.size) =
        members.map fun t => p.fit options t value := by
      refine List.map_congr_left fun t mem => ?_
      have before : t.index < s.index := h.earlier found t mem
      have known := held.le_size
      exact h.grounded.fitWithin_grows (.refl p) options value (by simp only [Knows]; omega)
        (by omega) (by omega)
    have searched : p.fit options s value =
        (members.map fun t => p.fit options t value).foldl Fit.best none := by
      rw [fit, fitWithin, found]
      exact congrArg (List.foldl Fit.best none) parts
    rw [searched]
    exact (Fit.best_foldl _ none).congr fun f => by simp [leaf]
  · have plain : ∀ members, p.get? s ≠ some (.union members) := fun members eq =>
      isUnion ⟨members, eq⟩
    exact (Fit.Best.self _).congr fun f => by simp [leaf_of_plain plain]

/-- The normal form of a union depends on its leaves alone. -/
theorem NormalForm.of_leaves (normal : p.NormalForm (.union ids) x) (h : p.Regular)
    (held : ∀ s ∈ ids, p.Holds s) (g : p.Grows q)
    (same : ∀ t, q.Leaves others t ↔ p.Leaves ids t) : q.NormalForm (.union others) x := by
  cases normal with
  | itself plain => exact absurd ⟨_, rfl⟩ plain
  | absorbed leaf any => exact .absorbed ((same _).mpr leaf) (g.get? any)
  | collapsed only found known =>
    exact .collapsed (fun u => (same u).trans (only u)) (g.get? found) known
  | sorted leaves order several known =>
    refine .sorted (fun u => (same u).trans (leaves u)) order several fun u mem any => ?_
    obtain ⟨y, found, -⟩ := h.leaf_plain held ((leaves u).mpr mem)
    rw [g.get? found] at any
    exact known u mem (found.trans any)

/-- Two unions of the same leaves are one, however far apart they are asked for. -/
theorem Regular.union_again (h : p.Regular) (held : ∀ s ∈ ids, p.Holds s) (i : q.Regular)
    (g : (p.union ids).2.Grows q) (held' : ∀ s ∈ others, q.Holds s)
    (same : ∀ t, q.Leaves others t ↔ p.Leaves ids t) : (q.union others).1 = (p.union ids).1 := by
  obtain ⟨x, normal, found⟩ := (h.intern (a := .union ids) ⟨held, nofun⟩).normal
  have second := i.intern (a := .union others) ⟨held', nofun⟩
  obtain ⟨y, normal', found'⟩ := second.normal
  obtain rfl := normal'.unique (normal.of_leaves h held ((p.grows_intern _).trans g) same)
  exact second.regular.get?_inj found' ((g.trans (q.grows_intern _)).get? found)

/-- The union of types other than `Any` matches a value exactly as the best of them does, in any
later pool, and another union of the same leaves matches it alike. -/
theorem union_matches_best (history : initial.Reaches p) (held : ∀ s ∈ ids, p.Holds s)
    (noAny : .any ∉ ids) :
    (∀ {r : TypePool}, (p.union ids).2.Reaches r → ∀ options value,
      Fit.Best (fun f => ∃ s, s ∈ ids ∧ r.fit options s value = some f)
        (r.fit options (p.union ids).1 value)) ∧
    ∀ {q r : TypePool} {others : List SigId}, (p.union ids).2.Reaches q →
      (∀ s ∈ others, q.Holds s) → (∀ t, q.Leaves others t ↔ p.Leaves ids t) →
      (q.union others).2.Reaches r → ∀ options value,
        r.fit options (q.union others).1 value = r.fit options (p.union ids).1 value := by
  have regular := history.regular
  have first := regular.extends_intern (a := .union ids) ⟨held, nofun⟩
  constructor
  · intro r later options value
    have rest := later.extends first.1.regular
    have grows : p.Grows r := first.1.grows.trans rest.grows
    have leaf : ∀ t, r.Leaf (p.union ids).1 t ↔ r.Leaves ids t := fun t =>
      ((first.1.regular.leaf_grows rest.regular rest.grows first.2).trans
        (regular.leaf_union held noAny)).trans (regular.leaves_grows rest.regular grows held).symm
    have best : Fit.Best (fun f => ∃ t, r.Leaf (p.union ids).1 t ∧ r.fit options t value = some f)
        (r.fit options (p.union ids).1 value) :=
      rest.regular.fit_leaves (first.2.grows rest.grows)
    have byMember : Fit.Best
        (fun f => ∃ s, s ∈ ids ∧ ∃ t, r.Leaf s t ∧ r.fit options t value = some f)
        (r.fit options (p.union ids).1 value) := best.congr fun f => by
      simp only [leaf, Leaves]
      grind
    exact byMember.gather fun s mem => rest.regular.fit_leaves ((held s mem).grows grows)
  · intro q r others between held' same later options value
    have middle := between.extends first.1.regular
    rw [regular.union_again held middle.regular middle.grows held' same]

/-- An integer matches `Float | Int` as it matches `Int`, although `Float` is asked for first, and
so it does a union that nests this one. -/
theorem int_matches_best :
    let p := ((initial.nominal Primitive.int.id).2.nominal Primitive.float.id).2
    let q := (p.union [⟨3⟩, ⟨2⟩]).2
    let int : ValueType := ⟨Primitive.int.id, false⟩
    Fit.Best (fun f => ∃ s, s ∈ [⟨3⟩, ⟨2⟩] ∧ q.fit {} s int = some f) (q.fit {} ⟨4⟩ int) ∧
      q.fit {} ⟨3⟩ int = some (.widened 2) ∧ q.fit {} ⟨4⟩ int = some .exact ∧
      (q.union [⟨2⟩, ⟨4⟩, ⟨2⟩]).2.fit {} (q.union [⟨2⟩, ⟨4⟩, ⟨2⟩]).1 int =
        (q.union [⟨2⟩, ⟨4⟩, ⟨2⟩]).2.fit {} ⟨4⟩ int := by
  intro p q int
  have float : (initial.nominal Primitive.int.id).2.Declares Primitive.float.id :=
    ⟨"Float", rfl⟩
  have history : initial.Reaches p :=
    .returns (.returns .refl (.nominal ⟨"Int", rfl⟩)) (.nominal float)
  have held : ∀ s ∈ [⟨3⟩, ⟨2⟩], p.Holds s :=
    List.forall_mem_cons.mpr ⟨⟨_, rfl⟩, List.forall_mem_singleton.mpr ⟨_, rfl⟩⟩
  have held' : ∀ s ∈ [⟨2⟩, ⟨4⟩, ⟨2⟩], q.Holds s :=
    List.forall_mem_cons.mpr ⟨⟨_, rfl⟩, List.forall_mem_cons.mpr
      ⟨⟨_, rfl⟩, List.forall_mem_singleton.mpr ⟨_, rfl⟩⟩⟩
  have flat : sortDistinct ([⟨2⟩, ⟨4⟩, ⟨2⟩].flatMap q.flatten) =
      sortDistinct ([⟨3⟩, ⟨2⟩].flatMap p.flatten) := by decide
  have same : ∀ t, q.Leaves [⟨2⟩, ⟨4⟩, ⟨2⟩] t ↔ p.Leaves [⟨3⟩, ⟨2⟩] t := fun t => by
    rw [(history.returns (.union held)).regular.leaves_iff, history.regular.leaves_iff, flat]
  obtain ⟨best, alike⟩ := union_matches_best history held (by decide)
  exact ⟨best .refl {} int, by decide, by decide,
    alike .refl held' same (.returns .refl (.union held')) {} int⟩

end TypePool

end ScopeLang
