/-
# Recursion along ids

Matching a value and writing a type out follow the ids inside the entries of a pool, which
grows and has no bottom in its own shape.  What makes the recursion end is how entries
come about: the ids a pool is given are ids it returned, and what it returns is allocated,
so each entry refers to earlier entries only.  Flattening puts the members of an entry in
the place of its id, which are earlier still, and a union that collapses returns one of
them.  `Founded` is what interning keeps (`Founded.intern`), for any use of the ids that were
returned and no matter whether the type names in the entries are declared.

A recursion along ids is given by one level of it, in terms of the answers for the ids
that are read there (`Level`).  Carried out without any bound it has an answer for an id if
it has one for each id that is read (`ComesTo`).  Since reading goes to earlier ids, it
has exactly one for every id, allocated or not, and this is the one that the search to a
depth of one more than the size of the pool finds (`Level.comesTo_iff`).
-/
import ScopeLang.Proofs.Interning

namespace ScopeLang

namespace TypePool

variable {p : TypePool} {s t m : SigId} {x : Signature} {members : List SigId}

/-! ## Entries refer to earlier entries -/

/-- The parts of an entry are in the pool, before the entry, and its unions are in normal form. -/
structure Founded (p : TypePool) : Prop where
  any : p.get? .any = some .any
  held : ∀ {s x}, p.get? s = some x → ∀ t ∈ x.ids, p.Holds t
  earlier : ∀ {s x}, p.get? s = some x → ∀ t ∈ x.ids, t.Before s
  tidy : ∀ {s x}, p.get? s = some x → p.Tidy x

theorem Holds.isValid (held : p.Holds s) : s.isValid := by
  obtain ⟨x, found⟩ := held
  exact bne_iff_ne.mpr (get?_eq_some.mp found).1

theorem Proper.holds (proper : p.Proper s) : p.Holds s := proper.imp fun _ found => found.1

theorem Regular.founded (h : p.Regular) : p.Founded where
  any := h.any
  held found := (h.described found).ids
  earlier := h.earlier
  tidy := h.tidy

namespace Founded

theorem declare (h : p.Founded) (name : String) : (p.declare name).2.Founded where
  any := h.any
  held found t part := (h.held found t part).grows (p.grows_declare name)
  earlier := h.earlier
  tidy found := (h.tidy found).grows (p.grows_declare name)

theorem add (h : p.Founded) (held : ∀ t ∈ x.ids, p.Holds t) (tidy : p.Tidy x) :
    (p.add x).Founded where
  any := (p.grows_add x).get? h.any
  held found t part := by
    rcases get?_add found with old | ⟨-, rfl⟩
    · exact (h.held old t part).grows (p.grows_add x)
    · exact (held t part).grows (p.grows_add _)
  earlier found t part := by
    rcases get?_add found with old | ⟨last, rfl⟩
    · exact h.earlier old t part
    · -- the new entry comes after everything the pool has
      exact (Nat.lt_succ_of_le (held t part).le_size).trans_eq last.symm
  tidy found := by
    rcases get?_add found with old | ⟨-, rfl⟩
    · exact (h.tidy old).grows (p.grows_add x)
    · exact tidy.grows (p.grows_add _)

theorem internNormal (h : p.Founded) (held : ∀ t ∈ x.ids, p.Holds t) (tidy : p.Tidy x) :
    (p.internNormal x).2.Founded := by
  rw [TypePool.internNormal]
  split
  · exact h
  · exact h.add held tidy

/-- What an id contributes to a union may stand in one, unless the id is that of `Any`. -/
theorem proper_of_mem_flatten (h : p.Founded) (held : p.Holds m) (known : p.get? m ≠ some .any)
    (mem : t ∈ p.flatten m) : p.Proper t := by
  unfold flatten at mem
  split at mem
  · rename_i inner found
    exact (h.tidy found inner rfl).2.2 t mem
  · rename_i plain
    obtain rfl := List.mem_singleton.mp mem
    obtain ⟨x, found⟩ := held
    exact ⟨x, found, fun any => known (any ▸ found), fun ⟨inner, union⟩ => plain inner (union ▸ found)⟩

/-- The normal form of a signature whose parts are in the pool: either it may be an entry, or it is
a union of one member that the pool has. -/
theorem normalize (h : p.Founded) (held : ∀ t ∈ x.ids, p.Holds t) :
    (∀ t ∈ (p.normalize x).ids, p.Holds t) ∧
      ((∀ only, p.normalize x ≠ .union [only]) → p.Tidy (p.normalize x)) := by
  cases x with
  | any | nominal | container | invocable => exact ⟨held, fun _ members eq => nomatch eq⟩
  | union members =>
    simp only [TypePool.normalize, normalUnion]
    split
    · exact ⟨fun _ part => absurd part List.not_mem_nil, fun _ => p.tidy_any⟩
    · rename_i noAny
      have proper : ∀ t ∈ sortDistinct (members.flatMap p.flatten), p.Proper t := by
        intro t mem
        obtain ⟨m, member, flat⟩ := List.mem_flatMap.mp (mem_sortDistinct.mp mem)
        refine h.proper_of_mem_flatten (held m member) (fun any => noAny ?_) flat
        exact List.any_eq_true.mpr ⟨m, member, decide_eq_true any⟩
      refine ⟨fun t part => (proper t part).holds, fun several ids eq => ?_⟩
      obtain rfl := Signature.union.inj eq
      refine ⟨sortDistinct_sorted _, fun one => ?_, proper⟩
      obtain ⟨only, single⟩ := List.length_eq_one_iff.mp one
      exact several only (congrArg Signature.union single)

/-- Interning a signature whose parts are in the pool keeps the pool founded, and the pool has the
id that is returned. -/
theorem intern (h : p.Founded) (held : ∀ t ∈ x.ids, p.Holds t) :
    (p.intern x).2.Founded ∧ (p.intern x).2.Holds (p.intern x).1 := by
  obtain ⟨parts, tidy⟩ := h.normalize held
  rw [TypePool.intern]
  split
  · rename_i only eq
    exact ⟨h, parts only (eq ▸ List.mem_singleton_self only)⟩
  · rename_i several
    exact ⟨h.internNormal parts (tidy several), _, p.get?_internNormal _⟩

theorem bare (h : p.Founded) (base : TypeId) :
    (p.bare base).2.Founded ∧ (p.bare base).2.Holds (p.bare base).1 := by
  unfold TypePool.bare
  split
  · exact h.intern fun t part => List.eq_of_mem_replicate part ▸ ⟨_, h.any⟩
  · exact h.intern fun t part => absurd part List.not_mem_nil

end Founded

/-! ## Answers found along ids -/

section Levels

variable {α : Type} {a : α} {n n' : Nat} {F : SigId → α}

/-- The entry under `s` has the part `t`. -/
def Refers (p : TypePool) (s t : SigId) : Prop := ∃ x, p.get? s = some x ∧ t ∈ x.ids

/-- One level of a recursion along ids: the ids at which answers are read for an id, and the answer
that these make, on which nothing else has a bearing. -/
structure Level (p : TypePool) (α : Type) where
  reads : SigId → List SigId
  answer : (SigId → α) → SigId → α
  refers : ∀ {s t}, t ∈ reads s → p.Refers s t
  congr : ∀ {f g : SigId → α} {s}, (∀ t ∈ reads s, f t = g t) → answer f s = answer g s

namespace Level

/-- The recursion without a bound: an id has an answer if each id that is read has one. -/
inductive ComesTo (l : p.Level α) : SigId → α → Prop
  | intro {s : SigId} (f : SigId → α) (parts : ∀ t ∈ l.reads s, ComesTo l t (f t)) :
      ComesTo l s (l.answer f s)

/-- The recursion to a depth of `n`, below which it answers with a fixed value. -/
def within (l : p.Level α) (bottom : α) : Nat → SigId → α
  | 0, _ => bottom
  | n + 1, s => l.answer (l.within bottom n) s

variable {l : p.Level α} {bottom : α}

/-- Reading goes to earlier ids, so it ends. -/
theorem wellFounded_refers (h : p.Founded) : WellFounded fun t s => p.Refers s t :=
  Subrelation.wf (fun ⟨_, found, part⟩ => h.earlier found _ part) (measure SigId.index).wf

/-- A depth larger than the id is as good as any other. -/
theorem within_eq (h : p.Founded) (pos : 0 < n) (pos' : 0 < n') (deep : p.Holds s → s.index < n)
    (deep' : p.Holds s → s.index < n') : l.within bottom n s = l.within bottom n' s := by
  induction n generalizing n' s with
  | zero => exact absurd pos (Nat.lt_irrefl 0)
  | succ n ih =>
    obtain ⟨n', rfl⟩ := Nat.exists_eq_succ_of_ne_zero (Nat.ne_of_gt pos')
    refine l.congr fun t part => ?_
    obtain ⟨x, found, part⟩ := l.refers part
    have before : t.index < s.index := h.earlier found t part
    have room := deep ⟨x, found⟩
    have room' := deep' ⟨x, found⟩
    exact ih (by omega) (by omega) (fun _ => by omega) (fun _ => by omega)

/-- The search to a depth of one more than the size of the pool solves the equation of the
recursion. -/
theorem within_size (h : p.Founded) :
    l.within bottom (p.size + 1) s = l.answer (l.within bottom (p.size + 1)) s := by
  refine l.congr fun t part => ?_
  obtain ⟨x, found, part⟩ := l.refers part
  have before : t.index < s.index := h.earlier found t part
  have le := Holds.le_size ⟨x, found⟩
  exact within_eq h (by omega) (by omega) (fun _ => by omega) (fun _ => by omega)

/-- The recursion comes to the only solution of its equation. -/
theorem comesTo_iff (h : p.Founded) (solves : ∀ s, F s = l.answer F s) :
    l.ComesTo s a ↔ a = F s := by
  constructor
  · intro comes
    induction comes with
    | intro f parts ih => exact (l.congr ih).trans (solves _).symm
  · rintro rfl
    induction s using (wellFounded_refers h).induction with
    | _ s ih =>
      rw [solves s]
      exact .intro F fun t part => ih t (l.refers part)

end Level

end Levels

/-! ## Matching and texts -/

section Answers

variable {options : MatchOptions} {value : ValueType} {answer : Option Fit} {text : String}

/-- The ids at which matching goes on. -/
def matched (p : TypePool) (s : SigId) : List SigId :=
  match p.get? s with
  | some (.union members) => members
  | _ => []

/-- The ids that are written out inside the text of an id. -/
def written (p : TypePool) (s : SigId) : List SigId := (p.get? s).elim [] Signature.ids

/-- One level of matching a value. -/
def fitLevel (p : TypePool) (options : MatchOptions) (value : ValueType) :
    p.Level (Option Fit) where
  reads := p.matched
  answer fits s :=
    match p.get? s with
    | none => none
    | some .any => if options.allowAny then some .unchecked else none
    | some (.nominal base) => fitNominal base value.id options
    | some (.container base _) => if value.id = base then some .exact else none
    | some (.union members) => (members.map fits).foldl Fit.best none
    | some (.invocable _) => if value.callable then some .exact else none
  refers {s t} part := by
    unfold matched at part
    split at part
    · rename_i members found
      exact ⟨.union members, found, part⟩
    · exact absurd part List.not_mem_nil
  congr {f g s} same := by
    unfold matched at same
    split <;> try rfl
    rename_i members found
    rw [found] at same
    exact congrArg (List.foldl Fit.best none) (List.map_congr_left same)

/-- One level of writing a type out. -/
def textLevel (p : TypePool) : p.Level String where
  reads := p.written
  answer texts s :=
    match p.get? s with
    | none => "<invalid>"
    | some .any => "Any"
    | some (.nominal base) => p.registry.text base
    | some (.container base arguments) =>
        p.registry.text base ++ "[" ++ ", ".intercalate (arguments.map texts) ++ "]"
    | some (.union members) => " | ".intercalate (members.map texts)
    | some (.invocable type) =>
        let parameters := type.parameters.map texts
        "(" ++ ", ".intercalate (if type.variadic then markLast parameters else parameters) ++
          ") -> " ++ texts type.returns
  refers {s t} part := by
    unfold written at part
    cases found : p.get? s with rw [found] at part
    | none => exact absurd part List.not_mem_nil
    | some x => exact ⟨x, found, part⟩
  congr {f g s} same := by
    unfold written at same
    rcases found : p.get? s with _ | x
    · rfl
    rw [found] at same
    cases x with
    | any | nominal => rfl
    | container base arguments =>
      have texts : arguments.map f = arguments.map g := List.map_congr_left same
      simp only [texts]
    | union members =>
      have texts : members.map f = members.map g := List.map_congr_left same
      simp only [texts]
    | invocable type =>
      have texts : type.parameters.map f = type.parameters.map g :=
        List.map_congr_left fun t part => same t (List.mem_cons_of_mem _ part)
      have returns := same type.returns List.mem_cons_self
      simp only [texts, returns]

theorem fitWithin_eq (n : Nat) :
    p.fitWithin options value n s = (p.fitLevel options value).within none n s := by
  induction n generalizing s with
  | zero => rfl
  | succ n ih =>
    rw [Level.within, ← funext fun s => ih (s := s)]
    rfl

theorem textWithin_eq (n : Nat) : p.textWithin n s = p.textLevel.within "<invalid>" n s := by
  induction n generalizing s with
  | zero => rfl
  | succ n ih =>
    rw [Level.within, ← funext fun s => ih (s := s)]
    rfl

/-- Matching a value against any id comes to an answer, and to no other than the fit of the value.
-/
theorem Founded.comesTo_fit (h : p.Founded) :
    (p.fitLevel options value).ComesTo s answer ↔ answer = p.fit options s value := by
  have eq : p.fit options s value = (p.fitLevel options value).within none (p.size + 1) s :=
    fitWithin_eq _
  rw [eq]
  exact Level.comesTo_iff h fun _ => Level.within_size h

/-- Writing any id out comes to an answer, and to no other than its text. -/
theorem Founded.comesTo_text (h : p.Founded) : p.textLevel.ComesTo s text ↔ text = p.text s := by
  have eq : p.text s = p.textLevel.within "<invalid>" (p.size + 1) s := textWithin_eq _
  rw [eq]
  exact Level.comesTo_iff h fun _ => Level.within_size h

end Answers

/-! ## Calls -/

section Calls

variable {options : MatchOptions} {f g : SigId → ValueType → Option Fit} {variadic : Bool}
  {answer : Option Fit} {slots : List (Slot ValueType)}

/-- The fits of the slots of a call, given the fit of each value that is checked. -/
def slotsBy (fits : SigId → ValueType → Option Fit) (variadic : Bool) :
    List SigId → List Bool → List (Slot ValueType) → Option Fit
  | [], _, [] => some .empty
  | parameter :: parameters, enforced, slot :: slots =>
      let collects := variadic && slots.isEmpty
      let argument (value : ValueType) : Option Fit :=
        if enforced.headD false then fits parameter value else some .unchecked
      let first : Option Fit := match slot with
        | .omitted => some .unchecked
        | .value v => if collects then none else argument v
        | .spread vs => if collects then Fit.sum (vs.map argument) else none
      match first with
      | none => none
      | some a => (slotsBy fits variadic parameters enforced.tail slots).map a.add
  | _, _, _ => none

/-- Matching a call without a bound: the type of what is called is looked up, and the values are
matched against its parameters. -/
inductive CallComesTo (p : TypePool) (options : MatchOptions) (slots : List (Slot ValueType)) :
    SigId → Option Fit → Prop
  | refused {s : SigId} (other : ∀ type, p.get? s ≠ some (.invocable type)) :
      CallComesTo p options slots s none
  | scored {s : SigId} {type : Invocable} (found : p.get? s = some (.invocable type))
      (fits : SigId → ValueType → Option Fit)
      (parts : ∀ t ∈ type.parameters, ∀ value, (p.fitLevel options value).ComesTo t (fits t value)) :
      CallComesTo p options slots s (slotsBy fits type.variadic type.parameters type.enforced slots)

theorem fitSlots_eq (parameters : List SigId) (enforced : List Bool) :
    p.fitSlots options variadic parameters enforced slots =
      slotsBy (p.fit options) variadic parameters enforced slots := by
  induction parameters generalizing enforced slots with
  | nil => cases slots <;> rfl
  | cons parameter parameters ih =>
    cases slots with
    | nil => rfl
    | cons slot slots =>
      simp only [fitSlots, slotsBy, ih]
      cases slot <;> rfl

theorem slotsBy_congr {parameters : List SigId} (same : ∀ t ∈ parameters, ∀ v, f t v = g t v)
    (enforced : List Bool) :
    slotsBy f variadic parameters enforced slots = slotsBy g variadic parameters enforced slots := by
  induction parameters generalizing enforced slots with
  | nil => cases slots <;> rfl
  | cons parameter parameters ih =>
    cases slots with
    | nil => rfl
    | cons slot slots =>
      have first : f parameter = g parameter := funext (same parameter List.mem_cons_self)
      have others : ∀ t ∈ parameters, ∀ v, f t v = g t v :=
        fun t part => same t (List.mem_cons_of_mem _ part)
      simp only [slotsBy, first, ih others]

/-- Matching a call comes to an answer, and to no other than the fit of the call. -/
theorem Founded.comesTo_fitCall (h : p.Founded) :
    p.CallComesTo options slots s answer ↔ answer = p.fitCall options s slots := by
  constructor
  · rintro (other | ⟨found, fits, parts⟩)
    · unfold fitCall
      split
      · exact absurd ‹_› (other _)
      · rfl
    · simp only [fitCall, found, fitSlots_eq]
      exact slotsBy_congr (fun t part v => h.comesTo_fit.mp (parts t part v)) _
  · rintro rfl
    unfold fitCall
    split
    · rename_i type found
      rw [fitSlots_eq]
      exact .scored found _ fun t _ v => h.comesTo_fit.mpr rfl
    · rename_i other
      exact .refused fun type found => other type found

end Calls

/-! ## The operations of a pool -/

/-- The pools that operations lead to, with the ids that were returned so far.  Operations are given
such ids only, and any type ids.  Naming a type, making a container, a union or an invocable is to
intern what these say. -/
inductive Obtains : TypePool → List SigId → Prop
  | start : Obtains initial [.any]
  | declare {p : TypePool} {out : List SigId} (earlier : Obtains p out) (name : String) :
      Obtains (p.declare name).2 out
  | intern {p : TypePool} {out : List SigId} (earlier : Obtains p out) {x : Signature}
      (known : ∀ s ∈ x.ids, s ∈ out) : Obtains (p.intern x).2 ((p.intern x).1 :: out)
  | infer {p : TypePool} {out : List SigId} (earlier : Obtains p out) (base : TypeId) :
      Obtains (p.bare base).2 ((p.bare base).1 :: out)
  | inspect {p : TypePool} {out : List SigId} (earlier : Obtains p out) {s t : SigId}
      (refers : p.Refers s t) : Obtains p (t :: out)

variable {out : List SigId}

/-- Operations keep the pool founded, and the pool has all ids that were returned. -/
theorem Obtains.founded (obtains : Obtains p out) : p.Founded ∧ ∀ s ∈ out, p.Holds s := by
  induction obtains with
  | start =>
    refine ⟨regular_initial.founded, fun s mem => ?_⟩
    obtain rfl := List.mem_singleton.mp mem
    exact regular_initial.holds_any
  | @declare p out earlier name ih =>
    exact ⟨ih.1.declare name, fun s mem => (ih.2 s mem).grows (p.grows_declare name)⟩
  | @intern p out earlier x known ih =>
    obtain ⟨founded, held⟩ := ih.1.intern fun t part => ih.2 t (known t part)
    exact ⟨founded, List.forall_mem_cons.mpr
      ⟨held, fun s mem => (ih.2 s mem).grows (p.grows_intern x)⟩⟩
  | @infer p out earlier base ih =>
    obtain ⟨founded, held⟩ := ih.1.bare base
    exact ⟨founded, List.forall_mem_cons.mpr
      ⟨held, fun s mem => (ih.2 s mem).grows (p.grows_bare base)⟩⟩
  | inspect earlier refers ih =>
    obtain ⟨x, found, part⟩ := refers
    exact ⟨ih.1, List.forall_mem_cons.mpr ⟨ih.1.held found _ part, ih.2⟩⟩

/-- Recursion along the ids of the pool ends.  The parts of each entry are valid, in the pool and
before the entry, unions are in normal form, and matching values, matching calls and writing types
out, carried out without any bound, come to exactly one answer for every id. -/
structure RecursionEnds (p : TypePool) : Prop where
  parts : ∀ {s x}, p.get? s = some x → ∀ t ∈ x.ids, t.isValid ∧ p.Holds t ∧ t.Before s
  unions : ∀ {s members}, p.get? s = some (.union members) →
    members.Pairwise SigId.Before ∧ members.length ≠ 1 ∧
      ∀ m ∈ members, p.get? m ≠ some .any ∧ ∀ inner, p.get? m ≠ some (.union inner)
  refers : WellFounded fun t s => p.Refers s t
  value : ∀ options value s answer,
    (p.fitLevel options value).ComesTo s answer ↔ answer = p.fit options s value
  call : ∀ options slots s answer,
    p.CallComesTo options slots s answer ↔ answer = p.fitCall options s slots
  text : ∀ s text, p.textLevel.ComesTo s text ↔ text = p.text s

theorem Founded.recursionEnds (h : p.Founded) : p.RecursionEnds where
  parts found t part := ⟨(h.held found t part).isValid, h.held found t part, h.earlier found t part⟩
  unions found := by
    obtain ⟨sorted, several, proper⟩ := h.tidy found _ rfl
    refine ⟨sorted, several, fun m mem => ?_⟩
    obtain ⟨x, found, known, plain⟩ := proper m mem
    exact ⟨fun any => known (Option.some.inj (found.symm.trans any)),
      fun inner union => plain ⟨inner, Option.some.inj (found.symm.trans union)⟩⟩
  refers := Level.wellFounded_refers h
  value _ _ _ _ := h.comesTo_fit
  call _ _ _ _ := h.comesTo_fitCall
  text _ _ := h.comesTo_text

/-- In every pool that operations on returned ids lead to, recursion along ids ends. -/
theorem signature_recursion_ends (obtains : Obtains p out) : p.RecursionEnds :=
  obtains.founded.1.recursionEnds

theorem signature_recursion_ends_of_nested_union :
    let int := initial.nominal Primitive.int.id
    let string := int.2.nominal Primitive.string.id
    let either := string.2.union [string.1, int.1]
    let list := either.2.container Primitive.list.id [either.1]
    Obtains list.2 [list.1, either.1, string.1, int.1, .any] ∧ list.2.RecursionEnds := by
  intro int string either list
  have known : ∀ s ∈ [string.1, int.1], s ∈ [string.1, int.1, .any] := by decide
  have obtains : Obtains list.2 [list.1, either.1, string.1, int.1, .any] :=
    (((Obtains.start.intern (x := .nominal _) nofun).intern (x := .nominal _) nofun).intern
      (x := .union _) known).intern (x := .container _ _) (by decide)
  exact ⟨obtains, signature_recursion_ends obtains⟩

end TypePool
end ScopeLang
