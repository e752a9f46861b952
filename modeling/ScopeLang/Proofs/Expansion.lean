/-
# Writing aliases out

An alias stands for an id, and a written type with aliases in it is bound as it
would be with their annotations written in their places.  An annotation without
aliases is bound to one id at all times, so the id that an alias got at its own
time is the one that its annotation gets now.

Where a parameter of a function type is concerned, binding looks at the spelling
as well.  A parameter that is written as `Any` is not checked, and one that is
written as an alias is checked, even if the alias was written as `Any`.  The two
are different function types, hence the condition that no parameter is an alias
of `Any`.
-/
import ScopeLang.Proofs.Rebinding
import ScopeLang.Table

namespace ScopeLang

namespace TypeExpr

variable (written? : String → Option TypeExpr)

mutual

/-- The type with the aliases in it written out. -/
def expand : TypeExpr → TypeExpr
  | any => any
  | named name arguments =>
      match arguments with
      | [] => (written? name).getD (named name [])
      | arguments => named name (expandAll arguments)
  | union members => union (expandAll members)
  | invocable parameters returns variadic =>
      invocable (expandAll parameters) (expand returns) variadic

def expandAll : List TypeExpr → List TypeExpr
  | [] => []
  | t :: rest => expand t :: expandAll rest

end

/-- The type is an alias that was written as `Any`. -/
def AliasOfAny (t : TypeExpr) : Prop :=
  ∃ name d, t = named name [] ∧ written? name = some d ∧ d.isAny = true

mutual

/-- No parameter of a function type is an alias of `Any`. -/
def ChecksKept : TypeExpr → Prop
  | any => True
  | named _ arguments => AllChecksKept arguments
  | union members => AllChecksKept members
  | invocable parameters returns _ =>
      (∀ t ∈ parameters, ¬ t.AliasOfAny written?) ∧ AllChecksKept parameters ∧ ChecksKept returns

def AllChecksKept : List TypeExpr → Prop
  | [] => True
  | t :: rest => ChecksKept t ∧ AllChecksKept rest

end

end TypeExpr

namespace TypePool

variable {p q r : TypePool} {s : SigId} {d : TypeExpr} {alias? : String → Option SigId}
  {written? : String → Option TypeExpr}

/-! ## Where aliases come from -/

/-- The id is the one that the annotation got when it was bound at an earlier time, and the
annotation mentions no alias, be it one of that time or one of now. -/
structure BoundFrom (p : TypePool) (alias? : String → Option SigId) (s : SigId) (d : TypeExpr) :
    Prop where
  plain : ∀ name ∈ d.names, alias? name = none
  earlier : ∃ (p₀ : TypePool) (alias₀? : String → Option SigId), initial.Reaches p₀ ∧
    (∀ name s, alias₀? name = some s → p₀.Holds s) ∧ (∀ name ∈ d.names, alias₀? name = none) ∧
    (d.bind alias₀? p₀).1 = s ∧ (d.bind alias₀? p₀).2.Reaches p

/-- Each alias was bound from an annotation without aliases, and `Any` is not an alias. -/
structure Defines (p : TypePool) (alias? : String → Option SigId)
    (written? : String → Option TypeExpr) : Prop where
  bound : ∀ {name s}, alias? name = some s → ∃ d, written? name = some d ∧ p.BoundFrom alias? s d
  unwritten : ∀ {name}, alias? name = none → written? name = none
  noAny : alias? "Any" = none

/-- In any later pool the annotation of an alias is bound to the id of the alias. -/
theorem BoundFrom.bind_eq (h : p.BoundFrom alias? s d) (g : p.Grows r) :
    d.bind alias? r = (s, r) := by
  obtain ⟨p₀, alias₀?, history, held, plain, rfl, later⟩ := h.earlier
  have backs := history.backs held
  have grows := (later.extends (backs.bind d).regular).grows
  exact backs.bind_again (fun name mem => by rw [h.plain name mem, plain name mem])
    (grows.trans g)

theorem Reaches.trans (h : p.Reaches q) (i : q.Reaches r) : p.Reaches r := by
  induction i with
  | refl => exact h
  | declare _ name ih => exact .declare ih name
  | returns _ operation ih => exact .returns ih operation

/-! ## Tables of aliases -/

/-- Histories in which aliases are bound from time to time: the pool, the aliases in force and the
annotations that they were bound from. -/
inductive Aliasing : TypePool → Table SigId → Table TypeExpr → Prop
  | start : Aliasing initial .empty .empty
  | later {p q : TypePool} {aliases : Table SigId} {written : Table TypeExpr}
      (earlier : Aliasing p aliases written) (between : p.Reaches q) : Aliasing q aliases written
  | bindAlias {p : TypePool} {aliases : Table SigId} {written : Table TypeExpr}
      (earlier : Aliasing p aliases written) (name : String) (t : TypeExpr) :
      Aliasing (t.bind aliases.get? p).2 (aliases.insert name (t.bind aliases.get? p).1)
        (written.insert name t)
  | clear {p : TypePool} {aliases : Table SigId} {written : Table TypeExpr}
      (earlier : Aliasing p aliases written) : Aliasing p .empty .empty

variable {aliases : Table SigId} {written : Table TypeExpr}

/-- What such a history keeps: each alias stands for an id that its annotation got at a time when
there were no other aliases than now. -/
structure Traced (p : TypePool) (aliases : Table SigId) (written : Table TypeExpr) : Prop where
  history : initial.Reaches p
  held : ∀ name s, aliases.get? name = some s → p.Holds s
  bound : ∀ {name s}, aliases.get? name = some s → ∃ d, written.get? name = some d ∧
    ∃ (p₀ : TypePool) (aliases₀ : Table SigId), initial.Reaches p₀ ∧
      (∀ name s, aliases₀.get? name = some s → p₀.Holds s) ∧
      (∀ name, aliases.get? name = none → aliases₀.get? name = none) ∧
      (d.bind aliases₀.get? p₀).1 = s ∧ (d.bind aliases₀.get? p₀).2.Reaches p
  unwritten : ∀ {name}, aliases.get? name = none → written.get? name = none

namespace Traced

theorem start : Traced initial .empty .empty := ⟨.refl, nofun, nofun, fun _ => rfl⟩

theorem later (h : p.Traced aliases written) (between : p.Reaches q) :
    q.Traced aliases written where
  history := h.history.trans between
  held name s found := (h.held name s found).grows (between.extends h.history.regular).grows
  bound found := by
    obtain ⟨d, isWritten, p₀, aliases₀, history, held, fewer, id, later⟩ := h.bound found
    exact ⟨d, isWritten, p₀, aliases₀, history, held, fewer, id, later.trans between⟩
  unwritten := h.unwritten

theorem bindAlias (h : p.Traced aliases written) (name : String) (t : TypeExpr) :
    (t.bind aliases.get? p).2.Traced (aliases.insert name (t.bind aliases.get? p).1)
      (written.insert name t) := by
  have between : p.Reaches (t.bind aliases.get? p).2 := .returns .refl (.bind h.held)
  have later := h.later between
  -- a name that is free now is another one, and was free before
  have fewer : ∀ other, (aliases.insert name (t.bind aliases.get? p).1).get? other = none →
      other ≠ name ∧ aliases.get? other = none := by
    intro other free
    by_cases same : other = name
    · rw [same, Table.get?_insert_same] at free
      cases free
    · rw [Table.get?_insert_other same] at free
      exact ⟨same, free⟩
  constructor
  case history => exact later.history
  case held =>
    intro other s found
    by_cases same : other = name
    · rw [same, Table.get?_insert_same] at found
      exact Option.some.inj found ▸ (t.extends_bind h.history.regular h.held).2
    · rw [Table.get?_insert_other same] at found
      exact later.held other s found
  case bound =>
    intro other s found
    by_cases same : other = name
    · subst same
      rw [Table.get?_insert_same] at found
      exact ⟨t, Table.get?_insert_same _ _ _, p, aliases, h.history, h.held,
        fun other free => (fewer other free).2, Option.some.inj found, .refl⟩
    · rw [Table.get?_insert_other same] at found
      obtain ⟨d, isWritten, p₀, aliases₀, history, held, fewer₀, id, rest⟩ := later.bound found
      exact ⟨d, (Table.get?_insert_other same _ _).trans isWritten, p₀, aliases₀, history, held,
        fun other free => fewer₀ other (fewer other free).2, id, rest⟩
  case unwritten =>
    intro other free
    obtain ⟨differs, free⟩ := fewer other free
    rw [Table.get?_insert_other differs]
    exact h.unwritten free

theorem clear (h : p.Traced aliases written) : p.Traced .empty .empty :=
  ⟨h.history, nofun, nofun, fun _ => rfl⟩

end Traced

theorem Aliasing.traced (h : Aliasing p aliases written) : p.Traced aliases written := by
  induction h with
  | start => exact .start
  | later _ between ih => exact ih.later between
  | bindAlias _ name t ih => exact ih.bindAlias name t
  | clear _ ih => exact ih.clear

/-- Aliases that are bound one after the other are defined by their annotations, as long as these
mention no alias. -/
theorem Aliasing.defines (h : Aliasing p aliases written)
    (plain : ∀ name d, written.get? name = some d → ∀ n ∈ d.names, aliases.get? n = none)
    (noAny : aliases.get? "Any" = none) : p.Defines aliases.get? written.get? where
  bound {name s} found := by
    obtain ⟨d, isWritten, p₀, aliases₀, history, held, fewer, id, later⟩ := h.traced.bound found
    have free := plain name d isWritten
    exact ⟨d, isWritten, free, p₀, aliases₀.get?, history, held,
      fun n mem => fewer n (free n mem), id, later⟩
  unwritten := h.traced.unwritten
  noAny := noAny

/-- A single alias is defined by an annotation that does not mention it. -/
theorem defines_single (history : initial.Reaches p) {name : String} (notAny : name ≠ "Any")
    (fresh : name ∉ d.names) (later : (d.bind Table.empty.get? p).2.Reaches q) :
    q.Defines (Table.empty.insert name (d.bind Table.empty.get? p).1).get?
      (Table.empty.insert name d).get? := by
  have free : ∀ other, other ≠ name →
      (Table.empty.insert name (d.bind Table.empty.get? p).1).get? other = none :=
    fun other differs => Table.get?_insert_other differs _ _
  have bound := ((Aliasing.start.later history).bindAlias name d).later later
  refine bound.defines (fun other written isWritten n mem => ?_) (free "Any" notAny.symm)
  by_cases same : other = name
  · rw [same, Table.get?_insert_same] at isWritten
    obtain rfl := Option.some.inj isWritten
    exact free n fun eq => fresh (eq ▸ mem)
  · rw [Table.get?_insert_other same] at isWritten
    cases isWritten

end TypePool

namespace TypeExpr

open TypePool

variable {p : TypePool} {alias? : String → Option SigId} {written? : String → Option TypeExpr}

/-! ## Binding with aliases written out -/

theorem expandAll_eq_map (written? : String → Option TypeExpr) (ts : List TypeExpr) :
    expandAll written? ts = ts.map (expand written?) := by
  induction ts with
  | nil => rw [expandAll]; rfl
  | cons t rest ih => rw [expandAll, ih]; rfl

/-- A type other than an alias of `Any` is written as `Any` after expansion if it was before. -/
theorem isAny_expand (noAny : written? "Any" = none)
    {t : TypeExpr} (other : ¬ t.AliasOfAny written?) : (t.expand written?).isAny = t.isAny := by
  cases t with
  | any => rw [expand]
  | union | invocable => rw [expand]; rfl
  | named name arguments =>
    cases arguments with
    | cons t rest => simp [expand, expandAll, isAny]
    | nil =>
      rw [expand.eq_def]
      simp only
      cases isWritten : written? name with
      | none => rfl
      | some d =>
        have notAny : d.isAny = false :=
          Bool.eq_false_iff.mpr fun isAny => other ⟨name, d, rfl, isWritten, isAny⟩
        have isName : (name == "Any") = false := by
          refine beq_eq_false_iff_ne.mpr fun eq => ?_
          rw [eq, noAny] at isWritten
          cases isWritten
        have before : (named name []).isAny = false := by rw [isAny, isName, Bool.false_and]
        rw [before, ← notAny]
        rfl

mutual

theorem bind_expand_grows (h : p.Defines alias? written?) :
    ∀ (T : TypeExpr), T.ChecksKept written? → ∀ {r : TypePool}, p.Grows r →
      (T.expand written?).bind alias? r = T.bind alias? r
  | any, _, r, _ => by rw [expand]
  | named name [], _, r, g => by
    rw [expand.eq_def]
    cases found : alias? name with
    | none => simp [h.unwritten found]
    | some s =>
      obtain ⟨d, isWritten, bound⟩ := h.bound found
      have isName : (name == "Any") = false := by
        refine beq_eq_false_iff_ne.mpr fun eq => ?_
        rw [eq, h.noAny] at found
        cases found
      have asName : (named name []).bind alias? r = (s, r) := by
        rw [bind.eq_def]
        simp only [isName, Bool.false_eq_true, if_false, found]
      simp only [isWritten, Option.getD_some]
      rw [asName, bound.bind_eq g]
  | named name (t :: rest), kept, r, g => by
    have all := bindAll_expand_grows h (t :: rest) (by simpa only [ChecksKept] using kept)
      (g.trans (r.grows_declare name))
    rw [expandAll] at all
    rw [expand.eq_def, bind.eq_def, bind.eq_def alias? (named name (t :: rest))]
    simp only [expandAll, all]
  | union members, kept, r, g => by
    have all := bindAll_expand_grows h members (by simpa only [ChecksKept] using kept) g
    rw [expand, bind, bind, all]
  | invocable parameters returns variadic, kept, r, g => by
    simp only [ChecksKept] at kept
    obtain ⟨unaliased, parametersKept, returnsKept⟩ := kept
    have all := bindAll_expand_grows h parameters parametersKept g
    have result := bind_expand_grows h returns returnsKept
      (g.trans (grows_bindAll alias? parameters r))
    -- the marks of the parameters are read off the spelling
    have marks : (expandAll written? parameters).map (!·.isAny) = parameters.map (!·.isAny) := by
      rw [expandAll_eq_map, List.map_map]
      refine List.map_congr_left fun t mem => ?_
      rw [Function.comp_apply, isAny_expand (h.unwritten h.noAny) (unaliased t mem)]
    rw [expand, bind, bind, all, marks]
    simp only [result]

theorem bindAll_expand_grows (h : p.Defines alias? written?) :
    ∀ (Ts : List TypeExpr), AllChecksKept written? Ts → ∀ {r : TypePool}, p.Grows r →
      bindAll alias? (expandAll written? Ts) r = bindAll alias? Ts r
  | [], _, r, _ => by rw [expandAll]
  | T :: rest, kept, r, g => by
    simp only [AllChecksKept] at kept
    rw [expandAll, bindAll, bindAll, bind_expand_grows h T kept.1 g]
    simp only [bindAll_expand_grows h rest kept.2
      (g.trans (T.grows_bind alias? r))]

end

/-- Aliases that were bound from annotations without aliases are transparent: a written type none
of whose parameters is an alias of `Any` is bound as it is with the aliases written out. -/
theorem bind_expand (h : p.Defines alias? written?) (T : TypeExpr) (kept : T.ChecksKept written?) :
    (T.expand written?).bind alias? p = T.bind alias? p :=
  bind_expand_grows h T kept (.refl p)

/-- `Key` stands for `Int | String`, and is expanded as a parameter and as the element type of the
result. -/
theorem bind_expand_key :
    let key := union [named "Int" [], named "String" []]
    let T := invocable [named "Key" []] (named "List" [named "Key" []]) false
    let p := (key.bind Table.empty.get? initial).2
    let aliases := Table.empty.insert "Key" ⟨4⟩
    let written := Table.empty.insert "Key" key
    T.expand written.get? = invocable [key] (named "List" [key]) false ∧
      (T.expand written.get?).bind aliases.get? p = T.bind aliases.get? p := by
  intro key T p aliases written
  have id : (key.bind Table.empty.get? initial).1 = ⟨4⟩ := by decide +kernel
  have defines : p.Defines (Table.empty.insert "Key" _).get? written.get? :=
    defines_single (d := key) .refl (by decide) (by decide +kernel) .refl
  rw [id] at defines
  have kept : T.ChecksKept written.get? := by
    have notAny : ¬ (named "Key" []).AliasOfAny written.get? := by
      rintro ⟨name, d, eq, isWritten, isAny⟩
      cases eq
      cases isWritten
      cases isAny
    simp only [T, ChecksKept, AllChecksKept, and_true]
    exact List.forall_mem_singleton.mpr notAny
  exact ⟨rfl, bind_expand defines T kept⟩

/-- If `X` was written as `Any`, a function of an `X` is not a function of `Any`. -/
theorem not_bind_expand_any :
    let T := invocable [named "X" []] (named "Int" []) false
    let aliases := Table.empty.insert "X" SigId.any
    let written := Table.empty.insert "X" any
    let p := (T.bind aliases.get? initial).2
    p.Defines aliases.get? written.get? ∧
      ((T.expand written.get?).bind aliases.get? p).1 ≠ (T.bind aliases.get? p).1 := by
  intro T aliases written p
  have id : (any.bind Table.empty.get? initial).1 = .any := by decide +kernel
  have same : (any.bind Table.empty.get? initial).2 = initial := by rw [bind]
  have held : ∀ name s, aliases.get? name = some s → initial.Holds s := by
    intro name s found
    by_cases eq : name = "X"
    · rw [eq, Table.get?_insert_same] at found
      exact Option.some.inj found ▸ regular_initial.holds_any
    · rw [Table.get?_insert_other eq] at found
      cases found
  have later : (any.bind Table.empty.get? initial).2.Reaches p := by
    rw [same]
    exact .returns .refl (.bind held)
  have defines : p.Defines (Table.empty.insert "X" _).get? written.get? :=
    defines_single (d := any) .refl (by decide) (by decide +kernel) later
  rw [id] at defines
  exact ⟨defines, by decide +kernel⟩

end TypeExpr

end ScopeLang
