/-
# The order of searches

Functions and classes are looked for along the parents of a scope, then along those of
the callers met on the way, and last among the globals.  The model keeps a queue for
this, to which it adds the callers that it has not met, and which must be empty before
the fuel is used up.

The order can be said without a queue.  The scopes that a search starts from are those
that are met, each where it is met first: a list that is the scope, followed by the
callers met from the items of this very list, without repetitions
(`SearchStarts.order`).  Since each of them is met from those before it, there is only
one such list (`SearchStarts.unique`).  What has been seen and what is queued are
together the scopes met so far, each once; this is the invariant of the loop
(`searchStarts_startsFrom`), and it bounds the number of rounds.

What is found is the entry of the first table on this way that has the name.  No list
of overloads is put together from several tables: a function is registered at the end
of one list, and lists only ever go on.
-/
import ScopeLang.Proofs.Constants
import ScopeLang.Proofs.Paths
import ScopeLang.Proofs.Receivers
import ScopeLang.Proofs.Writes

namespace ScopeLang

variable {D : Dialect} {w w₁ w₂ : World} {s t : ScopeId} {name : String}

/-! ## First occurrences -/

section Distinct

variable {xs ys seen queue : List ScopeId} {x : ScopeId}

theorem eraseDups_concat_old (old : x ∈ xs) : (xs ++ [x]).eraseDups = xs.eraseDups := by
  simp [List.eraseDups_append, List.removeAll, old]

theorem eraseDups_concat_new (new : x ∉ xs) : (xs ++ [x]).eraseDups = xs.eraseDups ++ [x] := by
  rw [List.eraseDups_append]
  have left : [x].removeAll xs = [x] := by simp [List.removeAll, new]
  rw [left, List.eraseDups_cons]
  rfl

theorem nodup_eraseDups (xs : List ScopeId) : xs.eraseDups.Nodup := by
  induction xs using List.reverseRecOn with
  | nil => exact List.nodup_nil
  | append_singleton xs x ih =>
    by_cases old : x ∈ xs
    · rwa [eraseDups_concat_old old]
    · rw [eraseDups_concat_new old]
      refine List.nodup_append.mpr ⟨ih, List.nodup_singleton x, fun y hy z hz same => old ?_⟩
      exact List.mem_eraseDups.mp (List.mem_singleton.mp hz ▸ same ▸ hy)

/-- What has been seen and what is queued are the scopes met so far, each once. -/
theorem addUnseen_eq (pending : seen ++ queue = ys.eraseDups) :
    seen ++ World.addUnseen seen queue xs = (ys ++ xs).eraseDups := by
  induction xs generalizing queue ys with
  | nil => rw [World.addUnseen, List.append_nil, pending]
  | cons x xs ih =>
    have met : (seen.contains x || queue.contains x) = true ↔ x ∈ ys := by
      rw [Bool.or_eq_true, List.contains_iff_mem, List.contains_iff_mem, ← List.mem_append, pending,
        List.mem_eraseDups]
    have later : ys ++ x :: xs = (ys ++ [x]) ++ xs := by simp
    rw [World.addUnseen, later]
    split
    · rename_i old
      exact ih (pending.trans (eraseDups_concat_old (met.mp old)).symm)
    · rename_i new
      refine ih ?_
      rw [← List.append_assoc, pending, eraseDups_concat_new (mt met.mpr new)]

end Distinct

/-! ## The scopes that searches start from -/

namespace World

/-- The callers of a scope and its ancestors, the nearest first. -/
def callersMet (w : World) (s : ScopeId) : List ScopeId := (w.lookupChain s).filterMap w.caller?

/-- The scopes from which the parents are searched, for a search from `s`: the scope itself and
the callers met on the way, in the order in which they are met first. -/
structure SearchStarts (w : World) (s : ScopeId) (starts : List ScopeId) : Prop where
  order : starts = (s :: starts.flatMap w.callersMet).eraseDups
  /-- A scope is met before it is started from. -/
  met : ∀ {done t rest}, starts = done ++ t :: rest → t ∈ s :: done.flatMap w.callersMet

namespace SearchStarts

variable {starts others done rest : List ScopeId}

theorem nodup (h : w.SearchStarts s starts) : starts.Nodup := h.order ▸ nodup_eraseDups _

/-- What has been met so far goes beyond what has been started from. -/
theorem next (h : w.SearchStarts s (done ++ t :: rest)) :
    ∃ queue, (s :: done.flatMap w.callersMet).eraseDups = done ++ t :: queue := by
  have here : t ∈ (s :: done.flatMap w.callersMet).eraseDups := List.mem_eraseDups.mpr (h.met rfl)
  have fresh : t ∉ done := fun old =>
    (List.nodup_append.mp h.nodup).2.2 t old t List.mem_cons_self rfl
  have order := h.order
  rw [List.flatMap_append, ← List.cons_append, List.eraseDups_append] at order
  rcases List.append_eq_append_iff.mp order with ⟨more, eq, after⟩ | ⟨more, eq, -⟩
  · cases more with
    | nil =>
      rw [eq, List.append_nil] at here
      exact absurd here fresh
    | cons u queue =>
      obtain ⟨rfl, -⟩ := List.cons.inj after
      exact ⟨queue, eq⟩
  · refine absurd ?_ fresh
    rw [eq]
    exact List.mem_append_left more here

/-- There is one such order only. -/
theorem unique (h : w.SearchStarts s starts) (h' : w.SearchStarts s others) : starts = others := by
  suffices goes : ∀ {rest rest'} (done : List ScopeId), w.SearchStarts s (done ++ rest) →
      w.SearchStarts s (done ++ rest') → rest = rest' from goes [] h h'
  intro rest
  induction rest with
  | nil =>
    intro rest' done h h'
    cases rest' with
    | nil => rfl
    | cons u rest' =>
      -- a search that is over has started from all that was met
      obtain ⟨queue, next⟩ := h'.next
      have order := h.order
      rw [List.append_nil, next] at order
      exact absurd (List.append_right_eq_self.mp order.symm) (List.cons_ne_nil u queue)
  | cons t rest ih =>
    intro rest' done h h'
    obtain ⟨queue, next⟩ := h.next
    cases rest' with
    | nil =>
      have order := h'.order
      rw [List.append_nil, next] at order
      exact absurd (List.append_right_eq_self.mp order.symm) (List.cons_ne_nil t queue)
    | cons u rest' =>
      obtain ⟨queue', next'⟩ := h'.next
      obtain ⟨rfl, -⟩ := List.cons.inj (List.append_cancel_left (next.symm.trans next'))
      rw [List.append_cons] at h h'
      rw [ih (done ++ [t]) h h']

end SearchStarts

/-! ## The loop -/

/-- The scopes that a search has still to start from. -/
def startsFrom (w : World) : Nat → List ScopeId → List ScopeId → List ScopeId
  | 0, _, _ => []
  | _, _, [] => []
  | n + 1, done, s :: queue =>
      s :: startsFrom w n (done ++ [s]) (addUnseen (done ++ [s]) queue (w.callersMet s))

theorem searchChains_eq (w : World) : ∀ n done queue,
    w.searchChains n done queue = (w.startsFrom n done queue).map w.lookupChain
  | 0, _, _ => rfl
  | _ + 1, _, [] => rfl
  | n + 1, _, s :: _ => congrArg (w.lookupChain s :: ·) (searchChains_eq w n _ _)

/-- Only scopes that are there have callers. -/
theorem in_of_caller? (link : w.caller? s = some t) : s.In w.count := by
  by_contra absent
  rw [caller?, scope_default absent] at link
  cases link

/-- Scopes that are met once are no more than there are scopes, apart from the first one. -/
theorem length_eraseDups_le (w : World) (s : ScopeId) (done : List ScopeId) :
    (s :: done.flatMap w.callersMet).eraseDups.length ≤ w.scopes.size + 1 := by
  let callers := (List.range w.scopes.size).filterMap fun i => w.caller? ⟨i⟩
  have within : (s :: done.flatMap w.callersMet).eraseDups ⊆ s :: callers := by
    intro t ht
    rw [List.mem_eraseDups, List.mem_cons] at ht
    rcases ht with rfl | ht
    · exact List.mem_cons_self
    · obtain ⟨u, -, met⟩ := List.mem_flatMap.mp ht
      obtain ⟨v, -, link⟩ := List.mem_filterMap.mp met
      refine List.mem_cons_of_mem s (List.mem_filterMap.mpr ⟨v.index, ?_, link⟩)
      exact List.mem_range.mpr (in_of_caller? link)
  have few : callers.length ≤ w.scopes.size := by
    simpa using List.length_filterMap_le (fun i => w.caller? ⟨i⟩) (List.range w.scopes.size)
  have distinct := (List.subperm_of_subset (nodup_eraseDups _) within).length_le
  rw [List.length_cons] at distinct
  omega

/-- A start that is met on the way there, after those that were. -/
theorem met_concat {done : List ScopeId}
    (met : ∀ {d t r}, done = d ++ t :: r → t ∈ s :: d.flatMap w.callersMet)
    (next : t ∈ s :: done.flatMap w.callersMet) {d r : List ScopeId} {u : ScopeId}
    (eq : done ++ [t] = d ++ u :: r) : u ∈ s :: d.flatMap w.callersMet := by
  rcases List.eq_nil_or_concat r with rfl | ⟨r', v, rfl⟩
  · obtain ⟨rfl, same⟩ := List.append_inj' eq rfl
    obtain rfl := List.singleton_inj.mp same
    exact next
  · rw [List.concat_eq_append, ← List.cons_append, ← List.append_assoc] at eq
    exact met (List.append_inj' eq rfl).1

/-- The loop goes on until it has started from all scopes that it has met. -/
theorem searchStarts_startsFrom : ∀ {n : Nat} {done queue : List ScopeId},
    w.scopes.size + 1 ≤ done.length + n →
    done ++ queue = (s :: done.flatMap w.callersMet).eraseDups →
    (∀ {d t r}, done = d ++ t :: r → t ∈ s :: d.flatMap w.callersMet) →
    w.SearchStarts s (done ++ w.startsFrom n done queue) := by
  intro n
  induction n with
  | zero =>
    intro done queue fuel pending met
    have few := w.length_eraseDups_le s done
    rw [← pending, List.length_append] at few
    obtain rfl : queue = [] := List.eq_nil_of_length_eq_zero (by omega)
    rw [startsFrom, List.append_nil]
    exact ⟨(List.append_nil done).symm.trans pending, met⟩
  | succ n ih =>
    intro done queue fuel pending met
    cases queue with
    | nil =>
      show w.SearchStarts s (done ++ [])
      rw [List.append_nil]
      exact ⟨(List.append_nil done).symm.trans pending, met⟩
    | cons t queue =>
      have here : t ∈ s :: done.flatMap w.callersMet := by
        rw [← List.mem_eraseDups, ← pending]
        exact List.mem_append_right done List.mem_cons_self
      rw [startsFrom, List.append_cons]
      refine ih (by rw [List.length_append, List.length_singleton]; omega) ?_ (met_concat met here)
      rw [List.flatMap_append, ← List.cons_append, List.flatMap_singleton]
      exact addUnseen_eq (by rw [← pending, List.append_assoc, List.singleton_append])

/-- The scopes that a search from `s` starts from. -/
def searchStarts (w : World) (s : ScopeId) : List ScopeId :=
  w.startsFrom (w.scopes.size + 1) [] [s]

theorem searchStarts_spec (w : World) (s : ScopeId) : w.SearchStarts s (w.searchStarts s) := by
  have begins : [] ++ [s] = (s :: [].flatMap w.callersMet).eraseDups := by
    rw [List.flatMap_nil, List.eraseDups_cons]
    rfl
  have fuel : w.scopes.size + 1 ≤ ([] : List ScopeId).length + (w.scopes.size + 1) :=
    Nat.le_add_left _ _
  exact searchStarts_startsFrom fuel begins fun eq => by simp at eq

theorem searchOrder_eq (w : World) (s : ScopeId) :
    w.searchOrder s = (w.searchStarts s).flatMap w.lookupChain := by
  rw [searchOrder, searchChains_eq, List.flatMap_def, searchStarts]

end World

/-! ## The first table -/

/-- The entry under a name in the first table that has one, if any has. -/
def Table.First {α : Type} (tables : List (Table α)) (name : String) : Option α → Prop
  | some a => ∃ before t after, tables = before ++ t :: after ∧ t.get? name = some a ∧
      ∀ u ∈ before, u.get? name = none
  | none => ∀ t ∈ tables, t.get? name = none

theorem Table.first_findSome? {α : Type} (tables : List (Table α)) (name : String) :
    Table.First tables name (tables.findSome? fun t => t.get? name) := by
  cases found : tables.findSome? fun t => t.get? name with
  | none => exact List.findSome?_eq_none_iff.mp found
  | some a => exact List.findSome?_eq_some_iff.mp found

/-- Where functions and classes are registered: in the tables of a scope, or among the globals of
a root. -/
inductive Directory where
  | scope (s : ScopeId)
  | globals (root : ScopeId)
deriving DecidableEq

/-- The scope that a directory belongs to. -/
def Directory.home : Directory → ScopeId
  | scope s => s
  | globals root => root

namespace World

def functionsAt (w : World) : Directory → FunctionTable
  | .scope s => (w.scope s).functions
  | .globals root => w.globalFunctions root

def classesAt (w : World) : Directory → ClassTable
  | .scope s => (w.scope s).classes
  | .globals root => w.globalClasses root

/-- The directories that a search from `s` goes through: those of the scopes on the ways up from
where it starts, and then the globals that `s` sees. -/
def directories (w : World) (s : ScopeId) (starts : List ScopeId) : List Directory :=
  (starts.flatMap w.lookupChain).map .scope ++ (w.globalRoot? s).toList.map .globals

theorem findSome?_directories {α : Type} (find : Directory → Option α) (starts : List ScopeId) :
    (w.directories s starts).findSome? find =
      ((starts.flatMap w.lookupChain).findSome? fun t => find (.scope t)).or
        ((w.globalRoot? s).bind fun root => find (.globals root)) := by
  rw [directories, List.findSome?_append, List.findSome?_map, List.findSome?_map]
  cases w.globalRoot? s with
  | none => rfl
  | some root => rw [Option.toList_some, List.findSome?_singleton]; rfl

theorem first_lookupFunction (w : World) (s : ScopeId) (name : String) :
    Table.First ((w.directories s (w.searchStarts s)).map w.functionsAt) name
      (w.lookupFunction s name) := by
  have found := Table.first_findSome? ((w.directories s (w.searchStarts s)).map w.functionsAt) name
  rw [List.findSome?_map, findSome?_directories, ← searchOrder_eq] at found
  simp only [lookupFunction, Option.orElse_eq_orElse, Option.orElse_eq_or]
  exact found

theorem first_lookupClass (w : World) (s : ScopeId) (name : String) :
    Table.First ((w.directories s (w.searchStarts s)).map w.classesAt) name
      (w.lookupClass s name) := by
  have found := Table.first_findSome? ((w.directories s (w.searchStarts s)).map w.classesAt) name
  rw [List.findSome?_map, findSome?_directories, ← searchOrder_eq] at found
  simp only [lookupClass, Option.orElse_eq_orElse, Option.orElse_eq_or]
  exact found

end World

/-! ## Registering functions -/

theorem Table.get?_append {α : Type} (t : Table (List α)) (name other : String) (a : α) :
    (t.append name a).get? other =
      if other = name then some ((t.get? name).getD [] ++ [a]) else t.get? other := by
  rw [append]
  split
  · rename_i same
    rw [same, get?_insert_same]
  · rename_i ne
    rw [get?_insert_other ne]

/-- Under each name that it has, the later table lists at least what the earlier one does, and that
first. -/
def FunctionTable.Continues (t t' : FunctionTable) : Prop :=
  ∀ name os, t.get? name = some os → ∃ more, t'.get? name = some (os ++ more)

namespace FunctionTable.Continues

variable {t t' t'' : FunctionTable}

theorem refl (t : FunctionTable) : FunctionTable.Continues t t := fun _ _ found =>
  ⟨[], by rw [found, List.append_nil]⟩

theorem of_eq (same : t' = t) : FunctionTable.Continues t t' := same ▸ refl t

theorem trans (h : FunctionTable.Continues t t') (i : FunctionTable.Continues t' t'') :
    FunctionTable.Continues t t'' := by
  intro name os found
  obtain ⟨more, found'⟩ := h name os found
  obtain ⟨others, found''⟩ := i name _ found'
  exact ⟨more ++ others, by rw [found'', List.append_assoc]⟩

theorem append (t : FunctionTable) (name : String) (o : Overload) :
    FunctionTable.Continues t (Table.append t name o) := by
  intro other os found
  rw [Table.get?_append]
  split
  · rename_i same
    exact ⟨[o], by rw [← same, found]; rfl⟩
  · exact ⟨[], by rw [found, List.append_nil]⟩

end FunctionTable.Continues

namespace World

/-- Where a function is registered that is registered in a scope. -/
def directoryOf (w : World) (s : ScopeId) : Directory :=
  match w.registrationRoot? s with
  | some root => .globals root
  | none => .scope s

theorem functionsAt_setScope_functions (there : s.In w.count) (functions : FunctionTable)
    (d : Directory) :
    (w.setScope s { w.scope s with functions }).functionsAt d =
      if d = .scope s then functions else w.functionsAt d := by
  cases d with
  | scope t =>
    rw [functionsAt, scope_setScope]
    by_cases here : t = s
    · rw [if_pos ⟨here, there⟩, if_pos (congrArg _ here)]
    · rw [if_neg fun both => here both.1, if_neg fun same => here (Directory.scope.inj same)]
      rfl
  | globals t =>
    have other : Directory.globals t ≠ .scope s := nofun
    rw [if_neg other, functionsAt, functionsAt, globalFunctions, globalFunctions, scope_setScope]
    by_cases here : t = s ∧ s.In w.count
    · rw [if_pos here, here.1]
    · rw [if_neg here]

theorem functionsAt_setScope_globals (there : s.In w.count) (functions : FunctionTable)
    (classes : ClassTable) (d : Directory) :
    (w.setScope s { w.scope s with globals := .owned functions classes }).functionsAt d =
      if d = .globals s then functions else w.functionsAt d := by
  cases d with
  | scope t =>
    have other : Directory.scope t ≠ .globals s := nofun
    rw [if_neg other, functionsAt, functionsAt, scope_setScope]
    by_cases here : t = s ∧ s.In w.count
    · rw [if_pos here, here.1]
    · rw [if_neg here]
  | globals t =>
    rw [functionsAt, globalFunctions, scope_setScope]
    by_cases here : t = s
    · rw [if_pos ⟨here, there⟩, if_pos (congrArg _ here)]
    · rw [if_neg fun both => here both.1, if_neg fun same => here (Directory.globals.inj same)]
      rfl

/-- A function is registered at the end of one list. -/
theorem functionsAt_registerFunction (there : (w.directoryOf s).home.In w.count) (name : String)
    (o : Overload) (d : Directory) :
    (w.registerFunction s name o).functionsAt d =
      if d = w.directoryOf s then (w.functionsAt d).append name o else w.functionsAt d := by
  have only : ∀ {e : Directory}, (if d = e then (w.functionsAt e).append name o
      else w.functionsAt d) =
        if d = e then (w.functionsAt d).append name o else w.functionsAt d := by
    intro e
    split
    · rename_i here
      rw [here]
    · rfl
  cases root : w.registrationRoot? s with
  | some u =>
    have place : w.directoryOf s = .globals u := by rw [directoryOf, root]
    rw [place] at there ⊢
    rw [registerFunction, root, ← only]
    exact functionsAt_setScope_globals there _ _ d
  | none =>
    have place : w.directoryOf s = .scope s := by rw [directoryOf, root]
    rw [place] at there ⊢
    rw [registerFunction, root, ← only]
    exact functionsAt_setScope_functions there _ d

end World

/-! ## Lists of overloads in time -/

/-- The functions among some globals. -/
def Globals.functions : Globals → FunctionTable
  | .owned functions _ => functions
  | .shared _ => .empty

theorem World.globalFunctions_eq (w : World) (root : ScopeId) :
    w.globalFunctions root = (w.scope root).globals.functions := by
  rw [globalFunctions]
  cases (w.scope root).globals <;> rfl

/-- All lists of functions that a scope has go on in another one. -/
structure Scope.Continues (a b : Scope) : Prop where
  functions : FunctionTable.Continues a.functions b.functions
  globals : FunctionTable.Continues a.globals.functions b.globals.functions

namespace Scope.Continues

variable {a b c : Scope}

theorem refl (a : Scope) : a.Continues a := ⟨.refl _, .refl _⟩

theorem trans (h : a.Continues b) (i : b.Continues c) : a.Continues c :=
  ⟨h.functions.trans i.functions, h.globals.trans i.globals⟩

theorem of_eq (functions : b.functions = a.functions)
    (globals : b.globals.functions = a.globals.functions) : a.Continues b :=
  ⟨.of_eq functions, .of_eq globals⟩

end Scope.Continues

namespace World

/-- Replacing a scope leaves the lists of all scopes to go on if it leaves those of this one. -/
theorem continues_setScope {u : ScopeId} {x : Scope} (goes : (w.scope u).Continues x)
    (t : ScopeId) : (w.scope t).Continues ((w.setScope u x).scope t) := by
  rw [scope_setScope]
  split
  · rename_i here
    rw [here.1]
    exact goes
  · exact .refl _

theorem continues_registerFunction (w : World) (u : ScopeId) (name : String) (o : Overload)
    (t : ScopeId) : (w.scope t).Continues ((w.registerFunction u name o).scope t) := by
  simp only [registerFunction]
  split
  · rename_i root _
    refine continues_setScope ?_ t
    refine ⟨.refl _, ?_⟩
    rw [← globalFunctions_eq]
    exact .append _ name o
  · refine continues_setScope ?_ t
    exact ⟨.append _ name o, .refl _⟩

theorem continues_setClassTable (w : World) (u : ScopeId) (classes : ClassTable) (t : ScopeId) :
    (w.scope t).Continues ((w.setClassTable u classes).scope t) := by
  simp only [setClassTable]
  split
  · rename_i root _
    refine continues_setScope ?_ t
    exact .of_eq rfl (w.globalFunctions_eq root)
  · refine continues_setScope ?_ t
    exact .of_eq rfl rfl

/-- Whatever code registers, it registers at the ends of lists. -/
theorem Registers.continues {x : Scope} (h : w.Registers s t x) : (w.scope t).Continues x := by
  cases h with
  | same same => exact .of_eq same.functions (congrArg Globals.functions same.globals)
  | addAlias =>
    refine continues_setScope ?_ t
    exact .of_eq rfl rfl
  | addFunction name _ => exact w.continues_registerFunction _ name _ t
  | setClasses classes => exact w.continues_setClassTable _ classes t

/-- All lists of functions go on in a later world. -/
def Continues (w w' : World) : Prop :=
  ∀ d : Directory, d.home.In w.count →
    FunctionTable.Continues (w.functionsAt d) (w'.functionsAt d)

theorem Continues.of_scopes
    (goes : ∀ t : ScopeId, t.In w.count → (w.scope t).Continues (w₁.scope t)) :
    w.Continues w₁ := by
  intro d there
  cases d with
  | scope t => exact (goes t there).functions
  | globals root =>
    show FunctionTable.Continues (w.globalFunctions root) (w₁.globalFunctions root)
    rw [globalFunctions_eq, globalFunctions_eq]
    exact (goes root there).globals

/-- No list is ever taken from or put in order anew: later overloads follow earlier ones. -/
theorem Later.continues (h : w.Later D w₁) (sound : Sound D w) : w.Continues w₁ := by
  refine .of_scopes fun t old => ?_
  induction h with
  | refl => exact .refl _
  | step later hs step ih =>
    obtain ⟨sound', g⟩ := later.kept sound
    exact ih.trans (step.registers sound' hs (old.mono g.count)).continues
  | enter kind label later hs ih =>
    obtain ⟨-, g⟩ := later.kept sound
    rwa [makeCallScope, scope_derive_old (old.mono g.count)]

/-! ## One order -/

/-- The scopes that functions and classes are looked for from, and what is found. -/
structure Searches (w : World) (s : ScopeId) (starts : List ScopeId) : Prop
    extends w.SearchStarts s starts where
  functions : ∀ name, Table.First ((w.directories s starts).map w.functionsAt) name
    (w.lookupFunction s name)
  classes : ∀ name, Table.First ((w.directories s starts).map w.classesAt) name
    (w.lookupClass s name)

theorem searches (w : World) (s : ScopeId) : w.Searches s (w.searchStarts s) :=
  ⟨w.searchStarts_spec s, w.first_lookupFunction s, w.first_lookupClass s⟩

theorem existsUnique_searches (w : World) (s : ScopeId) : ∃! starts, w.Searches s starts :=
  ⟨w.searchStarts s, w.searches s, fun _ h => h.unique (w.searchStarts_spec s)⟩

/-- One list has one overload more, at its end. -/
theorem get?_functionsAt_registerFunction (there : (w.directoryOf s).home.In w.count)
    (name : String) (o : Overload) (d : Directory) (other : String) :
    ((w.registerFunction s name o).functionsAt d).get? other =
      if d = w.directoryOf s ∧ other = name then
        some (((w.functionsAt d).get? name).getD [] ++ [o])
      else (w.functionsAt d).get? other := by
  rw [functionsAt_registerFunction there]
  by_cases here : d = w.directoryOf s
  · simp only [here, true_and, if_true]
    exact Table.get?_append _ name other o
  · simp only [here, false_and, if_false]

end World

/-- Where parents are older, functions and classes are looked for in one order and the first table
that has the name decides; what is registered comes last in one list, and all lists of a
session go on in whatever it comes to. -/
theorem Session.Reachable.one_search_order {natives : String → Prop} {S S' : Session}
    (h : S.Reachable (.full natives)) (obeys : S.host.Obeys (.full natives))
    (acts : Relation.ReflTransGen (Session.Act (.full natives)) S S') (fuel : Nat)
    (program : List Statement) :
    (∀ w : World, w.ParentsOlder → ∀ s, Path w.parent? s (w.lookupChain s) ∧
      ∃! starts, w.Searches s starts) ∧
    (∀ (w : World) (s : ScopeId), (w.directoryOf s).home.In w.count → ∀ name o d other,
      ((w.registerFunction s name o).functionsAt d).get? other =
        if d = w.directoryOf s ∧ other = name then
          some (((w.functionsAt d).get? name).getD [] ++ [o])
        else (w.functionsAt d).get? other) ∧
    (S'.reached fuel program).world.ParentsOlder ∧
    S.world.Continues (S'.reached fuel program).world := by
  have later := h.later obeys trivial acts fuel program
  have sound := (h.ready obeys).sound
  refine ⟨fun w older s => ⟨w.path_lookupChain older s, w.existsUnique_searches s⟩,
    fun w s there => World.get?_functionsAt_registerFunction there, ?_, later.continues sound⟩
  exact (later.kept sound).1.wellFormed.older

/-- The method `go` does not see `who` along its parents.  It finds it along those of its
caller, the method `run`. -/
theorem search_order_borrowedMethod :
    ∃ w : World, w = ((Session.start {} Kit.host).reached 33 borrowedMethod).world ∧
      (∃! starts, w.Searches ⟨10⟩ starts) ∧ w.Searches ⟨10⟩ [⟨10⟩, ⟨7⟩, ⟨0⟩] ∧
      (w.lookupChain ⟨10⟩).all (fun t => !w.hasLocalFunction t "who") = true ∧
      w.hasLocalFunction ⟨5⟩ "who" = true ∧ ⟨5⟩ ∈ w.lookupChain ⟨7⟩ ∧
      (w.lookupFunction ⟨10⟩ "who").isSome = true := by
  have obeys : Kit.host.Obeys (.full fun _ => True) := Kit.host_obeys fun _ _ => .inl trivial
  obtain ⟨order, -, older, -⟩ := Session.Reachable.one_search_order (.start {} Kit.host) obeys .refl
    33 borrowedMethod
  have starts : ((Session.start {} Kit.host).reached 33 borrowedMethod).world.searchStarts ⟨10⟩ =
      [⟨10⟩, ⟨7⟩, ⟨0⟩] := by decide +kernel
  refine ⟨_, rfl, (order _ older ⟨10⟩).2, starts ▸ World.searches _ _, ?_⟩
  decide +kernel

end ScopeLang
