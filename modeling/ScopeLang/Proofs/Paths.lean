/-
# The ways up

Looking a name up goes from a scope along links that own nothing, to the parent or, for
variables, to the parent unless the scope hides it.  The model follows such links for as
many steps as there are older scopes.  Where parents are older than the scopes under them this is
enough to come to the end (`Path`), and what is found is then found by the links alone: a chain is
the scope, followed by the chain of the next one.
-/
import ScopeLang.Proofs.Views

namespace ScopeLang

variable {w w' : World} {s t u : ScopeId} {l l' : List ScopeId}

/-- The scopes along links, from a scope to the last one. -/
inductive Path (next : ScopeId → Option ScopeId) : ScopeId → List ScopeId → Prop
  | last {s : ScopeId} (done : next s = none) : Path next s [s]
  | step {s t : ScopeId} {l : List ScopeId} (link : next s = some t) (rest : Path next t l) :
      Path next s (s :: l)

/-- Parents are older than the scopes under them. -/
def World.ParentsOlder (w : World) : Prop :=
  ∀ {s p}, (w.scope s).parent = some p → p.index < s.index

namespace Path

variable {next : ScopeId → Option ScopeId}

theorem unique (h : Path next s l) (h' : Path next s l') : l = l' := by
  induction h generalizing l' with
  | last done =>
    cases h' with
    | last => rfl
    | step link _ => cases done.symm.trans link
  | step link _ ih =>
    cases h' with
    | last done => cases done.symm.trans link
    | step link' rest' =>
      obtain rfl := Option.some.inj (link.symm.trans link')
      exact congrArg _ (ih rest')

theorem mem_self (h : Path next s l) : s ∈ l := by
  cases h with
  | last => exact List.mem_singleton_self s
  | step => exact List.mem_cons_self

theorem follow (older : ∀ s t, next s = some t → t.index < s.index) :
    ∀ {n : Nat} {s : ScopeId}, s.index ≤ n → Path next s (follow next n s)
  | 0, s, le => by
    refine .last (Option.eq_none_iff_forall_ne_some.mpr fun t link => ?_)
    have := older s t link
    omega
  | n + 1, s, le => by
    rw [ScopeLang.follow]
    cases link : next s with
    | none => exact .last link
    | some t =>
      have := older s t link
      exact .step link (follow older (by omega))

end Path

namespace World

theorem ParentsOlder.parent? (older : w.ParentsOlder) (s t : ScopeId)
    (link : w.parent? s = some t) : t.index < s.index := older (parent?_eq_some.mp link).1

theorem ParentsOlder.variableParent? (older : w.ParentsOlder) (s t : ScopeId)
    (link : w.variableParent? s = some t) : t.index < s.index :=
  older (variableParent?_eq_some.mp link).2.1

/-- All parents that are there, one after the other. -/
theorem path_lookupChain (older : w.ParentsOlder) (s : ScopeId) :
    Path w.parent? s (w.lookupChain s) := .follow older.parent? (le_refl _)

/-- The same as far as variables are in sight. -/
theorem path_variableChain (older : w.ParentsOlder) (s : ScopeId) :
    Path w.variableParent? s (w.variableChain s) := .follow older.variableParent? (le_refl _)

end World

end ScopeLang
