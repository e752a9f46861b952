/-
Tearing scopes down.

A scope is torn down once: its tables are emptied, a root also empties its
globals, and then the scopes it listed as children are torn down in order.
-/
import ScopeLang.Scope.Build

namespace ScopeLang

/-- The globals of a scope that has been torn down. -/
def Globals.cleared : Globals → Globals
  | .owned _ _ => .owned .empty .empty
  | .shared root => .shared root

/-- A scope that has been torn down. -/
def Scope.cleared (s : Scope) : Scope :=
  { s with
    tornDown := true, bindings := .empty, functions := .empty, classes := .empty,
    aliases := .empty, children := [], globals := s.globals.cleared }

namespace World

/-- Tears down a scope whose descendants nest at most `n` deep. -/
def teardownWithin : Nat → ScopeId → World → World
  | 0, _, w => w
  | n + 1, s, w =>
      let scope := w.scope s
      if scope.tornDown then w
      else scope.children.foldl (fun w child => teardownWithin n child w)
        (w.setScope s scope.cleared)

/-- Tears down a scope. -/
def teardown (w : World) (s : ScopeId) : World := teardownWithin (w.scopes.size + 1) s w

end World

end ScopeLang
