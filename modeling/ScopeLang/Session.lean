/-
Sessions.

A session runs programs in one root scope and keeps its state between them,
also after an error.
-/
import ScopeLang.Eval.Statement
import ScopeLang.Scope.Teardown

namespace ScopeLang

namespace Knot

/-- Runs the statements of a program at the root; `last` is the value of the one before. -/
def programFrom (k : Knot) (root : ScopeId) : Value → List Statement → Run Value
  | last, [] => return last
  | last, s :: rest => do
      match ← Run.holding last.cells (k.interpret s ⟨root, none⟩) with
      | .settled v => programFrom k root v rest
      | .returned v => return v
      | .thrown v => throw (.error { kind := .uncaughtThrow v, span := s.span })
      | signal =>
          throw (.error { kind := .misplacedControl signal.keyword "top level", span := s.span })

end Knot

/-- A root scope with the world it lives in. -/
structure Session where
  config : Config
  host : Host
  root : ScopeId
  world : World

namespace Session

/-- A session in which nothing has run. -/
def start (config : Config) (host : Host) : Session :=
  let (root, w) := World.empty.newRoot config.options
  { config, host, root, world := w.hold [root.cell] }

/-- The frame of the top level. -/
def frame (s : Session) : Frame := ⟨s.root, none⟩

/-- The machine on which the session runs something with some fuel. -/
def machine (s : Session) (fuel : Nat) : Machine := ⟨s.world, fuel, []⟩

/-- Runs something in the session for at most `fuel` steps. -/
def perform {α : Type} (s : Session) (fuel : Nat) (f : Knot → Run α) :
    Except Halt α × Session :=
  let (result, m) := (f (knot s.config s.host fuel)) (s.machine fuel)
  (result, { s with world := m.world })

/-- Runs a program and yields the value of its last statement, or the value it returns. -/
def run (s : Session) (fuel : Nat) (program : List Statement) : Except Halt Value × Session :=
  s.perform fuel fun k => k.programFrom s.root .null program

/-- The machine to which a program comes within `fuel` steps. -/
def reached (s : Session) (fuel : Nat) (program : List Statement) : Machine :=
  ((knot s.config s.host fuel).programFrom s.root .null program (s.machine fuel)).2

/-- Evaluates an expression at the root. -/
def evaluate (s : Session) (fuel : Nat) (e : Expr) : Except Halt Value × Session :=
  s.perform fuel fun k => k.expression e s.frame

/-- Interprets one statement at the root. -/
def interpret (s : Session) (fuel : Nat) (statement : Statement) :
    Except Halt Outcome × Session :=
  s.perform fuel fun k => k.statement statement s.frame

/-- Interprets a block in the root itself. -/
def interpretBlock (s : Session) (fuel : Nat) (body : List Statement) :
    Except Halt Outcome × Session :=
  s.perform fuel fun k => k.block body s.frame

/-- Runs an action in the session. -/
def act {α : Type} (s : Session) (a : Action α) : Except ErrorKind α × Session :=
  let (result, world) := a.run s.world
  (result, { s with world })

/-- The scope of a class of the root. -/
def classScope? (s : Session) (name : String) : Option ScopeId :=
  (s.world.lookupClass s.root name).map fun c => (s.world.classOf c).scope

/-- Declares a variable of the root that holds an overload found from a scope. -/
def declareCallable (s : Session) (target : String) (home : ScopeId) (name : String) (i : Nat) :
    Except ErrorKind Value × Session :=
  s.act do
    let o ← Action.consult fun w => w.overloadAt home name i
    let v := Value.ofDatum (.callable o.callable)
    Action.declareVariable s.root target ⟨v, {}, .invalid⟩
    return v

/-- Changes the world of the session. -/
def change {α : Type} (s : Session) (f : World → α × World) : α × Session :=
  let (a, world) := f s.world
  (a, { s with world })

end Session

end ScopeLang
