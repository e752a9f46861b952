/-
Interpreting statements.

A statement settles with a value or signals control, which loops, calls, class
bodies and the top level take up.  Definitions are registered in the scope
they are run in; a class only once its body has run and it has a constructor.
-/
import ScopeLang.Eval.Expression
import ScopeLang.Program.Accessor
import ScopeLang.Scope.Registration

namespace ScopeLang

/-! ## Definitions -/

/-- A parameter whose type is bound in a scope. -/
def bindParameter (s : ScopeId) (p : Parameter) (w : World) : ParameterSpec × World :=
  let (signature, w) := w.bindType s p.type
  ({ name := p.name
     signature
     enforced := (p.type.map fun t => !t.isAny).getD false
     default := p.default
     variadic := p.variadic
     flags := p.flags }, w)

/-- A procedure whose types are bound in a scope. -/
def bindProcedure (s : ScopeId) (name : String) (parameters : List Parameter)
    (returns : Option TypeExpr) (body : Body) (w : World) : Procedure × World :=
  let (parameters, w) := mapState (bindParameter s) parameters w
  let (returns, w) := w.bindType s returns
  (⟨name, parameters, returns, body⟩, w)

/-- The role of a function of each kind. -/
def FunctionKind.role : FunctionKind → Role
  | .function => .function
  | .closure => .closure

namespace World

/-- Registers a function definition. -/
def defineFunction (w : World) (s : ScopeId) (f : FunctionDecl) : World :=
  let (captured, w) := w.functionDefScope s f
  let (procedure, w) := bindProcedure s f.name f.parameters f.returns (.user f.body) w
  let (h, w) := w.newFunction ⟨procedure, some captured⟩
  w.registerFunction s f.name ⟨.function h, f.kind.role, none⟩

/-- Registers a method, in whose body the accessor stands for the receiver. -/
def defineMethod (w : World) (c : ClassId) (f : FunctionDecl) : World :=
  let info := w.classOf c
  let body := stripBlock info.accessor f.body
  let (procedure, w) := bindProcedure info.scope f.name f.parameters f.returns (.user body) w
  let (h, w) := w.newMethod ⟨procedure, c⟩
  let secondary := match f.kind with
    | .function => none
    | .closure => some .closure
  w.registerFunction info.scope f.name ⟨.method h, .method, secondary⟩

/-- Declares the name of a type in the pool of a scope. -/
def declareType (w : World) (s : ScopeId) (name : String) : TypeId × World :=
  w.withPool s fun pool => pool.declare name

/-- A class whose body has not been run yet. -/
def openClass (w : World) (s : ScopeId) (d : ClassDecl) (accessor : String) : ClassId × World :=
  let (captured, w) := w.classDefScope s d
  let (scope, w) := w.classScope captured d.name
  let (type, w) := w.declareType s d.name
  w.newClass { name := d.name, type, accessor, scope, captured := some captured }

end World

namespace Knot

/-- What becomes of a statement in a class body, which has no use for signals. -/
def classStatementResult : Outcome → Option ErrorKind
  | .settled _ => none
  | .thrown v => some (.uncaughtThrow v)
  | signal => some (.misplacedControl signal.keyword "class body")

/-- Runs one statement of a class body; functions become methods. -/
def classStatement (k : Knot) (c : ClassId) (s : Statement) : Run Unit := do
  match s.node with
  | .function f => Run.update fun w => w.defineMethod c f
  | _ =>
      let scope ← Run.look fun w => (w.classOf c).scope
      match classStatementResult (← k.interpret s ⟨scope, none⟩) with
      | none => return
      | some kind => throw (.error { kind, span := s.span })

/-- Runs a class body. -/
def classBody (k : Knot) (c : ClassId) : List Statement → Run Unit
  | [] => return
  | s :: rest => do
      k.classStatement c s
      classBody k c rest

/-- Registers a class definition. -/
def defineClass (k : Knot) (d : ClassDecl) (frame : Frame) : Run Unit := do
  let accessor := d.accessor.getD k.config.accessor
  let c ← Run.change fun w => w.openClass frame.scope d accessor
  Run.holding [c.cell] do
    k.classBody c d.body
    let scope ← Run.look fun w => (w.classOf c).scope
    if ← Run.look fun w => w.hasLocalFunction scope k.config.constructor then
      Action.registerClass frame.scope c
    else Run.fail (.missingConstructor d.name k.config.constructor)

/-! ## Statements -/

/-- A block in a scope of its own, which ends with the block. -/
def blockStatement (k : Knot) (body : List Statement) (frame : Frame) : Run Outcome := do
  let label ← Run.look fun w => (w.scope frame.scope).label
  let s ← Run.change fun w => w.createChild frame.scope .block label
  Run.followedBy (Run.holding [s.cell] (k.block body { frame with scope := s }))
    fun w => w.removeChild frame.scope s

/-- The first branch whose condition is truthy. -/
def branches (k : Knot) (frame : Frame) (otherwise : Option (List Statement)) :
    List Branch → Run Outcome
  | [] =>
      match otherwise with
      | some body => k.block body frame
      | none => return .settled .null
  | ⟨condition, body⟩ :: rest => do
      let v ← k.evaluate condition frame
      if ← Run.look fun w => w.isTruthy v then k.block body frame
      else branches k frame otherwise rest

/-- A loop of at most `n` rounds. -/
def loop (k : Knot) (condition : Expr) (body : List Statement) (frame : Frame) :
    Nat → Run Outcome
  | 0 => throw .outOfFuel
  | n + 1 => do
      let v ← k.evaluate condition frame
      if ← Run.look fun w => w.isTruthy v then
        match ← k.block body frame with
        | .settled _ | .continued => loop k condition body frame n
        | .broke => return .settled .null
        | signal => return signal
      else return .settled .null

/-- Interprets a statement without its span. -/
def node (k : Knot) (n : Node) (frame : Frame) : Run Outcome := do
  match n with
  | .expression e => return .settled (← k.evaluate e frame)
  | .declare d => return .settled (← k.declareVariable d frame frame.scope)
  | .assign name value => return .settled (← k.assignVariable name value frame)
  | .block body => k.blockStatement body frame
  | .cond bs otherwise => k.branches frame otherwise bs
  | .loop condition body => k.loop condition body frame k.rounds
  | .return none => return .returned .null
  | .return (some e) => return .returned (← k.evaluate e frame)
  | .break => return .broke
  | .continue => return .continued
  | .throw e => return .thrown (← k.evaluate e frame)
  | .function f =>
      Run.update fun w => w.defineFunction frame.scope f
      return .settled .null
  | .classDef d =>
      k.defineClass d frame
      return .settled .null
  | .typeAlias name t =>
      let _ ← Run.change fun w => w.bindAlias frame.scope name t
      return .settled .null

/-- Interprets a statement; an error takes on its span and its kind where it has none. -/
def statement (k : Knot) (s : Statement) (frame : Frame) : Run Outcome := do
  let label ← Run.look fun w => (w.scope frame.scope).label
  Run.mapError (fun error => (error.orSpan s.span).withContext s.node.kind label)
    (k.node s.node frame)

end Knot

/-- The evaluator, for at most `n` evaluations inside each other and as many rounds of each
loop.  Every evaluation is a step, so that no run with `n` units of fuel comes to that
bound. -/
def knot (config : Config) (host : Host) : Nat → Knot
  | 0 =>
      { config, host, rounds := 0
        evaluate := fun _ _ => throw .outOfFuel
        interpret := fun _ _ => throw .outOfFuel }
  | n + 1 =>
      { config, host, rounds := n + 1
        evaluate := fun e frame => do
          Run.tick
          (knot config host n).expression e frame
        interpret := fun s frame => do
          Run.tick
          (knot config host n).statement s frame }

end ScopeLang
