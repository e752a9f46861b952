/-
# Where signals go

A signal travels from the statement that gives it through the blocks, branches
and loops around it.  `Comes` describes that way: code at one spot comes to a
statement at another, which stands in some number of loops, and to leave it
again is to undo some things, the innermost first.  What is undone is listed as
data (`Exit`): cells that were held are let go and the scopes of blocks end.
Nothing else happens, in particular no step is taken, which the fuel would show.

`Comes.signal` follows a signal outwards as long as no loop takes it up, and
`Comes.endsLoop` sees a `break` end the loop that it stands in.  The outermost
code is a body: of a call, of a class or of a program.
-/
import ScopeLang.Proofs.Control

namespace ScopeLang

variable {α β : Type}

/-! ## Leaving -/

/-- What is undone when a statement is left. -/
inductive Exit where
  /-- What was held before is what is held. -/
  | release (held : List Cell)
  /-- The scope of a block ends. -/
  | close (parent block : ScopeId)

namespace Exit

def apply (w : World) : Exit → World
  | release held => { w with held }
  | close parent block => w.removeChild parent block

end Exit

/-- A machine on which some things have been undone; its fuel and its calls are the same. -/
def Machine.leave (m : Machine) (exits : List Exit) : Machine :=
  { m with world := exits.foldl Exit.apply m.world }

theorem Machine.leave_append (m : Machine) (xs ys : List Exit) :
    m.leave (xs ++ ys) = (m.leave xs).leave ys := by
  simp [leave, List.foldl_append]

namespace Run

variable {r : Run α} {m m' : Machine} {x : α}

theorem bind_ok {k : α → Run β} (h : r m = (.ok x, m')) : (r >>= k) m = k x m' := by
  rw [bind_apply, h]
  rfl

theorem holding_ok {cells : List Cell} (h : r { m with world := m.world.hold cells } = (.ok x, m')) :
    Run.holding cells r m = (.ok x, m'.leave [.release m.world.held]) := by
  simp only [holding, andFinally, h]
  rfl

theorem bind_eq_ok {k : α → Run β} {y : β} (h : (r >>= k) m = (.ok y, m')) :
    ∃ x m₁, r m = (.ok x, m₁) ∧ k x m₁ = (.ok y, m') := by
  rw [bind_apply] at h
  cases made : r m with
  | mk result m₁ =>
    rw [made] at h
    cases result with
    | ok x => exact ⟨x, m₁, rfl, h⟩
    | error e => cases h

theorem mapError_eq_ok {g : RuntimeError → RuntimeError} (h : mapError g r m = (.ok x, m')) :
    r m = (.ok x, m') := by
  rw [mapError_apply] at h
  cases made : r m with
  | mk result m₁ =>
    rw [made] at h
    match result, h with
    | .ok y, h => exact h
    | .error (.error e), h => cases h
    | .error .outOfFuel, h => cases h

theorem mapError_ok {g : RuntimeError → RuntimeError} (h : r m = (.ok x, m')) :
    mapError g r m = (.ok x, m') := by
  rw [mapError_apply, h]

end Run

/-! ## Coming to a statement -/

/-- Code that is being run: a statement, the rest of a block, of some branches or of a loop. -/
inductive Code where
  | statement (s : Statement)
  | block (last : Value) (body : List Statement)
  | branches (otherwise : Option (List Statement)) (bs : List Branch)
  | loop (condition : Expr) (body : List Statement) (rounds : Nat)

def Knot.code (k : Knot) (f : Frame) : Code → Run Outcome
  | .statement s => k.interpret s f
  | .block last body => k.blockFrom f last body
  | .branches otherwise bs => k.branches f otherwise bs
  | .loop condition body rounds => k.loop condition body f rounds

/-- Where and when code is run: inside how many evaluations, in which frame, on which machine. -/
structure Spot where
  depth : Nat
  frame : Frame
  machine : Machine

section Ways

variable (config : Config) (host : Host)

/-- Code at a spot comes to a statement at another one, which stands in `loops` more loops; `exits`
is what is undone when the statement is left. -/
inductive Comes : Code → Spot → List Exit → (loops : Nat) → Statement → Spot → Prop
  | here {s : Statement} {p : Spot} : Comes (.statement s) p [] 0 s p
  /-- The first statement of a block, for which the value of the one before is held. -/
  | first {last : Value} {s t : Statement} {rest : List Statement} {n loops : Nat} {f : Frame}
      {m : Machine} {exits : List Exit} {q : Spot} :
      Comes (.statement s) ⟨n, f, { m with world := m.world.hold last.cells }⟩ exits loops t q →
      Comes (.block last (s :: rest)) ⟨n, f, m⟩ (exits ++ [.release m.world.held]) loops t q
  | next {last v : Value} {s t : Statement} {rest : List Statement} {n loops : Nat} {f : Frame}
      {m m₁ : Machine} {exits : List Exit} {q : Spot} :
      Run.holding last.cells ((knot config host n).interpret s f) m = (.ok (.settled v), m₁) →
      Comes (.block v rest) ⟨n, f, m₁⟩ exits loops t q →
      Comes (.block last (s :: rest)) ⟨n, f, m⟩ exits loops t q
  | taken {otherwise : Option (List Statement)} {condition : Expr} {body : List Statement}
      {rest : List Branch} {v : Value} {t : Statement} {n loops : Nat} {f : Frame}
      {m m₁ : Machine} {exits : List Exit} {q : Spot} :
      (knot config host n).evaluate condition f m = (.ok v, m₁) → m₁.world.isTruthy v = true →
      Comes (.block .null body) ⟨n, f, m₁⟩ exits loops t q →
      Comes (.branches otherwise (⟨condition, body⟩ :: rest)) ⟨n, f, m⟩ exits loops t q
  | skipped {otherwise : Option (List Statement)} {condition : Expr} {body : List Statement}
      {rest : List Branch} {v : Value} {t : Statement} {n loops : Nat} {f : Frame}
      {m m₁ : Machine} {exits : List Exit} {q : Spot} :
      (knot config host n).evaluate condition f m = (.ok v, m₁) → m₁.world.isTruthy v = false →
      Comes (.branches otherwise rest) ⟨n, f, m₁⟩ exits loops t q →
      Comes (.branches otherwise (⟨condition, body⟩ :: rest)) ⟨n, f, m⟩ exits loops t q
  | otherwise {body : List Statement} {t : Statement} {p q : Spot} {loops : Nat}
      {exits : List Exit} : Comes (.block .null body) p exits loops t q →
      Comes (.branches (some body) []) p exits loops t q
  /-- A round of a loop. -/
  | round {condition : Expr} {body : List Statement} {v : Value} {t : Statement}
      {n rounds loops : Nat} {f : Frame} {m m₁ : Machine} {exits : List Exit} {q : Spot} :
      (knot config host n).evaluate condition f m = (.ok v, m₁) → m₁.world.isTruthy v = true →
      Comes (.block .null body) ⟨n, f, m₁⟩ exits loops t q →
      Comes (.loop condition body (rounds + 1)) ⟨n, f, m⟩ exits (loops + 1) t q
  | laterRound {condition : Expr} {body : List Statement} {v : Value} {o : Outcome}
      {t : Statement} {n rounds loops : Nat} {f : Frame} {m m₁ m₂ : Machine} {exits : List Exit}
      {q : Spot} :
      (knot config host n).evaluate condition f m = (.ok v, m₁) → m₁.world.isTruthy v = true →
      (knot config host n).block body f m₁ = (.ok o, m₂) →
      (o = .continued ∨ ∃ u, o = .settled u) →
      Comes (.loop condition body rounds) ⟨n, f, m₂⟩ exits loops t q →
      Comes (.loop condition body (rounds + 1)) ⟨n, f, m⟩ exits loops t q
  /-- Inside a block, in the scope that is made for it. -/
  | inBlock {body : List Statement} {span : Span} {t : Statement} {n loops : Nat} {f : Frame}
      {s : ScopeId} {m m₁ m₂ : Machine} {exits : List Exit} {q : Spot} :
      Run.tick m = (.ok (), m₁) →
      (Run.change fun w => w.createChild f.scope .block (m₁.world.scope f.scope).label) m₁ =
        (.ok s, m₂) →
      Comes (.block .null body)
        ⟨n, { f with scope := s }, { m₂ with world := m₂.world.hold [s.cell] }⟩ exits loops t q →
      Comes (.statement ⟨.block body, span⟩) ⟨n + 1, f, m⟩
        (exits ++ [.release m₂.world.held, .close f.scope s]) loops t q
  | inCond {otherwise : Option (List Statement)} {bs : List Branch} {span : Span} {t : Statement}
      {n loops : Nat} {f : Frame} {m m₁ : Machine} {exits : List Exit} {q : Spot} :
      Run.tick m = (.ok (), m₁) →
      Comes (.branches otherwise bs) ⟨n, f, m₁⟩ exits loops t q →
      Comes (.statement ⟨.cond bs otherwise, span⟩) ⟨n + 1, f, m⟩ exits loops t q
  | inLoop {condition : Expr} {body : List Statement} {span : Span} {t : Statement}
      {n loops : Nat} {f : Frame} {m m₁ : Machine} {exits : List Exit} {q : Spot} :
      Run.tick m = (.ok (), m₁) →
      Comes (.loop condition body (knot config host n).rounds) ⟨n, f, m₁⟩ exits loops t q →
      Comes (.statement ⟨.loop condition body, span⟩) ⟨n + 1, f, m⟩ exits loops t q

end Ways

variable {config : Config} {host : Host} {code : Code} {p q : Spot} {exits : List Exit}
  {loops : Nat} {t : Statement} {o : Outcome} {m m' : Machine} {n : Nat} {f : Frame}

/-- What code comes to at a spot. -/
def Spot.run (config : Config) (host : Host) (p : Spot) (code : Code) :
    Except Halt Outcome × Machine :=
  (knot config host p.depth).code p.frame code p.machine

/-- A signal that is not taken up by any of so many loops. -/
def Outcome.passes (loops : Nat) : Outcome → Prop
  | .settled _ => False
  | .broke | .continued => loops = 0
  | .returned _ | .thrown _ => True

/-- A statement of a depth is a step and the node at the depth below. -/
theorem interpret_eq {node : Node} {span : Span} {m₁ : Machine} (ticked : Run.tick m = (.ok (), m₁))
    (h : (knot config host n).node node f m₁ = (.ok o, m')) :
    (knot config host (n + 1)).interpret ⟨node, span⟩ f m = (.ok o, m') := by
  have first : (knot config host (n + 1)).interpret ⟨node, span⟩ f m =
      (knot config host n).statement ⟨node, span⟩ f m₁ := Run.bind_ok ticked
  rw [first]
  exact Run.mapError_ok h

theorem blockFrom_first {k : Knot} {last : Value} {s : Statement} {rest : List Statement}
    (h : k.interpret s f { m with world := m.world.hold last.cells } = (.ok o, m'))
    (control : o.isControl = true) :
    k.blockFrom f last (s :: rest) m = (.ok o, m'.leave [.release m.world.held]) := by
  rw [Knot.blockFrom, Run.bind_ok (Run.holding_ok h)]
  cases o with
  | settled v => cases control
  | _ => rfl

theorem Outcome.passes.isControl (h : o.passes loops) : o.isControl = true := by
  cases o with
  | settled v => exact h.elim
  | _ => rfl

theorem branches_cons {k : Knot} {otherwise : Option (List Statement)} {condition : Expr}
    {body : List Statement} {rest : List Branch} {v : Value} {m₁ : Machine}
    (evaluated : k.evaluate condition f m = (.ok v, m₁)) :
    k.branches f otherwise (⟨condition, body⟩ :: rest) m =
      if m₁.world.isTruthy v = true then k.block body f m₁
      else k.branches f otherwise rest m₁ := by
  rw [Knot.branches, Run.bind_ok evaluated]
  have looked : (Run.look fun w : World => w.isTruthy v) m₁ = (.ok (m₁.world.isTruthy v), m₁) := rfl
  rw [Run.bind_ok looked]
  split <;> rfl

/-- What a loop does after a round, with one round less. -/
def Knot.afterRound (k : Knot) (condition : Expr) (body : List Statement) (f : Frame)
    (rounds : Nat) : Outcome → Run Outcome
  | .settled _ | .continued => k.loop condition body f rounds
  | .broke => return .settled .null
  | signal => return signal

theorem loop_succ {k : Knot} {condition : Expr} {body : List Statement} {rounds : Nat} {v : Value}
    {m₁ m₂ : Machine} (evaluated : k.evaluate condition f m = (.ok v, m₁))
    (truthy : m₁.world.isTruthy v = true) (run : k.block body f m₁ = (.ok o, m₂)) :
    k.loop condition body f (rounds + 1) m = k.afterRound condition body f rounds o m₂ := by
  rw [Knot.loop, Run.bind_ok evaluated]
  have looked : (Run.look fun w : World => w.isTruthy v) m₁ = (.ok (m₁.world.isTruthy v), m₁) := rfl
  rw [Run.bind_ok looked, if_pos truthy, Run.bind_ok run]
  cases o <;> rfl

theorem blockStatement_ok {k : Knot} {body : List Statement} {s : ScopeId} {m₁ : Machine}
    (made : (Run.change fun w => w.createChild f.scope .block (m.world.scope f.scope).label) m =
      (.ok s, m₁))
    (run : k.block body { f with scope := s } { m₁ with world := m₁.world.hold [s.cell] } =
      (.ok o, m')) :
    k.blockStatement body f m =
      (.ok o, m'.leave [.release m₁.world.held, .close f.scope s]) := by
  have looked : (Run.look fun w : World => (w.scope f.scope).label) m =
      (.ok (m.world.scope f.scope).label, m) := rfl
  rw [Knot.blockStatement, Run.bind_ok looked, Run.bind_ok made]
  simp only [Run.followedBy, Run.andFinally, Run.holding_ok run]
  rfl

/-- A signal reaches the outermost code, and nothing is done on the way but what is undone. -/
theorem Comes.signal (h : Comes config host code p exits loops t q) (passes : o.passes loops)
    (e : q.run config host (.statement t) = (.ok o, m')) :
    p.run config host code = (.ok o, m'.leave exits) := by
  induction h with
  | here => exact e
  | first _ ih =>
    rw [Machine.leave_append]
    exact blockFrom_first (ih passes e) passes.isControl
  | next settled _ ih => exact (Run.bind_ok settled).trans (ih passes e)
  | taken evaluated truthy _ ih =>
    exact (branches_cons evaluated).trans ((if_pos truthy).trans (ih passes e))
  | skipped evaluated falsy _ ih =>
    have other : ¬ _ = true := Bool.eq_false_iff.mp falsy
    exact (branches_cons evaluated).trans ((if_neg other).trans (ih passes e))
  | otherwise _ ih => exact ih passes e
  | round evaluated truthy _ ih =>
    cases o with
    | settled v => exact passes.elim
    | broke => exact absurd passes (Nat.succ_ne_zero _)
    | continued => exact absurd passes (Nat.succ_ne_zero _)
    | returned v => exact loop_succ evaluated truthy (ih trivial e)
    | thrown v => exact loop_succ evaluated truthy (ih trivial e)
  | laterRound evaluated truthy run goesOn _ ih =>
    refine (loop_succ evaluated truthy run).trans ?_
    rcases goesOn with rfl | ⟨u, rfl⟩
    · exact ih passes e
    · exact ih passes e
  | inBlock ticked made _ ih =>
    rw [Machine.leave_append]
    exact interpret_eq ticked (blockStatement_ok made (ih passes e))
  | inCond ticked _ ih => exact interpret_eq ticked (ih passes e)
  | inLoop ticked _ ih => exact interpret_eq ticked (ih passes e)

/-- A `break` ends the loop that it stands in and no other. -/
theorem Comes.endsRounds {condition : Expr} {body : List Statement} {rounds : Nat}
    (h : Comes config host (.loop condition body rounds) p exits 1 t q)
    (e : q.run config host (.statement t) = (.ok .broke, m')) :
    p.run config host (.loop condition body rounds) = (.ok (.settled .null), m'.leave exits) := by
  generalize eloop : Code.loop condition body rounds = code at h
  generalize eloops : 1 = loops at h
  induction h generalizing rounds with
  | round evaluated truthy inner _ =>
    cases eloop
    have zero := (Nat.succ.inj eloops).symm
    exact loop_succ evaluated truthy (inner.signal (o := .broke) zero e)
  | laterRound evaluated truthy run goesOn _ ih =>
    cases eloop
    refine (loop_succ evaluated truthy run).trans ?_
    rcases goesOn with rfl | ⟨u, rfl⟩
    · exact ih e rfl eloops
    · exact ih e rfl eloops
  | _ => cases eloop

theorem Comes.endsLoop {condition : Expr} {body : List Statement} {span : Span}
    (h : Comes config host (.statement ⟨.loop condition body, span⟩) ⟨n + 1, f, m⟩ exits 1 t q)
    (e : q.run config host (.statement t) = (.ok .broke, m')) :
    (knot config host (n + 1)).interpret ⟨.loop condition body, span⟩ f m =
      (.ok (.settled .null), m'.leave exits) := by
  cases h with
  | inLoop ticked inner => exact interpret_eq ticked (inner.endsRounds e)

/-- A loop takes up every `break` and `continue`. -/
theorem loop_outcome {k : Knot} {condition : Expr} {body : List Statement} :
    ∀ {rounds : Nat} {m : Machine}, k.loop condition body f rounds m = (.ok o, m') →
      o ≠ .broke ∧ o ≠ .continued
  | 0, _, h => by cases h
  | rounds + 1, m, h => by
    obtain ⟨v, m₁, evaluated, h⟩ := Run.bind_eq_ok h
    obtain ⟨truth, m₂, looked, h⟩ := Run.bind_eq_ok h
    cases truth with
    | false =>
      cases h
      exact ⟨nofun, nofun⟩
    | true =>
      obtain ⟨o', m₃, run, h⟩ := Run.bind_eq_ok h
      cases o' with
      | settled u => exact loop_outcome h
      | continued => exact loop_outcome h
      | broke =>
        cases h
        exact ⟨nofun, nofun⟩
      | returned u =>
        cases h
        exact ⟨nofun, nofun⟩
      | thrown u =>
        cases h
        exact ⟨nofun, nofun⟩

theorem interpret_loop_outcome {condition : Expr} {body : List Statement} {span : Span}
    (h : (knot config host n).interpret ⟨.loop condition body, span⟩ f m = (.ok o, m')) :
    o ≠ .broke ∧ o ≠ .continued := by
  cases n with
  | zero => cases h
  | succ n =>
    obtain ⟨_, m₁, ticked, h⟩ := Run.bind_eq_ok h
    obtain ⟨label, m₂, looked, h⟩ := Run.bind_eq_ok h
    exact loop_outcome (Run.mapError_eq_ok h)

/-! ## Bodies -/

/-- What a call does with the outcome of its body. -/
def Knot.finish (procedure : Procedure) (s : ScopeId) (o : Outcome) : Run Value := do
  let v ← result procedure s o
  Action.consult fun w => w.checkType s procedure.name procedure.returns v
  return v

/-- What becomes of a program whose last statement, which has a span, comes to an outcome. -/
def Outcome.atTop (span : Span) : Outcome → Except Halt Value
  | .settled v | .returned v => .ok v
  | .thrown v => .error (.error { kind := .uncaughtThrow v, span })
  | signal => .error (.error { kind := .misplacedControl signal.keyword "top level", span })

/-- A signal from the body of a call reaches the call. -/
theorem Comes.endsCall {procedure : Procedure} {body : List Statement}
    {slots : List (Slot Value)} {m₁ : Machine}
    (installed : (knot config host n).installAll f procedure.parameters slots m = (.ok (), m₁))
    (h : Comes config host (.block .null body) ⟨n, f, m₁⟩ exits loops t q) (passes : o.passes loops)
    (e : q.run config host (.statement t) = (.ok o, m')) :
    (knot config host n).runBody procedure body slots f m =
      Knot.finish procedure f.scope o (m'.leave exits) := by
  rw [Knot.runBody, Run.bind_ok installed]
  exact Run.bind_ok (h.signal passes e)

/-- What is thrown in a class body ends the body. -/
theorem Comes.endsClassBody {c : ClassId} {s : Statement} {rest : List Statement} {v : Value}
    (other : ∀ d, s.node ≠ .function d)
    (h : Comes config host (.statement s) ⟨n, ⟨(m.world.classOf c).scope, none⟩, m⟩ exits loops t q)
    (e : q.run config host (.statement t) = (.ok (.thrown v), m')) :
    (knot config host n).classBody c (s :: rest) m =
      (.error (.error { kind := .uncaughtThrow v, span := s.span }), m'.leave exits) := by
  have signal := h.signal (o := .thrown v) trivial e
  have looked : (Run.look fun w : World => (w.classOf c).scope) m =
      (.ok (m.world.classOf c).scope, m) := rfl
  have first : (knot config host n).classStatement c s m =
      (.error (.error { kind := .uncaughtThrow v, span := s.span }), m'.leave exits) := by
    simp only [Knot.classStatement]
    rw [Run.bind_ok looked]
    exact Run.bind_ok signal
  rw [Knot.classBody, Run.bind_apply, first]
  rfl

/-- A signal in a program reaches the top level. -/
theorem Comes.endsProgram {root : ScopeId} {last : Value} {program : List Statement}
    (h : Comes config host (.block last program) ⟨n, ⟨root, none⟩, m⟩ exits loops t q)
    (passes : o.passes loops) (e : q.run config host (.statement t) = (.ok o, m')) :
    ∃ span, (knot config host n).programFrom root last program m =
      (o.atTop span, m'.leave exits) := by
  generalize ecode : Code.block last program = code at h
  generalize espot : Spot.mk n ⟨root, none⟩ m = p at h
  induction h generalizing last program m with
  | @first _ s _ _ _ _ _ _ _ _ inner _ =>
    cases ecode
    cases espot
    refine ⟨s.span, ?_⟩
    have signal : (knot config host n).interpret s ⟨root, none⟩ _ = _ := inner.signal passes e
    rw [Machine.leave_append, Knot.programFrom, Run.bind_ok (Run.holding_ok signal)]
    cases o with
    | settled v => exact passes.elim
    | _ => rfl
  | next settled _ ih =>
    cases ecode
    cases espot
    obtain ⟨span, run⟩ := ih passes e rfl rfl
    refine ⟨span, ?_⟩
    rw [Knot.programFrom, Run.bind_ok settled]
    exact run
  | _ => cases ecode

/-! ## Sessions -/

/-- What the evaluator does with signals, in whatever frame and on whatever machine. -/
structure ContainsSignals (config : Config) (host : Host) : Prop where
  /-- A loop yields neither a `break` nor a `continue`. -/
  loop {n : Nat} {f : Frame} {m m' : Machine} {condition : Expr} {body : List Statement}
    {span : Span} {o : Outcome} :
    (knot config host n).interpret ⟨.loop condition body, span⟩ f m = (.ok o, m') →
      o ≠ .broke ∧ o ≠ .continued
  /-- A `break` settles the innermost loop, and that loop alone. -/
  innermost {n : Nat} {f : Frame} {m m' : Machine} {condition : Expr} {body : List Statement}
    {span : Span} {exits : List Exit} {t : Statement} {q : Spot} :
    Comes config host (.statement ⟨.loop condition body, span⟩) ⟨n + 1, f, m⟩ exits 1 t q →
    q.run config host (.statement t) = (.ok .broke, m') →
      (knot config host (n + 1)).interpret ⟨.loop condition body, span⟩ f m =
        (.ok (.settled .null), m'.leave exits)
  /-- What no loop takes up reaches the call of the body it stands in. -/
  call {n : Nat} {f : Frame} {m m₁ m' : Machine} {procedure : Procedure} {body : List Statement}
    {slots : List (Slot Value)} {exits : List Exit} {loops : Nat} {t : Statement} {q : Spot}
    {o : Outcome} :
    (knot config host n).installAll f procedure.parameters slots m = (.ok (), m₁) →
    Comes config host (.block .null body) ⟨n, f, m₁⟩ exits loops t q → o.passes loops →
    q.run config host (.statement t) = (.ok o, m') →
      (knot config host n).runBody procedure body slots f m =
        Knot.finish procedure f.scope o (m'.leave exits)
  /-- What is thrown reaches the class body it stands in. -/
  classBody {n : Nat} {m m' : Machine} {c : ClassId} {s : Statement} {rest : List Statement}
    {v : Value} {exits : List Exit} {loops : Nat} {t : Statement} {q : Spot} :
    (∀ d, s.node ≠ .function d) →
    Comes config host (.statement s) ⟨n, ⟨(m.world.classOf c).scope, none⟩, m⟩ exits loops t q →
    q.run config host (.statement t) = (.ok (.thrown v), m') →
      (knot config host n).classBody c (s :: rest) m =
        (.error (.error { kind := .uncaughtThrow v, span := s.span }), m'.leave exits)
  /-- What no loop takes up reaches the top level. -/
  top {n : Nat} {m m' : Machine} {root : ScopeId} {last : Value} {program : List Statement}
    {exits : List Exit} {loops : Nat} {t : Statement} {q : Spot} {o : Outcome} :
    Comes config host (.block last program) ⟨n, ⟨root, none⟩, m⟩ exits loops t q →
    o.passes loops → q.run config host (.statement t) = (.ok o, m') →
      ∃ span, (knot config host n).programFrom root last program m =
        (o.atTop span, m'.leave exits)

namespace Session.Orderly

/-- In an orderly session no program raises an error about control, and every signal ends where it
belongs. -/
theorem control_contained {s : Session} (h : s.Orderly) {program : List Statement}
    (placed : blockPlaced .body program = true) (fuel : Nat) :
    (∀ e, (s.run fuel program).1 = .error (.error e) → e.kind.isMisplaced = false) ∧
      ContainsSignals s.config s.host := by
  refine ⟨fun e failed => h.run_placed placed fuel failed, ?_⟩
  exact
    { loop := interpret_loop_outcome
      innermost := Comes.endsLoop
      call := Comes.endsCall
      classBody := Comes.endsClassBody
      top := Comes.endsProgram }

/-- A `return` and a `break` in the branches of a loop, in a function. -/
theorem control_contained_nested :
    let at_ (n : Node) : Statement := ⟨n, Span.none⟩
    let yes : Expr := .ofTerm (.literal (.bool true))
    let body : List Statement :=
      [at_ (.loop yes [at_ (.cond [⟨yes, [at_ (.block [at_ (.return (some yes))])]⟩]
        (some [at_ .break]))])]
    let program : List Statement := [at_ (.function ⟨"f", .function, [], none, body⟩)]
    (Session.start {} Kit.host).Orderly ∧ blockPlaced .body program = true ∧
      (∀ e, ((Session.start {} Kit.host).run 100 program).1 = .error (.error e) →
        e.kind.isMisplaced = false) ∧
      ContainsSignals {} Kit.host := by
  intro at_ yes body program
  have session : (Session.start {} Kit.host).Orderly := .start {} Kit.host_orderly
  have placed : blockPlaced .body program = true := by decide
  exact ⟨session, placed, session.control_contained placed 100⟩

end Session.Orderly

end ScopeLang
