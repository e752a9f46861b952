/-
# Variants of the evaluator

Two things about the evaluator are not part of what a program does.  One is how it marks the errors
that leave an evaluation: a *marking* may do anything to them in place of what the evaluator fills
in.  The other is the depth up to which the knot is tied: every evaluation is a step, so that a run
never comes to the end of a knot whose depth its fuel does not exceed.

The judgement `Run.Uniform` is about a run of several variants at once: within some fuel they all
come to one machine with one result, or with one error as each of them marks it.  No construct of
the evaluator looks at an error or at the depth, so that every one of them keeps to the judgement;
only the two evaluations of a knot extend a path and take a step, and a loop has as many rounds as
the knot has depth.
-/
import ScopeLang.Proofs.Signals

namespace ScopeLang

variable {α β ι : Type}

/-! ## Markings -/

/-- The evaluation of an expression, or of a statement in a scope with a label. -/
inductive Evaluation where
  | expression (e : Expr)
  | statement (s : Statement) (owner : String)

/-- What a statement says of the errors that arise in it. -/
def Evaluation.context? : Evaluation → Option ErrorContext
  | .expression _ => none
  | .statement s owner => some ⟨s.node.kind, owner⟩

/-- What becomes of an error that leaves an evaluation. -/
abbrev Marking := Evaluation → RuntimeError → RuntimeError

/-- The marking of the evaluator: what an error does not say yet is filled in. -/
def Marking.own : Marking
  | .expression e, error => error.orSpan e.span
  | .statement s owner, error => (error.orSpan s.span).withContext s.node.kind owner

/-- The evaluator with a marking in the place of its own. -/
def markedKnot (τ : Marking) (config : Config) (host : Host) : Nat → Knot
  | 0 =>
      { config, host, rounds := 0
        evaluate := fun _ _ => throw .outOfFuel
        interpret := fun _ _ => throw .outOfFuel }
  | n + 1 =>
      { config, host, rounds := n + 1
        evaluate := fun e frame => do
          Run.tick
          Run.mapError (τ (.expression e)) ((markedKnot τ config host n).term e.term frame)
        interpret := fun s frame => do
          Run.tick
          let label ← Run.look fun w => (w.scope frame.scope).label
          Run.mapError (τ (.statement s label))
            ((markedKnot τ config host n).node s.node frame) }

theorem markedKnot_own (config : Config) (host : Host) :
    ∀ n, markedKnot .own config host n = knot config host n
  | 0 => rfl
  | n + 1 => by
    simp only [markedKnot, knot, markedKnot_own config host n]
    rfl

/-! ## Raised errors -/

/-- An error as it arises, with the evaluations that it leaves, the innermost first. -/
structure Raised where
  origin : RuntimeError
  path : List Evaluation
  /-- An error that arises names no statement. -/
  unnamed : origin.context = none

namespace Raised

/-- The error that comes out in the end. -/
def under (τ : Marking) (r : Raised) : RuntimeError := r.path.foldl (fun e ev => τ ev e) r.origin

/-- The error once it has left one more evaluation. -/
def leave (ev : Evaluation) (r : Raised) : Raised := { r with path := r.path ++ [ev] }

@[simp] theorem under_leave (τ : Marking) (ev : Evaluation) (r : Raised) :
    (r.leave ev).under τ = τ ev (r.under τ) := by
  simp [under, leave]

end Raised

/-! ## Runs of all variants -/

/-- What a run comes to, whatever the marking. -/
inductive Ending (α : Type) where
  | result (x : α)
  | raised (r : Raised)
  | stopped

/-- What it comes to under a marking. -/
def Ending.under (τ : Marking) : Ending α → Except Halt α
  | .result x => .ok x
  | .raised r => .error (.error (r.under τ))
  | .stopped => .error .outOfFuel

/-- A run for each variant.  On a machine with at most `n` units of fuel, which no run adds to, they
come to one machine with one ending. -/
def Run.Uniform (n : Nat) (τ : ι → Marking) (r : ι → Run α) : Prop :=
  ∀ m, m.fuel ≤ n → ∃ ending m', m'.fuel ≤ m.fuel ∧ ∀ i, r i m = (Ending.under (τ i) ending, m')

namespace Run.Uniform

variable {n : Nat} {τ : ι → Marking} {r : ι → Run α}

theorem mono {k : Nat} (h : Uniform n τ r) (le : k ≤ n) : Uniform k τ r :=
  fun m fuel => h m (Nat.le_trans fuel le)

theorem pure (x : α) : Uniform n τ fun _ => (Pure.pure x : Run α) :=
  fun m _ => ⟨.result x, m, Nat.le_refl _, fun _ => rfl⟩

/-- An error arises. -/
theorem throw (kind : ErrorKind) (span : Span) :
    Uniform n τ fun _ => (MonadExcept.throw (.error { kind, span }) : Run α) :=
  fun m _ => ⟨.raised ⟨{ kind, span }, [], rfl⟩, m, Nat.le_refl _, fun _ => rfl⟩

theorem fail (kind : ErrorKind) : Uniform n τ fun _ => (Run.fail kind : Run α) :=
  throw kind Span.none

theorem look (f : World → α) : Uniform n τ fun _ => Run.look f :=
  fun m _ => ⟨.result (f m.world), m, Nat.le_refl _, fun _ => rfl⟩

/-- The errors of an action arise in it. -/
theorem act (a : Action α) : Uniform n τ fun _ => Run.ofAction a := by
  intro ⟨world, fuel, calls⟩ _
  cases fuel with
  | zero => exact ⟨.stopped, _, Nat.le_refl _, fun _ => rfl⟩
  | succ fuel =>
    simp only [Run.ofAction]
    generalize a.runIn world = made
    obtain ⟨result, w⟩ := made
    cases result with
    | ok x => exact ⟨.result x, _, Nat.le_succ _, fun _ => rfl⟩
    | error kind => exact ⟨.raised ⟨{ kind }, [], rfl⟩, _, Nat.le_succ _, fun _ => rfl⟩

theorem change (f : World → α × World) : Uniform n τ fun _ => Run.change f :=
  act (Action.change f)

theorem update (f : World → World) : Uniform n τ fun _ => Run.update f :=
  change fun w => ((), f w)

theorem bind {k : ι → α → Run β} (h : Uniform n τ r) (cont : ∀ x, Uniform n τ fun i => k i x) :
    Uniform n τ fun i => r i >>= k i := by
  intro m fuel
  obtain ⟨ending, m', le, runs⟩ := h m fuel
  simp only [Run.bind_apply, runs]
  cases ending with
  | result x =>
    obtain ⟨ending, m'', le', runs⟩ := cont x m' (Nat.le_trans le fuel)
    exact ⟨ending, m'', Nat.le_trans le' le, runs⟩
  | raised r => exact ⟨.raised r, m', le, fun _ => rfl⟩
  | stopped => exact ⟨.stopped, m', le, fun _ => rfl⟩

theorem andFinally (h : Uniform n τ r) (change : Machine → Machine)
    (spares : ∀ m, (change m).fuel = m.fuel) :
    Uniform n τ fun i => Run.andFinally (r i) change := by
  intro m fuel
  obtain ⟨ending, m', le, runs⟩ := h m fuel
  simp only [Run.andFinally, runs]
  have le' : (change m').fuel ≤ m.fuel := (spares m').symm ▸ le
  cases ending with
  | result x => exact ⟨.result x, change m', le', fun _ => rfl⟩
  | raised r => exact ⟨.raised r, change m', le', fun _ => rfl⟩
  | stopped => exact ⟨.stopped, m', le, fun _ => rfl⟩

theorem holding (h : Uniform n τ r) (cells : List Cell) :
    Uniform n τ fun i => Run.holding cells (r i) := fun m fuel =>
  andFinally h (fun m' => { m' with world := { m'.world with held := m.world.held } })
    (fun _ => rfl) { m with world := m.world.hold cells } fuel

theorem during (h : Uniform n τ r) (c : Invocation) :
    Uniform n τ fun i => Run.during c (r i) := fun m fuel =>
  andFinally h (fun m' => { m' with calls := m.calls }) (fun _ => rfl)
    { m with calls := c :: m.calls } fuel

theorem followedBy (h : Uniform n τ r) (change : World → World) :
    Uniform n τ fun i => Run.followedBy (r i) change :=
  andFinally h _ fun _ => rfl

/-- An error that leaves an evaluation goes on its way. -/
theorem leave (h : Uniform n τ r) (ev : Evaluation) :
    Uniform n τ fun i => Run.mapError (τ i ev) (r i) := by
  intro m fuel
  obtain ⟨ending, m', le, runs⟩ := h m fuel
  simp only [Run.mapError_apply, runs]
  cases ending with
  | result x => exact ⟨.result x, m', le, fun _ => rfl⟩
  | raised r => exact ⟨.raised (r.leave ev), m', le, fun i => by simp [Ending.under]⟩
  | stopped => exact ⟨.stopped, m', le, fun _ => rfl⟩

theorem stop : Uniform n τ fun _ => (MonadExcept.throw Halt.outOfFuel : Run α) :=
  fun m _ => ⟨.stopped, m, Nat.le_refl _, fun _ => rfl⟩

/-- What follows on a step has one unit of fuel less. -/
theorem ticked (h : Uniform n τ r) : Uniform (n + 1) τ fun i => Run.tick >>= fun _ => r i := by
  intro ⟨world, fuel, calls⟩ le
  cases fuel with
  | zero => exact ⟨.stopped, _, Nat.le_refl _, fun _ => rfl⟩
  | succ fuel =>
    obtain ⟨ending, m', le', runs⟩ := h ⟨world, fuel, calls⟩ (Nat.le_of_succ_le_succ le)
    exact ⟨ending, m', Nat.le_trans le' (Nat.le_succ fuel), runs⟩

end Run.Uniform

/-- Runs that are a step and what follows on it, as far as their fuel reaches. -/
def Run.Stepping (n : Nat) (τ : ι → Marking) (r : ι → Run α) : Prop :=
  ∃ q : ι → Run α, Run.Uniform (n - 1) τ q ∧
    ∀ i m, m.fuel ≤ n → r i m = (Run.tick >>= fun _ => q i) m

theorem Run.tick_stops {q : Unit → Run α} {m : Machine} (none : m.fuel = 0) :
    (Run.tick >>= q) m = (.error .outOfFuel, m) := by
  obtain ⟨world, fuel, calls⟩ := m
  obtain rfl : fuel = 0 := none
  rfl

/-- Numbers that are all above `n` are one more than others. -/
theorem exists_pred {n : Nat} {depth : ι → Nat} (enough : ∀ i, n + 1 ≤ depth i) :
    ∃ left : ι → Nat, (∀ i, n ≤ left i) ∧ depth = fun i => left i + 1 :=
  ⟨fun i => depth i - 1, fun i => Nat.le_pred_of_lt (enough i),
    funext fun i => (Nat.succ_pred_eq_of_pos (Nat.lt_of_lt_of_le n.succ_pos (enough i))).symm⟩

namespace Run.Stepping

variable {n : Nat} {τ : ι → Marking} {r : ι → Run α}

theorem mono {k : Nat} (h : Stepping n τ r) (le : k ≤ n) : Stepping k τ r := by
  obtain ⟨q, uniform, runs⟩ := h
  exact ⟨q, uniform.mono (Nat.sub_le_sub_right le 1), fun i m fuel =>
    runs i m (Nat.le_trans fuel le)⟩

theorem stops (h : Stepping n τ r) (i : ι) {m : Machine} (none : m.fuel = 0) :
    r i m = (.error .outOfFuel, m) := by
  obtain ⟨q, -, runs⟩ := h
  rw [runs i m (none ▸ Nat.zero_le n), tick_stops none]

/-- Runs that stop where there is no fuel left. -/
theorem of_stops (stops : ∀ i m, m.fuel = 0 → r i m = (.error .outOfFuel, m)) :
    Stepping 0 τ r := by
  refine ⟨fun _ => throw .outOfFuel, .stop, fun i m fuel => ?_⟩
  have none : m.fuel = 0 := Nat.le_zero.mp fuel
  rw [stops i m none, tick_stops none]

/-- What follows on the result has one unit of fuel less as well. -/
theorem bind {k : ι → α → Run β} (h : Stepping (n + 1) τ r)
    (cont : ∀ x, Uniform n τ fun i => k i x) : Uniform (n + 1) τ fun i => r i >>= k i := by
  obtain ⟨q, uniform, runs⟩ := h
  have whole : Uniform (n + 1) τ fun i => Run.tick >>= fun _ => q i >>= k i :=
    (Uniform.bind uniform cont).ticked
  intro m fuel
  obtain ⟨ending, m', le, same⟩ := whole m fuel
  refine ⟨ending, m', le, fun i => ?_⟩
  show (r i >>= k i) m = _
  rw [Run.bind_apply, runs i m fuel, ← Run.bind_apply, bind_assoc]
  exact same i

theorem uniform (h : Stepping n τ r) : Uniform n τ r := by
  cases n with
  | zero => exact fun m fuel =>
      ⟨.stopped, m, Nat.le_refl _, fun i => h.stops i (Nat.le_zero.mp fuel)⟩
  | succ n =>
    have whole := h.bind (k := fun _ x => Pure.pure x) fun x => .pure x
    simpa only [bind_pure] using whole

end Run.Stepping

/-! ## The evaluator -/

/-- Knots that differ by their recursive calls and by their rounds alone. -/
structure Knots (ι : Type) where
  config : Config
  host : Host
  rounds : ι → Nat
  evaluate : ι → Expr → Frame → Run Value
  interpret : ι → Statement → Frame → Run Outcome

namespace Knots

/-- The knot of a variant. -/
def under (K : Knots ι) (i : ι) : Knot :=
  ⟨K.config, K.host, K.rounds i, K.evaluate i, K.interpret i⟩

/-- Knots whose recursive calls are uniform and steps, and whose loops do not run out of rounds. -/
structure Uniform (n : Nat) (τ : ι → Marking) (K : Knots ι) : Prop where
  rounds : ∀ i, n ≤ K.rounds i
  evaluations : ∀ e f, Run.Stepping n τ fun i => K.evaluate i e f
  statements : ∀ s f, Run.Stepping n τ fun i => K.interpret i s f

open Run.Uniform

variable {n : Nat} {τ : ι → Marking} {K : Knots ι} {f : Frame}

theorem Uniform.evaluate (h : K.Uniform n τ) (e : Expr) (f : Frame) :
    Run.Uniform n τ fun i => K.evaluate i e f := (h.evaluations e f).uniform

theorem Uniform.interpret (h : K.Uniform n τ) (s : Statement) (f : Frame) :
    Run.Uniform n τ fun i => K.interpret i s f := (h.statements s f).uniform

/-! ### Arguments -/

theorem default (h : K.Uniform n τ) (q : ParameterSpec) :
    Run.Uniform n τ fun i => (K.under i).default q f := by
  simp only [Knot.default]
  cases q.default with
  | some e => exact h.evaluate e f
  | none => exact .pure _

theorem materialize (h : K.Uniform n τ) (q : ParameterSpec) :
    ∀ slot, Run.Uniform n τ fun i => (K.under i).materialize q f slot
  | .spread vs => .act (Action.newList vs)
  | .value v => .bind (.act _) fun _ => .pure v
  | .omitted => .bind (default h q) fun v => .bind (.act _) fun _ => .pure v

theorem materializeAll (h : K.Uniform n τ) :
    ∀ (qs : List ParameterSpec) (slots : List (Slot Value)),
      Run.Uniform n τ fun i => (K.under i).materializeAll f qs slots
  | [], _ => .pure _
  | _ :: _, [] => .pure _
  | q :: qs, slot :: slots =>
    .bind (materialize h q slot) fun v =>
      .bind (holding (materializeAll h qs slots) v.cells) fun _ => .pure _

theorem argument (h : K.Uniform n τ) (q : ParameterSpec) :
    ∀ slot, Run.Uniform n τ fun i => (K.under i).argument q f slot
  | .spread _ => .bind (.act _) fun _ => .pure _
  | .value _ => .pure _
  | .omitted => .bind (default h q) fun _ => .pure _

theorem install (h : K.Uniform n τ) (q : ParameterSpec) (slot : Slot Value) :
    Run.Uniform n τ fun i => (K.under i).install q f slot :=
  .bind (argument h q slot) fun _ => .bind (.act _) fun _ => .act _

theorem installAll (h : K.Uniform n τ) : ∀ (qs : List ParameterSpec) (slots : List (Slot Value)),
    Run.Uniform n τ fun i => (K.under i).installAll f qs slots
  | [], _ => .pure _
  | _ :: _, [] => .pure _
  | q :: qs, slot :: slots => .bind (install h q slot) fun _ => installAll h qs slots

/-! ### Bodies -/

theorem blockFrom (h : K.Uniform n τ) : ∀ (body : List Statement) (last : Value),
    Run.Uniform n τ fun i => (K.under i).blockFrom f last body
  | [], _ => .pure _
  | s :: rest, last => by
    refine .bind (holding (h.interpret s f) last.cells) fun o => ?_
    cases o with
    | settled v => exact blockFrom h rest v
    | _ => exact .pure _

theorem block (h : K.Uniform n τ) (body : List Statement) :
    Run.Uniform n τ fun i => (K.under i).block body f :=
  blockFrom h body .null

theorem runBody (h : K.Uniform n τ) (procedure : Procedure) (body : List Statement)
    (slots : List (Slot Value)) :
    Run.Uniform n τ fun i => (K.under i).runBody procedure body slots f := by
  refine .bind (installAll h procedure.parameters slots) fun _ => ?_
  refine .bind (block h body) fun o => ?_
  exact .bind (.act _) fun v => .bind (.act _) fun _ => .pure v

theorem runCall (h : K.Uniform n τ) (procedure : Procedure) (body : List Statement)
    (slots : List (Slot Value)) (caller : ScopeId) (enter : Action ScopeId)
    (receiver : Option InstanceId) :
    Run.Uniform n τ fun i => (K.under i).runCall procedure body slots caller enter receiver :=
  .bind (.act enter) fun s =>
    followedBy (holding (runBody (f := ⟨s, receiver⟩) h procedure body slots) [s.cell]) _

theorem runNative (h : K.Uniform n τ) (procedure : Procedure) (body : String)
    (slots : List (Slot Value)) (caller : Frame) (scope : ScopeId) :
    Run.Uniform n τ fun i => (K.under i).runNative procedure body slots caller scope := by
  refine .bind (materializeAll h procedure.parameters slots) fun arguments => ?_
  refine .bind (holding (.act (K.host.run body ⟨arguments, scope, caller.receiver⟩)) _) fun v => ?_
  exact .bind (.act _) fun _ => .pure v

/-! ### Invocations -/

theorem invokeFunction (h : K.Uniform n τ) (x : Handle .function) (slots : List (Slot Value))
    (caller : ScopeId) : Run.Uniform n τ fun i => (K.under i).invokeFunction x slots caller := by
  refine .bind (.look _) fun g => ?_
  cases g.procedure.body with
  | native body => exact runNative h g.procedure body slots ⟨caller, none⟩ caller
  | user body => exact runCall h g.procedure body slots caller _ none

theorem invokeMethod (h : K.Uniform n τ) (x : Handle .method) (slots : List (Slot Value))
    (receiver : InstanceId) (caller : ScopeId) :
    Run.Uniform n τ fun i => (K.under i).invokeMethod x slots receiver caller := by
  refine .bind (.look _) fun g => ?_
  cases g.procedure.body with
  | native body =>
    exact .bind (.look _) fun scope =>
      runNative h g.procedure body slots ⟨caller, some receiver⟩ scope
  | user body => exact runCall h g.procedure body slots caller _ (some receiver)

theorem invoke (h : K.Uniform n τ) (access : Access) (r : Resolution) :
    Run.Uniform n τ fun i => (K.under i).invoke access r f := by
  refine holding ?_ _
  cases r.overload.callable with
  | function x => exact during (invokeFunction h x r.slots f.scope) _
  | method x =>
    cases f.receiver with
    | some receiver => exact during (invokeMethod h x r.slots receiver f.scope) _
    | none => exact .bind (.look _) fun _ => .fail _
  | classObject x => exact .fail _

theorem callMethod (h : K.Uniform n τ) (receiver : InstanceId) (name : String)
    (arguments : CallArguments) (caller : ScopeId) :
    Run.Uniform n τ fun i => (K.under i).callMethod receiver name arguments caller := by
  refine holding (.bind (.look _) fun home => ?_) _
  exact .bind (.act _) fun r => invoke (f := ⟨caller, some receiver⟩) h .member r

theorem instantiate (h : K.Uniform n τ) (c : ClassId) (arguments : CallArguments)
    (caller : ScopeId) : Run.Uniform n τ fun i => (K.under i).instantiate c arguments caller := by
  refine holding (.bind (.act _) fun made => .bind (.look _) fun home => ?_) _
  refine .bind (.look fun w => w.hasLocalFunction home K.config.constructor) fun has => ?_
  cases has with
  | true =>
    exact .bind (callMethod h made K.config.constructor arguments caller) fun _ => .pure _
  | false =>
    exact .bind (.look fun w => (w.classOf c).name) fun name =>
      .fail (.missingConstructor name K.config.constructor)

theorem callValue (h : K.Uniform n τ) (callee : Value) (arguments : CallArguments) :
    Run.Uniform n τ fun i => (K.under i).callValue callee arguments f := by
  refine holding ?_ _
  cases callee.datum with
  | overloads x => exact .bind (.look _) fun set => .bind (.act _) fun r => invoke h .value r
  | callable c =>
    cases c with
    | classObject c => exact instantiate h c arguments f.scope
    | function x => exact .bind (.look _) fun name => .bind (.act _) fun r => invoke h .value r
    | method x => exact .bind (.look _) fun name => .bind (.act _) fun r => invoke h .value r
  | _ => exact .fail _

theorem callName (h : K.Uniform n τ) (name : String) (arguments : CallArguments) :
    Run.Uniform n τ fun i => (K.under i).callName name arguments f := by
  refine holding (.bind (.look id) fun w => ?_) _
  cases Knot.callableVariable? w f.scope name with
  | some callee => exact callValue h callee arguments
  | none =>
    cases w.lookupFunction f.scope name with
    | some candidates => exact .bind (.act _) fun r => invoke h .name r
    | none =>
      cases w.lookupClass f.scope name with
      | some c => exact instantiate h c arguments f.scope
      | none => exact .fail _

/-! ### Expressions -/

theorem items (h : K.Uniform n τ) (es : List Expr) :
    Run.Uniform n τ fun i => (K.under i).items f es := by
  induction es with
  | nil => exact .pure _
  | cons e rest ih =>
    refine .bind (h.evaluate e f) fun _ => .bind (.act _) fun v => ?_
    exact .bind (holding ih v.cells) fun _ => .pure _

theorem entries (h : K.Uniform n τ) : ∀ es : List Entry,
    Run.Uniform n τ fun i => (K.under i).entries f es
  | [] => .pure _
  | ⟨key, value⟩ :: rest => by
    refine .bind (h.evaluate key f) fun _ => .bind (.act _) fun x => holding ?_ x.cells
    refine .bind (h.evaluate value f) fun _ => .bind (.act _) fun y => ?_
    exact .bind (holding (entries h rest) y.cells) fun _ => .pure _

theorem argumentsFrom (h : K.Uniform n τ) : ∀ (done : CallArguments) (as : List Argument),
    Run.Uniform n τ fun i => (K.under i).argumentsFrom f done as
  | _, [] => .pure _
  | done, ⟨name, value⟩ :: rest =>
    .bind (holding (h.evaluate value f) done.cells) fun v =>
      argumentsFrom h (done.add name v) rest

theorem arguments (h : K.Uniform n τ) (as : List Argument) :
    Run.Uniform n τ fun i => (K.under i).arguments as f :=
  argumentsFrom h ⟨[], []⟩ as

theorem receiver : Run.Uniform n τ fun i => (K.under i).receiver f := by
  simp only [Knot.receiver]
  cases f.receiver with
  | some i => exact .pure i
  | none => exact .fail (.missingInstance K.config.accessor)

theorem declareVariable (h : K.Uniform n τ) (d : VariableDecl) (target : ScopeId) :
    Run.Uniform n τ fun i => (K.under i).declareVariable d f target := by
  refine .bind (.change _) fun declared => ?_
  have finish : ∀ v : Value, Run.Uniform n τ fun _ => (do
      let inferred ← Run.change fun w => w.inferType f.scope v
      let v := { v with attrs := { v.attrs with inferred, displayName := some d.name } }
      Action.declareVariable target d.name ⟨v, d.flags, declared⟩
      return v : Run Value) :=
    fun v => .bind (.change _) fun _ => .bind (.act _) fun _ => .pure _
  cases d.initial with
  | none => exact finish .null
  | some e => exact .bind (h.evaluate e f) fun v => .bind (.act _) fun _ => finish v

theorem assignVariable (h : K.Uniform n τ) (name : String) (value : Expr) :
    Run.Uniform n τ fun i => (K.under i).assignVariable name value f :=
  .bind (h.evaluate value f) fun v => .bind (.act _) fun _ => .pure v

theorem chainHead (h : K.Uniform n τ) (e : Element) :
    Run.Uniform n τ fun i => (K.under i).chainHead e f := by
  cases e with
  | read name => exact .act (Knot.readName name f.scope)
  | assign name value => exact assignVariable h name value
  | declare d => exact declareVariable h d f.scope
  | call name as => exact .bind (arguments h as) fun a => callName h name a

theorem member (h : K.Uniform n τ) (e : Element) (x : InstanceId) :
    Run.Uniform n τ fun i => (K.under i).member e x f := by
  refine holding ?_ _
  cases e with
  | read name =>
    refine .bind (.look id) fun w => ?_
    cases Knot.member? w x name with
    | some v => exact .pure v
    | none => exact .fail _
  | assign name value =>
    exact .bind (h.evaluate value f) fun v => .bind (.act _) fun _ => .pure v
  | declare d => exact .bind (.look _) fun home => declareVariable h d home
  | call name as =>
    refine .bind (.look id) fun w => ?_
    cases w.hasLocalFunction (w.inst x).scope name with
    | true => exact .bind (arguments h as) fun a => callMethod h x name a f.scope
    | false => exact .fail _

theorem applyIntrinsic (target : Value) (e : Element) (name : String) (vs : List Value) :
    Run.Uniform n τ fun _ => Knot.applyIntrinsic target e name vs := by
  simp only [Knot.applyIntrinsic]
  cases intrinsic? target name with
  | some run => exact .act (run vs)
  | none => exact .bind (.look _) fun _ => .fail _

theorem virtual (h : K.Uniform n τ) (e : Element) (target : Value) :
    Run.Uniform n τ fun i => (K.under i).virtual e target f := by
  refine holding ?_ _
  cases e with
  | read name => exact applyIntrinsic target _ name []
  | assign name value => exact .bind (.look _) fun _ => .fail _
  | declare d => exact .bind (.look _) fun _ => .fail _
  | call name as =>
    refine .bind (arguments h as) fun a => ?_
    cases a.named.isEmpty with
    | true => exact holding (applyIntrinsic target _ name a.positional) _
    | false => exact .bind (.look _) fun _ => .fail _

theorem chainStep (h : K.Uniform n τ) (e : Element) (current : Value) :
    Run.Uniform n τ fun i => (K.under i).chainStep e current f := by
  simp only [Knot.chainStep]
  cases current.object? with
  | some i => exact member h e i
  | none => exact virtual h e current

theorem chainSteps (h : K.Uniform n τ) : ∀ (es : List Element) (current : Value),
    Run.Uniform n τ fun i => (K.under i).chainSteps f current es
  | [], _ => .pure _
  | e :: rest, current => .bind (chainStep h e current) fun v => chainSteps h rest v

theorem chain (h : K.Uniform n τ) (origin : ChainOrigin) (es : List Element) :
    Run.Uniform n τ fun i => (K.under i).chain origin es f := by
  cases es with
  | nil => exact .pure _
  | cons head rest =>
    cases origin with
    | scope => exact .bind (chainHead h head) fun v => chainSteps h rest v
    | receiver =>
      exact .bind receiver fun i => .bind (member h head i) fun v => chainSteps h rest v

theorem term (h : K.Uniform n τ) (t : Term) : Run.Uniform n τ fun i => (K.under i).term t f := by
  match t with
  | .literal l => exact .pure _
  | .sequence kind es => exact .bind (items h es) fun vs => .act (kind.build vs)
  | .dict es => exact .bind (entries h es) fun es => .act (Action.newDict es)
  | .variable name => exact .act (Knot.readName name f.scope)
  | .receiver => exact .bind receiver fun _ => .pure _
  | .unary op operand => exact .bind (h.evaluate operand f) fun v => .act _
  | .binary op left right =>
    refine .bind (h.evaluate left f) fun a => ?_
    exact .bind (holding (h.evaluate right f) a.cells) fun b => .act _
  | .logical op left right =>
    refine .bind (h.evaluate left f) fun a => .bind (.look _) fun truth => ?_
    cases op.decidedBy truth with
    | true => exact .pure a
    | false => exact holding (h.evaluate right f) a.cells
  | .call callee as => exact .bind (arguments h as) fun a => callName h callee a
  | .callValue callee as =>
    refine .bind (h.evaluate callee f) fun v => ?_
    exact .bind (holding (arguments h as) v.cells) fun a => callValue h v a
  | .chain origin es => exact chain h origin es

/-! ### Statements -/

theorem classStatement (h : K.Uniform n τ) (c : ClassId) (s : Statement) :
    Run.Uniform n τ fun i => (K.under i).classStatement c s := by
  obtain ⟨node, span⟩ := s
  cases node with
  | function d => exact .update _
  | _ =>
    refine .bind (.look _) fun scope => .bind (h.interpret _ ⟨scope, none⟩) fun o => ?_
    cases Knot.classStatementResult o with
    | none => exact .pure ()
    | some kind => exact .throw kind span

theorem classBody (h : K.Uniform n τ) (c : ClassId) (body : List Statement) :
    Run.Uniform n τ fun i => (K.under i).classBody c body := by
  induction body with
  | nil => exact .pure _
  | cons s rest ih => exact .bind (classStatement h c s) fun _ => ih

theorem defineClass (h : K.Uniform n τ) (d : ClassDecl) :
    Run.Uniform n τ fun i => (K.under i).defineClass d f := by
  refine .bind (.change fun w => w.openClass f.scope d (d.accessor.getD K.config.accessor))
    fun c => holding (.bind (classBody h c d.body) fun _ => ?_) _
  refine .bind (.look _) fun scope => ?_
  refine .bind (.look fun w => w.hasLocalFunction scope K.config.constructor) fun has => ?_
  cases has with
  | true => exact .act (Action.registerClass f.scope c)
  | false => exact .fail (.missingConstructor d.name K.config.constructor)

theorem blockStatement (h : K.Uniform n τ) (body : List Statement) :
    Run.Uniform n τ fun i => (K.under i).blockStatement body f :=
  .bind (.look _) fun _ => .bind (.change _) fun s =>
    followedBy (holding (block (f := ⟨s, f.receiver⟩) h body) _) _

theorem branches (h : K.Uniform n τ) (otherwise : Option (List Statement)) :
    ∀ bs : List Branch, Run.Uniform n τ fun i => (K.under i).branches f otherwise bs
  | [] => by
    cases otherwise with
    | some body => exact block h body
    | none => exact .pure _
  | ⟨condition, body⟩ :: rest => by
    refine .bind (h.evaluate condition f) fun v => .bind (.look _) fun truth => ?_
    cases truth with
    | true => exact block h body
    | false => exact branches h otherwise rest

/-- A loop with enough rounds runs out of fuel first, since each round takes a step. -/
theorem loop (h : K.Uniform n τ) (condition : Expr) (body : List Statement) :
    ∀ {k : Nat} {rounds : ι → Nat}, k ≤ n → (∀ i, k ≤ rounds i) →
      Run.Uniform k τ fun i => (K.under i).loop condition body f (rounds i)
  | 0, rounds, _, _ => by
    refine fun m fuel => ⟨.stopped, m, Nat.le_refl _, fun i => ?_⟩
    have stops : K.evaluate i condition f m = (.error .outOfFuel, m) :=
      (h.evaluations condition f).stops i (Nat.le_zero.mp fuel)
    show (K.under i).loop condition body f (rounds i) m = (.error .outOfFuel, m)
    cases rounds i with
    | zero => rfl
    | succ r =>
      show (K.evaluate i condition f >>= _) m = (.error .outOfFuel, m)
      rw [Run.bind_apply, stops]
      rfl
  | k + 1, rounds, le, enough => by
    obtain ⟨left, more, rfl⟩ := exists_pred enough
    refine ((h.evaluations condition f).mono le).bind fun v => .bind (.look _) fun truth => ?_
    cases truth with
    | false => exact .pure _
    | true =>
      refine .bind ((block h body).mono (Nat.le_of_succ_le le)) fun o => ?_
      cases o with
      | settled v => exact loop h condition body (Nat.le_of_succ_le le) more
      | continued => exact loop h condition body (Nat.le_of_succ_le le) more
      | _ => exact .pure _

theorem node (h : K.Uniform n τ) (x : Node) : Run.Uniform n τ fun i => (K.under i).node x f := by
  match x with
  | .expression e => exact .bind (h.evaluate e f) fun _ => .pure _
  | .declare d => exact .bind (declareVariable h d f.scope) fun _ => .pure _
  | .assign name value => exact .bind (assignVariable h name value) fun _ => .pure _
  | .block body => exact blockStatement h body
  | .cond bs otherwise => exact branches h otherwise bs
  | .loop condition body => exact loop h condition body (Nat.le_refl n) h.rounds
  | .return none => exact .pure _
  | .return (some e) => exact .bind (h.evaluate e f) fun _ => .pure _
  | .break => exact .pure _
  | .continue => exact .pure _
  | .throw e => exact .bind (h.evaluate e f) fun _ => .pure _
  | .function d => exact .bind (.update _) fun _ => .pure _
  | .classDef d => exact .bind (defineClass h d) fun _ => .pure _
  | .typeAlias name t => exact .bind (.change _) fun _ => .pure _

theorem programFrom (h : K.Uniform n τ) (root : ScopeId) :
    ∀ (program : List Statement) (last : Value),
      Run.Uniform n τ fun i => (K.under i).programFrom root last program
  | [], _ => .pure _
  | s :: rest, last => by
    refine .bind (holding (h.interpret s ⟨root, none⟩) last.cells) fun o => ?_
    cases o with
    | settled v => exact programFrom h root rest v
    | returned v => exact .pure v
    | thrown v => exact .throw (.uncaughtThrow v) s.span
    | broke => exact .throw _ s.span
    | continued => exact .throw _ s.span

end Knots

/-- The evaluators of some variants. -/
def markedKnots (config : Config) (host : Host) (τ : ι → Marking) (depth : ι → Nat) : Knots ι :=
  { config, host, rounds := depth
    evaluate := fun i => (markedKnot (τ i) config host (depth i)).evaluate
    interpret := fun i => (markedKnot (τ i) config host (depth i)).interpret }

section Variants

variable (config : Config) (host : Host) {τ : ι → Marking}

theorem markedKnots_under (depth : ι → Nat) (i : ι) :
    (markedKnots config host τ depth).under i = markedKnot (τ i) config host (depth i) := by
  simp only [Knots.under, markedKnots]
  cases depth i <;> rfl

/-- Variants of enough depth do the same within some fuel: only the evaluations that an error leaves
make something of it, and each of them is a step. -/
theorem markedKnots_uniform : ∀ {n : Nat} {depth : ι → Nat}, (∀ i, n ≤ depth i) →
    (markedKnots config host τ depth).Uniform n τ
  | 0, depth, enough =>
    { rounds := enough
      evaluations := fun e f => .of_stops fun i m none => by
        show (markedKnot (τ i) config host (depth i)).evaluate e f m = _
        cases depth i with
        | zero => rfl
        | succ d => exact Run.tick_stops none
      statements := fun s f => .of_stops fun i m none => by
        show (markedKnot (τ i) config host (depth i)).interpret s f m = _
        cases depth i with
        | zero => rfl
        | succ d => exact Run.tick_stops none }
  | n + 1, depth, enough => by
    obtain ⟨left, more, rfl⟩ := exists_pred enough
    have ih := markedKnots_uniform more
    have term := fun (e : Expr) (f : Frame) => Knots.term (f := f) ih e.term
    have node := fun (s : Statement) (f : Frame) => Knots.node (f := f) ih s.node
    simp only [markedKnots_under] at term node
    exact
      { rounds := enough
        evaluations := fun e f => ⟨_, (term e f).leave (.expression e), fun _ _ _ => rfl⟩
        statements := fun s f => ⟨_, .bind (.look _) fun label =>
          (node s f).leave (.statement s label), fun _ _ _ => rfl⟩ }

end Variants

/-! ## Depth -/

/-- A knot that is deeper than its fuel lasts is as good as one that is not. -/
theorem programFrom_deeper (config : Config) (host : Host) {n d : Nat} (deep : n ≤ d)
    (root : ScopeId) (last : Value) (program : List Statement) {m : Machine} (fuel : m.fuel ≤ n) :
    (knot config host d).programFrom root last program m =
      (knot config host n).programFrom root last program m := by
  have uniform : (markedKnots config host (fun _ : Bool => .own) fun deeper =>
      if deeper then d else n).Uniform n _ :=
    markedKnots_uniform config host fun deeper => by cases deeper <;> simp [deep]
  obtain ⟨ending, m', -, runs⟩ := Knots.programFrom uniform root program last m fuel
  simp only [markedKnots_under, markedKnot_own] at runs
  exact (runs true).trans (runs false).symm

end ScopeLang
