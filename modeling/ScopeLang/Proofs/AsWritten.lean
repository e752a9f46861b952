/-
# What the accessor means in a method

Resolving the accessor is a rewrite of a body, done once where the method is defined.  What
the rewrite stands for is said here without it, by an evaluator for the text of a method as
it is written.  This evaluator works on the same machine and differs from the other one in one
place: read there, the accessor is the receiver (`Reading.readName`).  It knows two knots, since
the accessor has its meaning in the text of the method only: `text` goes on with the parts
of this text, and `called` runs all that is called or defined in it.

`ReadsAlike` is the agreement of the two on parts, and what it gives for a whole body is
`ReadsAlike.block`.  The defaults of the parameters are not part of the body.  They are
evaluated as they are written, by the evaluator that knows of no accessor.

A method runs its text so in all worlds that are later than its definition, among them those
that the same program comes to with more fuel (`Session.Reachable.reached_later`).
-/
import ScopeLang.Proofs.Accessors
import ScopeLang.Proofs.Annotations
import ScopeLang.Proofs.SearchOrder

namespace ScopeLang

/-! ## Reading a text with its accessor -/

/-- How the text of a method is read: for which accessor and receiver, and by which evaluators. -/
structure Reading where
  accessor : String
  receiver : InstanceId
  /-- Runs what the text calls and the classes that it defines. -/
  called : Knot
  /-- Runs the parts of the text. -/
  text : Knot

namespace Reading

variable (x : Reading)

/-- The accessor is read as the receiver, every other name as ever. -/
def readName (name : String) (s : ScopeId) : Run Value :=
  if name = x.accessor then return .ofDatum (.object x.receiver) else Knot.readName name s

/-- The error of an element, which it shows with its accessor resolved. -/
def invalidAccess (w : World) (target : Value) (element : Element) : ErrorKind :=
  Knot.invalidAccess w target (element.stripAccessor x.accessor)

def chainHead (element : Element) (frame : Frame) : Run Value :=
  match element with
  | .read name => x.readName name frame.scope
  | .call name arguments => do
      x.called.callName name (← x.text.arguments arguments frame) frame
  | element => x.text.chainHead element frame

def member (element : Element) (i : InstanceId) (frame : Frame) : Run Value :=
  match element with
  | .call name arguments =>
      Run.holding [i.cell] do
        let w ← Run.look id
        if w.hasLocalFunction (w.inst i).scope name then
          x.called.callMethod i name (← x.text.arguments arguments frame) frame.scope
        else Run.fail (x.invalidAccess w (.ofDatum (.object i)) element)
  | element => x.text.member element i frame

def virtual (element : Element) (target : Value) (frame : Frame) : Run Value :=
  Run.holding target.cells do
    match element with
    | .read name => Knot.applyIntrinsic target element name []
    | .call name arguments =>
        let arguments ← x.text.arguments arguments frame
        if arguments.named.isEmpty then
          Run.holding arguments.cells
            (Knot.applyIntrinsic target (element.stripAccessor x.accessor) name
              arguments.positional)
        else Run.fail (← Run.look fun w => x.invalidAccess w target element)
    | .assign _ _ | .declare _ => Run.fail (← Run.look fun w => x.invalidAccess w target element)

def chainStep (element : Element) (current : Value) (frame : Frame) : Run Value :=
  match current.object? with
  | some i => x.member element i frame
  | none => x.virtual element current frame

def chainSteps (frame : Frame) : Value → List Element → Run Value
  | current, [] => return current
  | current, element :: rest => do
      chainSteps frame (← x.chainStep element current frame) rest

def chain (origin : ChainOrigin) (elements : List Element) (frame : Frame) : Run Value := do
  match elements with
  | [] => return .null
  | head :: rest =>
      let first ← match origin with
        | .scope => x.chainHead head frame
        | .receiver => do x.member head (← x.called.receiver frame) frame
      x.chainSteps frame first rest

def term (t : Term) (frame : Frame) : Run Value := do
  match t with
  | .variable name => x.readName name frame.scope
  | .call callee arguments => x.called.callName callee (← x.text.arguments arguments frame) frame
  | .callValue callee arguments =>
      let callee ← x.text.evaluate callee frame
      let arguments ← Run.holding callee.cells (x.text.arguments arguments frame)
      x.called.callValue callee arguments frame
  | .chain origin elements => x.chain origin elements frame
  | t => x.text.term t frame

def expression (e : Expr) (frame : Frame) : Run Value :=
  Run.mapError (fun error => error.orSpan e.span) (x.term e.term frame)

def node (n : Node) (frame : Frame) : Run Outcome := do
  match n with
  | .classDef d =>
      x.called.defineClass d frame
      return .settled .null
  | n => x.text.node n frame

def statement (s : Statement) (frame : Frame) : Run Outcome := do
  let label ← Run.look fun w => (w.scope frame.scope).label
  Run.mapError (fun error => (error.orSpan s.span).withContext s.node.kind label)
    (x.node s.node frame)

end Reading

/-- The evaluator of the text of a method that runs on `r`, for at most `n` evaluations inside
each other. -/
def asWritten (a : String) (r : InstanceId) (config : Config) (host : Host) : Nat → Knot
  | 0 => knot config host 0
  | n + 1 =>
      { config, host, rounds := n + 1
        evaluate := fun e frame => do
          Run.tick
          Reading.expression ⟨a, r, knot config host n, asWritten a r config host n⟩ e frame
        interpret := fun s frame => do
          Run.tick
          Reading.statement ⟨a, r, knot config host n, asWritten a r config host n⟩ s frame }

/-! ## References to the accessor -/

/-- The elements that follow where a chain reads a variable. -/
def Term.afterRead : Term → List Element
  | .chain _ (_ :: rest) => rest
  | _ => []

/-- Where a text reads its accessor, the resolved text starts from the receiver. -/
theorem Knot.term_accessor (k : Knot) {a : String} {r : InstanceId} {s : ScopeId} {t : Term}
    (reads : t.read? = some a) :
    k.term (t.stripAccessor a) ⟨s, some r⟩ =
      k.chainSteps ⟨s, some r⟩ (.ofDatum (.object r)) (stripElements a t.afterRead) := by
  have receiver : k.receiver ⟨s, some r⟩ = pure r := rfl
  cases t with
  | «variable» name =>
    obtain rfl : name = a := Option.some.inj reads
    simp only [Term.stripAccessor, resolveVariable, if_true, term, receiver, pure_bind,
      Term.afterRead, stripElements, chainSteps]
  | chain origin elements =>
    rcases origin with _ | _
    case receiver => cases reads
    rcases elements with _ | ⟨name | _ | _ | _, rest⟩
    case cons.read =>
      obtain rfl : name = a := Option.some.inj reads
      rcases rest with _ | ⟨element, rest⟩
      · simp only [Term.stripAccessor, stripElements, Element.stripAccessor, resolveChain, if_true,
          List.isEmpty_nil, term, receiver, pure_bind, Term.afterRead, chainSteps]
      · simp only [Term.stripAccessor, stripElements, Element.stripAccessor, resolveChain, if_true,
          List.isEmpty_cons, Bool.false_eq_true, if_false, term, chain, receiver, pure_bind,
          Term.afterRead, chainSteps]
        rfl
    all_goals cases reads
  | _ => cases reads

/-! ## Agreement on the parts -/

/-- On a receiver, `k` runs the parts of a resolved text just as `o` runs those of the text as it
is written. -/
structure ReadsAlike (a : String) (r : InstanceId) (k o : Knot) : Prop where
  rounds : k.rounds = o.rounds
  evaluate : ∀ e s, k.evaluate (e.stripAccessor a) ⟨s, some r⟩ = o.evaluate e ⟨s, some r⟩
  interpret : ∀ t s, k.interpret (t.stripAccessor a) ⟨s, some r⟩ = o.interpret t ⟨s, some r⟩

namespace ReadsAlike

variable {a : String} {r : InstanceId} {k o : Knot} {s : ScopeId}

theorem items (h : ReadsAlike a r k o) (es : List Expr) :
    k.items ⟨s, some r⟩ (stripExprs a es) = o.items ⟨s, some r⟩ es := by
  induction es with
  | nil => rfl
  | cons e rest ih => simp only [stripExprs, Knot.items, h.evaluate, ih]

theorem entries (h : ReadsAlike a r k o) (es : List Entry) :
    k.entries ⟨s, some r⟩ (stripEntries a es) = o.entries ⟨s, some r⟩ es := by
  induction es with
  | nil => rfl
  | cons e rest ih =>
    obtain ⟨key, value⟩ := e
    simp only [stripEntries, Entry.stripAccessor, Knot.entries, h.evaluate, ih]

theorem arguments (h : ReadsAlike a r k o) (as : List Argument) :
    k.arguments (stripArguments a as) ⟨s, some r⟩ = o.arguments as ⟨s, some r⟩ := by
  unfold Knot.arguments
  generalize (⟨[], []⟩ : CallArguments) = done
  induction as generalizing done with
  | nil => rfl
  | cons x rest ih =>
    obtain ⟨name, value⟩ := x
    simp only [stripArguments, Argument.stripAccessor, Knot.argumentsFrom, h.evaluate, ih]

theorem declareVariable (h : ReadsAlike a r k o) (d : VariableDecl) (target : ScopeId) :
    k.declareVariable (d.stripAccessor a) ⟨s, some r⟩ target =
      o.declareVariable d ⟨s, some r⟩ target := by
  obtain ⟨name, type, initial, flags⟩ := d
  cases initial with
  | none => rfl
  | some initial =>
    simp only [VariableDecl.stripAccessor, Knot.declareVariable, h.evaluate]

theorem assignVariable (h : ReadsAlike a r k o) (name : String) (value : Expr) :
    k.assignVariable name (value.stripAccessor a) ⟨s, some r⟩ =
      o.assignVariable name value ⟨s, some r⟩ := by
  simp only [Knot.assignVariable, h.evaluate]

/-! ## Chains -/

theorem chainHead (h : ReadsAlike a r k o) {element : Element} (other : element ≠ .read a) :
    k.chainHead (element.stripAccessor a) ⟨s, some r⟩ =
      Reading.chainHead ⟨a, r, k, o⟩ element ⟨s, some r⟩ := by
  cases element with
  | read name =>
    have name_ : name ≠ a := fun same => other (congrArg _ same)
    exact (if_neg name_).symm
  | assign name value => exact h.assignVariable name value
  | declare d => exact h.declareVariable d s
  | call name as =>
    simp only [Element.stripAccessor, Knot.chainHead, h.arguments, Reading.chainHead]

theorem member (h : ReadsAlike a r k o) (element : Element) (i : InstanceId) :
    k.member (element.stripAccessor a) i ⟨s, some r⟩ =
      Reading.member ⟨a, r, k, o⟩ element i ⟨s, some r⟩ := by
  cases element with
  | read name => rfl
  | assign name value =>
    simp only [Element.stripAccessor, Knot.member, h.evaluate, Reading.member]
  | declare d =>
    simp only [Element.stripAccessor, Knot.member, h.declareVariable, Reading.member]
  | call name as =>
    simp only [Element.stripAccessor, Knot.member, h.arguments, Reading.member,
      Reading.invalidAccess]

theorem virtual (h : ReadsAlike a r k o) (element : Element) (target : Value) :
    k.virtual (element.stripAccessor a) target ⟨s, some r⟩ =
      Reading.virtual ⟨a, r, k, o⟩ element target ⟨s, some r⟩ := by
  cases element with
  | read name | assign name value | declare d => rfl
  | call name as =>
    simp only [Element.stripAccessor, Knot.virtual, h.arguments, Reading.virtual,
      Reading.invalidAccess]

theorem chainStep (h : ReadsAlike a r k o) (element : Element) (current : Value) :
    k.chainStep (element.stripAccessor a) current ⟨s, some r⟩ =
      Reading.chainStep ⟨a, r, k, o⟩ element current ⟨s, some r⟩ := by
  unfold Knot.chainStep Reading.chainStep
  cases current.object? with
  | some i => exact h.member element i
  | none => exact h.virtual element current

theorem chainSteps (h : ReadsAlike a r k o) (elements : List Element) : ∀ current,
    k.chainSteps ⟨s, some r⟩ current (stripElements a elements) =
      Reading.chainSteps ⟨a, r, k, o⟩ ⟨s, some r⟩ current elements := by
  induction elements with
  | nil => exact fun _ => rfl
  | cons element rest ih =>
    intro current
    simp only [stripElements, Knot.chainSteps, Reading.chainSteps, h.chainStep, ih]

theorem chain (h : ReadsAlike a r k o) (origin : ChainOrigin) (elements : List Element) :
    k.term (resolveChain a origin (stripElements a elements)) ⟨s, some r⟩ =
      Reading.chain ⟨a, r, k, o⟩ origin elements ⟨s, some r⟩ := by
  cases elements with
  | nil => cases origin <;> rfl
  | cons head rest =>
    cases origin with
    | receiver =>
      simp only [stripElements, resolveChain, Knot.term, Knot.chain, Reading.chain, h.member,
        h.chainSteps]
    | scope =>
      by_cases accessor : head = .read a
      · have first : Reading.chain ⟨a, r, k, o⟩ .scope (.read a :: rest) ⟨s, some r⟩ =
            Reading.chainSteps ⟨a, r, k, o⟩ ⟨s, some r⟩ (.ofDatum (.object r)) rest := by
          simp only [Reading.chain, Reading.chainHead, Reading.readName, if_true, pure_bind]
        rw [accessor, first, ← h.chainSteps]
        exact k.term_accessor (t := .chain .scope (.read a :: rest)) rfl
      · -- any other chain keeps its head
        have kept : resolveChain a .scope (stripElements a (head :: rest)) =
            .chain .scope (stripElements a (head :: rest)) := by
          cases head with
          | read name => exact if_neg fun same => accessor (congrArg _ same)
          | _ => rfl
        rw [kept]
        simp only [stripElements, Knot.term, Knot.chain, Reading.chain, h.chainHead accessor,
          h.chainSteps]

/-! ## Expressions -/

theorem term (h : ReadsAlike a r k o) (t : Term) :
    k.term (t.stripAccessor a) ⟨s, some r⟩ = Reading.term ⟨a, r, k, o⟩ t ⟨s, some r⟩ := by
  cases t with
  | literal l => rfl
  | receiver => rfl
  | «variable» name =>
    by_cases accessor : name = a
    · rw [k.term_accessor (t := .variable name) (congrArg some accessor), Reading.term,
        Reading.readName, if_pos accessor]
      rfl
    · simp only [Term.stripAccessor, resolveVariable, if_neg accessor, Reading.term,
        Reading.readName]
      rfl
  | sequence kind es => simp only [Term.stripAccessor, Knot.term, h.items, Reading.term]
  | dict es => simp only [Term.stripAccessor, Knot.term, h.entries, Reading.term]
  | unary op e => simp only [Term.stripAccessor, Knot.term, h.evaluate, Reading.term]
  | binary op e e' => simp only [Term.stripAccessor, Knot.term, h.evaluate, Reading.term]
  | logical op e e' => simp only [Term.stripAccessor, Knot.term, h.evaluate, Reading.term]
  | call callee as => simp only [Term.stripAccessor, Knot.term, h.arguments, Reading.term]
  | callValue callee as =>
    simp only [Term.stripAccessor, Knot.term, h.evaluate, h.arguments, Reading.term]
  | chain origin elements => exact h.chain origin elements

theorem expression (h : ReadsAlike a r k o) (e : Expr) :
    k.expression (e.stripAccessor a) ⟨s, some r⟩ =
      Reading.expression ⟨a, r, k, o⟩ e ⟨s, some r⟩ := by
  rw [Knot.expression, e.stripAccessor_term, e.stripAccessor_span, h.term]
  rfl

/-! ## Statements -/

theorem block (h : ReadsAlike a r k o) (body : List Statement) :
    k.block (stripBlock a body) ⟨s, some r⟩ = o.block body ⟨s, some r⟩ := by
  unfold Knot.block
  generalize Value.null = last
  induction body generalizing last with
  | nil => rfl
  | cons t rest ih => simp only [stripBlock, Knot.blockFrom, h.interpret, ih]

theorem blockStatement (h : ReadsAlike a r k o) (body : List Statement) :
    k.blockStatement (stripBlock a body) ⟨s, some r⟩ = o.blockStatement body ⟨s, some r⟩ := by
  simp only [Knot.blockStatement, h.block]

theorem branches (h : ReadsAlike a r k o) (otherwise : Option (List Statement))
    (bs : List Branch) :
    k.branches ⟨s, some r⟩ (otherwise.map (stripBlock a)) (stripBranches a bs) =
      o.branches ⟨s, some r⟩ otherwise bs := by
  induction bs with
  | nil =>
    cases otherwise with
    | none => rfl
    | some body => exact h.block body
  | cons b rest ih =>
    obtain ⟨condition, body⟩ := b
    simp only [stripBranches, Branch.stripAccessor, Knot.branches, h.evaluate, h.block, ih]

theorem loop (h : ReadsAlike a r k o) (condition : Expr) (body : List Statement) (n : Nat) :
    k.loop (condition.stripAccessor a) (stripBlock a body) ⟨s, some r⟩ n =
      o.loop condition body ⟨s, some r⟩ n := by
  induction n with
  | zero => rfl
  | succ n ih => simp only [Knot.loop, h.evaluate, h.block, ih]

theorem node (h : ReadsAlike a r k o) (n : Node) :
    k.node (n.stripAccessor a) ⟨s, some r⟩ = Reading.node ⟨a, r, k, o⟩ n ⟨s, some r⟩ := by
  cases n with
  | expression e | throw e => simp only [Node.stripAccessor, Knot.node, h.evaluate, Reading.node]
  | declare d => simp only [Node.stripAccessor, Knot.node, h.declareVariable, Reading.node]
  | assign name value => simp only [Node.stripAccessor, Knot.node, h.assignVariable, Reading.node]
  | block body => exact h.blockStatement body
  | cond bs otherwise =>
    cases otherwise with
    | none => exact h.branches none bs
    | some body => exact h.branches (some body) bs
  | loop condition body =>
    simp only [Node.stripAccessor, Knot.node, h.loop, h.rounds, Reading.node]
  | «return» value =>
    cases value with
    | none => rfl
    | some e => simp only [Node.stripAccessor, Knot.node, h.evaluate, Reading.node]
  | «break» | «continue» | function f | classDef d | typeAlias name t => rfl

theorem statement (h : ReadsAlike a r k o) (t : Statement) :
    k.statement (t.stripAccessor a) ⟨s, some r⟩ =
      Reading.statement ⟨a, r, k, o⟩ t ⟨s, some r⟩ := by
  have kind : (t.node.stripAccessor a).kind = t.node.kind := by
    cases t.node with
    | cond bs otherwise => cases otherwise <;> rfl
    | «return» value => cases value <;> rfl
    | _ => rfl
  simp only [Knot.statement, t.stripAccessor_node, t.stripAccessor_span, kind, h.node,
    Reading.statement]

end ReadsAlike

/-- Whatever the depth, a resolved text runs as the text does that is written. -/
theorem readsAlike_asWritten (a : String) (r : InstanceId) (config : Config) (host : Host) :
    ∀ n, ReadsAlike a r (knot config host n) (asWritten a r config host n)
  | 0 => ⟨rfl, fun _ _ => rfl, fun _ _ => rfl⟩
  | n + 1 =>
    have h := readsAlike_asWritten a r config host n
    { rounds := rfl
      evaluate := fun e _ => congrArg (Run.tick >>= fun _ => ·) (h.expression e)
      interpret := fun t _ => congrArg (Run.tick >>= fun _ => ·) (h.statement t) }

/-! ## Calls of methods -/

namespace Knot

/-- Evaluates as `k` does and interprets statements as `o` does. -/
def interpretingAs (k o : Knot) : Knot := { k with interpret := o.interpret }

theorem block_interpretingAs (k o : Knot) (body : List Statement) (frame : Frame) :
    (k.interpretingAs o).block body frame = o.block body frame := by
  unfold block
  generalize Value.null = last
  induction body generalizing last with
  | nil => rfl
  | cons t rest ih => simp only [interpretingAs, blockFrom] at ih ⊢; simp only [ih]

/-- The defaults are evaluated as `k` does. -/
theorem installAll_interpretingAs (k o : Knot) (frame : Frame) (ps : List ParameterSpec) :
    ∀ slots, (k.interpretingAs o).installAll frame ps slots = k.installAll frame ps slots := by
  induction ps with
  | nil => exact fun _ => rfl
  | cons p ps ih =>
    rintro (_ | ⟨slot, slots⟩)
    · rfl
    · exact congrArg (k.install p frame slot >>= fun _ => ·) (ih slots)

end Knot

/-- A method with a body of the program runs it in a scope of its own. -/
theorem Knot.invokeMethod_user (k : Knot) {h : Handle .method} {m : Machine}
    {body : List Statement} (text : (m.world.method h).procedure.body = .user body)
    (slots : List (Slot Value)) (receiver : InstanceId) (caller : ScopeId) :
    k.invokeMethod h slots receiver caller m =
      k.runCall (m.world.method h).procedure body slots caller
        (Action.enterMethod caller receiver (m.world.method h).procedure.name) (some receiver)
        m := by
  rw [invokeMethod, Run.bind_apply]
  simp only [Run.look, ExceptT.bindCont, text]

/-- A call whose body is resolved is the call of the body that is written. -/
theorem ReadsAlike.runCall {a : String} {r : InstanceId} {k o : Knot} (h : ReadsAlike a r k o)
    (p : Procedure) (body : List Statement) (slots : List (Slot Value)) (caller : ScopeId)
    (enter : Action ScopeId) :
    k.runCall p (stripBlock a body) slots caller enter (some r) =
      (k.interpretingAs o).runCall p body slots caller enter (some r) := by
  simp only [Knot.runCall, Knot.runBody, h.block, Knot.block_interpretingAs,
    Knot.installAll_interpretingAs]

namespace World

variable {D : Dialect} {w w' : World} {c : ClassId} {d : FunctionDecl}

/-- The method that a definition makes. -/
def definedMethod (w : World) (c : ClassId) (d : FunctionDecl) : Handle .method :=
  ((w.boundMethod c d).2.newMethod ⟨(w.boundMethod c d).1, c⟩).1

/-- It is new, and has the procedure of the definition. -/
theorem method_definedMethod (w : World) (c : ClassId) (d : FunctionDecl) :
    (w.definedMethod c d).In (w.defineMethod c d).count ∧
      (w.defineMethod c d).method (w.definedMethod c d) = ⟨(w.boundMethod c d).1, c⟩ := by
  have bound : w.SameCode (w.boundMethod c d).2 := w.sameCode_bindProcedure _ _ _ _ _
  have made : (w.definedMethod c d).In (w.defineMethod c d).count :=
    (newMethod_in _ _).mono (grows_registerFunction _ _ _ _).count
  refine ⟨made, w.method_defineMethod c d (fun old => ?_) made⟩
  have vacant : ¬ (w.definedMethod c d).In (w.boundMethod c d).2.count := Nat.lt_irrefl _
  exact vacant (by simpa only [Handle.In, count, bound.methods] using old)

/-- The class lists it under its name. -/
theorem lists_definedMethod (class_ : (w.scope (w.classOf c).scope).kind = .classScope)
    (d : FunctionDecl) :
    ∃ o, o.callable = .method (w.definedMethod c d) ∧
      o ∈ (((w.defineMethod c d).scope (w.classOf c).scope).functions.get? d.name).getD [] := by
  have defined : ∃ o : Overload, o.callable = .method (w.definedMethod c d) ∧
      w.defineMethod c d = ((w.boundMethod c d).2.newMethod
        ⟨(w.boundMethod c d).1, c⟩).2.registerFunction (w.classOf c).scope d.name o :=
    ⟨_, rfl, rfl⟩
  obtain ⟨o, method_, defined⟩ := defined
  refine ⟨o, method_, ?_⟩
  rw [defined]
  generalize (w.classOf c).scope = s at class_ ⊢
  generalize added : ((w.boundMethod c d).2.newMethod ⟨(w.boundMethod c d).1, c⟩).2 = w₁
  have scope : w₁.scope s = w.scope s := by
    rw [← added]
    exact scope_bindProcedure _ d.name d.parameters d.returns
      (.user (stripBlock (w.classOf c).accessor d.body)) w s
  have inside : s.In w₁.count := by
    by_contra new
    rw [← scope, scope_default new] at class_
    cases class_
  have local_ : w₁.registrationRoot? s = none := if_neg (by rw [scope, class_]; exact nofun)
  rw [registerFunction, local_]
  simp only
  rw [scope_setScope, if_pos ⟨rfl, inside⟩, Table.get?_append, if_pos rfl, Option.getD_some]
  exact List.mem_append_right _ (List.mem_singleton_self o)

/-- A method that runs its text as it is written, with the accessor of its class for the
receiver. -/
structure RunsAsWritten (D : Dialect) (w : World) (d : FunctionDecl) (h : Handle .method) :
    Prop where
  /-- No name of the accessor is left in what the method keeps of the text. -/
  unused : ∃ body, (w.method h).procedure.body = .user body ∧
    ¬ UsesIn (w.classOf (w.method h).classId).accessor body
  /-- Where the text reads the accessor, there stands the receiver of the invocation, and a chain
  goes on with its members. -/
  references : ∀ {t : Term}, t.read? = some (w.classOf (w.method h).classId).accessor →
    ∀ (k : Knot) (s : ScopeId) (r : InstanceId),
      k.term (t.stripAccessor (w.classOf (w.method h).classId).accessor) ⟨s, some r⟩ =
        k.chainSteps ⟨s, some r⟩ (.ofDatum (.object r))
          (stripElements (w.classOf (w.method h).classId).accessor t.afterRead)
  /-- Every later invocation, on whatever receiver. -/
  invoked : ∀ {w'}, w.Later D w' → ∀ config host n slots r caller cells fuel calls,
    (knot config host n).invokeMethod h slots r caller ⟨w'.hold cells, fuel, calls⟩ =
      ((knot config host n).interpretingAs
        (asWritten (w.classOf (w.method h).classId).accessor r config host n)).runCall
          (w.method h).procedure d.body slots caller (Action.enterMethod caller r d.name) (some r)
          ⟨w'.hold cells, fuel, calls⟩

theorem runsAsWritten (sound : Sound D w) (hc : c.In w.count)
    (body : (w.classOf c).captured.isSome = true) (marks : D.Admits d.marks) :
    (w.defineMethod c d).RunsAsWritten D d (w.definedMethod c d) := by
  obtain ⟨made, method_⟩ := w.method_definedMethod c d
  obtain ⟨sound', grows⟩ :=
    Steps.kept (steps_defineMethod sound hc body marks) sound (sound.classScope hc)
  have class_ : (w.defineMethod c d).classOf c = w.classOf c := grows.classOf hc
  have text : (w.boundMethod c d).1.body = .user (stripBlock (w.classOf c).accessor d.body) := rfl
  refine ⟨?_, fun reads k s r => k.term_accessor reads, ?_⟩
  · rw [method_, class_, text]
    exact ⟨_, rfl, not_usesIn_stripBlock d.body⟩
  · intro w' later config host n slots r caller cells fuel calls
    have kept : (w'.hold cells).method (w.definedMethod c d) = ⟨(w.boundMethod c d).1, c⟩ :=
      ((later.kept sound').2.method made).trans method_
    have text' : ((w'.hold cells).method (w.definedMethod c d)).procedure.body = _ :=
      (congrArg (·.procedure.body) kept).trans text
    rw [method_, class_, Knot.invokeMethod_user _ text', kept,
      (readsAlike_asWritten _ r config host n).runCall]
    rfl

end World

/-! ## Runs of programs -/

/-- At every moment of every program, a method that is defined in a class of the program is listed
under its name there, and from then on it runs its text as it is written, where the accessor of the
class is the receiver of the invocation. -/
theorem Session.Reachable.accessor_receives {natives : String → Prop} {S : Session}
    (h : S.Reachable (.full natives)) (obeys : S.host.Obeys (.full natives)) (fuel : Nat)
    (program : List Statement) {c : ClassId} (hc : c.In (S.reached fuel program).world.count)
    (body : ((S.reached fuel program).world.classOf c).captured.isSome = true)
    (d : FunctionDecl) :
    ∃ m, (∃ o, o.callable = .method m ∧
        o ∈ ((((S.reached fuel program).world.defineMethod c d).scope
          ((S.reached fuel program).world.classOf c).scope).functions.get? d.name).getD []) ∧
      (((S.reached fuel program).world.defineMethod c d).classOf
          (((S.reached fuel program).world.defineMethod c d).method m).classId).accessor =
        ((S.reached fuel program).world.classOf c).accessor ∧
      ((S.reached fuel program).world.defineMethod c d).RunsAsWritten (.full natives) d m := by
  have admitted := Dialect.admits_of_sharing (D := .full natives) trivial
  obtain ⟨f, ready, kin⟩ := h.reached kin_invariant kin_start obeys (admitted _) fuel
  generalize (S.reached fuel program).world = w at *
  obtain ⟨-, grows⟩ := Steps.kept (steps_defineMethod ready.sound hc body (admitted d.marks))
    ready.sound (ready.sound.classScope hc)
  refine ⟨w.definedMethod c d, World.lists_definedMethod (kin.classKind hc) d, ?_,
    World.runsAsWritten ready.sound hc body (admitted d.marks)⟩
  rw [(w.method_definedMethod c d).2, grows.classOf hc]

/-- A method that returns what `me` is. -/
def tellsMe : FunctionDecl := ⟨"who", .closure, [], none, [returning (.variable "me")]⟩

/-- A program with a variable `me`, which is also the accessor of the class `A`. -/
def twoOfMe : List Statement :=
  [declaring "me" (.literal (.int 5)),
    ⟨.classDef ⟨"A", some "me", [methodNamed "construct" [], ⟨.function tellsMe, Span.none⟩]⟩,
      Span.none⟩,
    ⟨.expression (.ofTerm (.chain .scope [.call "A" [], .call "who" []])), Span.none⟩]

/-- Whether a run yields an instance. -/
def yieldsInstance : Except Halt Value → Bool
  | .ok v => v.object?.isSome
  | .error _ => false

/-- The method returns the instance that it is called on, though it could see the variable. -/
theorem accessor_receives_twoOfMe :
    ∃ w, w = ((Session.start {} Kit.host).reached 9 twoOfMe).world ∧
      (w.classOf ⟨0⟩).accessor = "me" ∧ (w.binding? (w.classOf ⟨0⟩).scope "me").isSome = true ∧
      (∃ m, (w.defineMethod ⟨0⟩ tellsMe).RunsAsWritten (.full fun _ => True) tellsMe m) ∧
      yieldsInstance ((Session.start {} Kit.host).run 60 twoOfMe).1 = true := by
  have obeys : Kit.host.Obeys (.full fun _ => True) := Kit.host_obeys fun _ _ => .inl trivial
  obtain ⟨m, -, -, runs⟩ := Session.Reachable.accessor_receives (.start {} Kit.host) obeys 9 twoOfMe
    (c := ⟨0⟩) (by decide +kernel) (by decide +kernel) tellsMe
  exact ⟨_, rfl, by decide +kernel, by decide +kernel, ⟨m, runs⟩, by decide +kernel⟩

/-! ## Defaults -/

/-- A method that returns its argument, by default what `self` is. -/
def returnsDefault (kind : FunctionKind) : FunctionDecl :=
  ⟨"m", kind, [⟨"p", none, some (.ofTerm (.variable "self")), false, {}⟩], none,
    [returning (.variable "p")]⟩

/-- A program with a variable `self` that calls the method without an argument. -/
def defaultSelf (kind : FunctionKind) : List Statement :=
  [declaring "self" (.literal (.int 5)),
    ⟨.classDef ⟨"A", none,
      [methodNamed "construct" [], ⟨.function (returnsDefault kind), Span.none⟩]⟩, Span.none⟩,
    ⟨.expression (.ofTerm (.chain .scope [.call "A" [], .call "m" []])), Span.none⟩]

/-- Whether a run yields a number. -/
def yieldsInt (n : Int32) : Except Halt Value → Bool
  | .ok ⟨.number (.int m), _⟩ => m == n
  | _ => false

/-- In a default the accessor is a variable like any other: the call fails for want of it, or
finds the variable that the class keeps. -/
theorem not_accessor_receives_default :
    (∀ kind, (∀ p ∈ (returnsDefault kind).parameters, p.name ≠ "self") ∧
      "self" ∉ blockBinds (returnsDefault kind).body) ∧
    wants "self" ((Session.start {} Kit.host).run 60 (defaultSelf .function)).1 = true ∧
    yieldsInt 5 ((Session.start {} Kit.host).run 60 (defaultSelf .closure)).1 = true := by
  refine ⟨fun kind => ⟨?_, ?_⟩, by decide +kernel, by decide +kernel⟩
  · cases kind <;> decide +kernel
  · cases kind <;> decide +kernel

end ScopeLang
