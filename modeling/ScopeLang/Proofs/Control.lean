/-
# Signals stay inside their construct

The evaluator is orderly because a statement that stands at a place yields an
outcome which the place allows.  That is all the induction needs: a block stands
where its statements do, a loop takes up the signals that only its body may
yield, and the body of a function, of a class or of a program starts at a place
of its own.  Of an expression nothing has to be known, since the code that it
can come to is the code of the world.

What the host supplies is outside of this.  Its bodies are assumed to be orderly
themselves, as those are that neither raise an error about control nor define
code.
-/
import ScopeLang.Host.Kit
import ScopeLang.Proofs.Orderly

namespace ScopeLang

/-- A host whose bodies keep control well placed. -/
def Host.Orderly (host : Host) : Prop := ∀ body call, (host.run body call).Orderly

/-- A knot whose recursive calls are orderly. -/
structure Knot.Orderly (k : Knot) : Prop where
  host : k.host.Orderly
  evaluate : ∀ e f, (k.evaluate e f).Orderly Any
  interpret : ∀ p s f, Statement.placed p s = true →
    (k.interpret s f).Orderly fun o => p.allows o = true

namespace Knot

variable {k : Knot} {f : Frame} {p : Place}

/-! ## Arguments -/

theorem orderly_checkArgument (q : ParameterSpec) (s : ScopeId) (v : Value) :
    (checkArgument q s v).Orderly := by
  simp only [checkArgument]
  split
  · exact Action.orderly_checkType s _ _ v
  · exact .pure _

theorem orderly_default (h : k.Orderly) (q : ParameterSpec) : (k.default q f).Orderly Any := by
  simp only [default]
  split
  · exact h.evaluate _ f
  · exact .pure trivial

theorem orderly_materialize (h : k.Orderly) (q : ParameterSpec) :
    ∀ slot, (k.materialize q f slot).Orderly Any
  | .spread vs => .act (Action.orderly_newList vs)
  | .value v => .act_then (orderly_checkArgument q f.scope v) fun _ => .pure trivial
  | .omitted => .bind (orderly_default h q) fun v _ =>
      .act_then (orderly_checkArgument q f.scope v) fun _ => .pure trivial

theorem orderly_materializeAll (h : k.Orderly) :
    ∀ (qs : List ParameterSpec) (slots : List (Slot Value)),
      (k.materializeAll f qs slots).Orderly Any
  | [], _ => .pure trivial
  | _ :: _, [] => .pure trivial
  | q :: qs, slot :: slots => by
    refine .bind (orderly_materialize h q slot) fun v _ => ?_
    refine .bind (.holding (orderly_materializeAll h qs slots)) fun vs _ => ?_
    exact .pure trivial

theorem orderly_argument (h : k.Orderly) (q : ParameterSpec) :
    ∀ slot, (k.argument q f slot).Orderly Any
  | .spread vs => .act_then (Action.orderly_newList vs) fun _ => .pure trivial
  | .value _ => .pure trivial
  | .omitted => .bind (orderly_default h q) fun _ _ => .pure trivial

theorem orderly_install (h : k.Orderly) (q : ParameterSpec) (slot : Slot Value) :
    (k.install q f slot).Orderly Any := by
  refine .bind (orderly_argument h q slot) fun x _ => ?_
  refine .act_then (Action.orderly_checkType f.scope _ _ _) fun _ => ?_
  exact .act (Action.orderly_declareVariable f.scope _ _)

theorem orderly_installAll (h : k.Orderly) :
    ∀ (qs : List ParameterSpec) (slots : List (Slot Value)), (k.installAll f qs slots).Orderly Any
  | [], _ => .pure trivial
  | _ :: _, [] => .pure trivial
  | q :: qs, slot :: slots =>
    .bind (orderly_install h q slot) fun _ _ => orderly_installAll h qs slots

/-! ## Bodies -/

/-- A block yields what its place allows. -/
theorem orderly_blockFrom (h : k.Orderly) : ∀ {body : List Statement} (last : Value),
    blockPlaced p body = true → (k.blockFrom f last body).Orderly fun o => p.allows o = true
  | [], _, _ => .pure rfl
  | s :: rest, last, placed => by
    rw [blockPlaced, Bool.and_eq_true] at placed
    refine .bind (.holding (h.interpret p s f placed.1)) fun o allowed => ?_
    cases o with
    | settled v => exact orderly_blockFrom h v placed.2
    | _ => exact .pure allowed

theorem orderly_block (h : k.Orderly) {body : List Statement} (placed : blockPlaced p body = true) :
    (k.block body f).Orderly fun o => p.allows o = true :=
  orderly_blockFrom h .null placed

/-- The outcome of a body is a value, a value thrown, or none. -/
theorem orderly_result (procedure : Procedure) (s : ScopeId) {o : Outcome}
    (allowed : Place.body.allows o = true) : (result procedure s o).Orderly := by
  cases o with
  | settled v =>
    refine .bind (.look _) fun admitted => ?_
    cases admitted with
    | true => exact .pure _
    | false => exact .throw rfl
  | returned v => exact .pure v
  | thrown v => exact .throw rfl
  | broke => cases allowed
  | continued => cases allowed

theorem orderly_runBody (h : k.Orderly) {procedure : Procedure} {body : List Statement}
    (placed : blockPlaced .body body = true) (slots : List (Slot Value)) :
    (k.runBody procedure body slots f).Orderly Any := by
  refine .bind (orderly_installAll h procedure.parameters slots) fun _ _ => ?_
  refine .bind (orderly_block h placed) fun o allowed => ?_
  refine .act_then (orderly_result procedure f.scope allowed) fun v => ?_
  exact .act_then (Action.orderly_checkType f.scope _ _ v) fun _ => .pure trivial

theorem orderly_runCall (h : k.Orderly) {procedure : Procedure} {body : List Statement}
    (placed : blockPlaced .body body = true) (slots : List (Slot Value)) (caller : ScopeId)
    {enter : Action ScopeId} (entering : enter.Orderly) (receiver : Option InstanceId) :
    (k.runCall procedure body slots caller enter receiver).Orderly Any := by
  refine .act_then entering fun s => ?_
  exact .followedBy (.holding (orderly_runBody h placed slots)) fun w => w.sameCode_removeChild _ _

theorem orderly_runNative (h : k.Orderly) (procedure : Procedure) (body : String)
    (slots : List (Slot Value)) (caller : Frame) (scope : ScopeId) :
    (k.runNative procedure body slots caller scope).Orderly Any := by
  refine .bind (orderly_materializeAll h procedure.parameters slots) fun arguments _ => ?_
  refine .bind (.holding (.act (h.host body _))) fun v _ => ?_
  exact .act_then (Action.orderly_checkType caller.scope _ _ v) fun _ => .pure trivial

/-! ## Invocations -/

/-- The code of a function is code of the world. -/
theorem orderly_invokeFunction (h : k.Orderly) (x : Handle .function) (slots : List (Slot Value))
    (caller : ScopeId) : (k.invokeFunction x slots caller).Orderly Any := by
  refine .bind (Q := fun f => f.procedure.body.placed = true)
    (.look fun w placed => placed.function x) fun f placed => ?_
  split
  · exact orderly_runNative h f.procedure _ slots ⟨caller, none⟩ caller
  · rename_i body user
    rw [user] at placed
    exact orderly_runCall h placed slots caller (Action.orderly_enter caller _ _ _) none

theorem orderly_invokeMethod (h : k.Orderly) (x : Handle .method) (slots : List (Slot Value))
    (receiver : InstanceId) (caller : ScopeId) :
    (k.invokeMethod x slots receiver caller).Orderly Any := by
  refine .bind (Q := fun m => m.procedure.body.placed = true)
    (.look fun w placed => placed.method x) fun m placed => ?_
  split
  · exact .look_then fun scope =>
      orderly_runNative h m.procedure _ slots ⟨caller, some receiver⟩ scope
  · rename_i body user
    rw [user] at placed
    exact orderly_runCall h placed slots caller (Action.orderly_enterMethod caller receiver _) _

theorem orderly_invoke (h : k.Orderly) (access : Access) (r : Resolution) :
    (k.invoke access r f).Orderly Any := by
  refine .holding ?_
  split
  · exact .during (orderly_invokeFunction h _ r.slots f.scope)
  · split
    · exact .during (orderly_invokeMethod h _ r.slots _ f.scope)
    · exact .look_then fun _ => .fail rfl
  · exact .fail rfl

theorem orderly_callMethod (h : k.Orderly) (receiver : InstanceId) (name : String)
    (arguments : CallArguments) (caller : ScopeId) :
    (k.callMethod receiver name arguments caller).Orderly Any := by
  refine .holding (.look_then fun home => ?_)
  refine .act_then (Action.orderly_resolveFunction home name arguments) fun r => ?_
  exact orderly_invoke h .member r

theorem orderly_instantiate (h : k.Orderly) (c : ClassId) (arguments : CallArguments)
    (caller : ScopeId) : (k.instantiate c arguments caller).Orderly Any := by
  refine .holding (.act_then (.changeSame fun w => w.sameCode_makeInstance c) fun made => ?_)
  refine .look_then fun home => .look_then fun has => ?_
  cases has with
  | true => exact .bind (orderly_callMethod h made _ arguments caller) fun _ _ => .pure trivial
  | false => exact .look_then fun _ => .fail rfl

theorem orderly_callValue (h : k.Orderly) (callee : Value) (arguments : CallArguments) :
    (k.callValue callee arguments f).Orderly Any := by
  have among : ∀ name candidates, Run.Orderly (do
      k.invoke .value (← Action.resolveAmong f.scope name candidates arguments) f) Any :=
    fun name candidates => .act_then (Action.orderly_resolveAmong f.scope name candidates arguments)
      fun r => orderly_invoke h .value r
  refine .holding ?_
  split
  · exact .look_then fun set => among set.name set.overloads
  · exact orderly_instantiate h _ arguments f.scope
  · exact .look_then fun name => among name _
  · exact .fail rfl

theorem orderly_callName (h : k.Orderly) (name : String) (arguments : CallArguments) :
    (k.callName name arguments f).Orderly Any := by
  refine .holding (.look_then fun w => ?_)
  split
  · exact orderly_callValue h _ arguments
  · split
    · exact .act_then (Action.orderly_resolveAmong f.scope name _ arguments)
        fun r => orderly_invoke h .name r
    · split
      · exact orderly_instantiate h _ arguments f.scope
      · exact .fail rfl

/-! ## Expressions -/

theorem orderly_items (h : k.Orderly) (es : List Expr) : (k.items f es).Orderly Any := by
  induction es with
  | nil => exact .pure trivial
  | cons e rest ih =>
    refine .bind (h.evaluate e f) fun v _ => ?_
    refine .act_then (Action.orderly_duplicate v) fun v => ?_
    exact .bind (.holding ih) fun _ _ => .pure trivial

theorem orderly_entries (h : k.Orderly) : ∀ es : List Entry, (k.entries f es).Orderly Any
  | [] => .pure trivial
  | ⟨key, value⟩ :: rest => by
    refine .bind (h.evaluate key f) fun x _ => ?_
    refine .act_then (Action.orderly_duplicate x) fun x => .holding ?_
    refine .bind (h.evaluate value f) fun y _ => ?_
    refine .act_then (Action.orderly_duplicate y) fun y => ?_
    exact .bind (.holding (orderly_entries h rest)) fun _ _ => .pure trivial

theorem orderly_argumentsFrom (h : k.Orderly) : ∀ (done : CallArguments) (as : List Argument),
    (k.argumentsFrom f done as).Orderly Any
  | _, [] => .pure trivial
  | done, ⟨name, value⟩ :: rest =>
    .bind (.holding (h.evaluate value f)) fun v _ =>
      orderly_argumentsFrom h (done.add name v) rest

theorem orderly_arguments (h : k.Orderly) (as : List Argument) :
    (k.arguments as f).Orderly Any :=
  orderly_argumentsFrom h ⟨[], []⟩ as

theorem orderly_readName (name : String) (s : ScopeId) : (readName name s).Orderly := by
  have getting : (get : Action World).Orderly := .look id
  refine .bind_of getting (P := fun _ => True) (fun _ _ _ => trivial) fun w _ => ?_
  split
  · exact .pure _
  · rename_i kind e
    split
    · exact .bind (.changeSame fun _ => ⟨rfl, rfl⟩) fun _ => .pure _
    · exact .pure _
    · refine .throw ?_
      simp only [World.getVariable] at e
      split at e
      · cases e
      · cases e
        rfl

theorem orderly_receiver : (k.receiver f).Orderly Any := by
  simp only [receiver]
  split
  · exact .pure trivial
  · exact .fail rfl

theorem orderly_declareVariable (h : k.Orderly) (d : VariableDecl) (target : ScopeId) :
    (k.declareVariable d f target).Orderly Any := by
  refine .act_then (.changeSame fun w => w.sameCode_withPool f.scope _) fun declared => ?_
  have finish : ∀ v : Value, Run.Orderly (do
      let inferred ← Run.change fun w => w.inferType f.scope v
      let v := { v with attrs := { v.attrs with inferred, displayName := some d.name } }
      Action.declareVariable target d.name ⟨v, d.flags, declared⟩
      return v) Any := by
    intro v
    refine .act_then (.changeSame fun w => w.sameCode_withPool f.scope _) fun inferred => ?_
    exact .act_then (Action.orderly_declareVariable target d.name _) fun _ => .pure trivial
  cases d.initial with
  | none => exact finish .null
  | some e =>
    refine .bind (h.evaluate e f) fun v _ => ?_
    exact .act_then (Action.orderly_checkType target d.name declared v) fun _ => finish v

theorem orderly_assignVariable (h : k.Orderly) (name : String) (value : Expr) :
    (k.assignVariable name value f).Orderly Any := by
  refine .bind (h.evaluate value f) fun v _ => ?_
  exact .act_then (Action.orderly_updateVariable f.scope name v) fun _ => .pure trivial

theorem orderly_chainHead (h : k.Orderly) (e : Element) : (k.chainHead e f).Orderly Any := by
  cases e with
  | read name => exact .act (orderly_readName name f.scope)
  | assign name value => exact orderly_assignVariable h name value
  | declare d => exact orderly_declareVariable h d f.scope
  | call name arguments =>
    exact .bind (orderly_arguments h arguments) fun a _ => orderly_callName h name a

theorem orderly_assignMember (i : InstanceId) (name : String) (v : Value) :
    (assignMember i name v).Orderly := by
  refine .bind (.look _) fun found => ?_
  cases found with
  | some s => exact Action.orderly_updateLocalVariable s name v
  | none => exact .throw rfl

theorem orderly_member (h : k.Orderly) (e : Element) (i : InstanceId) :
    (k.member e i f).Orderly Any := by
  refine .holding ?_
  cases e with
  | read name =>
    refine .look_then fun w => ?_
    split
    · exact .pure trivial
    · exact .fail rfl
  | assign name value =>
    refine .bind (h.evaluate value f) fun v _ => ?_
    exact .act_then (orderly_assignMember i name v) fun _ => .pure trivial
  | declare d => exact .look_then fun home => orderly_declareVariable h d home
  | call name arguments =>
    refine .look_then fun w => ?_
    split
    · exact .bind (orderly_arguments h arguments) fun a _ =>
        orderly_callMethod h i name a f.scope
    · exact .fail rfl

theorem orderly_invalidAccess (target : Value) (e : Element) :
    Run.Orderly (do Run.fail (← Run.look fun w => invalidAccess w target e) : Run Value) Any :=
  .bind (Q := fun kind => kind.isMisplaced = false) (.look fun _ _ => rfl) fun _ other => .fail other

theorem orderly_applyIntrinsic (target : Value) (e : Element) (name : String)
    (vs : List Value) : (applyIntrinsic target e name vs).Orderly Any := by
  simp only [applyIntrinsic]
  split
  · rename_i run found
    exact .act (orderly_intrinsic found vs)
  · exact orderly_invalidAccess target e

theorem orderly_virtual (h : k.Orderly) (e : Element) (target : Value) :
    (k.virtual e target f).Orderly Any := by
  refine .holding ?_
  cases e with
  | read name => exact orderly_applyIntrinsic target _ name []
  | assign name value => exact orderly_invalidAccess target _
  | declare d => exact orderly_invalidAccess target _
  | call name arguments =>
    refine .bind (orderly_arguments h arguments) fun a _ => ?_
    split
    · exact .holding (orderly_applyIntrinsic target _ name a.positional)
    · exact orderly_invalidAccess target _

theorem orderly_chainSteps (h : k.Orderly) : ∀ (current : Value) (es : List Element),
    (k.chainSteps f current es).Orderly Any
  | _, [] => .pure trivial
  | current, e :: rest => by
    have first : (k.chainStep e current f).Orderly Any := by
      simp only [chainStep]
      split
      · exact orderly_member h e _
      · exact orderly_virtual h e current
    exact .bind first fun v _ => orderly_chainSteps h v rest

theorem orderly_chain (h : k.Orderly) (origin : ChainOrigin) (es : List Element) :
    (k.chain origin es f).Orderly Any := by
  cases es with
  | nil => exact .pure trivial
  | cons head rest =>
    cases origin with
    | scope => exact .bind (orderly_chainHead h head) fun v _ => orderly_chainSteps h v rest
    | receiver =>
      refine .bind orderly_receiver fun i _ => ?_
      exact .bind (orderly_member h head i) fun v _ => orderly_chainSteps h v rest

theorem orderly_term (h : k.Orderly) (t : Term) : (k.term t f).Orderly Any := by
  match t with
  | .literal l => exact .pure trivial
  | .sequence kind es =>
    exact .bind (orderly_items h es) fun vs _ => .act (Action.orderly_build vs kind)
  | .dict es => exact .bind (orderly_entries h es) fun es _ => .act (Action.orderly_newDict es)
  | .variable name => exact .act (orderly_readName name f.scope)
  | .receiver => exact .bind orderly_receiver fun _ _ => .pure trivial
  | .unary op operand =>
    exact .bind (h.evaluate operand f) fun v _ => .act (Action.orderly_unary op v)
  | .binary op left right =>
    refine .bind (h.evaluate left f) fun a _ => ?_
    exact .bind (.holding (h.evaluate right f)) fun b _ => .act (Action.orderly_binary op a b)
  | .logical op left right =>
    refine .bind (h.evaluate left f) fun a _ => .look_then fun truth => ?_
    split
    · exact .pure trivial
    · exact .holding (h.evaluate right f)
  | .call callee arguments =>
    exact .bind (orderly_arguments h arguments) fun a _ => orderly_callName h callee a
  | .callValue callee arguments =>
    refine .bind (h.evaluate callee f) fun v _ => ?_
    exact .bind (.holding (orderly_arguments h arguments)) fun a _ => orderly_callValue h v a
  | .chain origin es => exact orderly_chain h origin es

theorem orderly_expression (h : k.Orderly) (e : Expr) : (k.expression e f).Orderly Any :=
  .mapError (orderly_term h e.term) fun _ => rfl

/-! ## Statements -/

theorem orderly_blockStatement (h : k.Orderly) {body : List Statement}
    (placed : blockPlaced p body = true) :
    (k.blockStatement body f).Orderly fun o => p.allows o = true := by
  refine .look_then fun label => .act_then (.changeSame fun w => ⟨rfl, rfl⟩) fun s => ?_
  exact .followedBy (.holding (orderly_block h placed)) fun w => w.sameCode_removeChild _ _

theorem orderly_branches (h : k.Orderly) {otherwise : Option (List Statement)}
    (last : ∀ body, otherwise = some body → blockPlaced p body = true) :
    ∀ {bs : List Branch}, branchesPlaced p bs = true →
      (k.branches f otherwise bs).Orderly fun o => p.allows o = true
  | [], _ => by
    cases otherwise with
    | none => exact .pure rfl
    | some body => exact orderly_block h (last body rfl)
  | ⟨condition, body⟩ :: rest, placed => by
    rw [branchesPlaced, Branch.placed, Bool.and_eq_true] at placed
    refine .bind (h.evaluate condition f) fun v _ => .look_then fun truth => ?_
    cases truth with
    | true => exact orderly_block h placed.1
    | false => exact orderly_branches h last placed.2

/-- A loop takes up what its place may not allow. -/
theorem orderly_loop (h : k.Orderly) (condition : Expr) {body : List Statement}
    (placed : blockPlaced p.inLoop body = true) :
    ∀ n, (k.loop condition body f n).Orderly fun o => p.allows o = true
  | 0 => .stop
  | n + 1 => by
    refine .bind (h.evaluate condition f) fun v _ => .look_then fun truth => ?_
    cases truth with
    | false => exact .pure rfl
    | true =>
      refine .bind (orderly_block h placed) fun o allowed => ?_
      cases o with
      | settled v => exact orderly_loop h condition placed n
      | continued => exact orderly_loop h condition placed n
      | broke => exact .pure rfl
      | returned v => exact .pure allowed
      | thrown v => exact .pure allowed

theorem orderly_classStatement (h : k.Orderly) (c : ClassId) {s : Statement}
    (placed : s.placed .classBody = true) : (k.classStatement c s).Orderly Any := by
  obtain ⟨node, span⟩ := s
  simp only [classStatement]
  split
  · rename_i d _
    exact .act (.update fun w world => world.defineMethod placed c)
  · refine .look_then fun scope => .bind (h.interpret .classBody _ _ placed) fun o allowed => ?_
    cases o with
    | settled v => exact .pure trivial
    | thrown v => exact .throw rfl
    | returned v => cases allowed
    | broke => cases allowed
    | continued => cases allowed

theorem orderly_classBody (h : k.Orderly) (c : ClassId) : ∀ {body : List Statement},
    blockPlaced .classBody body = true → (k.classBody c body).Orderly Any
  | [], _ => .pure trivial
  | s :: rest, placed => by
    rw [blockPlaced, Bool.and_eq_true] at placed
    exact .bind (orderly_classStatement h c placed.1) fun _ _ => orderly_classBody h c placed.2

theorem orderly_defineClass (h : k.Orderly) {d : ClassDecl} (placed : d.placed = true) :
    (k.defineClass d f).Orderly Any := by
  obtain ⟨name, accessor, body⟩ := d
  refine .act_then (.changeSame fun w => w.sameCode_openClass f.scope _ _) fun c => ?_
  refine .holding (.bind (orderly_classBody h c placed) fun _ _ => .look_then fun scope => ?_)
  refine .look_then fun has => ?_
  cases has with
  | true => exact .act (Action.orderly_registerClass f.scope c)
  | false => exact .fail rfl

theorem orderly_node (h : k.Orderly) {n : Node} (placed : n.placed p = true) :
    (k.node n f).Orderly fun o => p.allows o = true := by
  match n with
  | .expression e => exact .bind (h.evaluate e f) fun _ _ => .pure rfl
  | .declare d => exact .bind (orderly_declareVariable h d f.scope) fun _ _ => .pure rfl
  | .assign name value => exact .bind (orderly_assignVariable h name value) fun _ _ => .pure rfl
  | .block body => exact orderly_blockStatement h placed
  | .cond bs none =>
    have last : ∀ body : List Statement, none = some body → blockPlaced p body = true := nofun
    exact orderly_branches h last placed
  | .cond bs (some otherwise) =>
    rw [Node.placed, Bool.and_eq_true] at placed
    exact orderly_branches h (fun _ e => Option.some.inj e ▸ placed.2) placed.1
  | .loop condition body => exact orderly_loop h condition placed k.rounds
  | .return none => exact .pure placed
  | .return (some e) => exact .bind (h.evaluate e f) fun _ _ => .pure placed
  | .break => exact .pure placed
  | .continue => exact .pure placed
  | .throw e => exact .bind (h.evaluate e f) fun _ _ => .pure rfl
  | .function d =>
    exact .act_then (.update fun w world => world.defineFunction placed f.scope) fun _ => .pure rfl
  | .classDef d => exact .bind (orderly_defineClass h placed) fun _ _ => .pure rfl
  | .typeAlias name t => exact .act_then (.changeSame fun w => ⟨rfl, rfl⟩) fun _ => .pure rfl

theorem orderly_statement (h : k.Orderly) {s : Statement} (placed : s.placed p = true) :
    (k.statement s f).Orderly fun o => p.allows o = true := by
  obtain ⟨node, span⟩ := s
  refine .look_then fun label => .mapError (orderly_node h placed) fun e => ?_
  simp only [RuntimeError.withContext, RuntimeError.orSpan]
  split <;> rfl

end Knot

/-! ## Tying the knot -/

/-- The evaluator of every depth is orderly. -/
theorem knot_orderly {config : Config} {host : Host} (orderly : host.Orderly) :
    ∀ n, (knot config host n).Orderly
  | 0 =>
    { host := orderly
      evaluate := fun _ _ => .stop
      interpret := fun _ _ _ _ => .stop }
  | n + 1 =>
    have tick : Run.Orderly Run.tick Any := .act (.changeSame fun w => .refl w)
    { host := orderly
      evaluate := fun e _ =>
        .bind tick fun _ _ => Knot.orderly_expression (knot_orderly orderly n) e
      interpret := fun _ _ _ placed =>
        .bind tick fun _ _ => Knot.orderly_statement (knot_orderly orderly n) placed }

namespace Knot

theorem orderly_programFrom {k : Knot} (h : k.Orderly) (root : ScopeId) :
    ∀ {program : List Statement} (last : Value), blockPlaced .body program = true →
      (k.programFrom root last program).Orderly Any
  | [], _, _ => .pure trivial
  | s :: rest, last, placed => by
    rw [blockPlaced, Bool.and_eq_true] at placed
    refine .bind (.holding (h.interpret .body s _ placed.1)) fun o allowed => ?_
    cases o with
    | settled v => exact orderly_programFrom h root v placed.2
    | returned v => exact .pure trivial
    | thrown v => exact .throw rfl
    | broke => cases allowed
    | continued => cases allowed

end Knot

/-! ## Sessions -/

namespace Session

/-- A session of an orderly host, in which only code has been run whose control is well placed. -/
inductive Orderly : Session → Prop
  | start (config : Config) {host : Host} : host.Orderly → Orderly (start config host)
  | function {s : Session} (name : String) (parameters : List Parameter)
      (returns : Option TypeExpr) (body : String) : Orderly s →
      Orderly { s with world := s.world.addNative s.root name parameters returns body }
  | method {s : Session} (c : ClassId) (name : String) (parameters : List Parameter)
      (returns : Option TypeExpr) (body : String) : Orderly s →
      Orderly { s with world := s.world.addNativeMethod s.root c name parameters returns body }
  | classObject {s : Session} (name : String) (accessor : Option String)
      (methods : List NativeMethod) (constructor : NativeMethod) : Orderly s →
      Orderly (s.addNativeClass name accessor methods constructor).2
  | run {s : Session} (fuel : Nat) {program : List Statement} : Orderly s →
      blockPlaced .body program = true → Orderly (s.run fuel program).2
  | evaluate {s : Session} (fuel : Nat) (e : Expr) : Orderly s → Orderly (s.evaluate fuel e).2
  | interpret {s : Session} (fuel : Nat) {p : Place} {statement : Statement} : Orderly s →
      statement.placed p = true → Orderly (s.interpret fuel statement).2
  | interpretBlock {s : Session} (fuel : Nat) {p : Place} {body : List Statement} : Orderly s →
      blockPlaced p body = true → Orderly (s.interpretBlock fuel body).2

theorem placed_start (config : Config) (host : Host) : (start config host).world.Placed :=
  ⟨fun _ => rfl, fun _ => rfl⟩

theorem placed_perform {α : Type} {s : Session} {fuel : Nat} {g : Knot → Run α} {Q : α → Prop}
    (orderly : (g (knot s.config s.host fuel)).Orderly Q) (placed : s.world.Placed) :
    (s.perform fuel g).2.world.Placed :=
  (orderly (s.machine fuel) placed).1

/-- Control stays well placed in the code of a session. -/
theorem Orderly.placed {s : Session} (h : s.Orderly) : s.host.Orderly ∧ s.world.Placed := by
  induction h with
  | start config host => exact ⟨host, placed_start config _⟩
  | function name ps returns body _ ih => exact ⟨ih.1, ih.2.addNative _ name ps returns body⟩
  | method c name ps returns body _ ih =>
    exact ⟨ih.1, ih.2.addNativeMethod _ c name ps returns body⟩
  | @classObject s name accessor methods constructor _ ih =>
    refine ⟨ih.1, ?_⟩
    have opened := (s.world.sameCode_addClass s.root name (accessor.getD s.config.accessor) none)
    have filled := (opened.placed ih.2).addAll
      (s.world.addClass s.root name (accessor.getD s.config.accessor) none).1
      (methods ++ [{ constructor with name := s.config.constructor }])
    exact (Action.orderly_registerClass s.root _ _ filled).1
  | run fuel _ placed ih =>
    exact ⟨ih.1, placed_perform (Knot.orderly_programFrom (knot_orderly ih.1 _) _ _ placed) ih.2⟩
  | evaluate fuel e _ ih =>
    exact ⟨ih.1, placed_perform (Knot.orderly_expression (knot_orderly ih.1 _) e) ih.2⟩
  | interpret fuel _ placed ih =>
    exact ⟨ih.1, placed_perform (Knot.orderly_statement (knot_orderly ih.1 _) placed) ih.2⟩
  | interpretBlock fuel _ placed ih =>
    exact ⟨ih.1, placed_perform (Knot.orderly_block (knot_orderly ih.1 _) placed) ih.2⟩

/-- No program of an orderly session raises an error about control. -/
theorem Orderly.run_placed {s : Session} (h : s.Orderly) {program : List Statement}
    (placed : blockPlaced .body program = true) (fuel : Nat) {e : RuntimeError}
    (failed : (s.run fuel program).1 = .error (.error e)) : e.kind.isMisplaced = false := by
  obtain ⟨host, world⟩ := h.placed
  have knotted : (knot s.config s.host fuel).Orderly := knot_orderly host fuel
  have orderly := Knot.orderly_programFrom knotted s.root .null placed (s.machine fuel) world
  simp only [Session.run, Session.perform] at failed
  generalize (knot s.config s.host fuel).programFrom s.root .null program (s.machine fuel) = made
    at orderly failed
  obtain ⟨result, m⟩ := made
  cases failed
  exact orderly.2

end Session

/-! ## The kit -/

namespace Kit

theorem orderly_foldlM {α β : Type} {f : β → α → Action β} (each : ∀ b a, (f b a).Orderly) :
    ∀ (items : List α) (b : β), (items.foldlM f b).Orderly
  | [], b => .pure b
  | a :: rest, b => .bind (each b a) fun b => orderly_foldlM each rest b

theorem orderly_stack (c : NativeCall) : c.stack.Orderly := by
  have getting : (get : Action World).Orderly := .look id
  refine .bind getting fun w => ?_
  split
  · exact .pure _
  · exact .throw rfl

theorem orderly_getVariable (s : ScopeId) (name : String) :
    (Action.consult fun w => w.getVariable s name).Orderly := by
  refine .consult fun w kind e => ?_
  simp only [World.getVariable] at e
  split at e
  · cases e
  · cases e
    rfl

/-- The bodies of the kit keep control well placed. -/
theorem host_orderly : host.Orderly := by
  intro body c
  simp only [host, run]
  split
  · exact Action.orderly_newList _
  · simp only [sum]
    split
    · exact .pure _
    · exact orderly_foldlM (Action.orderly_binary .add) _ _
  · exact .pure _
  · exact .pure _
  · exact .throw rfl
  · exact .look _
  · exact .look _
  · exact .pure _
  · exact orderly_getVariable _ _
  · exact .bind (Action.orderly_updateVariable _ _ _) fun _ => .pure _
  · exact .bind (Action.orderly_declareVariable _ _ _) fun _ => .pure _
  · simp only [newStack]
    split
    · exact .pure _
    · exact .changeSame fun _ => ⟨rfl, rfl⟩
  · exact .bind (orderly_stack c) fun _ => .changeSame fun _ => ⟨rfl, rfl⟩
  · exact .bind (orderly_stack c) fun _ => .changeSame fun _ => ⟨rfl, rfl⟩
  · exact .bind (orderly_stack c) fun _ => .look _
  · exact .pure _

end Kit

end ScopeLang
