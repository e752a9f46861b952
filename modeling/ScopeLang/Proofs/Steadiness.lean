/-
# The evaluator is steady

All runs of the evaluator are steady, whatever code they run: one lemma for each of its
functions, and an induction on how deep expressions and statements are nested
(`knot_steady`).  Of the bodies of the host this is assumed, and of those of the kit it
is proved.

It follows for sessions that they hold nothing but their root between two acts of the host
(`Session.Act.quiet`), and that at every moment of a program the surroundings of all code in
progress are held (`Session.Reachable.secured`).
-/
import ScopeLang.Proofs.Steady

namespace ScopeLang

/-! ## The evaluator -/

/-- A host whose bodies pay no attention to how cells are held, and leave the surroundings of code
alone. -/
structure Host.Steady (host : Host) : Prop where
  blind : host.Blind
  persists : ∀ body call, Action.Within World.Persists (host.run body call)

/-- A knot whose recursive calls are steady. -/
structure Knot.Steady (k : Knot) : Prop where
  host : k.host.Steady
  evaluate : ∀ e f, (k.evaluate e f).Steady f.Stands
  interpret : ∀ s f, (k.interpret s f).Steady f.Stands

namespace Knot

open Run.Steady World

variable {k : Knot} {f : Frame}

/-! ### Arguments -/

theorem steady_default (h : k.Steady) (q : ParameterSpec) : (k.default q f).Steady f.Stands := by
  simp only [default]
  split
  · exact h.evaluate _ f
  · exact .pure _

theorem steady_check (q : ParameterSpec) (v : Value) :
    Run.Steady f.Stands (Run.ofAction (checkArgument q f.scope v)) :=
  .act (blind_checkArgument q f.scope v) (within_checkArgument q f.scope v)

theorem steady_materialize (h : k.Steady) (q : ParameterSpec) :
    ∀ slot, (k.materialize q f slot).Steady f.Stands
  | .spread vs => .act (Action.blind_newList vs) (Action.within_newList vs)
  | .value v => .bind (steady_check q v) fun _ => .pure _
  | .omitted => .bind (steady_default h q) fun v => .bind (steady_check q v) fun _ => .pure _

theorem steady_materializeAll (h : k.Steady) :
    ∀ (qs : List ParameterSpec) (slots : List (Slot Value)),
      (k.materializeAll f qs slots).Steady f.Stands
  | [], _ => .pure _
  | _ :: _, [] => .pure _
  | q :: qs, slot :: slots => by
    refine .bind (steady_materialize h q slot) fun v => ?_
    exact .bind (holding (.value v) (steady_materializeAll h qs slots)) fun vs => .pure _

theorem steady_argument (h : k.Steady) (q : ParameterSpec) :
    ∀ slot, (k.argument q f slot).Steady f.Stands
  | .spread vs => .act_then (Action.blind_newList vs) (Action.within_newList vs) fun _ => .pure _
  | .value _ => .pure _
  | .omitted => .bind (steady_default h q) fun _ => .pure _

theorem steady_declare (s : ScopeId) (name : String) (b : Binding) :
    Run.Steady f.Stands (Run.ofAction (Action.declareVariable s name b)) :=
  .act (Action.blind_declareVariable s name b)
    (Action.within_declareVariable (fun w b => w.persists_setVariable s name b) b)

theorem steady_install (h : k.Steady) (q : ParameterSpec) (slot : Slot Value) :
    (k.install q f slot).Steady f.Stands := by
  refine .bind (steady_argument h q slot) fun x => ?_
  refine .check_then (blind_checkType f.scope q.name _ _) fun _ => ?_
  exact steady_declare f.scope q.name _

theorem steady_installAll (h : k.Steady) :
    ∀ (qs : List ParameterSpec) (slots : List (Slot Value)),
      (k.installAll f qs slots).Steady f.Stands
  | [], _ => .pure _
  | _ :: _, [] => .pure _
  | q :: qs, slot :: slots =>
    .bind (steady_install h q slot) fun _ => steady_installAll h qs slots

/-! ### Bodies -/

theorem steady_blockFrom (h : k.Steady) : ∀ (body : List Statement) (last : Value),
    (k.blockFrom f last body).Steady f.Stands
  | [], _ => .pure _
  | s :: rest, last => by
    refine .bind (holding (.value last) (h.interpret s f)) fun o => ?_
    cases o with
    | settled v => exact steady_blockFrom h rest v
    | _ => exact .pure _

theorem steady_block (h : k.Steady) (body : List Statement) : (k.block body f).Steady f.Stands :=
  steady_blockFrom h body .null

theorem steady_runBody (h : k.Steady) (procedure : Procedure) (body : List Statement)
    (slots : List (Slot Value)) : (k.runBody procedure body slots f).Steady f.Stands := by
  refine .bind (steady_installAll h procedure.parameters slots) fun _ => ?_
  refine .bind (steady_block h body) fun o => ?_
  refine .act_then (blind_result procedure f.scope o) (within_result procedure f.scope o)
    fun v => ?_
  exact .check_then (blind_checkType f.scope _ _ v) fun _ => .pure _

theorem steady_runNative (h : k.Steady) (procedure : Procedure) (body : String)
    (slots : List (Slot Value)) (caller : Frame) (scope : ScopeId) :
    (k.runNative procedure body slots caller scope).Steady caller.Stands := by
  refine .bind (steady_materializeAll h procedure.parameters slots) fun arguments => ?_
  refine .bind (holding (.flatMap .value) (.act (h.host.blind body _) (h.host.persists body _)))
    fun v => ?_
  exact .check_then (blind_checkType caller.scope _ _ v) fun _ => .pure _

/-! ### Invocations -/

theorem steady_invokeFunction (h : k.Steady) (x : Handle .function) (slots : List (Slot Value))
    (caller : ScopeId) : (k.invokeFunction x slots caller).Steady fun w =>
      Frame.Stands ⟨caller, none⟩ w ∧ x.cell ∈ w.held := by
  refine .look_gives (.plain fun _ _ => rfl) fun g => ?_
  split
  · exact (steady_runNative h g.procedure _ slots ⟨caller, none⟩ caller).weaken fun _ given =>
      given.1.1
  · rename_i body _
    refine .entering (fun t => steady_runBody (f := ⟨t, none⟩) h g.procedure body slots)
      (Action.blind_enter caller _ .functionCall g.procedure.name) ?_ fun _ _ _ => nofun
    rintro w - ⟨⟨stands, held⟩, found⟩
    refine founded_enter ?_ caller .functionCall g.procedure.name
    cases captured : g.captured with
    | none => exact stands.scope
    | some p =>
      rw [← found] at captured
      exact borne_captured held captured

theorem steady_invokeMethod (h : k.Steady) (x : Handle .method) (slots : List (Slot Value))
    (receiver : InstanceId) (caller : ScopeId) :
    (k.invokeMethod x slots receiver caller).Steady (Frame.Stands ⟨caller, some receiver⟩) := by
  refine .look_plain (fun _ _ => rfl) fun g => ?_
  split
  · exact .look_plain (fun _ _ => rfl) fun scope =>
      steady_runNative h g.procedure _ slots ⟨caller, some receiver⟩ scope
  · rename_i body _
    refine .entering (fun t => steady_runBody (f := ⟨t, some receiver⟩) h g.procedure body slots)
      (Action.blind_enterMethod caller receiver g.procedure.name) ?_ fun _ stands => stands.receiver
    intro w secured stands
    exact founded_enterMethod (secured.borne_home (stands.receiver receiver rfl)) caller _

theorem steady_invoke (h : k.Steady) (access : Access) (r : Resolution) :
    (k.invoke access r f).Steady f.Stands := by
  refine holding_gives (.callable r.overload.callable) ?_
  split
  · rename_i x callable
    refine .during (fun _ _ _ => nofun) ((steady_invokeFunction h x r.slots f.scope).weaken ?_)
    rintro w ⟨stands, held⟩
    exact ⟨⟨stands.scope, nofun⟩, held _ (callable ▸ List.mem_singleton_self _)⟩
  · split
    · rename_i receiver found
      have stands : ∀ w, f.Stands w → Frame.Stands ⟨f.scope, some receiver⟩ w := fun w stands =>
        ⟨stands.scope, fun x e => stands.receiver x (found.trans e)⟩
      refine .during (fun w given x e => (stands w given.1).receiver x e) ?_
      exact (steady_invokeMethod h _ r.slots receiver f.scope).weaken
        fun w given => stands w given.1
    · exact .look_plain (fun _ _ => rfl) fun _ => .fail _
  · exact .fail _

/-- What a call of a method does while its receiver and its arguments are held. -/
theorem steady_callOwn (h : k.Steady) (receiver : InstanceId) (name : String)
    (arguments : CallArguments) (caller : ScopeId) :
    Run.Steady (Frame.Stands ⟨caller, some receiver⟩) (do
      let home ← Run.look fun w => (w.inst receiver).scope
      let r ← Action.resolveFunction home name arguments
      k.invoke .member r ⟨caller, some receiver⟩) := by
  refine .look_plain (fun _ _ => rfl) fun home => ?_
  refine .act_then (Action.blind_resolveFunction home name arguments)
    (Action.within_resolveFunction home name arguments) fun r => ?_
  exact steady_invoke (f := ⟨caller, some receiver⟩) h .member r

theorem steady_callMethod (h : k.Steady) (receiver : InstanceId) (name : String)
    (arguments : CallArguments) (caller : ScopeId) :
    (k.callMethod receiver name arguments caller).Steady (Frame.Stands ⟨caller, none⟩) := by
  refine holding_gives (.cons nofun (.arguments arguments)) ?_
  refine (steady_callOwn h receiver name arguments caller).weaken fun w given =>
    ⟨given.1.scope, fun x e => ?_⟩
  exact Option.some.inj e ▸ given.2 _ List.mem_cons_self

theorem steady_instantiate (h : k.Steady) (c : ClassId) (arguments : CallArguments)
    (caller : ScopeId) :
    (k.instantiate c arguments caller).Steady (Frame.Stands ⟨caller, none⟩) := by
  refine holding (.cons nofun (.arguments arguments)) ?_
  refine .act_then (.change (blind_makeInstance c)) (.change fun w => w.persists_makeInstance c)
    fun made => ?_
  refine .look_plain (fun _ _ => rfl) fun home => .look_plain (fun _ _ => rfl) fun has => ?_
  cases has with
  | true => exact .bind (steady_callMethod h made _ arguments caller) fun _ => .pure _
  | false => exact .look_plain (fun _ _ => rfl) fun _ => .fail _

theorem steady_callValue (h : k.Steady) (callee : Value) (arguments : CallArguments) :
    (k.callValue callee arguments f).Steady f.Stands := by
  have among : ∀ name candidates, Run.Steady f.Stands (do
      k.invoke .value (← Action.resolveAmong f.scope name candidates arguments) f) :=
    fun name candidates => .act_then (Action.blind_resolveAmong f.scope name candidates arguments)
      (Action.within_resolveAmong f.scope name candidates arguments)
      fun r => steady_invoke h .value r
  refine holding ((World.Scopeless.value callee).append (.arguments arguments)) ?_
  split
  · exact .look_plain (fun _ _ => rfl) fun set => among set.name set.overloads
  · exact (steady_instantiate h _ arguments f.scope).weaken fun _ => Frame.Stands.bare
  · refine .look_then ?_ fun name => among name _
    rintro w _ ⟨cells, -, rfl⟩
    rfl
  · exact .fail _

theorem steady_callName (h : k.Steady) (name : String) (arguments : CallArguments) :
    (k.callName name arguments f).Steady f.Stands := by
  refine holding (.arguments arguments) (.look_world (fun w w' same => ?_) fun w => ?_)
  · simp only [callableVariable?, same.binding?_eq, same.lookupFunction_eq, same.lookupClass_eq]
  split
  · exact steady_callValue h _ arguments
  · split
    · exact .act_then (Action.blind_resolveAmong f.scope name _ arguments)
        (Action.within_resolveAmong f.scope name _ arguments) fun r => steady_invoke h .name r
    · split
      · exact (steady_instantiate h _ arguments f.scope).weaken fun _ => Frame.Stands.bare
      · exact .fail _

/-! ### Expressions -/

theorem steady_items (h : k.Steady) (es : List Expr) : (k.items f es).Steady f.Stands := by
  induction es with
  | nil => exact .pure _
  | cons e rest ih =>
    refine .bind (h.evaluate e f) fun v => ?_
    refine .act_then (Action.blind_duplicate v) (Action.within_duplicate v) fun v => ?_
    exact .bind (holding (.value v) ih) fun _ => .pure _

theorem steady_entries (h : k.Steady) : ∀ es : List Entry, (k.entries f es).Steady f.Stands
  | [] => .pure _
  | ⟨key, value⟩ :: rest => by
    refine .bind (h.evaluate key f) fun x => ?_
    refine .act_then (Action.blind_duplicate x) (Action.within_duplicate x) fun x =>
      holding (.value x) ?_
    refine .bind (h.evaluate value f) fun y => ?_
    refine .act_then (Action.blind_duplicate y) (Action.within_duplicate y) fun y => ?_
    exact .bind (holding (.value y) (steady_entries h rest)) fun _ => .pure _

theorem steady_argumentsFrom (h : k.Steady) : ∀ (done : CallArguments) (as : List Argument),
    (k.argumentsFrom f done as).Steady f.Stands
  | _, [] => .pure _
  | done, ⟨name, value⟩ :: rest =>
    .bind (holding (.arguments done) (h.evaluate value f)) fun v =>
      steady_argumentsFrom h (done.add name v) rest

theorem steady_arguments (h : k.Steady) (as : List Argument) :
    (k.arguments as f).Steady f.Stands :=
  steady_argumentsFrom h ⟨[], []⟩ as

theorem steady_receiver : (k.receiver f).Steady f.Stands := by
  simp only [receiver]
  split
  · exact .pure _
  · exact .fail _

theorem steady_declareVariable (h : k.Steady) (d : VariableDecl) (target : ScopeId) :
    (k.declareVariable d f target).Steady f.Stands := by
  refine .act_then (.change (blind_bindType f.scope d.type))
    (.change fun w => w.within_bindType f.scope d.type) fun declared => ?_
  have finish : ∀ v : Value, Run.Steady f.Stands (do
      let inferred ← Run.change fun w => w.inferType f.scope v
      let v := { v with attrs := { v.attrs with inferred, displayName := some d.name } }
      Action.declareVariable target d.name ⟨v, d.flags, declared⟩
      return v) := by
    intro v
    refine .act_then (.change (blind_inferType f.scope v))
      (.change fun w => w.within_inferType f.scope v) fun inferred => ?_
    exact .bind (steady_declare target d.name _) fun _ => .pure _
  cases d.initial with
  | none => exact finish .null
  | some e =>
    refine .bind (h.evaluate e f) fun v => ?_
    exact .check_then (blind_checkType target d.name declared v) fun _ => finish v

theorem steady_assignVariable (h : k.Steady) (name : String) (value : Expr) :
    (k.assignVariable name value f).Steady f.Stands := by
  refine .bind (h.evaluate value f) fun v => ?_
  exact .act_then (Action.blind_updateVariable f.scope name v)
    (Action.within_updateVariable (fun w t b => w.persists_setVariable t name b) f.scope v)
    fun _ => .pure _

theorem steady_readName (name : String) :
    Run.Steady f.Stands (Run.ofAction (readName name f.scope)) :=
  .act (blind_readName name f.scope) (within_readName name f.scope)

theorem steady_chainHead (h : k.Steady) (e : Element) : (k.chainHead e f).Steady f.Stands := by
  cases e with
  | read name => exact steady_readName name
  | assign name value => exact steady_assignVariable h name value
  | declare d => exact steady_declareVariable h d f.scope
  | call name arguments =>
    exact .bind (steady_arguments h arguments) fun a => steady_callName h name a

theorem steady_member (h : k.Steady) (e : Element) (i : InstanceId) :
    (k.member e i f).Steady f.Stands := by
  refine holding (.one nofun) ?_
  cases e with
  | read name =>
    refine .look_world (.plain fun _ _ => rfl) fun w => ?_
    split
    · exact .pure _
    · exact .fail _
  | assign name value =>
    refine .bind (h.evaluate value f) fun v => ?_
    exact .act_then (blind_assignMember i name v)
      (within_assignMember (fun w t b => w.persists_setVariable t name b) i v) fun _ => .pure _
  | declare d => exact .look_plain (fun _ _ => rfl) fun home => steady_declareVariable h d home
  | call name arguments =>
    refine .look_world (.plain fun _ _ => rfl) fun w => ?_
    split
    · exact .bind (steady_arguments h arguments) fun a =>
        (steady_callMethod h i name a f.scope).weaken fun _ => Frame.Stands.bare
    · exact .fail _

theorem steady_applyIntrinsic (target : Value) (e : Element) (name : String)
    (vs : List Value) : (applyIntrinsic target e name vs).Steady f.Stands := by
  simp only [applyIntrinsic]
  split
  · rename_i run found
    exact .act (blind_intrinsic found vs) (within_intrinsic found vs)
  · exact .look_plain (fun _ _ => rfl) fun _ => .fail _

theorem steady_virtual (h : k.Steady) (e : Element) (target : Value) :
    (k.virtual e target f).Steady f.Stands := by
  refine holding (.value target) ?_
  cases e with
  | read name => exact steady_applyIntrinsic target _ name []
  | assign name value => exact .look_plain (fun _ _ => rfl) fun _ => .fail _
  | declare d => exact .look_plain (fun _ _ => rfl) fun _ => .fail _
  | call name arguments =>
    refine .bind (steady_arguments h arguments) fun a => ?_
    split
    · exact holding (.arguments a) (steady_applyIntrinsic target _ name a.positional)
    · exact .look_plain (fun _ _ => rfl) fun _ => .fail _

theorem steady_chainSteps (h : k.Steady) : ∀ (current : Value) (es : List Element),
    (k.chainSteps f current es).Steady f.Stands
  | _, [] => .pure _
  | current, e :: rest => by
    have first : (k.chainStep e current f).Steady f.Stands := by
      simp only [chainStep]
      split
      · exact steady_member h e _
      · exact steady_virtual h e current
    exact .bind first fun v => steady_chainSteps h v rest

theorem steady_chain (h : k.Steady) (origin : ChainOrigin) (es : List Element) :
    (k.chain origin es f).Steady f.Stands := by
  cases es with
  | nil => exact .pure _
  | cons head rest =>
    cases origin with
    | scope => exact .bind (steady_chainHead h head) fun v => steady_chainSteps h v rest
    | receiver =>
      refine .bind steady_receiver fun i => ?_
      exact .bind (steady_member h head i) fun v => steady_chainSteps h v rest

theorem steady_term (h : k.Steady) (t : Term) : (k.term t f).Steady f.Stands := by
  match t with
  | .literal l => exact .pure _
  | .sequence kind es =>
    exact .bind (steady_items h es) fun vs =>
      .act (Action.blind_build vs kind) (Action.within_build vs kind)
  | .dict es =>
    exact .bind (steady_entries h es) fun es =>
      .act (Action.blind_newDict es) (Action.within_newDict es)
  | .variable name => exact steady_readName name
  | .receiver => exact .bind steady_receiver fun _ => .pure _
  | .unary op operand =>
    exact .bind (h.evaluate operand f) fun v =>
      .act (.consult (.plain fun _ _ => rfl)) (.consult _)
  | .binary op left right =>
    refine .bind (h.evaluate left f) fun a => ?_
    exact .bind (holding (.value a) (h.evaluate right f)) fun b =>
      .act (Action.blind_binary op a b) (Action.within_binary op a b)
  | .logical op left right =>
    refine .bind (h.evaluate left f) fun a => .look_plain (fun _ _ => rfl) fun truth => ?_
    split
    · exact .pure _
    · exact holding (.value a) (h.evaluate right f)
  | .call callee arguments =>
    exact .bind (steady_arguments h arguments) fun a => steady_callName h callee a
  | .callValue callee arguments =>
    refine .bind (h.evaluate callee f) fun v => ?_
    exact .bind (holding (.value v) (steady_arguments h arguments)) fun a =>
      steady_callValue h v a
  | .chain origin es => exact steady_chain h origin es

theorem steady_expression (h : k.Steady) (e : Expr) : (k.expression e f).Steady f.Stands :=
  .mapError (steady_term h e.term)

/-! ### Statements -/

/-- A block enters a scope and leaves it. -/
theorem steady_blockStatement (h : k.Steady) (body : List Statement) :
    (k.blockStatement body f).Steady f.Stands := by
  refine .look_plain (fun _ _ => rfl) fun label => ?_
  refine .entering (fun t => steady_block (f := ⟨t, f.receiver⟩) h body)
    (.change (blind_createChild f.scope .block label)) ?_ fun _ stands => stands.receiver
  intro w _ stands
  exact founded_createChild stands.scope label

theorem steady_branches (h : k.Steady) (otherwise : Option (List Statement)) :
    ∀ bs : List Branch, (k.branches f otherwise bs).Steady f.Stands
  | [] => by
    cases otherwise with
    | none => exact .pure _
    | some body => exact steady_block h body
  | ⟨condition, body⟩ :: rest => by
    refine .bind (h.evaluate condition f) fun v => .look_plain (fun _ _ => rfl) fun truth => ?_
    cases truth with
    | true => exact steady_block h body
    | false => exact steady_branches h otherwise rest

theorem steady_loop (h : k.Steady) (condition : Expr) (body : List Statement) :
    ∀ n, (k.loop condition body f n).Steady f.Stands
  | 0 => .stop
  | n + 1 => by
    refine .bind (h.evaluate condition f) fun v => .look_plain (fun _ _ => rfl) fun truth => ?_
    cases truth with
    | false => exact .pure _
    | true =>
      refine .bind (steady_block h body) fun o => ?_
      cases o with
      | settled v => exact steady_loop h condition body n
      | continued => exact steady_loop h condition body n
      | broke => exact .pure _
      | returned v => exact .pure _
      | thrown v => exact .pure _

theorem steady_classStatement (h : k.Steady) (c : ClassId) (s : Statement) :
    (k.classStatement c s).Steady (HoldsClass c) := by
  obtain ⟨node, span⟩ := s
  simp only [classStatement]
  split
  · rename_i d
    exact .act (.change ((blind_defineMethod c d).change ()))
      (.update fun w => w.persists_defineMethod c d)
  · refine .look_gives (.plain fun _ _ => rfl) fun scope => ?_
    refine Run.Steady.weaken (Q := Frame.Stands ⟨scope, none⟩) ?_ ?_
    · refine .bind (h.interpret _ ⟨scope, none⟩) fun o => ?_
      split
      · exact .pure _
      · exact .throw _
    · rintro w ⟨holds, rfl⟩
      exact holds.stands

theorem steady_classBody (h : k.Steady) (c : ClassId) (body : List Statement) :
    (k.classBody c body).Steady (HoldsClass c) := by
  induction body with
  | nil => exact .pure _
  | cons s rest ih => exact .bind (steady_classStatement h c s) fun _ => ih

theorem steady_defineClass (h : k.Steady) (d : ClassDecl) :
    (k.defineClass d f).Steady f.Stands := by
  refine .act_gives (Q := fun c w => c.In w.count) (.change (blind_openClass f.scope d _))
    (fun w _ _ => ⟨w.persists_openClass f.scope d _, fun c made => ?_⟩) fun c => ?_
  · cases made
    exact newClass_in _ _
  have body : Run.Steady (HoldsClass c) (do
      k.classBody c d.body
      let scope ← Run.look fun w => (w.classOf c).scope
      if ← Run.look fun w => w.hasLocalFunction scope k.config.constructor then
        Action.registerClass f.scope c
      else Run.fail (.missingConstructor d.name k.config.constructor)) := by
    refine .bind (steady_classBody h c d.body) fun _ => .look_plain (fun _ _ => rfl) fun scope => ?_
    refine .look_plain (fun _ _ => rfl) fun has => ?_
    cases has with
    | true =>
      exact .act (Action.blind_registerClass f.scope c)
        (Action.within_registerClass (fun w t => w.persists_setClassTable f.scope t) c)
    | false => exact .fail _
  refine .holding_gives (.one nofun) (body.weaken ?_)
  rintro w ⟨there, held⟩
  exact ⟨there, held _ (List.mem_singleton_self _)⟩

theorem steady_node (h : k.Steady) (n : Node) : (k.node n f).Steady f.Stands := by
  match n with
  | .expression e => exact .bind (h.evaluate e f) fun _ => .pure _
  | .declare d => exact .bind (steady_declareVariable h d f.scope) fun _ => .pure _
  | .assign name value => exact .bind (steady_assignVariable h name value) fun _ => .pure _
  | .block body => exact steady_blockStatement h body
  | .cond bs otherwise => exact steady_branches h otherwise bs
  | .loop condition body => exact steady_loop h condition body k.rounds
  | .return none => exact .pure _
  | .return (some e) => exact .bind (h.evaluate e f) fun _ => .pure _
  | .break => exact .pure _
  | .continue => exact .pure _
  | .throw e => exact .bind (h.evaluate e f) fun _ => .pure _
  | .function d =>
    exact .act_then (.change ((blind_defineFunction f.scope d).change ()))
      (.update fun w => w.persists_defineFunction f.scope d) fun _ => .pure _
  | .classDef d => exact .bind (steady_defineClass h d) fun _ => .pure _
  | .typeAlias name t =>
    exact .act_then (.change (blind_bindAlias f.scope name t))
      (.change fun w => w.persists_bindAlias f.scope name t) fun _ => .pure _

theorem steady_statement (h : k.Steady) (s : Statement) : (k.statement s f).Steady f.Stands :=
  .look_plain (fun _ _ => rfl) fun _ => .mapError (steady_node h s.node)

theorem steady_programFrom (h : k.Steady) (root : ScopeId) :
    ∀ (program : List Statement) (last : Value),
      (k.programFrom root last program).Steady (Frame.Stands ⟨root, none⟩)
  | [], _ => .pure _
  | s :: rest, last => by
    refine .bind (holding (.value last) (h.interpret s ⟨root, none⟩)) fun o => ?_
    cases o with
    | settled v => exact steady_programFrom h root rest v
    | returned v => exact .pure _
    | thrown v => exact .throw _
    | broke => exact .throw _
    | continued => exact .throw _

end Knot

/-- The evaluator of every depth is steady. -/
theorem knot_steady (config : Config) {host : Host} (steady : host.Steady) :
    ∀ n, (knot config host n).Steady
  | 0 =>
    { host := steady
      evaluate := fun _ _ => .stop
      interpret := fun _ _ => .stop }
  | n + 1 =>
    have tick : ∀ f : Frame, Run.tick.Steady f.Stands := fun _ =>
      .act (.change (World.BlindUpdate.change (fun _ _ same => same) ())) (.update .refl)
    { host := steady
      evaluate := fun e f =>
        .bind (tick f) fun _ => Knot.steady_expression (knot_steady config steady n) e
      interpret := fun s f =>
        .bind (tick f) fun _ => Knot.steady_statement (knot_steady config steady n) s }

/-! ## Sessions -/

namespace Session

variable {D : Dialect} {s s' : Session}

/-- A session between two acts of its host: it holds its root and nothing else, and the classes
of the host are below the root. -/
structure Quiet (s : Session) : Prop where
  root : s.root = ⟨0⟩
  held : s.world.held = [(⟨0⟩ : ScopeId).cell]
  secured : s.world.Secured

theorem quiet_start (config : Config) (host : Host) : (start config host).Quiet where
  root := rfl
  held := rfl
  secured :=
    { root := List.mem_singleton_self _
      there := (idle_start config host).tidy.held
      parent := fun t held ne => by
        have root : t.cell = (⟨0⟩ : ScopeId).cell := List.mem_singleton.mp held
        exact absurd (congrArg (fun c : Cell => (⟨c.index⟩ : ScopeId)) root) ne
      native := fun c there => absurd there (vacant_start config host nofun nofun) }

namespace Quiet

variable (q : s.Quiet)

include q

theorem persists (h : s.world.Persists s'.world) (root : s'.root = s.root) : s'.Quiet where
  root := root.trans q.root
  held := h.held.trans q.held
  secured := q.secured.persists h

theorem machine (fuel : Nat) : (s.machine fuel).Secured := ⟨q.secured, nofun⟩

/-- Code may be run at the top level. -/
theorem stands : s.frame.Stands s.world where
  scope := .inl (show s.root.cell ∈ s.world.held from q.root ▸ q.secured.root)
  receiver := nofun

/-- What comes to an end leaves the surroundings of code as they were. -/
theorem perform {g : Knot → Run α} {fuel : Nat}
    (steady : (g (knot s.config s.host fuel)).Steady s.frame.Stands)
    (done : (s.perform fuel g).1 ≠ .error .outOfFuel) : (s.perform fuel g).2.Quiet := by
  have step := steady.secure (s.machine fuel) (q.machine fuel) q.stands
  refine q.persists ?_ rfl
  simp only [Session.perform] at done ⊢
  generalize (g (knot s.config s.host fuel)) (s.machine fuel) = made at step done ⊢
  obtain ⟨result, m⟩ := made
  rcases result with (e | _) | x
  · exact step.world
  · exact absurd rfl done
  · exact step.world

end Quiet

theorem persists_addMethods (c : ClassId) : ∀ (methods : List NativeMethod) (w : World),
    w.Persists (methods.foldl (fun w m => m.add c w) w)
  | [], w => .refl w
  | m :: rest, w => by
    have bound := within_bindProcedure (R := World.Persists) (w.classOf c).scope m.name
      m.parameters none (.native m.body) w
    exact (bound.trans (World.persists_addMethod _ c m.name _ .method (some .native))).trans
      (persists_addMethods c rest _)

/-- After every act of its host a session is quiet again. -/
theorem Act.quiet (h : Act D s s') (steady : s.host.Steady) (q : s.Quiet) : s'.Quiet := by
  have knotted : ∀ n, (knot s.config s.host n).Steady := knot_steady s.config steady
  cases h with
  | @function name ps returns body _ =>
    have bound := within_bindProcedure (R := World.Persists) s.root name ps returns (.native body)
      s.world
    have added := World.persists_addFunction (bindProcedure s.root name ps returns (.native body)
      s.world).2 s.root name (bindProcedure s.root name ps returns (.native body) s.world).1 none
      .native none
    exact q.persists (bound.trans added) rfl
  | @method name ps returns body _ c _ _ =>
    have bound := within_bindProcedure (R := World.Persists) s.root name ps returns (.native body)
      s.world
    exact q.persists (bound.trans (World.persists_addMethod _ c name _ .method none)) rfl
  | @classObject name accessor methods constructor _ =>
    obtain ⟨secured, held⟩ := q.secured.addClass name (accessor.getD s.config.accessor)
    rw [← q.root] at secured held
    have made : Quiet { s with world :=
        (s.world.addClass s.root name (accessor.getD s.config.accessor) none).2 } :=
      ⟨q.root, held.trans q.held, secured⟩
    have filled := persists_addMethods
      (s.world.addClass s.root name (accessor.getD s.config.accessor) none).1
      (methods ++ [{ constructor with name := s.config.constructor }])
      (s.world.addClass s.root name (accessor.getD s.config.accessor) none).2
    exact made.persists (filled.trans
      (Action.within_registerClass (fun w t => w.persists_setClassTable s.root t) _ _)) rfl
  | run _ done => exact q.perform (Knot.steady_programFrom (knotted _) s.root _ _) done
  | evaluate _ done => exact q.perform (Knot.steady_expression (f := s.frame) (knotted _) _) done
  | interpret _ done => exact q.perform (Knot.steady_statement (f := s.frame) (knotted _) _) done
  | interpretBlock _ done => exact q.perform (Knot.steady_block (f := s.frame) (knotted _) _) done

namespace Reachable

theorem quiet (h : s.Reachable D) : s.host.Steady → s.Quiet := by
  induction h with
  | start config host => exact fun _ => quiet_start config host
  | act _ a ih =>
    intro steady
    rw [a.host_eq] at steady
    exact a.quiet steady (ih steady)

/-- At every moment of a program the surroundings of all code in progress are held. -/
theorem secured (h : s.Reachable D) (steady : s.host.Steady) (fuel : Nat)
    (program : List Statement) : (s.reached fuel program).Secured := by
  have quiet := h.quiet steady
  have start := quiet.machine fuel
  have step := (Knot.steady_programFrom (knot_steady s.config steady fuel) s.root program
    .null).secure (s.machine fuel) start quiet.stands
  rw [Session.reached]
  generalize (knot s.config s.host fuel).programFrom s.root .null program (s.machine fuel) = made
    at step ⊢
  obtain ⟨result, m⟩ := made
  rcases result with (e | _) | x
  · exact start.persists step
  · exact step
  · exact start.persists step

end Reachable

end Session

/-! ## The kit -/

/-- The bodies of the kit are steady. -/
theorem Kit.host_steady : Kit.host.Steady := by
  refine ⟨Kit.blind_host, fun body c => ?_⟩
  have write : ∀ (w : World) (t : ScopeId) (b : Binding), w.Persists (w.setVariable t c.text b) :=
    fun w t b => w.persists_setVariable t c.text b
  have stack : Action.Within World.Persists c.stack := by
    have getting : Action.Within World.Persists (get : Action World) := .look id
    refine .bind getting fun w => ?_
    split
    · exact .pure _
    · exact .throw _
  have sums : ∀ (vs : List Value) (v : Value),
      Action.Within World.Persists (vs.foldlM (Action.binary .add) v) := by
    intro vs
    induction vs with
    | nil => exact fun v => .pure v
    | cons x rest ih => exact fun v => .bind (Action.within_binary .add v x) ih
  simp only [host, run]
  split
  · exact Action.within_newList _
  · simp only [sum]
    split
    · exact .pure _
    · exact sums _ _
  · exact .pure _
  · exact .pure _
  · exact .throw _
  · exact .look _
  · exact .look _
  · exact .pure _
  · exact .consult _
  · exact .bind (Action.within_updateVariable write _ _) fun _ => .pure _
  · exact .bind (Action.within_declareVariable (fun w b => write w _ b) _) fun _ => .pure _
  · simp only [newStack]
    split
    · exact .pure _
    · rename_i i _
      refine .change fun w => ?_
      have made : w.Persists (w.newItems []).2 := .of_spares (w.spares_newItems [])
      refine made.trans (.setInstance _ i fun s owned => ?_)
      -- what native methods keep is no scope
      refine List.mem_append_left _ ((List.mem_append.mp owned).resolve_right fun kept => ?_)
      rw [Option.mem_toList, Option.map_eq_some_iff] at kept
      obtain ⟨h, -, same⟩ := kept
      cases congrArg Cell.kind same
  · exact .bind stack fun _ => .contents fun _ => .kept rfl rfl rfl rfl rfl rfl rfl
  · exact .bind stack fun _ => .contents fun _ => .kept rfl rfl rfl rfl rfl rfl rfl
  · exact .bind stack fun _ => .look _
  · exact .pure _

end ScopeLang
