/-
# The actions of the evaluator

Every action that the evaluator takes is a sequence of steps.  The file goes
through them in the order of the modules that define them: types, variables,
definitions, classes, and at last the entering and leaving of scopes.  What an
action needs to know, and what it says of its result, is only about handles
being there; that a value fits where it is stored is part of the step.
-/
import ScopeLang.Proofs.Leads
import ScopeLang.Proofs.Resolution

namespace ScopeLang

variable {D : Dialect} {w : World} {s t : ScopeId}

/-! ## Types -/

theorem Steps.one {w' : World} (h : Step D s w w') : Steps D s w w' := .single h

theorem steps_withPool {α : Type} (t : ScopeId) {f : TypePool → α × TypePool}
    (more : ∀ p : TypePool, p.Grows (f p).2) : Steps D s w (w.withPool t f).2 :=
  .one (.pool t (more (w.poolOf t)))

theorem steps_bindType (t : ScopeId) (e : Option TypeExpr) : Steps D s w (w.bindType t e).2 :=
  steps_withPool t fun p => grows_bindOptional _ e p

theorem steps_inferType (t : ScopeId) (v : Value) : Steps D s w (w.inferType t v).2 :=
  steps_withPool t fun p => p.grows_bare _

/-- The type of a value does not depend on its attributes. -/
theorem World.admits_datum {v v' : Value} (h : v'.datum = v.datum) (d : SigId) :
    w.admits t d v' = w.admits t d v := by
  simp only [World.admits, World.valueType, World.typeId, Value.isCallable, h]

theorem World.accepts_datum {v v' : Value} (h : v'.datum = v.datum) {d : SigId} :
    w.Accepts t d v' ↔ w.Accepts t d v := by
  simp only [World.Accepts, Value.isNull, h, World.admits_datum h]

theorem World.accepts_of_checkType {name : String} {d : SigId} {v : Value}
    (h : w.checkType t name d v = .ok ()) : w.Accepts t d v := by
  simp only [World.checkType] at h
  split at h
  · exact .inr ‹_›
  · exact absurd h nofun

/-- The pool and the options of all scopes are those of the one type context. -/
theorem SoundAt.admits_eq {n : Census} (sound : SoundAt D n w) (t : ScopeId) (d : SigId) (v : Value) :
    w.admits t d v = (w.typeContext ⟨0⟩).pool.admits (w.typeContext ⟨0⟩).options d (w.valueType v) := by
  simp only [World.admits, World.poolOf, World.optionsOf, World.typesOf, (sound.scope t).types]

/-- A value that is admitted goes on being admitted, from whatever scope it is looked at. -/
theorem World.admits_later {w' : World} {t' : ScopeId} {d : SigId} {v : Value}
    (fits : w.admits t d v = true) (sound : Sound D w) (sound' : Sound D w') (g : w.Grows w')
    (ok : v.Ok D w.count) : w'.admits t' d v = true := by
  rw [sound.admits_eq] at fits
  rw [sound'.admits_eq, g.valueType sound ok, (g.context sound.context).options]
  exact (g.context sound.context).pool.admits fits

theorem World.Accepts.later {w' : World} {d : SigId} {v : Value} (h : w.Accepts t d v)
    (sound : Sound D w) (sound' : Sound D w') (g : w.Grows w') (ok : v.Ok D w.count) :
    w'.Accepts t d v :=
  h.imp_right fun fits => World.admits_later fits sound sound' g ok

/-! ## Values and containers -/

/-- A result whose cells are there. -/
abbrev OkValue (D : Dialect) (v : Value) (w : World) : Prop := v.Ok D w.count

theorem acts_duplicate {v : Value} (ok : v.Ok D w.count) :
    Acts D s (Action.duplicate v) (OkValue D) w := by
  refine .change (fun _ _ => ?_) (fun sound _ => (duplicate_copies v w sound ok).2.ok)
  simp only [World.duplicate, duplicateBy]
  split
  · exact .refl
  · exact .one (.contents (.copy ok))

theorem acts_newList {xs : List Value} (ok : ∀ v ∈ xs, v.Ok D w.count) :
    Acts D s (Action.newList xs) (OkValue D) w := by
  refine .bind (.change (Q := fun h w' => h.In w'.count) (fun _ _ => .one (.contents (.newItems ok)))
    (fun _ _ => w.newItems_in xs)) ?_
  intro h w' _ _ hh
  exact .pure (Value.ok_cell rfl hh)

theorem acts_newArray {xs : List Value} (ok : ∀ v ∈ xs, v.Ok D w.count) :
    Acts D s (Action.newArray xs) (OkValue D) w := by
  refine .bind (.change (Q := fun h w' => h.In w'.count) (fun _ _ => .one (.contents (.newItems ok)))
    (fun _ _ => w.newItems_in xs)) ?_
  intro h w' _ _ hh
  exact .pure (Value.ok_cell rfl hh)

theorem acts_newSet {xs : List Value} (ok : ∀ v ∈ xs, v.Ok D w.count) :
    Acts D s (Action.newSet xs) (OkValue D) w := by
  -- the distinct items are looked up in the very world in which the set is made
  have run : (Action.newSet xs).runIn w = (do
      let h ← Action.change fun w => w.newElements (xs.foldl (insertElement w.looseEq) [])
      return Value.ofDatum (.set h) : Action Value).runIn w := rfl
  intro sound hs
  rw [run]
  refine Acts.bind (.change (Q := fun h w' => h.In w'.count)
    (fun _ _ => .one (.contents (.newSet ok))) (fun _ _ => w.newElements_in _)) ?_ sound hs
  intro h w' _ _ hh
  exact .pure (Value.ok_cell rfl hh)

theorem acts_newDict {es : List (Value × Value)} (ok : ∀ v ∈ entryValues es, v.Ok D w.count) :
    Acts D s (Action.newDict es) (OkValue D) w := by
  have run : (Action.newDict es).runIn w = (do
      let h ← Action.change fun w => w.newEntries
        (es.foldl (fun done e => insertEntry w.looseEq e.1 e.2 done) [])
      return Value.ofDatum (.dict h) : Action Value).runIn w := rfl
  intro sound hs
  rw [run]
  refine Acts.bind (.change (Q := fun h w' => h.In w'.count)
    (fun _ _ => .one (.contents (.newDict ok))) (fun _ _ => w.newEntries_in _)) ?_ sound hs
  intro h w' _ _ hh
  exact .pure (Value.ok_cell rfl hh)

/-! ## Resolving calls -/

/-- A resolution that is sound and goes to one of the candidates. -/
def Resolves (D : Dialect) (candidates : List Overload) (r : Resolution) (w : World) : Prop :=
  r.Ok D w.count ∧ r.overload ∈ candidates

theorem CallArguments.Ok.all {n : Census} {a : CallArguments} (h : a.Ok D n) :
    a.All fun v => v.Ok D n :=
  ⟨h.positional, h.named⟩

/-- Resolving a call changes the pool of types and nothing else. -/
theorem acts_resolveAmong {name : String} {candidates : List Overload} {arguments : CallArguments}
    (there : ∀ o ∈ candidates, o.callable.cell.In w.count) (ok : arguments.Ok D w.count) :
    Acts D s (Action.resolveAmong t name candidates arguments)
      (fun r w' => Resolves D candidates r w' ∧ ∃ pool, w' = w.setPool t pool) w := by
  refine .bind (Q := fun result w' => (∀ r, result = .ok r → Resolves D candidates r w') ∧
    ∃ pool, w' = w.setPool t pool) (.change (fun _ _ => ?_) (fun _ _ => ⟨?_, _, rfl⟩)) ?_
  · exact steps_withPool t fun p => w.grows_resolveOverload _ _ _ _ p
  · intro r e
    obtain ⟨mem, slots⟩ := World.resolveOverload_ok ok.all e
    have same : (w.setPool t (w.resolveOverload (w.optionsOf t) name candidates arguments
        (w.poolOf t)).2).count = w.count := World.count_setTypeContext _ _ _
    refine ⟨⟨?_, ?_⟩, mem⟩
    · exact same ▸ there _ mem
    · exact same ▸ slots
  · rintro result w' _ _ ⟨q, only⟩
    cases result with
    | ok r => exact .pure ⟨q r rfl, only⟩
    | error k => exact .throw

theorem acts_resolveFunction {name : String} {candidates : List Overload}
    {arguments : CallArguments} (found : w.lookupFunction t name = some candidates)
    (ok : arguments.Ok D w.count) :
    Acts D s (Action.resolveFunction t name arguments)
      (fun r w' => Resolves D candidates r w' ∧ ∃ pool, w' = w.setPool t pool) w := by
  refine .bind (Q := fun c w' => c = some candidates ∧ w' = w) (.look fun _ => ⟨found, rfl⟩) ?_
  rintro _ _ sound _ ⟨rfl, rfl⟩
  exact acts_resolveAmong (sound.found found) ok

/-! ## Variables -/

/-- Preparing a value and putting it into a variable is one step. -/
theorem acts_store {name : String} {b : Binding} {v : Value}
    (step : Step D s w (w.store t name b v)) :
    Acts D s (do
      let value ← Action.change (b.prepare v)
      modify fun w => w.setVariable t name { b with value }) (fun _ _ => True) w :=
  fun _ _ => ⟨.one step, fun _ _ => trivial⟩

/-- A variable is declared where nothing of its name is. -/
theorem acts_declaration {name : String} {b : Binding}
    (step : w.hasLocalVariable t name = false → Step D s w (w.store t name b b.value)) :
    Acts D s (Action.declareVariable t name b) (fun _ _ => True) w := by
  refine .bind (Q := fun c w' => c = w.hasLocalVariable t name ∧ w' = w)
    (.look fun _ => ⟨rfl, rfl⟩) ?_
  rintro c w _ _ ⟨fresh, rfl⟩
  cases c with
  | true => exact .throw
  | false => exact acts_store (step fresh.symm)

theorem acts_declareVariable {name : String} {b : Binding} (may : w.MayDeclare s t)
    (flags : b.flags.isMutable = true → D.sharing) (ok : b.value.Ok D w.count)
    (fits : w.Accepts t b.declared b.value) :
    Acts D s (Action.declareVariable t name b) (fun _ _ => True) w :=
  acts_declaration fun fresh => .declare may fresh flags ok fits

/-- A variable that is no constant is assigned a value that it accepts. -/
theorem acts_assignment {name : String} {v : Value}
    (step : ∀ b, w.localBinding? t name = some b → b.flags.isConst = false →
      w.Accepts t b.declared v → Step D s w (w.store t name b v)) :
    Acts D s (Action.updateLocalVariable t name v) (fun _ _ => True) w := by
  refine .bind (Q := fun b w' => b = w.localBinding? t name ∧ w' = w)
    (.look fun _ => ⟨rfl, rfl⟩) ?_
  rintro found w _ _ ⟨e, rfl⟩
  cases found with
  | none => exact .throw
  | some b =>
    cases const : b.flags.isConst with
    | true =>
      simp only [const]
      exact .throw
    | false =>
      simp only [const]
      refine Acts.bind (Q := fun _ w' => w.Accepts t b.declared v ∧ w' = w)
        (.consult fun _ x checked => ⟨World.accepts_of_checkType checked, rfl⟩) ?_
      rintro - _ - - ⟨fits, rfl⟩
      exact acts_store (step b e.symm const fits)

theorem acts_updateLocalVariable {name : String} {v : Value} (may : w.MayAssign s t)
    (ok : v.Ok D w.count) :
    Acts D s (Action.updateLocalVariable t name v) (fun _ _ => True) w :=
  acts_assignment fun _ found const fits => .assign may found const ok fits

theorem acts_updateVariable {name : String} {v : Value} (ok : v.Ok D w.count) :
    Acts D s (Action.updateVariable s name v) (fun _ _ => True) w := by
  refine .bind (Q := fun t w' => t = w.bindingScope? s name ∧ w' = w)
    (.look fun _ => ⟨rfl, rfl⟩) ?_
  rintro found w _ _ ⟨e, rfl⟩
  cases found with
  | none => exact .throw
  | some t =>
    exact acts_updateLocalVariable (.inl (World.mem_variableChain_of_bindingScope? e.symm)) ok

/-! ## Definitions -/

theorem steps_bindParameter (t : ScopeId) (p : Parameter) :
    Steps D s w (bindParameter t p w).2 := steps_bindType t p.type

theorem steps_mapState_bindParameter (t : ScopeId) :
    ∀ {ps : List Parameter} {w : World}, Steps D s w (mapState (bindParameter t) ps w).2
  | [], _ => .refl
  | p :: _, _ => (steps_bindParameter t p).trans (steps_mapState_bindParameter t)

theorem steps_bindProcedure (t : ScopeId) (name : String) (ps : List Parameter)
    (returns : Option TypeExpr) (body : Body) :
    Steps D s w (bindProcedure t name ps returns body w).2 :=
  (steps_mapState_bindParameter t).trans (steps_bindType t returns)

/-- A bound parameter has the flags and the default of a parameter. -/
theorem mem_mapState_bindParameter (t : ScopeId) :
    ∀ {ps : List Parameter} {w : World} {q : ParameterSpec},
      q ∈ (mapState (bindParameter t) ps w).1 →
        ∃ p ∈ ps, q.flags = p.flags ∧ q.default = p.default
  | [], _, _, h => absurd h List.not_mem_nil
  | p :: rest, w, q, h => by
    simp only [mapState, List.mem_cons] at h
    rcases h with rfl | h
    · exact ⟨p, List.mem_cons_self, rfl, rfl⟩
    · obtain ⟨p', hp', e⟩ := mem_mapState_bindParameter t h
      exact ⟨p', List.mem_cons_of_mem p hp', e⟩

theorem bindProcedure_default {name : String} {ps : List Parameter} {returns : Option TypeExpr}
    {body : Body} {q : ParameterSpec}
    (h : q ∈ (bindProcedure t name ps returns body w).1.parameters) :
    ∃ p ∈ ps, q.default = p.default := by
  obtain ⟨p, hp, -, e⟩ := mem_mapState_bindParameter t h
  exact ⟨p, hp, e⟩

theorem bindProcedure_ok {name : String} {ps : List Parameter} {returns : Option TypeExpr}
    {body : Body} (marks : ∀ p ∈ ps, D.Admits p.marks) (ok : body.Ok D) :
    (bindProcedure t name ps returns body w).1.Ok D := by
  refine ⟨fun q hq => ?_, ok⟩
  obtain ⟨p, hp, flags, default⟩ := mem_mapState_bindParameter t hq
  have admitted := marks p hp
  rw [Parameter.marks, Dialect.admits_cons] at admitted
  refine ⟨flags ▸ admitted.1, fun e he => ?_⟩
  rw [default] at he
  rw [he] at admitted
  exact admitted.2

/-- The scope that a function captures is there and hides its parent. -/
theorem steps_functionDefScope (sound : Sound D w) (hs : s.In w.count) (f : FunctionDecl) :
    Steps D s w (w.functionDefScope s f).2 ∧
      (w.functionDefScope s f).1.In (w.functionDefScope s f).2.count ∧
      ((w.functionDefScope s f).2.scope (w.functionDefScope s f).1).kind.hidesParent = true := by
  simp only [World.functionDefScope]
  split
  · refine ⟨.one (.isolate [] f.name), w.isolate_in sound hs, ?_⟩
    rw [sound.scope_isolate hs]
    rfl
  · refine ⟨.one (.detach f.freeNames f.name rfl), w.detachAs_in sound hs, ?_⟩
    rw [World.detach, sound.scope_detachAs hs]
    rfl

theorem FunctionDecl.admits {f : FunctionDecl} (h : D.Admits f.marks) :
    (∀ p ∈ f.parameters, D.Admits p.marks) ∧ D.Admits (blockMarks f.body) := by
  obtain ⟨_, _, parameters, _, body⟩ := f
  rw [FunctionDecl.marks, Dialect.admits_append, Dialect.admits_flatMap] at h
  exact h

/-- A new function has the body that it is made with. -/
theorem World.hasCode_newFunction {p : Procedure} {body : List Statement} (user : p.body = .user body)
    (captured : Option ScopeId) :
    (w.newFunction ⟨p, captured⟩).2.HasCode (.function (w.newFunction ⟨p, captured⟩).1) := by
  have made : (w.newFunction ⟨p, captured⟩).2.function (w.newFunction ⟨p, captured⟩).1 =
      ⟨p, captured⟩ := Store.get_alloc_new w.functions _
  simp only [World.HasCode, World.procedure?, made, Option.any_some, user]
  rfl

theorem steps_defineFunction {f : FunctionDecl} (sound : Sound D w) (hs : s.In w.count)
    (marks : D.Admits f.marks) : Steps D s w (w.defineFunction s f) := by
  obtain ⟨parameters, body⟩ := f.admits marks
  obtain ⟨steps, there, hides⟩ := steps_functionDefScope sound hs f
  simp only [World.defineFunction]
  generalize w.functionDefScope s f = captured at steps there hides ⊢
  have bind : Steps D s captured.2
      (bindProcedure s f.name f.parameters f.returns (.user f.body) captured.2).2 :=
    steps_bindProcedure _ _ _ _ _
  have ok : (bindProcedure s f.name f.parameters f.returns (.user f.body) captured.2).1.Ok D :=
    bindProcedure_ok parameters body
  have user : (bindProcedure s f.name f.parameters f.returns (.user f.body) captured.2).1.body =
    .user f.body := rfl
  generalize bindProcedure s f.name f.parameters f.returns (.user f.body) captured.2 = bound
    at bind ok user ⊢
  obtain ⟨sound₁, g₁⟩ := steps.kept sound hs
  obtain ⟨sound₂, g₂⟩ := bind.kept sound₁ (hs.mono g₁.count)
  have code : (bound.2.newFunction ⟨bound.1, some captured.1⟩).2.HasCode
      (.function (bound.2.newFunction ⟨bound.1, some captured.1⟩).1) :=
    World.hasCode_newFunction user _
  refine ((steps.trans bind).tail (.newFunction ok (fun p hp => ?_) fun _ _ => rfl)).tail
    (.register f.name (.inl ⟨rfl, ⟨_, rfl⟩, .inl code⟩) (World.newFunction_in _ _))
  rw [← Option.some.inj hp, (g₂.scope there).kind]
  exact ⟨there.mono g₂.count, hides⟩

/-- A method that is bound in the scope of its class and added to it. -/
theorem steps_addMethod {c : ClassId} {name : String} {p : Procedure} {primary : Role}
    {secondary : Option Role} (ok : p.Ok D) (suits : World.Suits D w ⟨p, c⟩)
    (may : (w.classOf c).scope = s ∨ (w.scope s).kind = .root) :
    Steps D s w (w.addMethod c name p primary secondary) := by
  simp only [World.addMethod]
  have made : (w.newMethod ⟨p, c⟩).2.method (w.newMethod ⟨p, c⟩).1 = ⟨p, c⟩ :=
    Store.get_alloc_new w.methods _
  refine (Steps.one (.newMethod ok suits)).tail
    (.register name (.inr ⟨_, rfl, ?_, may⟩) (World.newMethod_in _ _))
  rw [made]

/-- A method of the program is defined from the scope of its class. -/
theorem steps_defineMethod {c : ClassId} {f : FunctionDecl} (sound : Sound D w)
    (hc : c.In w.count) (class_ : (w.classOf c).captured.isSome = true)
    (marks : D.Admits f.marks) : Steps D (w.classOf c).scope w (w.defineMethod c f) := by
  have hs : (w.classOf c).scope.In w.count := sound.classScope hc
  obtain ⟨parameters, body⟩ := f.admits marks
  have strip : (Body.user (stripBlock (w.classOf c).accessor f.body)).Ok D := by
    rw [Body.Ok, blockMarks_stripBlock]
    exact body
  have bind : Steps D (w.classOf c).scope w
      (bindProcedure (w.classOf c).scope f.name f.parameters f.returns
        (.user (stripBlock (w.classOf c).accessor f.body)) w).2 :=
    steps_bindProcedure _ _ _ _ _
  have ok : (bindProcedure (w.classOf c).scope f.name f.parameters f.returns
      (.user (stripBlock (w.classOf c).accessor f.body)) w).1.Ok D :=
    bindProcedure_ok parameters strip
  obtain ⟨-, g⟩ := bind.kept sound hs
  generalize made : bindProcedure (w.classOf c).scope f.name f.parameters f.returns
      (.user (stripBlock (w.classOf c).accessor f.body)) w = bound at bind ok
  obtain ⟨procedure, w'⟩ := bound
  obtain ⟨-, g⟩ := bind.kept sound hs
  have info : w'.classOf c = w.classOf c := g.classOf hc
  -- a method of the program is added like one of the host; only its secondary role may differ
  obtain ⟨secondary, same⟩ : ∃ secondary,
      w.defineMethod c f = w'.addMethod c f.name procedure .method secondary := by
    have later : ∀ x : Method, (w'.newMethod x).2.classOf c = w.classOf c := fun _ => info
    cases kind : f.kind with
    | function => exact ⟨none, by simp only [World.defineMethod, World.addMethod, made, later, kind]⟩
    | closure =>
      exact ⟨some .closure, by simp only [World.defineMethod, World.addMethod, made, later, kind]⟩
  rw [same]
  have user : procedure.body = .user (stripBlock (w.classOf c).accessor f.body) :=
    (congrArg (fun x : Procedure × World => x.1.body) made).symm
  exact bind.trans (steps_addMethod ok
    ⟨hc.mono g.count, fun _ _ => info ▸ class_, fun _ _ _ _ => ⟨_, user⟩⟩
    (.inl (congrArg Class.scope info)))

/-! ## Classes -/

/-- A scope binds the names of types like any other one. -/
theorem SoundAt.declareType_eq {n : Census} (sound : SoundAt D n w) (s t : ScopeId)
    (name : String) : w.declareType s name = w.declareType t name := by
  simp only [World.declareType, World.withPool, World.poolOf, World.setPool, World.typesOf,
    (sound.scope s).types, (sound.scope t).types]

theorem Sound.openClass_eq (sound : Sound D w) (hs : s.In w.count) (d : ClassDecl)
    (accessor : String) :
    w.openClass s d accessor =
      (w.classDefScope s d).2.addClass (w.classDefScope s d).1 d.name accessor
        (some (w.classDefScope s d).1) := by
  have made : Sound D (w.classDefScope s d).2 := (sound.detachAs hs).1
  have there : (w.classDefScope s d).1.In (w.classDefScope s d).2.count := w.detachAs_in sound hs
  simp only [World.openClass, World.addClass]
  have derived : Sound D ((w.classDefScope s d).2.classScope (w.classDefScope s d).1 d.name).2 :=
    made.derive _ _ _ _ fun p hp => Option.some.inj hp ▸ there
  rw [derived.declareType_eq s (w.classDefScope s d).1]

/-- The scope that a class captures is there and hides its parent. -/
theorem Sound.classDefScope_in (sound : Sound D w) (hs : s.In w.count) (d : ClassDecl) :
    (w.classDefScope s d).1.In (w.classDefScope s d).2.count ∧
      ((w.classDefScope s d).2.scope (w.classDefScope s d).1).kind.hidesParent = true := by
  refine ⟨w.detachAs_in sound hs, ?_⟩
  rw [World.classDefScope, sound.scope_detachAs hs]
  rfl

/-- A class whose body has not been run yet is there, in a scope of its own. -/
theorem steps_openClass (sound : Sound D w) (hs : s.In w.count) (d : ClassDecl)
    (accessor : String) :
    Steps D s w (w.openClass s d accessor).2 ∧
      (w.openClass s d accessor).1.In (w.openClass s d accessor).2.count ∧
      ((w.openClass s d accessor).2.classOf (w.openClass s d accessor).1).captured.isSome =
        true := by
  obtain ⟨there, hides⟩ := sound.classDefScope_in hs d
  rw [sound.openClass_eq hs]
  refine ⟨(Steps.one (.detach _ _ rfl)).tail (.newClass d.name accessor there (.inl ⟨rfl, hides⟩)),
    World.newClass_in _ _, ?_⟩
  rw [World.captured_addClass]
  rfl

theorem acts_registerClass {c : ClassId} (hc : c.In w.count) :
    Acts D s (Action.registerClass s c) (fun _ _ => True) w := by
  refine .bind (Q := fun name w' => name = (w.classOf c).name ∧ w' = w)
    (.look fun _ => ⟨rfl, rfl⟩) ?_
  rintro name w _ _ ⟨-, rfl⟩
  refine .bind (Q := fun _ w' => w' = w) (.look fun _ => rfl) ?_
  rintro taken w _ _ rfl
  cases taken with
  | true => exact .throw
  | false => exact .modify (fun _ _ => .one (.registerClass name hc)) fun _ _ => trivial

/-! ## Entering and leaving scopes -/

theorem steps_addChild (t child : ScopeId) : Steps D s w (w.addChild t child) :=
  (Steps.one (.relink child _ (some t) fun _ => rfl)).tail (.relink t _ _ fun _ => rfl)

theorem steps_removeChild (t child : ScopeId) : Steps D s w (w.removeChild t child) := by
  simp only [World.removeChild]
  split
  · exact (Steps.one (.relink t _ _ fun _ => rfl)).tail (.relink child _ none fun _ => rfl)
  · exact .refl

@[simp] theorem World.count_addChild (w : World) (t child : ScopeId) :
    (w.addChild t child).count = w.count := by
  simp [World.addChild]

@[simp] theorem World.count_removeChild (w : World) (t child : ScopeId) :
    (w.removeChild t child).count = w.count := by
  simp only [World.removeChild]
  split
  · simp
  · rfl

section Running

variable {γ δ : Type}

theorem runIn_look_bind (f : World → γ) (k : γ → Action δ) (w : World) :
    (Action.look f >>= k).runIn w = (k (f w)).runIn w := rfl

theorem runIn_get_bind (k : World → Action δ) (w : World) :
    ((get : Action World) >>= k).runIn w = (k w).runIn w := rfl

theorem runIn_change_bind (f : World → γ × World) (k : γ → Action δ) (w : World) :
    (Action.change f >>= k).runIn w = (k (f w).1).runIn (f w).2 := rfl

theorem runIn_modify_bind (f : World → World) (k : Unit → Action δ) (w : World) :
    ((modify f : Action Unit) >>= k).runIn w = (k ()).runIn (f w) := rfl

end Running

/-- Entering a call makes a scope and links it. -/
theorem steps_enter (caller parent : ScopeId) {kind : ScopeKind} (label : String)
    (activation : kind.isActivation = true) :
    Steps D s (w.makeCallScope parent kind label).2
        ((Action.enter caller parent kind label).runIn w).2 ∧
      ∀ x, ((Action.enter caller parent kind label).runIn w).1 = .ok x →
        x = (w.makeCallScope parent kind label).1 := by
  have call : ((w.makeCallScope parent kind label).2.scope
      (w.makeCallScope parent kind label).1).kind = kind :=
    congrArg Scope.kind (w.scope_derive parent kind label (some parent))
  rw [Action.enter, runIn_change_bind]
  generalize w.makeCallScope parent kind label = made at call
  have link : Steps D s made.2 (made.2.setCaller made.1 caller) :=
    .one (.relink made.1 _ _ fun root =>
      absurd (call.symm.trans root) (ScopeKind.ne_root_of_isActivation activation))
  rw [runIn_modify_bind, Action.appendChild, bind_assoc, runIn_look_bind]
  split
  · exact ⟨link, fun x e => absurd e nofun⟩
  · exact ⟨link.trans (steps_addChild _ _), fun x e => (Except.ok.inj e).symm⟩

end ScopeLang
