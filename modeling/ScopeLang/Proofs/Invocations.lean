/-
# Where invocations lead

The evaluator is written against a knot; so is its soundness.  `Knot.Sound D k`
says that the recursive calls of `k` lead where they should for expressions and
statements of the dialect, and each function of the evaluator then has one
lemma, which uses those of the functions it calls.  This file has the functions
around a call: defaults, parameters, bodies, and the ways to find what is called.

A native method with defaults is the one place where an invocation runs code of
the program outside of a scope of its own: the defaults are evaluated where the
method is called, against the receiver of the call.
-/
import ScopeLang.Proofs.Operations
import ScopeLang.Eval.Statement

namespace ScopeLang

variable {D : Dialect}

/-! ## Knots -/

/-- Sound values. -/
abbrev OkValues (D : Dialect) (vs : List Value) (w : World) : Prop := ∀ v ∈ vs, v.Ok D w.count

/-- A host whose bodies keep to a dialect: what they do is done in steps, which do not depend on
the scope in which the calling code runs. -/
def Host.Obeys (D : Dialect) (host : Host) : Prop :=
  ∀ body, D.natives body → ∀ call w, OkValues D call.arguments w → call.scope.In w.count →
    (∀ i, call.receiver = some i → i.In w.count) →
    ∀ s, Acts D s (host.run body call) (OkValue D) w

/-- What becomes of a statement has a sound value. -/
abbrev OkOutcome (D : Dialect) (o : Outcome) (w : World) : Prop := OkValue D o.value w

/-- A knot whose recursive calls lead where they should. -/
structure Knot.Sound (D : Dialect) (k : Knot) : Prop where
  host : k.host.Obeys D
  evaluate : ∀ e f m, D.Admits e.marks → Leads D f (k.evaluate e f) (OkValue D) m
  interpret : ∀ s f m, D.Admits s.marks → Leads D f (k.interpret s f) (OkOutcome D) m

/-- The defaults of some parameters, evaluated in a frame, lead where they should from another
one. -/
def DefaultsLead (D : Dialect) (k : Knot) (f : Frame) (calls : List Invocation)
    (parameters : List ParameterSpec) (frame : Frame) : Prop :=
  ∀ q ∈ parameters, ∀ e, q.default = some e → ∀ m : Machine, m.calls = calls →
    Leads D f (k.evaluate e frame) (OkValue D) m

/-- A procedure that runs no code has no defaults to evaluate. -/
theorem DefaultsLead.of_none {k : Knot} {f frame : Frame} {calls : List Invocation}
    {p : Procedure} (h : ¬ p.RunsCode) : DefaultsLead D k f calls p.parameters frame :=
  fun q hq e he => absurd (.inr ⟨q, hq, by rw [he]; rfl⟩) h

namespace Knot

variable {k : Knot} {f frame : Frame} {m : Machine} {calls : List Invocation}

/-- The code that follows when the world has been looked at. -/
theorem leads_look_then {α β : Type} {g : World → α} {r : α → Run β} {Q : β → World → Prop}
    (h : Ready D f m.calls m.world → Leads D f (r (g m.world)) Q m) :
    Leads D f (Run.look g >>= r) Q m :=
  fun ready => h ready ready

/-! ## Arguments -/

theorem leads_default {q : ParameterSpec} (h : DefaultsLead D k f calls [q] frame)
    (hm : m.calls = calls) : Leads D f (k.default q frame) (OkValue D) m := by
  simp only [default]
  split
  · rename_i e he
    exact h q (List.mem_singleton_self q) e he m hm
  · exact .pure fun _ => Value.ok_null

theorem acts_checkArgument {w : World} {q : ParameterSpec} {s t : ScopeId} {v : Value} :
    Acts D s (checkArgument q t v) (fun _ w' => w' = w) w := by
  simp only [checkArgument]
  split
  · exact .consult fun _ _ _ => rfl
  · exact .pure rfl

theorem leads_materialize {q : ParameterSpec} (h : DefaultsLead D k f calls [q] frame)
    (hm : m.calls = calls) {slot : Slot Value} (ok : ∀ v ∈ slot.values, v.Ok D m.world.count) :
    Leads D f (k.materialize q frame slot) (OkValue D) m := by
  cases slot with
  | spread vs => exact .act (acts_newList ok)
  | value v =>
    refine .bind (.act acts_checkArgument) ?_
    rintro - m' _ _ _ same
    exact .pure fun _ => by
      rw [OkValue, same]
      exact ok v (List.mem_singleton_self v)
  | omitted =>
    refine .bind (leads_default h hm) ?_
    intro v m' _ _ _ okv
    refine .bind (.act acts_checkArgument) ?_
    rintro - m'' _ _ _ same
    exact .pure fun _ => by
      rw [OkValue, same]
      exact okv

theorem leads_materializeAll : ∀ {ps : List ParameterSpec} {slots : List (Slot Value)}
    {m : Machine}, DefaultsLead D k f calls ps frame → m.calls = calls →
      SlotsOk D m.world.count slots →
        Leads D f (k.materializeAll frame ps slots) (OkValues D) m
  | [], _, _, _, _, _ => .pure fun _ v hv => absurd hv List.not_mem_nil
  | _ :: _, [], _, _, _, _ => .pure fun _ v hv => absurd hv List.not_mem_nil
  | q :: ps, slot :: slots, m, h, hm, ok => by
    refine .bind (leads_materialize (fun p hp => h p ?_) hm (ok slot List.mem_cons_self)) ?_
    · rw [List.mem_singleton.mp hp]
      exact List.mem_cons_self
    · intro v m' _ hm' g okv
      refine .bind (.holding okv.cells
        (leads_materializeAll (fun p hp => h p (List.mem_cons_of_mem q hp))
          (hm'.trans hm) fun x hx => (ok.mono g.count) x (List.mem_cons_of_mem slot hx))
        fun _ _ _ h => h) ?_
      intro vs m'' _ _ g' okvs
      refine .pure fun _ x hx => ?_
      rcases List.mem_cons.mp hx with rfl | hx
      · exact okv.mono g'.count
      · exact okvs x hx

theorem leads_argument {q : ParameterSpec} (h : DefaultsLead D k f calls [q] frame)
    (hm : m.calls = calls) {slot : Slot Value} (ok : ∀ v ∈ slot.values, v.Ok D m.world.count) :
    Leads D f (k.argument q frame slot) (fun x w => x.1.Ok D w.count) m := by
  cases slot with
  | spread vs => exact .bind (.act (acts_newList ok)) fun v _ _ _ _ okv => .pure fun _ => okv
  | value v => exact .pure fun _ => ok v (List.mem_singleton_self v)
  | omitted => exact .bind (leads_default h hm) fun v _ _ _ _ okv => .pure fun _ => okv

theorem leads_install {q : ParameterSpec} (flags : q.Ok D) (h : DefaultsLead D k f calls [q] f)
    (hm : m.calls = calls) {slot : Slot Value} (ok : ∀ v ∈ slot.values, v.Ok D m.world.count) :
    Leads D f (k.install q f slot) (fun _ _ => True) m := by
  refine .bind (leads_argument h hm ok) ?_
  rintro ⟨v, signature⟩ m' _ _ _ okv
  refine .bind (Q := fun _ w => w.Accepts f.scope (if q.enforced then signature else .invalid) v ∧
    v.Ok D w.count) (.act (.consult fun _ _ checked =>
      ⟨World.accepts_of_checkType checked, okv⟩)) ?_
  rintro - m'' _ _ _ ⟨fits, okv⟩
  exact .act (acts_declareVariable (.inl rfl) flags.flags okv fits)

theorem leads_installAll : ∀ {ps : List ParameterSpec} {slots : List (Slot Value)} {m : Machine},
    (∀ q ∈ ps, q.Ok D) → DefaultsLead D k f calls ps f → m.calls = calls →
      SlotsOk D m.world.count slots →
        Leads D f (k.installAll f ps slots) (fun _ _ => True) m
  | [], _, _, _, _, _, _ => .pure fun _ => trivial
  | _ :: _, [], _, _, _, _, _ => .pure fun _ => trivial
  | q :: ps, slot :: slots, m, flags, h, hm, ok => by
    refine .bind (leads_install (flags q List.mem_cons_self) (fun p hp => h p ?_) hm
      (ok slot List.mem_cons_self)) ?_
    · rw [List.mem_singleton.mp hp]
      exact List.mem_cons_self
    · intro _ m' _ hm' g _
      exact leads_installAll (fun p hp => flags p (List.mem_cons_of_mem q hp))
        (fun p hp => h p (List.mem_cons_of_mem q hp)) (hm'.trans hm)
        fun x hx => (ok.mono g.count) x (List.mem_cons_of_mem slot hx)

/-! ## Bodies -/

theorem acts_result {w : World} {s t : ScopeId} {p : Procedure} {o : Outcome}
    (ok : OkOutcome D o w) : Acts D s (result p t o) (OkValue D) w := by
  cases o with
  | returned v => exact .pure ok
  | thrown v => exact .throw
  | settled v =>
    refine acts_look_then ?_
    split
    · exact .pure Value.ok_null
    · exact .throw
  | broke => exact .throw
  | continued => exact .throw

theorem leads_blockFrom (sound : k.Sound D) : ∀ {body : List Statement} {last : Value}
    {m : Machine}, D.Admits (blockMarks body) → last.Ok D m.world.count →
      Leads D f (k.blockFrom f last body) (OkOutcome D) m
  | [], _, _, _, ok => .pure fun _ => ok
  | s :: rest, last, m, marks, ok => by
    rw [blockMarks, Dialect.admits_append] at marks
    refine .bind (.holding ok.cells (sound.interpret s f _ marks.1) fun _ _ _ h => h) ?_
    intro o m' _ _ _ oko
    cases o with
    | settled v => exact leads_blockFrom sound marks.2 oko
    | _ => exact .pure fun _ => oko

theorem leads_block (sound : k.Sound D) {body : List Statement}
    (marks : D.Admits (blockMarks body)) : Leads D f (k.block body f) (OkOutcome D) m :=
  leads_blockFrom sound marks Value.ok_null

theorem Sound.defaults (sound : k.Sound D) {p : Procedure} (ok : p.Ok D) :
    DefaultsLead D k f calls p.parameters f :=
  fun q hq e he m _ => sound.evaluate e f m ((ok.parameters q hq).default e he)

theorem leads_runBody (sound : k.Sound D) {p : Procedure} {body : List Statement} (ok : p.Ok D)
    (marks : D.Admits (blockMarks body)) {slots : List (Slot Value)}
    (oks : SlotsOk D m.world.count slots) :
    Leads D f (k.runBody p body slots f) (OkValue D) m := by
  refine .bind (leads_installAll ok.parameters (sound.defaults ok) rfl oks) ?_
  intro _ m₁ _ _ _ _
  refine .bind (leads_block sound marks) ?_
  intro o m₂ _ _ _ oko
  refine .bind (.act (acts_result oko)) ?_
  intro v m₃ _ _ _ okv
  refine .bind (Q := fun _ w => v.Ok D w.count) (.act (.consult fun _ _ _ => okv)) ?_
  intro _ m₄ _ _ _ okv
  exact .pure fun _ => okv

/-- A body that runs in a scope of its own. -/
theorem leads_runCall (sound : k.Sound D) {p : Procedure} {body : List Statement} (ok : p.Ok D)
    (marks : D.Admits (blockMarks body)) {slots : List (Slot Value)}
    (oks : SlotsOk D m.world.count slots) {caller : ScopeId} {kind : ScopeKind} {label : String}
    (activation : kind.isActivation = true) {enter : Action ScopeId}
    (run : enter.runIn m.world = (Action.enter caller f.scope kind label).runIn m.world) :
    Leads D f (k.runCall p body slots caller enter f.receiver) (OkValue D) m := by
  intro ready
  have e : Enter f m.calls m.world
      ⟨(m.world.makeCallScope f.scope kind label).1, f.receiver⟩ m.calls
      (m.world.makeCallScope f.scope kind label).2 := .scope label activation
  obtain ⟨steps, made⟩ := steps_enter (D := D) (w := m.world) (s :=
    (m.world.makeCallScope f.scope kind label).1) caller f.scope label activation
  rw [← run] at steps made
  obtain ⟨inside, g⟩ := e.kept ready
  have grown := (steps.kept inside.sound inside.frame.scope).2
  refine Leads.enter e steps (fun s fuel he => ?_) ready
  rw [made s he]
  have there := inside.frame.scope.mono grown.count
  refine .followedBy (.holding (fun c hc => List.mem_singleton.mp hc ▸ there)
    (leads_runBody sound ok marks ?_) fun _ _ _ h => h)
    (fun w => steps_removeChild _ _) fun v w okv => ?_
  · exact (oks.mono g.count).mono grown.count
  · rw [OkValue, World.count_removeChild]
    exact okv

/-- A native body; the defaults of its parameters lead where they should. -/
theorem leads_runNative (sound : k.Sound D) {p : Procedure} {body : String}
    (natives : D.natives body) (h : DefaultsLead D k f m.calls p.parameters frame)
    {slots : List (Slot Value)} (oks : SlotsOk D m.world.count slots) {scope : ScopeId} (there : scope.In m.world.count)
    (receiver : ∀ i, frame.receiver = some i → i.In m.world.count) :
    Leads D f (k.runNative p body slots frame scope) (OkValue D) m := by
  refine .bind (leads_materializeAll h rfl oks) ?_
  intro arguments m₁ _ _ g okas
  -- the arguments are held while the body runs
  have body := sound.host body natives ⟨arguments, scope, frame.receiver⟩
    (m₁.world.hold (arguments.flatMap Value.cells)) okas (there.mono g.count)
    (fun i hi => (receiver i hi).mono g.count) f.scope
  refine .bind (.holding (cells_of_ok okas) (.act body) fun _ _ _ h => h) ?_
  intro v m₂ _ _ _ okv
  refine .bind (Q := fun _ w => v.Ok D w.count) (.act (.consult fun _ _ _ => okv)) ?_
  intro _ m₃ _ _ _ okv
  exact .pure fun _ => okv

/-! ## Invocations -/

/-- A function runs where its code was defined, a native one where it is called if it has
defaults. -/
theorem leads_invokeFunction (sound : k.Sound D) {h : Handle .function} (access : Access)
    {slots : List (Slot Value)} {caller : ScopeId} (there : h.In m.world.count)
    (oks : SlotsOk D m.world.count slots) (in_ : caller.In m.world.count)
    (hf : m.world.RunsCode ⟨access, .function h, none⟩ →
      f = ⟨m.world.entry caller ⟨access, .function h, none⟩, none⟩) :
    Leads D f (k.invokeFunction h slots caller) (OkValue D) m := by
  refine leads_look_then fun ready => ?_
  have ok := ready.sound.function there
  simp only [World.entry] at hf
  split
  · rename_i body e
    rw [e] at hf
    have natives : D.natives body := by
      have := ok.body
      rw [e] at this
      exact this
    by_cases runs : (m.world.function h).procedure.RunsCode
    · rw [hf ⟨_, rfl, runs⟩]
      exact leads_runNative sound natives (sound.defaults ok) oks in_ fun i hi => by cases hi
    · exact leads_runNative sound natives (.of_none runs) oks in_ fun i hi => by cases hi
  · rename_i body e
    rw [e] at hf
    have marks : D.Admits (blockMarks body) := by
      have := ok.body
      rw [e] at this
      exact this
    rw [hf ⟨_, rfl, .inl ⟨body, e⟩⟩]
    have activation : ScopeKind.functionCall.isActivation = true := rfl
    exact leads_runCall sound ok marks oks activation rfl

theorem leads_invokeMethod (sound : k.Sound D) {h : Handle .method} (access : Access)
    {slots : List (Slot Value)} {caller : ScopeId} {receiver : InstanceId}
    (rest : List Invocation) (there : h.In m.world.count)
    (oks : SlotsOk D m.world.count slots) (present : receiver.In m.world.count)
    (hm : m.calls = ⟨access, .method h, some receiver⟩ :: rest)
    (hf : m.world.RunsCode ⟨access, .method h, some receiver⟩ →
      f = ⟨m.world.entry caller ⟨access, .method h, some receiver⟩, none⟩) :
    Leads D f (k.invokeMethod h slots receiver caller) (OkValue D) m := by
  refine leads_look_then fun ready => ?_
  have ok := ready.sound.method there
  have enter : (m.world.method h).procedure.RunsCode →
      Enter f m.calls m.world ⟨f.scope, some receiver⟩ m.calls m.world := fun runs =>
    Enter.receiver (i := ⟨access, .method h, some receiver⟩) (by rw [hm]; rfl) ⟨_, rfl, runs⟩
  simp only [World.entry] at hf
  split
  · rename_i body e
    rw [e] at hf
    have natives : D.natives body := by
      have := ok.body
      rw [e] at this
      exact this
    refine leads_look_then fun ready => ?_
    by_cases runs : (m.world.method h).procedure.RunsCode
    · refine .within (enter runs) ?_
      rw [hf ⟨_, rfl, runs⟩]
      refine leads_runNative sound natives (sound.defaults ok) oks (ready.sound.home present) ?_
      intro i hi
      exact Option.some.inj hi ▸ present
    · exact leads_runNative sound natives (.of_none runs) oks (ready.sound.home present)
        fun i hi => Option.some.inj hi ▸ present
  · rename_i body e
    rw [e] at hf
    have marks : D.Admits (blockMarks body) := by
      have := ok.body
      rw [e] at this
      exact this
    refine .within (enter (.inl ⟨body, e⟩)) ?_
    rw [hf ⟨_, rfl, .inl ⟨body, e⟩⟩]
    have activation : ScopeKind.methodCall.isActivation = true := rfl
    exact leads_runCall sound (f := ⟨_, some receiver⟩) ok marks oks activation
      (runIn_look_bind _ _ _)

/-- What can be invoked does not depend on what is held. -/
theorem invokes_held {w : World} {i : Invocation} (h : w.Invokes f i) (cells : List Cell) :
    ({ w with held := cells } : World).Invokes f i := by
  cases h with
  | function access there => exact .function access there
  | member there present listed e => exact .member there present listed e
  | method access there e => exact .method access there e

/-- The overload that a call goes to is invoked in a frame of the same scope, or in any frame if it
does not run code in place; if it is a method, code in this frame may invoke it. -/
theorem leads_invoke (sound : k.Sound D) {access : Access} {r : Resolution}
    (ok : r.Ok D m.world.count) (caller : frame.scope.In m.world.count)
    (hs : frame.scope = f.scope ∨ ¬ m.world.RunsInPlace r.overload.callable)
    (method : ∀ h, r.overload.callable = .method h → ∀ i, frame.receiver = some i →
      m.world.Invokes f ⟨access, .method h, some i⟩ ∧ i.In m.world.count) :
    Leads D f (k.invoke access r frame) (OkValue D) m := by
  intro ready
  refine Leads.holding (fun c hc => List.mem_singleton.mp hc ▸ ok.callable) ?_ (fun _ _ _ h => h)
    ready
  have there := ok.callable
  have same : ∀ i : Invocation, i.callable = r.overload.callable →
      (∀ h, i.callable = .method h → i.receiver.isSome = true) → m.world.RunsCode i →
        m.world.entry f.scope i = m.world.entry frame.scope i := by
    intro i ei receiver runs
    rcases hs with hs | apart
    · rw [hs]
    · exact World.entry_eq ready.sound (ei ▸ there) receiver runs (ei ▸ apart) _ _
  cases e : r.overload.callable with
  | function h =>
    rw [e] at there
    refine .during (invokes_held (.function access there) _) ?_
    refine leads_invokeFunction sound access there ok.slots caller fun runs => ?_
    exact congrArg (Frame.mk · none) (same ⟨access, .function h, none⟩ e.symm nofun runs)
  | method h =>
    rw [e] at there
    cases er : frame.receiver with
    | none =>
      exact leads_look_then fun _ => .fail
    | some i =>
      obtain ⟨invokes, present⟩ := method h e i er
      refine .during (invokes_held invokes _) ?_
      refine leads_invokeMethod sound access m.calls there ok.slots present rfl fun runs => ?_
      exact congrArg (Frame.mk · none)
        (same ⟨access, .method h, some i⟩ e.symm (fun _ _ => rfl) runs)
  | classObject h => exact .fail

/-! ## Methods and classes -/

/-- A method is called on an instance that has functions of its name. -/
theorem leads_callMethod (sound : k.Sound D) {receiver : InstanceId} {name : String}
    {arguments : CallArguments} {caller : ScopeId} (in_ : caller.In m.world.count)
    (hs : caller = f.scope ∨ ∀ o, FunctionTable.Lists
      (m.world.scope (m.world.inst receiver).scope).functions o →
        ¬ m.world.RunsInPlace o.callable)
    (present : receiver.In m.world.count) (ok : arguments.Ok D m.world.count)
    (has : m.world.hasLocalFunction (m.world.inst receiver).scope name = true) :
    Leads D f (k.callMethod receiver name arguments caller) (OkValue D) m := by
  refine .holding (List.forall_mem_cons.mpr ⟨present, ok.cells⟩) (leads_look_then fun ready => ?_) fun _ _ _ h => h
  obtain ⟨candidates, here⟩ := Option.isSome_iff_exists.mp has
  refine .bind (.act (acts_resolveFunction (World.lookupFunction_of_local here) ok)) ?_
  rintro r m' ready' _ g ⟨⟨okr, mem⟩, pool, only⟩
  have present' : receiver.In m'.world.count := present.mono g.count
  have listed := FunctionTable.lists_of_get? here mem
  refine leads_invoke sound okr (in_.mono g.count) ?_ fun h e i ei => ?_
  · refine hs.imp_right fun apart => ?_
    rw [only]
    exact apart _ listed
  · obtain rfl : receiver = i := Option.some.inj ei
    have there := okr.callable
    rw [e] at there
    refine ⟨.member there present' ?_ e, present'⟩
    rw [only]
    exact listed

theorem leads_instantiate (sound : k.Sound D) {c : ClassId} {arguments : CallArguments}
    {caller : ScopeId} (in_ : caller.In m.world.count)
    (hs : caller = f.scope ∨ ∀ o, FunctionTable.Lists
      (m.world.scope (m.world.classOf c).scope).functions o → ¬ m.world.RunsInPlace o.callable)
    (there : c.In m.world.count)
    (ok : arguments.Ok D m.world.count) :
    Leads D f (k.instantiate c arguments caller) (OkValue D) m := by
  refine .holding (List.forall_mem_cons.mpr ⟨there, ok.cells⟩) (.assume fun ready => ?_)
    fun _ _ _ h => h
  refine .bind (Q := fun i w => i.In w.count ∧
      (w.scope (w.inst i).scope).functions =
        (m.world.scope (m.world.classOf c).scope).functions)
    (.act (.change (fun _ _ => .one (.makeInstance there))
      fun before _ => ⟨World.newInstance_in _ _, before.functions_makeInstance there⟩)) ?_
  rintro i m₁ ready₁ _ g ⟨present, functions⟩
  refine leads_look_then fun _ => leads_look_then fun _ => ?_
  split
  · rename_i has
    -- the methods of the instance are those of its class, and they are what they were
    have hs₁ : caller = f.scope ∨ ∀ o, FunctionTable.Lists
        (m₁.world.scope (m₁.world.inst i).scope).functions o →
          ¬ m₁.world.RunsInPlace o.callable := by
      refine hs.imp_right fun apart o listed => ?_
      rw [functions] at listed
      rw [World.RunsInPlace, World.procedure?_later g (ready.sound.listed listed)]
      exact apart o listed
    refine .bind (leads_callMethod sound (in_.mono g.count) hs₁ present (ok.mono g.count) has) ?_
    intro _ m₂ _ _ g' _
    exact .pure fun _ => Value.ok_cell rfl (present.mono g'.count)
  · exact leads_look_then fun _ => .fail

/-! ## Calls -/

theorem leads_callValue (sound : k.Sound D) {callee : Value} {arguments : CallArguments}
    (okc : callee.Ok D m.world.count) (ok : arguments.Ok D m.world.count) :
    Leads D f (k.callValue callee arguments f) (OkValue D) m := by
  intro ready
  refine Leads.holding (List.forall_mem_append.mpr ⟨okc.cells, ok.cells⟩) ?_ (fun _ _ _ h => h)
    ready
  -- an overload that is not found in an instance runs against the receiver of the frame
  have invoke : ∀ {r : Resolution} {m : Machine}, r.Ok D m.world.count →
      Leads D f (k.invoke .value r f) (OkValue D) m := by
    intro r m okr ready
    refine leads_invoke sound okr ready.frame.scope (.inl rfl) (fun h e i ei => ?_) ready
    have there := okr.callable
    rw [e] at there
    exact ⟨.method nofun there ei, ready.frame.receiver i ei⟩
  obtain ⟨d, a⟩ := callee
  have there : ∀ {c : Cell}, d.cell? = some c → c.In m.world.count := fun e =>
    okc.cells _ (by rw [Value.cells, e]; exact List.mem_singleton_self _)
  cases d with
  | overloads h =>
    refine leads_look_then fun ready' => ?_
    refine .bind (.act (acts_resolveAmong (fun o ho => ready'.sound.overloads ho) ok)) ?_
    rintro r m' _ _ _ ⟨⟨okr, -⟩, -⟩
    exact invoke okr
  | callable c =>
    cases c with
    | classObject c =>
      exact leads_instantiate sound ready.frame.scope (.inl rfl) (there rfl) ok
    | function h =>
      refine leads_look_then fun _ => ?_
      refine .bind (.act (acts_resolveAmong (fun o ho => ?_) ok)) ?_
      · rw [List.mem_singleton.mp ho]
        exact there rfl
      · rintro r m' _ _ _ ⟨⟨okr, -⟩, -⟩
        exact invoke okr
    | method h =>
      refine leads_look_then fun _ => ?_
      refine .bind (.act (acts_resolveAmong (fun o ho => ?_) ok)) ?_
      · rw [List.mem_singleton.mp ho]
        exact there rfl
      · rintro r m' _ _ _ ⟨⟨okr, -⟩, -⟩
        exact invoke okr
  | _ => exact .fail

theorem ok_callableVariable {w : World} (sound : ScopeLang.Sound D w) {s : ScopeId} {name : String}
    {v : Value} (h : callableVariable? w s name = some v) : v.Ok D w.count := by
  obtain ⟨found, -⟩ := Option.filter_eq_some_iff.mp h
  obtain ⟨b, hb, rfl⟩ := Option.map_eq_some_iff.mp found
  obtain ⟨t, -, here⟩ := World.localBinding?_of_binding? hb
  exact sound.binding (World.mem_values_of_localBinding? here)

theorem leads_callName (sound : k.Sound D) {name : String} {arguments : CallArguments}
    (ok : arguments.Ok D m.world.count) :
    Leads D f (k.callName name arguments f) (OkValue D) m := by
  refine .holding ok.cells (leads_look_then fun ready => ?_) fun _ _ _ h => h
  split
  · rename_i callee e
    exact leads_callValue sound (ok_callableVariable ready.sound e) ok
  · split
    · rename_i candidates e
      refine .bind (.act (acts_resolveAmong (ready.sound.found e) ok)) ?_
      rintro r m' ready' _ _ ⟨⟨okr, -⟩, -⟩
      refine leads_invoke sound okr ready'.frame.scope (.inl rfl) fun h e i ei => ?_
      have there := okr.callable
      rw [e] at there
      exact ⟨.method nofun there ei, ready'.frame.receiver i ei⟩
    · split
      · rename_i c e
        exact leads_instantiate sound ready.frame.scope (.inl rfl) (ready.sound.classFound e) ok
      · exact .fail

end Knot

end ScopeLang
