/-
# Disciplines of the evaluator

A claim about all runs is often of the form that evaluation, whatever it
evaluates, keeps to something.  A `Discipline` says what: which worlds are
related to each other by a run that comes to an end, and which by one that is
stopped in the middle because its fuel is used up.  If the relations have the laws
of `Discipline.Lawful`, which speak of what the evaluator does to the world one
thing at a time, all runs keep to the discipline, at whatever depth.

The laws ask nothing of operators, intrinsics and stored values, for which it is
enough that the relation is calm.  Blocks and calls enter a scope and leave it
again, and both are one rule (`Keeps.entering`).  Of the bodies of the host it is assumed
that they keep to the discipline.
-/
import ScopeLang.Proofs.Captures
import ScopeLang.Proofs.Trees

namespace ScopeLang

variable {α β : Type}

/-! ## Laws -/

/-- What evaluation keeps to. -/
structure Discipline where
  /-- What is asked of a world. -/
  Pre : World → Prop
  /-- What a world has to do with the one in which a run comes to an end. -/
  Done : World → World → Prop
  /-- What a world has to do with the one in which a run is stopped. -/
  Stop : World → World → Prop
  /-- Code may be run in a scope. -/
  Home : ScopeId → World → Prop
  /-- The body of a class may be run. -/
  Body : ClassId → World → Prop
  /-- The second scope has been entered from the first one. -/
  Entered : World → ScopeId → ScopeId → World → Prop

open World (Scopeless)

/-- A discipline that everything the evaluator does to a world keeps to. -/
class Discipline.Lawful (J : Discipline) : Prop extends Calm J.Done where
  pre : ∀ {w w₁}, J.Done w w₁ → J.Pre w → J.Pre w₁
  stopped : ∀ {w}, J.Pre w → J.Stop w w
  after : ∀ {w w₁ w₂}, J.Done w w₁ → J.Pre w → J.Stop w₁ w₂ → J.Stop w w₂
  home : ∀ {w w₁ s}, J.Done w w₁ → J.Home s w → J.Home s w₁
  body : ∀ {w w₁ c}, J.Done w w₁ → J.Body c w → J.Body c w₁
  bodyHome : ∀ {w c}, J.Pre w → J.Body c w → J.Home (w.classOf c).scope w
  /-- Holding cells for a while. -/
  holdPre : ∀ {w cells}, Scopeless cells → J.Pre w → J.Pre (w.hold cells)
  holdHome : ∀ {w s cells}, J.Home s w → J.Home s (w.hold cells)
  holdBody : ∀ {w c cells}, J.Body c w → J.Body c (w.hold cells)
  holdDone : ∀ {w w₁ cells}, J.Done (w.hold cells) w₁ → J.Done w { w₁ with held := w.held }
  holdStop : ∀ {w w₁ cells}, Scopeless cells → J.Stop (w.hold cells) w₁ → J.Stop w w₁
  /-- Entering a scope and leaving it. -/
  block : ∀ {w s} (label : String), J.Home s w →
    J.Entered w s (w.createChild s .block label).1 (w.createChild s .block label).2
  function : ∀ {w s} (f : Function), J.Home s w → match (Action.enterFunction s f).runIn w with
    | (.ok t, w₁) => J.Entered w s t w₁
    | (.error _, w₁) => J.Done w w₁
  method : ∀ {w s} (i : InstanceId) (name : String), J.Home s w →
    match (Action.enterMethod s i name).runIn w with
    | (.ok t, w₁) => J.Entered w s t w₁
    | (.error _, w₁) => J.Done w w₁
  inside : ∀ {w s t w₁}, J.Entered w s t w₁ → J.Pre w →
    J.Pre (w₁.hold [t.cell]) ∧ J.Home t (w₁.hold [t.cell])
  leave : ∀ {w s t w₁ w₂}, J.Entered w s t w₁ → J.Pre w → J.Done (w₁.hold [t.cell]) w₂ →
    J.Done w (({ w₂ with held := w₁.held } : World).removeChild s t)
  stopInside : ∀ {w s t w₁ w₂}, J.Entered w s t w₁ → J.Pre w → J.Home s w →
    J.Stop (w₁.hold [t.cell]) w₂ → J.Stop w w₂
  /-- Writing to variables and tables. -/
  setVariable : ∀ w s name b, J.Done w (World.setVariable w s name b)
  setClassTable : ∀ w s classes, J.Done w (World.setClassTable w s classes)
  bindAlias : ∀ {w s} (name : String) (t : TypeExpr), J.Home s w → J.Done w (w.bindAlias s name t).2
  /-- Making functions, classes and instances. -/
  functionDefScope : ∀ w s f, J.Done w (World.functionDefScope w s f).2
  newFunction : ∀ w f, J.Done w (World.newFunction w f).2
  newMethod : ∀ w m, J.Done w (World.newMethod w m).2
  register : ∀ w s name o, J.Done w (World.registerFunction w s name o)
  addClass : ∀ w s name accessor captured, J.Done w (World.addClass w s name accessor captured).2
  openClass : ∀ w s d accessor, J.Done w (World.openClass w s d accessor).2 ∧
    J.Body (World.openClass w s d accessor).1 (World.openClass w s d accessor).2
  makeInstance : ∀ w c, J.Done w (World.makeInstance w c).2

namespace Discipline

variable (J : Discipline) [J.Lawful]

theorem done_addFunction (w : World) (s : ScopeId) (name : String) (procedure : Procedure)
    (captured : Option ScopeId) (primary : Role) (secondary : Option Role) :
    J.Done w (w.addFunction s name procedure captured primary secondary) :=
  Calm.trans (Lawful.newFunction w _) (Lawful.register _ s name _)

theorem done_addMethod (w : World) (c : ClassId) (name : String) (procedure : Procedure)
    (primary : Role) (secondary : Option Role) :
    J.Done w (w.addMethod c name procedure primary secondary) :=
  Calm.trans (Lawful.newMethod w _) (Lawful.register _ _ name _)

theorem done_defineFunction (w : World) (s : ScopeId) (f : FunctionDecl) :
    J.Done w (w.defineFunction s f) := by
  have captured : J.Done w (w.functionDefScope s f).2 := Lawful.functionDefScope w s f
  have bound := within_bindProcedure (R := J.Done) s f.name f.parameters f.returns (.user f.body)
    (w.functionDefScope s f).2
  exact Calm.trans (Calm.trans captured bound) (J.done_addFunction _ s f.name _ _ f.kind.role none)

/-- The scope of the class is the one that it had before the types were bound. -/
theorem done_defineMethod (w : World) (c : ClassId) (f : FunctionDecl) :
    J.Done w (w.defineMethod c f) := by
  have bound := within_bindProcedure (R := J.Done) (w.classOf c).scope f.name f.parameters f.returns
    (.user (stripBlock (w.classOf c).accessor f.body)) w
  exact Calm.trans bound (Calm.trans (Lawful.newMethod _ _) (Lawful.register _ _ f.name _))

/-- Something that is needed and that lasts while the discipline is kept. -/
class Lasting (P : World → Prop) : Prop where
  done : ∀ {w w₁}, J.Done w w₁ → P w → P w₁
  hold : ∀ {w cells}, P w → P (w.hold cells)

instance (s : ScopeId) : J.Lasting (J.Home s) := ⟨Lawful.home, Lawful.holdHome⟩

instance (c : ClassId) : J.Lasting (J.Body c) := ⟨Lawful.body, Lawful.holdBody⟩

end Discipline

/-! ## Runs -/

/-- A run that keeps to a discipline where what it needs is given. -/
def Run.Keeps (J : Discipline) (P : World → Prop) (r : Run α) : Prop :=
  ∀ m : Machine, J.Pre m.world → P m.world →
    match r m with
    | (.error .outOfFuel, m') => J.Stop m.world m'.world
    | (_, m') => J.Done m.world m'.world

namespace Run.Keeps

open Discipline

variable {J : Discipline} [J.Lawful] {P : World → Prop} {s : ScopeId} {c : ClassId}

theorem pure (x : α) : Keeps J P (Pure.pure x) := fun m _ _ => Calm.refl m.world

theorem fail (kind : ErrorKind) : Keeps J P (Run.fail kind : Run α) := fun m _ _ =>
  Calm.refl m.world

theorem throw (e : RuntimeError) : Keeps J P (throw (.error e) : Run α) := fun m _ _ =>
  Calm.refl m.world

theorem stop : Keeps J P (MonadExcept.throw Halt.outOfFuel : Run α) := fun _ pre _ =>
  Lawful.stopped pre

theorem look (f : World → α) : Keeps J P (Run.look f) := fun m _ _ => Calm.refl m.world

/-- An action that keeps to the discipline where what is needed is given. -/
theorem actIn {a : Action α} (h : ∀ w, J.Pre w → P w → J.Done w (a.runIn w).2) :
    Keeps J P (Run.ofAction a) := by
  rintro ⟨world, fuel, calls⟩ pre needed
  cases fuel with
  | zero => exact Lawful.stopped pre
  | succ fuel =>
    have done := h world pre needed
    simp only [Run.ofAction]
    generalize a.runIn world = made at done ⊢
    obtain ⟨result, w'⟩ := made
    cases result with
    | ok x => exact done
    | error kind => exact done

theorem act {a : Action α} (h : Action.Within J.Done a) : Keeps J P (Run.ofAction a) :=
  actIn fun w _ _ => h w

theorem bind [J.Lasting P] {r : Run α} {k : α → Run β} (first : r.Keeps J P)
    (next : ∀ x, (k x).Keeps J P) : Keeps J P (r >>= k) := by
  intro m pre needed
  have step := first m pre needed
  rw [Run.bind_apply]
  generalize r m = made at step ⊢
  obtain ⟨result, m'⟩ := made
  match result with
  | .error .outOfFuel => exact step
  | .error (.error e) => exact step
  | .ok x =>
    have done : J.Done m.world m'.world := step
    have rest := next x m' (Lawful.pre done pre) (Lasting.done done needed)
    show match (k x : Run β) m' with
      | (.error .outOfFuel, m'') => J.Stop m.world m''.world
      | (_, m'') => J.Done m.world m''.world
    generalize (k x : Run β) m' = made at rest ⊢
    obtain ⟨result, m''⟩ := made
    match result with
    | .error .outOfFuel => exact Lawful.after done pre rest
    | .error (.error e) => exact Calm.trans done rest
    | .ok y => exact Calm.trans done rest

/-- What is looked up does not matter. -/
theorem look_then [J.Lasting P] {f : World → α} {k : α → Run β} (next : ∀ x, (k x).Keeps J P) :
    Keeps J P (Run.look f >>= k) :=
  bind (look f) next

/-- The scope of a class whose body may be run. -/
theorem look_home {k : ScopeId → Run β} (next : ∀ t, (k t).Keeps J (J.Home t)) :
    Keeps J (J.Body c) (Run.look (fun w => (w.classOf c).scope) >>= k) :=
  fun m pre body => next _ m pre (Lawful.bodyHome pre body)

/-- Nor does the result of an action, unless it is what the rest needs. -/
theorem act_then [J.Lasting P] {a : Action α} {k : α → Run β} (h : Action.Within J.Done a)
    (next : ∀ x, (k x).Keeps J P) : Keeps J P (Run.ofAction a >>= k) :=
  bind (act h) next

/-- Where the rest needs something else, the action has to give it. -/
theorem act_gives {a : Action α} {k : α → Run β} {Q : α → World → Prop}
    (h : Action.Within J.Done a)
    (gives : ∀ w x, (a.runIn w).1 = .ok x → Q x (a.runIn w).2)
    (next : ∀ x, (k x).Keeps J (Q x)) : Keeps J P (Run.ofAction a >>= k) := by
  rintro ⟨world, fuel, calls⟩ pre _
  rw [Run.bind_apply]
  cases fuel with
  | zero => exact Lawful.stopped pre
  | succ fuel =>
    have done := h world
    have given := gives world
    simp only [Run.ofAction]
    generalize a.runIn world = made at done given ⊢
    obtain ⟨result, w₁⟩ := made
    cases result with
    | error kind => exact done
    | ok x =>
      have rest := next x ⟨w₁, fuel, calls⟩ (Lawful.pre done pre) (given x rfl)
      show match (k x : Run β) ⟨w₁, fuel, calls⟩ with
        | (.error .outOfFuel, m') => J.Stop world m'.world
        | (_, m') => J.Done world m'.world
      generalize (k x : Run β) ⟨w₁, fuel, calls⟩ = made at rest ⊢
      obtain ⟨result, m'⟩ := made
      rcases result with (e | _) | y
      · exact Calm.trans done rest
      · exact Lawful.after done pre rest
      · exact Calm.trans done rest

omit [J.Lawful] in
theorem mapError {r : Run α} (h : r.Keeps J P) {g : RuntimeError → RuntimeError} :
    Keeps J P (Run.mapError g r) := by
  intro m pre needed
  have step := h m pre needed
  rw [Run.mapError_apply]
  generalize r m = made at step ⊢
  obtain ⟨result, m'⟩ := made
  rcases result with (e | _) | x
  · exact step
  · exact step
  · exact step

theorem holding [J.Lasting P] {cells : List Cell} {r : Run α} (none : Scopeless cells)
    (h : r.Keeps J P) : Keeps J P (Run.holding cells r) := by
  intro m pre needed
  have step := h { m with world := m.world.hold cells } (Lawful.holdPre none pre)
    (Lasting.hold J needed)
  simp only [Run.holding, Run.andFinally]
  generalize r { m with world := m.world.hold cells } = made at step ⊢
  obtain ⟨result, m'⟩ := made
  rcases result with (e | _) | x
  · exact Lawful.holdDone step
  · exact Lawful.holdStop none step
  · exact Lawful.holdDone step

omit [J.Lawful] in
theorem during {i : Invocation} {r : Run α} (h : r.Keeps J P) : Keeps J P (Run.during i r) := by
  intro m pre needed
  have step := h { m with calls := i :: m.calls } pre needed
  simp only [Run.during, Run.andFinally]
  generalize r { m with calls := i :: m.calls } = made at step ⊢
  obtain ⟨result, m'⟩ := made
  rcases result with (e | _) | x
  · exact step
  · exact step
  · exact step

/-- A scope that is entered is left again, however the code inside comes to its end. -/
theorem entering {enter : Action ScopeId} {body : ScopeId → Run α}
    (enters : ∀ w : World, J.Home s w → match enter.runIn w with
      | (.ok t, w₁) => J.Entered w s t w₁
      | (.error _, w₁) => J.Done w w₁)
    (inside : ∀ t, (body t).Keeps J (J.Home t)) :
    Keeps J (J.Home s) (Run.ofAction enter >>= fun t =>
      Run.followedBy (Run.holding [t.cell] (body t)) fun w => w.removeChild s t) := by
  rintro ⟨world, fuel, calls⟩ pre home
  rw [Run.bind_apply]
  cases fuel with
  | zero => exact Lawful.stopped pre
  | succ fuel =>
    have entered := enters world home
    simp only [Run.ofAction]
    generalize enter.runIn world = made at entered ⊢
    obtain ⟨result, w₁⟩ := made
    cases result with
    | error kind => exact entered
    | ok t =>
      obtain ⟨pre₁, home₁⟩ := Lawful.inside entered pre
      have step := inside t ⟨w₁.hold [t.cell], fuel, calls⟩ pre₁ home₁
      show match Run.followedBy (Run.holding [t.cell] (body t)) (fun w => w.removeChild s t)
          ⟨w₁, fuel, calls⟩ with
        | (.error .outOfFuel, m') => J.Stop world m'.world
        | (_, m') => J.Done world m'.world
      simp only [Run.followedBy, Run.holding, Run.andFinally]
      generalize body t ⟨w₁.hold [t.cell], fuel, calls⟩ = made at step ⊢
      obtain ⟨result, m'⟩ := made
      rcases result with (e | _) | x
      · exact Lawful.leave entered pre step
      · exact Lawful.stopInside entered pre home step
      · exact Lawful.leave entered pre step

end Run.Keeps

/-! ## The evaluator -/

/-- A host whose bodies keep to a discipline. -/
def Host.Keeps (host : Host) (J : Discipline) : Prop :=
  ∀ body call, Action.Within J.Done (host.run body call)

/-- A knot whose recursive calls keep to a discipline. -/
structure Knot.Keeps (k : Knot) (J : Discipline) : Prop where
  host : k.host.Keeps J
  evaluate : ∀ e f, (k.evaluate e f).Keeps J (J.Home f.scope)
  interpret : ∀ s f, (k.interpret s f).Keeps J (J.Home f.scope)

namespace Knot

open Discipline Run.Keeps

variable {J : Discipline} [J.Lawful] {k : Knot} {f : Frame}

/-! ### Arguments -/

theorem keeps_default (h : k.Keeps J) (q : ParameterSpec) :
    (k.default q f).Keeps J (J.Home f.scope) := by
  simp only [default]
  split
  · exact h.evaluate _ f
  · exact .pure _

theorem keeps_materialize (h : k.Keeps J) (q : ParameterSpec) :
    ∀ slot, (k.materialize q f slot).Keeps J (J.Home f.scope)
  | .spread vs => .act (Action.within_newList vs)
  | .value v => .act_then (within_checkArgument q f.scope v) fun _ => .pure _
  | .omitted => .bind (keeps_default h q) fun v =>
      .act_then (within_checkArgument q f.scope v) fun _ => .pure _

theorem keeps_materializeAll (h : k.Keeps J) :
    ∀ (qs : List ParameterSpec) (slots : List (Slot Value)),
      (k.materializeAll f qs slots).Keeps J (J.Home f.scope)
  | [], _ => .pure _
  | _ :: _, [] => .pure _
  | q :: qs, slot :: slots => by
    refine .bind (keeps_materialize h q slot) fun v => ?_
    exact .bind (holding (.value v) (keeps_materializeAll h qs slots)) fun vs => .pure _

theorem keeps_argument (h : k.Keeps J) (q : ParameterSpec) :
    ∀ slot, (k.argument q f slot).Keeps J (J.Home f.scope)
  | .spread vs => .act_then (Action.within_newList vs) fun _ => .pure _
  | .value _ => .pure _
  | .omitted => .bind (keeps_default h q) fun _ => .pure _

theorem keeps_install (h : k.Keeps J) (q : ParameterSpec) (slot : Slot Value) :
    (k.install q f slot).Keeps J (J.Home f.scope) := by
  refine .bind (keeps_argument h q slot) fun x => ?_
  refine .act_then (.consult _) fun _ => ?_
  exact .act (Action.within_declareVariable (fun w b => Lawful.setVariable w _ _ b) _)

theorem keeps_installAll (h : k.Keeps J) :
    ∀ (qs : List ParameterSpec) (slots : List (Slot Value)),
      (k.installAll f qs slots).Keeps J (J.Home f.scope)
  | [], _ => .pure _
  | _ :: _, [] => .pure _
  | q :: qs, slot :: slots =>
    .bind (keeps_install h q slot) fun _ => keeps_installAll h qs slots

/-! ### Bodies -/

theorem keeps_blockFrom (h : k.Keeps J) : ∀ (body : List Statement) (last : Value),
    (k.blockFrom f last body).Keeps J (J.Home f.scope)
  | [], _ => .pure _
  | s :: rest, last => by
    refine .bind (holding (.value last) (h.interpret s f)) fun o => ?_
    cases o with
    | settled v => exact keeps_blockFrom h rest v
    | _ => exact .pure _

theorem keeps_block (h : k.Keeps J) (body : List Statement) :
    (k.block body f).Keeps J (J.Home f.scope) :=
  keeps_blockFrom h body .null

theorem keeps_runBody (h : k.Keeps J) (procedure : Procedure) (body : List Statement)
    (slots : List (Slot Value)) :
    (k.runBody procedure body slots f).Keeps J (J.Home f.scope) := by
  refine .bind (keeps_installAll h procedure.parameters slots) fun _ => ?_
  refine .bind (keeps_block h body) fun o => ?_
  refine .act_then (within_result procedure f.scope o) fun v => ?_
  exact .act_then (.consult _) fun _ => .pure _

/-- A call of a procedure of the program enters a scope and leaves it. -/
theorem keeps_runCall (h : k.Keeps J) (procedure : Procedure) (body : List Statement)
    (slots : List (Slot Value)) {caller : ScopeId} {enter : Action ScopeId}
    (enters : ∀ w : World, J.Home caller w → match enter.runIn w with
      | (.ok t, w₁) => J.Entered w caller t w₁
      | (.error _, w₁) => J.Done w w₁)
    (receiver : Option InstanceId) :
    (k.runCall procedure body slots caller enter receiver).Keeps J (J.Home caller) :=
  .entering enters fun t => keeps_runBody (f := ⟨t, receiver⟩) h procedure body slots

theorem keeps_runNative (h : k.Keeps J) (procedure : Procedure) (body : String)
    (slots : List (Slot Value)) (caller : Frame) (scope : ScopeId) :
    (k.runNative procedure body slots caller scope).Keeps J (J.Home caller.scope) := by
  refine .bind (keeps_materializeAll h procedure.parameters slots) fun arguments => ?_
  refine .bind (holding (.flatMap .value) (.act (h.host body _))) fun v => ?_
  exact .act_then (.consult _) fun _ => .pure _

/-! ### Invocations -/

theorem keeps_invokeFunction (h : k.Keeps J) (x : Handle .function)
    (slots : List (Slot Value)) (caller : ScopeId) :
    (k.invokeFunction x slots caller).Keeps J (J.Home caller) := by
  refine .look_then fun g => ?_
  split
  · exact keeps_runNative h g.procedure _ slots ⟨caller, none⟩ caller
  · exact keeps_runCall h g.procedure _ slots
      (fun _ home => Lawful.function g home) none

theorem keeps_invokeMethod (h : k.Keeps J) (x : Handle .method) (slots : List (Slot Value))
    (receiver : InstanceId) (caller : ScopeId) :
    (k.invokeMethod x slots receiver caller).Keeps J (J.Home caller) := by
  refine .look_then fun g => ?_
  split
  · exact .look_then fun scope =>
      keeps_runNative h g.procedure _ slots ⟨caller, some receiver⟩ scope
  · exact keeps_runCall h g.procedure _ slots
      (fun _ home => Lawful.method receiver _ home) _

theorem keeps_invoke (h : k.Keeps J) (access : Access) (r : Resolution) :
    (k.invoke access r f).Keeps J (J.Home f.scope) := by
  refine holding (.callable r.overload.callable) ?_
  split
  · exact .during (keeps_invokeFunction h _ r.slots f.scope)
  · split
    · exact .during (keeps_invokeMethod h _ r.slots _ f.scope)
    · exact .look_then fun _ => .fail _
  · exact .fail _

theorem keeps_callMethod (h : k.Keeps J) (receiver : InstanceId) (name : String)
    (arguments : CallArguments) (caller : ScopeId) :
    (k.callMethod receiver name arguments caller).Keeps J (J.Home caller) := by
  refine holding (.cons nofun (.arguments arguments)) (.look_then fun home => ?_)
  refine .act_then (Action.within_resolveFunction home name arguments) fun r => ?_
  exact keeps_invoke (f := ⟨caller, some receiver⟩) h .member r

theorem keeps_instantiate (h : k.Keeps J) (c : ClassId) (arguments : CallArguments)
    (caller : ScopeId) : (k.instantiate c arguments caller).Keeps J (J.Home caller) := by
  refine holding (.cons nofun (.arguments arguments)) ?_
  refine .act_then (.change fun w => Lawful.makeInstance w c) fun made => ?_
  refine .look_then fun home => .look_then fun has => ?_
  cases has with
  | true => exact .bind (keeps_callMethod h made _ arguments caller) fun _ => .pure _
  | false => exact .look_then fun _ => .fail _

theorem keeps_callValue (h : k.Keeps J) (callee : Value) (arguments : CallArguments) :
    (k.callValue callee arguments f).Keeps J (J.Home f.scope) := by
  have among : ∀ name candidates, Run.Keeps J (J.Home f.scope) (do
      k.invoke .value (← Action.resolveAmong f.scope name candidates arguments) f) :=
    fun name candidates => .act_then (Action.within_resolveAmong f.scope name candidates arguments)
      fun r => keeps_invoke h .value r
  refine holding ((World.Scopeless.value callee).append (.arguments arguments)) ?_
  split
  · exact .look_then fun set => among set.name set.overloads
  · exact keeps_instantiate h _ arguments f.scope
  · exact .look_then fun name => among name _
  · exact .fail _

theorem keeps_callName (h : k.Keeps J) (name : String) (arguments : CallArguments) :
    (k.callName name arguments f).Keeps J (J.Home f.scope) := by
  refine holding (.arguments arguments) (.look_then fun w => ?_)
  split
  · exact keeps_callValue h _ arguments
  · split
    · exact .act_then (Action.within_resolveAmong f.scope name _ arguments)
        fun r => keeps_invoke h .name r
    · split
      · exact keeps_instantiate h _ arguments f.scope
      · exact .fail _

/-! ### Expressions -/

theorem keeps_items (h : k.Keeps J) (es : List Expr) :
    (k.items f es).Keeps J (J.Home f.scope) := by
  induction es with
  | nil => exact .pure _
  | cons e rest ih =>
    refine .bind (h.evaluate e f) fun v => ?_
    refine .act_then (Action.within_duplicate v) fun v => ?_
    exact .bind (holding (.value v) ih) fun _ => .pure _

theorem keeps_entries (h : k.Keeps J) : ∀ es : List Entry,
    (k.entries f es).Keeps J (J.Home f.scope)
  | [] => .pure _
  | ⟨key, value⟩ :: rest => by
    refine .bind (h.evaluate key f) fun x => ?_
    refine .act_then (Action.within_duplicate x) fun x => holding (.value x) ?_
    refine .bind (h.evaluate value f) fun y => ?_
    refine .act_then (Action.within_duplicate y) fun y => ?_
    exact .bind (holding (.value y) (keeps_entries h rest)) fun _ => .pure _

theorem keeps_argumentsFrom (h : k.Keeps J) : ∀ (done : CallArguments) (as : List Argument),
    (k.argumentsFrom f done as).Keeps J (J.Home f.scope)
  | _, [] => .pure _
  | done, ⟨name, value⟩ :: rest =>
    .bind (holding (.arguments done) (h.evaluate value f)) fun v =>
      keeps_argumentsFrom h (done.add name v) rest

theorem keeps_arguments (h : k.Keeps J) (as : List Argument) :
    (k.arguments as f).Keeps J (J.Home f.scope) :=
  keeps_argumentsFrom h ⟨[], []⟩ as

theorem keeps_receiver : (k.receiver f).Keeps J (J.Home f.scope) := by
  simp only [receiver]
  split
  · exact .pure _
  · exact .fail _

theorem keeps_declareVariable (h : k.Keeps J) (d : VariableDecl) (target : ScopeId) :
    (k.declareVariable d f target).Keeps J (J.Home f.scope) := by
  refine .act_then (.change fun w => w.within_bindType f.scope d.type) fun declared => ?_
  have finish : ∀ v : Value, Run.Keeps J (J.Home f.scope) (do
      let inferred ← Run.change fun w => w.inferType f.scope v
      let v := { v with attrs := { v.attrs with inferred, displayName := some d.name } }
      Action.declareVariable target d.name ⟨v, d.flags, declared⟩
      return v) := by
    intro v
    refine .act_then (.change fun w => w.within_inferType f.scope v) fun inferred => ?_
    exact .act_then (Action.within_declareVariable (fun w b => Lawful.setVariable w _ _ b) _)
      fun _ => .pure _
  cases d.initial with
  | none => exact finish .null
  | some e =>
    refine .bind (h.evaluate e f) fun v => ?_
    exact .act_then (.consult _) fun _ => finish v

theorem keeps_assignVariable (h : k.Keeps J) (name : String) (value : Expr) :
    (k.assignVariable name value f).Keeps J (J.Home f.scope) := by
  refine .bind (h.evaluate value f) fun v => ?_
  exact .act_then (Action.within_updateVariable (fun w t b => Lawful.setVariable w t _ b) f.scope v)
    fun _ => .pure _

theorem keeps_chainHead (h : k.Keeps J) (e : Element) :
    (k.chainHead e f).Keeps J (J.Home f.scope) := by
  cases e with
  | read name => exact .act (within_readName name f.scope)
  | assign name value => exact keeps_assignVariable h name value
  | declare d => exact keeps_declareVariable h d f.scope
  | call name arguments =>
    exact .bind (keeps_arguments h arguments) fun a => keeps_callName h name a

theorem keeps_member (h : k.Keeps J) (e : Element) (i : InstanceId) :
    (k.member e i f).Keeps J (J.Home f.scope) := by
  refine holding (.one nofun) ?_
  cases e with
  | read name =>
    refine .look_then fun w => ?_
    split
    · exact .pure _
    · exact .fail _
  | assign name value =>
    refine .bind (h.evaluate value f) fun v => ?_
    exact .act_then (within_assignMember (fun w t b => Lawful.setVariable w t _ b) i v)
      fun _ => .pure _
  | declare d => exact .look_then fun home => keeps_declareVariable h d home
  | call name arguments =>
    refine .look_then fun w => ?_
    split
    · exact .bind (keeps_arguments h arguments) fun a =>
        keeps_callMethod h i name a f.scope
    · exact .fail _

theorem keeps_applyIntrinsic (target : Value) (e : Element) (name : String)
    (vs : List Value) : (applyIntrinsic target e name vs).Keeps J (J.Home f.scope) := by
  simp only [applyIntrinsic]
  split
  · rename_i run found
    exact .act (within_intrinsic found vs)
  · exact .look_then fun _ => .fail _

theorem keeps_virtual (h : k.Keeps J) (e : Element) (target : Value) :
    (k.virtual e target f).Keeps J (J.Home f.scope) := by
  refine holding (.value target) ?_
  cases e with
  | read name => exact keeps_applyIntrinsic target _ name []
  | assign name value => exact .look_then fun _ => .fail _
  | declare d => exact .look_then fun _ => .fail _
  | call name arguments =>
    refine .bind (keeps_arguments h arguments) fun a => ?_
    split
    · exact holding (.arguments a) (keeps_applyIntrinsic target _ name a.positional)
    · exact .look_then fun _ => .fail _

theorem keeps_chainSteps (h : k.Keeps J) : ∀ (current : Value) (es : List Element),
    (k.chainSteps f current es).Keeps J (J.Home f.scope)
  | _, [] => .pure _
  | current, e :: rest => by
    have first : (k.chainStep e current f).Keeps J (J.Home f.scope) := by
      simp only [chainStep]
      split
      · exact keeps_member h e _
      · exact keeps_virtual h e current
    exact .bind first fun v => keeps_chainSteps h v rest

theorem keeps_chain (h : k.Keeps J) (origin : ChainOrigin) (es : List Element) :
    (k.chain origin es f).Keeps J (J.Home f.scope) := by
  cases es with
  | nil => exact .pure _
  | cons head rest =>
    cases origin with
    | scope => exact .bind (keeps_chainHead h head) fun v => keeps_chainSteps h v rest
    | receiver =>
      refine .bind keeps_receiver fun i => ?_
      exact .bind (keeps_member h head i) fun v => keeps_chainSteps h v rest

theorem keeps_term (h : k.Keeps J) (t : Term) : (k.term t f).Keeps J (J.Home f.scope) := by
  match t with
  | .literal l => exact .pure _
  | .sequence kind es =>
    exact .bind (keeps_items h es) fun vs => .act (Action.within_build vs kind)
  | .dict es => exact .bind (keeps_entries h es) fun es => .act (Action.within_newDict es)
  | .variable name => exact .act (within_readName name f.scope)
  | .receiver => exact .bind keeps_receiver fun _ => .pure _
  | .unary op operand =>
    exact .bind (h.evaluate operand f) fun v => .act (.consult _)
  | .binary op left right =>
    refine .bind (h.evaluate left f) fun a => ?_
    exact .bind (holding (.value a) (h.evaluate right f)) fun b =>
      .act (Action.within_binary op a b)
  | .logical op left right =>
    refine .bind (h.evaluate left f) fun a => .look_then fun truth => ?_
    split
    · exact .pure _
    · exact holding (.value a) (h.evaluate right f)
  | .call callee arguments =>
    exact .bind (keeps_arguments h arguments) fun a => keeps_callName h callee a
  | .callValue callee arguments =>
    refine .bind (h.evaluate callee f) fun v => ?_
    exact .bind (holding (.value v) (keeps_arguments h arguments)) fun a =>
      keeps_callValue h v a
  | .chain origin es => exact keeps_chain h origin es

theorem keeps_expression (h : k.Keeps J) (e : Expr) :
    (k.expression e f).Keeps J (J.Home f.scope) :=
  .mapError (keeps_term h e.term)

/-! ### Statements -/

/-- A block enters a scope and leaves it. -/
theorem keeps_blockStatement (h : k.Keeps J) (body : List Statement) :
    (k.blockStatement body f).Keeps J (J.Home f.scope) :=
  .look_then fun label => .entering (fun _ home => Lawful.block label home)
    fun t => keeps_block (f := ⟨t, f.receiver⟩) h body

theorem keeps_branches (h : k.Keeps J) (otherwise : Option (List Statement)) :
    ∀ bs : List Branch, (k.branches f otherwise bs).Keeps J (J.Home f.scope)
  | [] => by
    cases otherwise with
    | none => exact .pure _
    | some body => exact keeps_block h body
  | ⟨condition, body⟩ :: rest => by
    refine .bind (h.evaluate condition f) fun v => .look_then fun truth => ?_
    cases truth with
    | true => exact keeps_block h body
    | false => exact keeps_branches h otherwise rest

theorem keeps_loop (h : k.Keeps J) (condition : Expr) (body : List Statement) :
    ∀ n, (k.loop condition body f n).Keeps J (J.Home f.scope)
  | 0 => .stop
  | n + 1 => by
    refine .bind (h.evaluate condition f) fun v => .look_then fun truth => ?_
    cases truth with
    | false => exact .pure _
    | true =>
      refine .bind (keeps_block h body) fun o => ?_
      cases o with
      | settled v => exact keeps_loop h condition body n
      | continued => exact keeps_loop h condition body n
      | broke => exact .pure _
      | returned v => exact .pure _
      | thrown v => exact .pure _

/-- The body of a class is run in the scope of the class, which is there if the class is. -/
theorem keeps_classStatement (h : k.Keeps J) (c : ClassId) (s : Statement) :
    (k.classStatement c s).Keeps J (J.Body c) := by
  obtain ⟨node, span⟩ := s
  simp only [classStatement]
  split
  · exact .act (.update fun w => J.done_defineMethod w c _)
  · refine .look_home fun scope => .bind (h.interpret _ ⟨scope, none⟩) fun o => ?_
    split
    · exact .pure _
    · exact .throw _

theorem keeps_classBody (h : k.Keeps J) (c : ClassId) (body : List Statement) :
    (k.classBody c body).Keeps J (J.Body c) := by
  induction body with
  | nil => exact .pure _
  | cons s rest ih => exact .bind (keeps_classStatement h c s) fun _ => ih

theorem keeps_defineClass (h : k.Keeps J) (d : ClassDecl) :
    (k.defineClass d f).Keeps J (J.Home f.scope) := by
  refine .act_gives (Q := J.Body) (.change fun w => (Lawful.openClass w f.scope d _).1)
    (fun w c made => ?_) fun c => ?_
  · cases made
    exact (Lawful.openClass w f.scope d _).2
  refine .holding (.one nofun) ?_
  refine .bind (keeps_classBody h c d.body) fun _ => .look_then fun scope => ?_
  refine .look_then fun has => ?_
  cases has with
  | true =>
    exact .act (Action.within_registerClass (fun w t => Lawful.setClassTable w _ t) c)
  | false => exact .fail _

theorem keeps_node (h : k.Keeps J) (n : Node) : (k.node n f).Keeps J (J.Home f.scope) := by
  match n with
  | .expression e => exact .bind (h.evaluate e f) fun _ => .pure _
  | .declare d => exact .bind (keeps_declareVariable h d f.scope) fun _ => .pure _
  | .assign name value => exact .bind (keeps_assignVariable h name value) fun _ => .pure _
  | .block body => exact keeps_blockStatement h body
  | .cond bs otherwise => exact keeps_branches h otherwise bs
  | .loop condition body => exact keeps_loop h condition body k.rounds
  | .return none => exact .pure _
  | .return (some e) => exact .bind (h.evaluate e f) fun _ => .pure _
  | .break => exact .pure _
  | .continue => exact .pure _
  | .throw e => exact .bind (h.evaluate e f) fun _ => .pure _
  | .function d =>
    exact .act_then (.update fun w => J.done_defineFunction w f.scope d) fun _ => .pure _
  | .classDef d => exact .bind (keeps_defineClass h d) fun _ => .pure _
  | .typeAlias name t =>
    exact .bind (.actIn fun _ _ home => Lawful.bindAlias name t home) fun _ => .pure _

theorem keeps_statement (h : k.Keeps J) (s : Statement) :
    (k.statement s f).Keeps J (J.Home f.scope) :=
  .look_then fun _ => .mapError (keeps_node h s.node)

theorem keeps_programFrom (h : k.Keeps J) (root : ScopeId) :
    ∀ (program : List Statement) (last : Value),
      (k.programFrom root last program).Keeps J (J.Home root)
  | [], _ => .pure _
  | s :: rest, last => by
    refine .bind (holding (.value last) (h.interpret s ⟨root, none⟩)) fun o => ?_
    cases o with
    | settled v => exact keeps_programFrom h root rest v
    | returned v => exact .pure _
    | thrown v => exact .throw _
    | broke => exact .throw _
    | continued => exact .throw _

end Knot

/-- The evaluator of every depth keeps to a lawful discipline. -/
theorem knot_keeps {J : Discipline} [J.Lawful] (config : Config) {host : Host}
    (keeps : host.Keeps J) : ∀ n, (knot config host n).Keeps J
  | 0 =>
    { host := keeps
      evaluate := fun _ _ => .stop
      interpret := fun _ _ => .stop }
  | n + 1 =>
    have tick : ∀ s : ScopeId, Run.tick.Keeps J (J.Home s) := fun _ =>
      .act (.update fun w => Calm.refl w)
    { host := keeps
      evaluate := fun e f =>
        .bind (tick f.scope) fun _ => Knot.keeps_expression (knot_keeps config keeps n) e
      interpret := fun s f =>
        .bind (tick f.scope) fun _ => Knot.keeps_statement (knot_keeps config keeps n) s }

/-! ## Sessions -/

namespace Session

open Discipline

variable {D : Dialect} {J : Discipline} [J.Lawful] {s s' : Session}

/-- A session whose root code may be run in. -/
structure Rests (s : Session) (J : Discipline) : Prop where
  pre : J.Pre s.world
  home : J.Home s.root s.world

omit [J.Lawful] in
/-- What comes to an end in a session keeps to the discipline. -/
theorem Rests.done_perform (rests : s.Rests J) {fuel : Nat} {g : Knot → Run α}
    (keeps : (g (knot s.config s.host fuel)).Keeps J (J.Home s.root))
    (done : (s.perform fuel g).1 ≠ .error .outOfFuel) :
    J.Done s.world (s.perform fuel g).2.world := by
  have step := keeps (s.machine fuel) rests.pre rests.home
  simp only [perform] at done ⊢
  generalize (g (knot s.config s.host fuel)) (s.machine fuel) = made at step done ⊢
  obtain ⟨result, m⟩ := made
  rcases result with (e | _) | x
  · exact step
  · exact absurd rfl done
  · exact step

theorem done_addMethods (c : ClassId) : ∀ (methods : List NativeMethod) (w : World),
    J.Done w (methods.foldl (fun w m => m.add c w) w)
  | [], w => Calm.refl w
  | m :: rest, w => by
    have bound := within_bindProcedure (R := J.Done) (w.classOf c).scope m.name m.parameters none
      (.native m.body) w
    have added : J.Done w (m.add c w) :=
      Calm.trans bound (J.done_addMethod _ c m.name _ .method (some .native))
    exact Calm.trans added (done_addMethods c rest _)

/-- So does every act of the host. -/
theorem Act.done (h : Act D s s') (keeps : s.host.Keeps J) (rests : s.Rests J) :
    J.Done s.world s'.world := by
  have knotted : ∀ n, (knot s.config s.host n).Keeps J := knot_keeps s.config keeps
  cases h with
  | function name returns body _ =>
    exact Calm.trans (within_bindProcedure s.root name _ returns (.native body) s.world)
      (J.done_addFunction _ s.root name _ none .native none)
  | @method name _ returns body _ c _ _ =>
    exact Calm.trans (within_bindProcedure s.root name _ returns (.native body) s.world)
      (J.done_addMethod _ c name _ .method none)
  | @classObject name accessor methods constructor _ =>
    have made : J.Done s.world _ :=
      Lawful.addClass s.world s.root name (accessor.getD s.config.accessor) none
    have filled := Calm.trans made (done_addMethods
      (s.world.addClass s.root name (accessor.getD s.config.accessor) none).1
      (methods ++ [{ constructor with name := s.config.constructor }]) _)
    exact Calm.trans filled
      (Action.within_registerClass (fun w t => Lawful.setClassTable w s.root t) _ _)
  | run _ done => exact rests.done_perform (Knot.keeps_programFrom (knotted _) s.root _ _) done
  | evaluate _ done =>
    exact rests.done_perform (Knot.keeps_expression (f := s.frame) (knotted _) _) done
  | interpret _ done =>
    exact rests.done_perform (Knot.keeps_statement (f := s.frame) (knotted _) _) done
  | interpretBlock _ done =>
    exact rests.done_perform (Knot.keeps_block (f := s.frame) (knotted _) _) done

theorem Rests.later (rests : s.Rests J) (root : s'.root = s.root)
    (done : J.Done s.world s'.world) : s'.Rests J where
  pre := Lawful.pre done rests.pre
  home := root ▸ Lawful.home done rests.home

/-- A session keeps to a discipline from its start on. -/
theorem Reachable.done (h : Reachable D s)
    (first : ∀ config host, (Session.start config host).Rests J) :
    s.host.Keeps J → s.Rests J ∧ J.Done (Session.start s.config s.host).world s.world := by
  induction h with
  | start config host => exact fun _ => ⟨first config host, Calm.refl _⟩
  | act _ a ih =>
    intro keeps
    rw [a.host_eq] at keeps
    obtain ⟨rests, done⟩ := ih keeps
    have next := a.done keeps rests
    rw [a.config_eq, a.host_eq]
    exact ⟨rests.later a.root_eq next, Calm.trans done next⟩

/-- Every moment of a program is one at which it might have been stopped. -/
theorem Rests.stop_reached (rests : s.Rests J) (keeps : s.host.Keeps J) (program : List Statement)
    (fuel : Nat) : J.Stop s.world (s.reached fuel program).world := by
  have step := Knot.keeps_programFrom (knot_keeps s.config keeps fuel) s.root program .null
    (s.machine fuel) rests.pre rests.home
  rw [reached]
  generalize (knot s.config s.host fuel).programFrom s.root .null program (s.machine fuel) = made
    at step ⊢
  obtain ⟨result, m⟩ := made
  match result with
  | .ok x => exact Lawful.after step rests.pre (Lawful.stopped (Lawful.pre step rests.pre))
  | .error (.error e) =>
    exact Lawful.after step rests.pre (Lawful.stopped (Lawful.pre step rests.pre))
  | .error .outOfFuel => exact step

end Session

end ScopeLang
