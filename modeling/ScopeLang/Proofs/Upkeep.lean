/-
# Code keeps the world tended

Whatever code does, it leaves a tended world tended: with a result or an error, and
also where it is stopped for want of fuel (`Run.Tends`).  The code runs in a frame
whose scope is open and whose receiver is there, and what it yields is public.

The classes in the making are a parameter.  The body of a class is run with one more
of them, and it is the recursion of the evaluator that makes this possible: the knot
of every depth tends to the world for whatever classes are in the making.
-/
import ScopeLang.Proofs.Tending
import ScopeLang.Proofs.Statements

namespace ScopeLang

variable {Z : Making} {α β : Type}

/-! ## Runs -/

/-- A frame with an open scope, and a receiver that is there. -/
structure Frame.Fits (Z : Making) (f : Frame) (w : World) : Prop where
  scope : w.Open Z f.scope
  receiver : ∀ i, f.receiver = some i → i.In w.count

theorem Frame.Fits.later {f : Frame} {w w₁ : World} (h : f.Fits Z w) (tended : w.Tended Z)
    (g : w.Precedes w₁) : f.Fits Z w₁ :=
  ⟨h.scope.later tended g, fun i e => (h.receiver i e).mono g.count⟩

/-- A run that leaves a tended world tended, wherever it ends or is stopped, and yields results for
which `Q` holds. -/
def Run.Tends (Z : Making) (f : Frame) (r : Run α) (Q : α → World → Prop) (m : Machine) : Prop :=
  m.world.Tended Z → f.Fits Z m.world →
    m.world.Tends Z (r m).2.world ∧ ∀ x, (r m).1 = .ok x → Q x (r m).2.world

namespace Run.Tends

variable {f : Frame} {m : Machine} {Q : α → World → Prop} {R : β → World → Prop}

theorem assume {r : Run α} (h : m.world.Tended Z → f.Fits Z m.world → Run.Tends Z f r Q m) :
    Run.Tends Z f r Q m :=
  fun tended fits => h tended fits tended fits

theorem pure {x : α} (h : Q x m.world) : Run.Tends Z f (Pure.pure x) Q m :=
  fun tended _ => ⟨.refl tended, fun _ e => Except.ok.inj e ▸ h⟩

theorem fail {k : ErrorKind} : Run.Tends Z f (Run.fail k : Run α) Q m :=
  fun tended _ => ⟨.refl tended, fun _ e => absurd e nofun⟩

theorem throw {h : Halt} : Run.Tends Z f (MonadExcept.throw h : Run α) Q m :=
  fun tended _ => ⟨.refl tended, fun _ e => absurd e nofun⟩

/-- The code that follows when the world has been looked at. -/
theorem look_then {g : World → α} {k : α → Run β} (h : Run.Tends Z f (k (g m.world)) R m) :
    Run.Tends Z f (Run.look g >>= k) R m := h

theorem act {a : Action α} (h : f.Fits Z m.world → Action.Tends Z a Q m.world) :
    Run.Tends Z f (Run.ofAction a) Q m := by
  intro tended fits
  obtain ⟨tends, q⟩ := h fits tended
  obtain ⟨world, fuel, calls⟩ := m
  cases fuel with
  | zero => exact ⟨.refl tended, fun _ e => by cases e⟩
  | succ fuel =>
    simp only [Run.ofAction] at tends q ⊢
    generalize a.runIn world = made at tends q ⊢
    obtain ⟨result, w'⟩ := made
    cases result with
    | ok x => exact ⟨tends, fun _ e => Except.ok.inj e ▸ q x rfl⟩
    | error k => exact ⟨tends, fun _ e => by cases e⟩

theorem bind {r : Run α} {k : α → Run β} (h : Run.Tends Z f r Q m)
    (cont : ∀ x m', m'.world.Tended Z → m.world.Precedes m'.world → Q x m'.world →
      Run.Tends Z f (k x) R m') : Run.Tends Z f (r >>= k) R m := by
  intro tended fits
  obtain ⟨tends, q⟩ := h tended fits
  rw [Run.bind_apply]
  generalize r m = made at tends q ⊢
  obtain ⟨result, m'⟩ := made
  cases result with
  | ok x =>
    obtain ⟨tends', r⟩ := cont x m' tends.tended tends.precedes (q x rfl) tends.tended
      (fits.later tended tends.precedes)
    exact ⟨tends.trans tends', r⟩
  | error _ => exact ⟨tends, fun _ e => absurd e nofun⟩

/-- A run in another frame. -/
theorem within {g : Frame} {r : Run α} (fits : f.Fits Z m.world → g.Fits Z m.world)
    (h : Run.Tends Z g r Q m) : Run.Tends Z f r Q m :=
  fun tended here => h tended (fits here)

/-- A run with more classes in the making. -/
theorem making {Y : Making} {r : Run α} (tended : m.world.Tended Y) (more : ∀ z, Z z → Y z)
    (h : Run.Tends Y f r Q m) : Run.Tends Z f r Q m := by
  intro _ fits
  have opened : m.world.Open Y f.scope := ⟨fits.scope.there, fun kind => by
    obtain ⟨z, hz, home⟩ := fits.scope.making kind
    exact ⟨z, more z hz, home⟩⟩
  obtain ⟨tends, q⟩ := h tended ⟨opened, fits.receiver⟩
  exact ⟨⟨tends.tended.weaken more, tends.precedes⟩, q⟩

theorem mapError {g : RuntimeError → RuntimeError} {r : Run α} (h : Run.Tends Z f r Q m) :
    Run.Tends Z f (Run.mapError g r) Q m := by
  intro tended fits
  obtain ⟨tends, q⟩ := h tended fits
  rw [Run.mapError_apply]
  generalize r m = made at tends q ⊢
  obtain ⟨result, m'⟩ := made
  match result with
  | .ok x => exact ⟨tends, q⟩
  | .error (.error e) => exact ⟨tends, fun _ e => by cases e⟩
  | .error .outOfFuel => exact ⟨tends, fun _ e => by cases e⟩

/-- A run after which the machine is changed. -/
theorem andFinally {r : Run α} (change : Machine → Machine) (h : Run.Tends Z f r Q m)
    (tends : ∀ m : Machine, m.world.Tended Z → m.world.Tends Z (change m).world)
    (closed : ∀ x m, Q x m.world → Q x (change m).world) :
    Run.Tends Z f (Run.andFinally r change) Q m := by
  intro tended fits
  obtain ⟨first, q⟩ := h tended fits
  simp only [Run.andFinally]
  generalize r m = made at first q ⊢
  obtain ⟨result, m'⟩ := made
  cases result with
  | ok x => exact ⟨first.also (tends m'), fun y e => Except.ok.inj e ▸ closed x m' (q x rfl)⟩
  | error halt =>
    cases halt with
    | error _ => exact ⟨first.also (tends m'), fun _ e => by cases e⟩
    | outOfFuel => exact ⟨first, fun _ e => by cases e⟩

theorem followedBy {r : Run α} {g : World → World} (h : Run.Tends Z f r Q m)
    (tends : ∀ w : World, w.Tended Z → w.Tends Z (g w)) (closed : ∀ x w, Q x w → Q x (g w)) :
    Run.Tends Z f (Run.followedBy r g) Q m :=
  h.andFinally (fun m => { m with world := g m.world }) (fun m => tends m.world)
    fun x m => closed x m.world

end Run.Tends

/-- What is held does not matter. -/
theorem World.Tended.tends_held {w : World} (h : w.Tended Z) (cells : List Cell) :
    w.Tends Z { w with held := cells } :=
  ⟨h.setHeld cells, .unmoved (le_refl _) rfl rfl⟩

namespace Run.Tends

variable {f : Frame} {m : Machine} {Q : α → World → Prop}

/-- A run during which cells are held. -/
theorem holding {cells : List Cell} {r : Run α}
    (h : Run.Tends Z f r Q { m with world := m.world.hold cells })
    (closed : ∀ x w held, Q x w → Q x { w with held }) :
    Run.Tends Z f (Run.holding cells r) Q m := by
  intro tended fits
  have held : m.world.Tends Z (m.world.hold cells) := tended.tends_held _
  have inside := h.andFinally (fun m' =>
    { m' with world := { m'.world with held := m.world.held } })
    (fun m' t => t.tends_held _) fun x m' => closed x m'.world _
  obtain ⟨tends, q⟩ := inside held.tended (fits.later tended held.precedes)
  exact ⟨held.trans tends, q⟩

/-- A run in the course of an invocation. -/
theorem during {i : Invocation} {r : Run α}
    (h : Run.Tends Z f r Q { m with calls := i :: m.calls }) :
    Run.Tends Z f (Run.during i r) Q m :=
  h.andFinally (fun m' => { m' with calls := m.calls }) (fun _ t => .refl t)
    fun _ _ q => q

end Run.Tends

/-! ## Knots -/

/-- A host whose bodies leave a tended world tended: they conjure up no class that they have not
been given, and declare variables in open scopes only. -/
def Host.Tends (host : Host) : Prop :=
  ∀ (Z : Making) body call w, (∀ v ∈ call.arguments, v.Public Z w.count) → w.Open Z call.scope →
    (∀ i, call.receiver = some i → i.In w.count) →
    Action.Tends Z (host.run body call) (PublicValue Z) w

/-- What becomes of a statement has a public value. -/
abbrev PublicOutcome (Z : Making) (o : Outcome) (w : World) : Prop := PublicValue Z o.value w

/-- A knot whose recursive calls leave the world tended, whatever classes are in the making. -/
structure Knot.Tends (k : Knot) : Prop where
  host : k.host.Tends
  evaluate : ∀ Z e f m, Run.Tends Z f (k.evaluate e f) (PublicValue Z) m
  interpret : ∀ Z s f m, Run.Tends Z f (k.interpret s f) (PublicOutcome Z) m

/-- Public values. -/
abbrev PublicValues (Z : Making) (vs : List Value) (w : World) : Prop :=
  ∀ v ∈ vs, v.Public Z w.count

/-- Arguments with public values. -/
abbrev PublicArguments (Z : Making) (a : CallArguments) (w : World) : Prop :=
  a.All fun v => v.Public Z w.count

theorem CallArguments.All.imp {P P' : Value → Prop} {a : CallArguments} (h : a.All P)
    (imp : ∀ v, P v → P' v) : a.All P' :=
  ⟨fun v hv => imp v (h.1 v hv), fun e he => imp e.2 (h.2 e he)⟩

theorem CallArguments.All.add {P : Value → Prop} {a : CallArguments} (h : a.All P)
    (name : Option String) {v : Value} (new : P v) : (a.add name v).All P := by
  cases name with
  | none =>
    refine ⟨fun x hx => ?_, h.2⟩
    rcases List.mem_append.mp hx with hx | hx
    · exact h.1 x hx
    · exact List.mem_singleton.mp hx ▸ new
  | some name =>
    refine ⟨h.1, fun e he => ?_⟩
    rcases List.mem_append.mp he with he | he
    · exact h.2 e he
    · exact List.mem_singleton.mp he ▸ new

namespace Knot

variable {k : Knot} {f frame : Frame} {m : Machine}

/-! ## Arguments -/

theorem tends_default (tends : k.Tends) {q : ParameterSpec} :
    Run.Tends Z f (k.default q f) (PublicValue Z) m := by
  simp only [default]
  split
  · exact tends.evaluate Z _ f m
  · exact .pure Value.public_null

theorem tends_checkArgument {w : World} {q : ParameterSpec} {s : ScopeId} {v : Value} :
    Action.Tends Z (checkArgument q s v) (fun _ w' => w' = w) w := by
  simp only [checkArgument]
  split
  · exact .consult fun _ _ _ => rfl
  · exact .pure rfl

theorem tends_materialize (tends : k.Tends) {q : ParameterSpec} {slot : Slot Value}
    (public_ : PublicValues Z slot.values m.world) :
    Run.Tends Z f (k.materialize q f slot) (PublicValue Z) m := by
  cases slot with
  | spread vs => exact .act fun _ => tends_newList public_
  | value v =>
    refine .bind (.act fun _ => tends_checkArgument) ?_
    rintro - m' _ g _
    exact .pure ((public_ v (List.mem_singleton_self v)).mono g.count)
  | omitted =>
    refine .bind (tends_default tends) ?_
    intro v m' _ _ good
    refine .bind (.act fun _ => tends_checkArgument) ?_
    rintro - m'' _ g _
    exact .pure (good.mono g.count)

theorem tends_materializeAll (tends : k.Tends) {ps : List ParameterSpec} :
    ∀ {slots : List (Slot Value)} {m : Machine},
      SlotsAll (fun v => v.Public Z m.world.count) slots →
      Run.Tends Z f (k.materializeAll f ps slots) (PublicValues Z) m := by
  induction ps with
  | nil => exact fun _ => .pure fun v hv => absurd hv List.not_mem_nil
  | cons q ps ih =>
    intro slots m public_
    cases slots with
    | nil => exact .pure fun v hv => absurd hv List.not_mem_nil
    | cons slot slots =>
      refine .bind (tends_materialize tends (public_ slot List.mem_cons_self)) ?_
      intro v m₁ _ g good
      refine .bind (.holding (ih fun x hx u hu =>
        (public_ x (List.mem_cons_of_mem slot hx) u hu).mono g.count) fun _ _ _ h => h) ?_
      intro vs m₂ _ g' goods
      refine .pure fun x hx => ?_
      rcases List.mem_cons.mp hx with rfl | hx
      · exact good.mono g'.count
      · exact goods x hx

theorem tends_argument (tends : k.Tends) {q : ParameterSpec} {slot : Slot Value}
    (public_ : PublicValues Z slot.values m.world) :
    Run.Tends Z f (k.argument q f slot) (fun x w => x.1.Public Z w.count) m := by
  cases slot with
  | spread vs =>
    exact .bind (.act fun _ => tends_newList public_) fun v _ _ _ good => .pure good
  | value v => exact .pure (public_ v (List.mem_singleton_self v))
  | omitted => exact .bind (tends_default tends) fun v _ _ _ good => .pure good

theorem tends_install (tends : k.Tends) {q : ParameterSpec} {slot : Slot Value}
    (public_ : PublicValues Z slot.values m.world) :
    Run.Tends Z f (k.install q f slot) (fun _ _ => True) m := by
  refine .bind (tends_argument tends public_) ?_
  rintro ⟨v, signature⟩ m₁ _ _ good
  refine .bind (Q := fun _ _ => True) (.act fun _ => .consult fun _ _ _ => trivial) ?_
  rintro - m₂ _ g _
  exact .act fun fits => tends_declareVariable fits.scope (good.mono g.count)

theorem tends_installAll (tends : k.Tends) {ps : List ParameterSpec} :
    ∀ {slots : List (Slot Value)} {m : Machine},
      SlotsAll (fun v => v.Public Z m.world.count) slots →
      Run.Tends Z f (k.installAll f ps slots) (fun _ _ => True) m := by
  induction ps with
  | nil => exact fun _ => .pure trivial
  | cons q ps ih =>
    intro slots m public_
    cases slots with
    | nil => exact .pure trivial
    | cons slot slots =>
      refine .bind (tends_install tends (public_ slot List.mem_cons_self)) ?_
      intro _ m₁ _ g _
      exact ih fun x hx u hu => (public_ x (List.mem_cons_of_mem slot hx) u hu).mono g.count

/-! ## Bodies -/

theorem tends_result {w : World} {s : ScopeId} {p : Procedure} {o : Outcome}
    (public_ : PublicOutcome Z o w) : Action.Tends Z (result p s o) (PublicValue Z) w := by
  cases o with
  | returned v => exact .pure public_
  | thrown v => exact .throw
  | settled v =>
    refine .look_then ?_
    split
    · exact .pure Value.public_null
    · exact .throw
  | broke => exact .throw
  | continued => exact .throw

theorem tends_blockFrom (tends : k.Tends) {body : List Statement} :
    ∀ {last : Value} {m : Machine}, last.Public Z m.world.count →
      Run.Tends Z f (k.blockFrom f last body) (PublicOutcome Z) m := by
  induction body with
  | nil => exact fun public_ => .pure public_
  | cons s rest ih =>
    intro last m _
    refine .bind (.holding (tends.interpret Z s f _) fun _ _ _ h => h) ?_
    intro o m₁ _ _ good
    cases o with
    | settled v => exact ih good
    | _ => exact .pure good

theorem tends_block (tends : k.Tends) {body : List Statement} :
    Run.Tends Z f (k.block body f) (PublicOutcome Z) m :=
  tends_blockFrom tends Value.public_null

theorem tends_runBody (tends : k.Tends) {p : Procedure} {body : List Statement}
    {slots : List (Slot Value)} (public_ : SlotsAll (fun v => v.Public Z m.world.count) slots) :
    Run.Tends Z f (k.runBody p body slots f) (PublicValue Z) m := by
  refine .bind (tends_installAll tends public_) ?_
  intro _ m₁ _ _ _
  refine .bind (tends_block tends) ?_
  intro o m₂ _ _ good
  refine .bind (.act fun _ => tends_result good) ?_
  intro v m₃ _ _ good
  refine .bind (Q := fun _ w => v.Public Z w.count) (.act fun _ => .consult fun _ _ _ => good) ?_
  intro _ m₄ _ _ good
  exact .pure good

/-- A body that runs in a scope of its own. -/
theorem tends_runCall (tends : k.Tends) {p : Procedure} {body : List Statement}
    {slots : List (Slot Value)} (public_ : SlotsAll (fun v => v.Public Z m.world.count) slots)
    {caller : ScopeId} {enter : Action ScopeId} {receiver : Option InstanceId}
    (present : ∀ i, receiver = some i → i.In m.world.count)
    (entered : Action.Tends Z enter (fun s w => w.Open Z s) m.world) :
    Run.Tends Z f (k.runCall p body slots caller enter receiver) (PublicValue Z) m := by
  refine .bind (.act fun _ => entered) ?_
  intro s m₁ _ g opened
  refine .followedBy (.holding (.within (g := ⟨s, receiver⟩)
    (fun _ => ⟨⟨opened.there, opened.making⟩, fun i e => (present i e).mono g.count⟩)
    (tends_runBody tends fun x hx u hu => (public_ x hx u hu).mono g.count)) fun _ _ _ h => h)
    (fun w t => t.removeChild _ _) ?_
  intro v w good
  rw [PublicValue, World.count_removeChild]
  exact good

/-- A native body is given an open scope and public values. -/
theorem tends_runNative (tends : k.Tends) {p : Procedure} {body : String}
    {slots : List (Slot Value)}
    (public_ : SlotsAll (fun v => v.Public Z m.world.count) slots) {scope : ScopeId}
    (opened : m.world.Tended Z → m.world.Open Z scope) :
    Run.Tends Z f (k.runNative p body slots f scope) (PublicValue Z) m := by
  refine .assume fun tended fits => ?_
  refine .bind (tends_materializeAll tends public_) ?_
  intro vs m₁ _ g good
  have opened := (opened tended).later tended g
  refine .bind (.holding (.act fun _ => tends.host Z body ⟨vs, scope, f.receiver⟩ _ good
    ⟨opened.there, opened.making⟩ fun i e => (fits.receiver i e).mono g.count)
      fun _ _ _ h => h) ?_
  intro v m₂ _ _ good
  refine .bind (Q := fun _ w => v.Public Z w.count) (.act fun _ => .consult fun _ _ _ => good) ?_
  intro _ m₃ _ _ good
  exact .pure good

/-! ## Invocations -/

theorem tends_invokeFunction (tends : k.Tends) {h : Handle .function} {slots : List (Slot Value)}
    (public_ : SlotsAll (fun v => v.Public Z m.world.count) slots) :
    Run.Tends Z f (k.invokeFunction h slots f.scope) (PublicValue Z) m := by
  refine .look_then (.assume fun _ fits => ?_)
  split
  · exact .within (g := ⟨f.scope, none⟩) (fun _ => ⟨fits.scope, nofun⟩)
      (tends_runNative tends public_ fun _ => fits.scope)
  · refine tends_runCall tends public_ nofun fun tended => ?_
    exact tended.enter f.scope _ .functionCall (by decide) _

theorem tends_invokeMethod (tends : k.Tends) {h : Handle .method} {slots : List (Slot Value)}
    {receiver : InstanceId} (present : receiver.In m.world.count)
    (public_ : SlotsAll (fun v => v.Public Z m.world.count) slots) :
    Run.Tends Z f (k.invokeMethod h slots receiver f.scope) (PublicValue Z) m := by
  refine .look_then (.assume fun _ fits => ?_)
  have there : ∀ i, some receiver = some i → i.In m.world.count := fun i e =>
    Option.some.inj e ▸ present
  split
  · refine .look_then ?_
    exact .within (g := ⟨f.scope, some receiver⟩) (fun _ => ⟨fits.scope, there⟩)
      (tends_runNative tends public_ fun tended => tended.open_home present)
  · refine tends_runCall tends public_ there fun tended => ?_
    rw [Action.enterMethod, runIn_look_bind]
    exact tended.enter f.scope _ .methodCall (by decide) _

/-- What is invoked from an open scope, with a receiver that is there. -/
theorem tends_invoke (tends : k.Tends) {access : Access} {r : Resolution}
    (same : frame.scope = f.scope) (present : ∀ i, frame.receiver = some i → i.In m.world.count)
    (public_ : SlotsAll (fun v => v.Public Z m.world.count) r.slots) :
    Run.Tends Z f (k.invoke access r frame) (PublicValue Z) m := by
  refine .holding ?_ fun _ _ _ h => h
  split
  · rw [same]
    exact .during (tends_invokeFunction tends public_)
  · split
    · rename_i i e
      rw [same]
      exact .during (tends_invokeMethod tends (present i e) public_)
    · exact .look_then .fail
  · exact .fail

/-! ## Methods and classes -/

theorem tends_callMethod (tends : k.Tends) {receiver : InstanceId} {name : String}
    {arguments : CallArguments} (present : receiver.In m.world.count)
    (public_ : PublicArguments Z arguments m.world) :
    Run.Tends Z f (k.callMethod receiver name arguments f.scope) (PublicValue Z) m := by
  refine .holding (.look_then ?_) fun _ _ _ h => h
  refine .bind (.act fun _ => tends_resolveFunction public_) ?_
  intro r m₁ _ g slots
  exact tends_invoke tends rfl (fun i e => Option.some.inj e ▸ present.mono g.count) slots

/-- Instances are made of public classes. -/
theorem tends_instantiate (tends : k.Tends) {c : ClassId} {arguments : CallArguments}
    (class_ : c.cell.Public Z m.world.count) (public_ : PublicArguments Z arguments m.world) :
    Run.Tends Z f (k.instantiate c arguments f.scope) (PublicValue Z) m := by
  refine .holding ?_ fun _ _ _ h => h
  refine .bind (Q := fun i w => i.In w.count) (.act fun _ =>
    .change (fun h => h.makeInstance class_) fun _ => World.newInstance_in _ _) ?_
  intro i m₁ _ g present
  refine .look_then (.look_then ?_)
  split
  · refine .bind (tends_callMethod tends present
      (public_.imp fun v (h : v.Public Z m.world.count) => h.mono g.count)) ?_
    intro _ m₂ _ g' _
    exact .pure (Value.public_of_kind rfl (present.mono g'.count) nofun)
  · exact .look_then .fail

/-! ## Calls -/

theorem tends_callValue (tends : k.Tends) {callee : Value} {arguments : CallArguments}
    (good : callee.Public Z m.world.count) (public_ : PublicArguments Z arguments m.world) :
    Run.Tends Z f (k.callValue callee arguments f) (PublicValue Z) m := by
  refine .holding (.assume fun _ fits => ?_) fun _ _ _ h => h
  have invoke : ∀ {r : Resolution} {m' : Machine}, m.world.count ≤ m'.world.count →
      SlotsAll (fun v => v.Public Z m'.world.count) r.slots →
        Run.Tends Z f (k.invoke .value r f) (PublicValue Z) m' := fun le slots =>
    tends_invoke tends rfl (fun i e => (fits.receiver i e).mono le) slots
  obtain ⟨d, a⟩ := callee
  cases d with
  | overloads h =>
    refine .look_then (.bind (.act fun _ => tends_resolveAmong public_) ?_)
    intro r m₁ _ g slots
    exact invoke g.count slots
  | callable c =>
    cases c with
    | classObject c =>
      exact tends_instantiate tends (good c.cell (List.mem_singleton_self _)) public_
    | function h =>
      refine .look_then (.bind (.act fun _ => tends_resolveAmong public_) ?_)
      intro r m₁ _ g slots
      exact invoke g.count slots
    | method h =>
      refine .look_then (.bind (.act fun _ => tends_resolveAmong public_) ?_)
      intro r m₁ _ g slots
      exact invoke g.count slots
  | _ => exact .fail

theorem public_callableVariable {w : World} (tended : w.Tended Z) {s : ScopeId} {name : String}
    {v : Value} (h : callableVariable? w s name = some v) : v.Public Z w.count := by
  obtain ⟨found, -⟩ := Option.filter_eq_some_iff.mp h
  obtain ⟨b, hb, rfl⟩ := Option.map_eq_some_iff.mp found
  exact tended.public_binding? hb

theorem tends_callName (tends : k.Tends) {name : String} {arguments : CallArguments}
    (public_ : PublicArguments Z arguments m.world) :
    Run.Tends Z f (k.callName name arguments f) (PublicValue Z) m := by
  refine .holding (.look_then (.assume fun tended fits => ?_)) fun _ _ _ h => h
  split
  · rename_i callee e
    exact tends_callValue tends (public_callableVariable tended e) public_
  · split
    · refine .bind (.act fun _ => tends_resolveAmong public_) ?_
      intro r m₁ _ g slots
      exact tends_invoke tends rfl (fun i e => (fits.receiver i e).mono g.count) slots
    · split
      · rename_i c e
        exact tends_instantiate tends (tended.public_lookupClass e) public_
      · exact .fail

/-! ## Items and arguments -/

theorem tends_items (tends : k.Tends) {es : List Expr} :
    ∀ {m : Machine}, Run.Tends Z f (k.items f es) (PublicValues Z) m := by
  induction es with
  | nil => exact .pure fun v hv => absurd hv List.not_mem_nil
  | cons e rest ih =>
    intro m
    refine .bind (tends.evaluate Z e f m) ?_
    intro v m₁ _ _ good
    refine .bind (.act fun _ => tends_duplicate good) ?_
    intro v m₂ _ _ good
    refine .bind (.holding ih fun _ _ _ h => h) ?_
    intro vs m₃ _ g goods
    refine .pure fun x hx => ?_
    rcases List.mem_cons.mp hx with rfl | hx
    · exact good.mono g.count
    · exact goods x hx

theorem tends_entries (tends : k.Tends) {es : List Entry} :
    ∀ {m : Machine}, Run.Tends Z f (k.entries f es) (fun es => PublicValues Z (entryValues es))
      m := by
  induction es with
  | nil => exact .pure fun v hv => absurd hv List.not_mem_nil
  | cons e rest ih =>
    intro m
    obtain ⟨key, value⟩ := e
    refine .bind (tends.evaluate Z key f m) ?_
    intro x m₁ _ _ good
    refine .bind (.act fun _ => tends_duplicate good) ?_
    intro x m₂ _ _ good
    refine .holding ?_ fun _ _ _ h => h
    refine .bind (tends.evaluate Z value f _) ?_
    intro y m₃ _ g₃ good'
    refine .bind (.act fun _ => tends_duplicate good') ?_
    intro y m₄ _ g₄ good'
    refine .bind (.holding ih fun _ _ _ h => h) ?_
    intro es m₅ _ g₅ goods
    refine .pure fun v hv => ?_
    simp only [entryValues, List.flatMap_cons, List.mem_append, List.mem_cons, List.not_mem_nil,
      or_false] at hv
    rcases hv with (rfl | rfl) | hv
    · exact ((good.mono g₃.count).mono g₄.count).mono g₅.count
    · exact good'.mono g₅.count
    · exact goods v hv

theorem tends_argumentsFrom (tends : k.Tends) {as : List Argument} :
    ∀ {done : CallArguments} {m : Machine}, PublicArguments Z done m.world →
      Run.Tends Z f (k.argumentsFrom f done as) (PublicArguments Z) m := by
  induction as with
  | nil => exact fun public_ => .pure public_
  | cons a rest ih =>
    intro done m public_
    obtain ⟨name, value⟩ := a
    refine .bind (.holding (tends.evaluate Z value f _) fun _ _ _ h => h) ?_
    intro v m₁ _ g good
    exact ih ((public_.imp fun v (h : v.Public Z m.world.count) => h.mono g.count).add name good)

theorem tends_arguments (tends : k.Tends) {as : List Argument} :
    Run.Tends Z f (k.arguments as f) (PublicArguments Z) m :=
  tends_argumentsFrom tends
    ⟨fun _ h => absurd h List.not_mem_nil, fun _ h => absurd h List.not_mem_nil⟩

/-! ## Variables and members -/

theorem tends_receiver : Run.Tends Z f (k.receiver f) (fun i w => i.In w.count) m := by
  refine .assume fun _ fits => ?_
  cases e : f.receiver with
  | some i =>
    simp only [receiver, e]
    exact .pure (fits.receiver i e)
  | none =>
    simp only [receiver, e]
    exact .fail

/-- A variable is declared in an open scope. -/
theorem tends_declareVariable (tends : k.Tends) {d : VariableDecl} {target : ScopeId}
    (may : m.world.Open Z target) :
    Run.Tends Z f (k.declareVariable d f target) (PublicValue Z) m := by
  refine .assume fun tended _ => ?_
  obtain ⟨name, type, initial, flags⟩ := d
  refine .bind (Q := fun _ _ => True)
    (.act fun _ => .change (fun h => h.withPool _ _) fun _ => trivial) ?_
  intro declared m₁ _ g₁ _
  have finish : ∀ (v : Value) (m₂ : Machine), m.world.Precedes m₂.world →
      v.Public Z m₂.world.count →
      Run.Tends Z f (do
        let inferred ← Run.change fun w => w.inferType f.scope v
        let v := { v with attrs := { v.attrs with inferred, displayName := some name } }
        Action.declareVariable target name ⟨v, flags, declared⟩
        return v) (PublicValue Z) m₂ := by
    intro v m₂ g₂ good
    refine .bind (Q := fun _ w => v.Public Z w.count) (.act fun _ => .change
      (fun h => h.withPool _ _) fun h => good.mono (h.withPool f.scope _).precedes.count) ?_
    intro inferred m₃ _ g₃ good
    refine .bind (.act fun _ => ScopeLang.tends_declareVariable
      (may.later tended (g₂.trans g₃)) good) ?_
    intro _ m₄ _ g₄ _
    exact .pure (good.mono g₄.count)
  cases initial with
  | none => exact finish .null m₁ g₁ Value.public_null
  | some e =>
    refine .bind (tends.evaluate Z e f m₁) ?_
    intro v m₂ _ g₂ good
    refine .bind (Q := fun _ w => v.Public Z w.count) (.act fun _ => .consult fun _ _ _ => good) ?_
    intro _ m₃ _ g₃ good
    exact finish v m₃ ((g₁.trans g₂).trans g₃) good

theorem tends_assignVariable (tends : k.Tends) {name : String} {value : Expr} :
    Run.Tends Z f (k.assignVariable name value f) (PublicValue Z) m := by
  refine .bind (tends.evaluate Z value f m) ?_
  intro v m₁ _ _ good
  refine .bind (.act fun _ => tends_updateVariable good) ?_
  intro _ m₂ _ g _
  exact .pure (good.mono g.count)

theorem public_member {w : World} (tended : w.Tended Z) {i : InstanceId} {name : String} {v : Value}
    (h : member? w i name = some v) : v.Public Z w.count := by
  obtain ⟨b, found, rfl⟩ := Option.map_eq_some_iff.mp h
  rcases Option.or_eq_some_iff.mp found with found | ⟨-, found⟩
  · exact tended.binding (World.mem_values_of_localBinding? found)
  · exact tended.binding (World.mem_values_of_localBinding? found)

theorem tends_member (tends : k.Tends) {e : Element} {i : InstanceId}
    (present : i.In m.world.count) : Run.Tends Z f (k.member e i f) (PublicValue Z) m := by
  refine .holding (.assume fun tended _ => ?_) fun _ _ _ h => h
  cases e with
  | read name =>
    refine .look_then ?_
    split
    · rename_i v e
      exact .pure (public_member tended e)
    · exact .fail
  | assign name value =>
    refine .bind (tends.evaluate Z value f _) ?_
    intro v m₁ _ _ good
    refine .bind (.act fun _ => tends_assignMember good) ?_
    intro _ m₂ _ g _
    exact .pure (good.mono g.count)
  | declare d => exact .look_then (tends_declareVariable tends (tended.open_home present))
  | call name arguments =>
    refine .look_then ?_
    split
    · refine .bind (tends_arguments tends) ?_
      intro a m₁ _ g public_
      exact tends_callMethod tends (present.mono g.count) public_
    · exact .fail

/-! ## Chains -/

theorem tends_chainHead (tends : k.Tends) {e : Element} :
    Run.Tends Z f (k.chainHead e f) (PublicValue Z) m := by
  cases e with
  | read name => exact .act fun _ => tends_readName
  | assign name value => exact tends_assignVariable tends
  | declare d => exact .assume fun _ fits => tends_declareVariable tends fits.scope
  | call name arguments =>
    refine .bind (tends_arguments tends) ?_
    intro a m₁ _ _ public_
    exact tends_callName tends public_

theorem tends_applyIntrinsic {target : Value} {e : Element} {name : String} {vs : List Value}
    (good : target.Public Z m.world.count) (goods : PublicValues Z vs m.world) :
    Run.Tends Z f (applyIntrinsic target e name vs) (PublicValue Z) m := by
  simp only [applyIntrinsic]
  split
  · rename_i run found
    exact .act fun _ => tends_intrinsic good found vs goods
  · exact .look_then .fail

theorem tends_virtual (tends : k.Tends) {e : Element} {target : Value}
    (good : target.Public Z m.world.count) :
    Run.Tends Z f (k.virtual e target f) (PublicValue Z) m := by
  refine .holding ?_ fun _ _ _ h => h
  cases e with
  | read name => exact tends_applyIntrinsic good fun v hv => absurd hv List.not_mem_nil
  | assign name value => exact .look_then .fail
  | declare d => exact .look_then .fail
  | call name arguments =>
    refine .bind (tends_arguments tends) ?_
    intro a m₁ _ g public_
    split
    · exact .holding (tends_applyIntrinsic (good.mono g.count) public_.1) fun _ _ _ h => h
    · exact .look_then .fail

theorem tends_chainStep (tends : k.Tends) {e : Element} {current : Value}
    (good : current.Public Z m.world.count) :
    Run.Tends Z f (k.chainStep e current f) (PublicValue Z) m := by
  simp only [chainStep]
  split
  · rename_i i object
    refine tends_member tends (good i.cell ?_).1
    obtain ⟨d, a⟩ := current
    cases d with
    | object j =>
      rw [← Option.some.inj object]
      exact List.mem_singleton_self _
    | _ => cases object
  · exact tends_virtual tends good

theorem tends_chainSteps (tends : k.Tends) {es : List Element} :
    ∀ {current : Value} {m : Machine}, current.Public Z m.world.count →
      Run.Tends Z f (k.chainSteps f current es) (PublicValue Z) m := by
  induction es with
  | nil => exact fun good => .pure good
  | cons e rest ih =>
    intro current m good
    refine .bind (tends_chainStep tends good) ?_
    intro v m₁ _ _ good
    exact ih good

theorem tends_chain (tends : k.Tends) {origin : ChainOrigin} {es : List Element} :
    Run.Tends Z f (k.chain origin es f) (PublicValue Z) m := by
  cases es with
  | nil => exact .pure Value.public_null
  | cons head rest =>
    cases origin with
    | scope =>
      refine .bind (tends_chainHead tends) ?_
      intro v m₁ _ _ good
      exact tends_chainSteps tends good
    | receiver =>
      refine .bind tends_receiver ?_
      intro i m₁ _ _ present
      refine .bind (tends_member tends present) ?_
      intro v m₂ _ _ good
      exact tends_chainSteps tends good

/-! ## Expressions -/

theorem tends_build {w : World} {vs : List Value} (goods : PublicValues Z vs w) :
    ∀ kind : SequenceKind, Action.Tends Z (kind.build vs) (PublicValue Z) w
  | .list => tends_newList goods
  | .array => tends_newArray goods
  | .set => tends_newSet goods

theorem tends_term (tends : k.Tends) {t : Term} :
    Run.Tends Z f (k.term t f) (PublicValue Z) m := by
  cases t with
  | literal l => exact .pure (plain_literal l).public
  | sequence kind es =>
    refine .bind (tends_items tends) ?_
    intro vs m₁ _ _ goods
    exact .act fun _ => tends_build goods kind
  | dict es =>
    refine .bind (tends_entries tends) ?_
    intro vs m₁ _ _ goods
    exact .act fun _ => tends_newDict goods
  | «variable» name => exact .act fun _ => tends_readName
  | receiver =>
    refine .bind tends_receiver ?_
    intro i m₁ _ _ present
    exact .pure (Value.public_of_kind rfl present nofun)
  | unary op operand =>
    refine .bind (tends.evaluate Z operand f m) ?_
    intro v m₁ _ _ _
    exact .act fun _ => .consult fun _ _ h => (plain_unary h).public
  | binary op left right =>
    refine .bind (tends.evaluate Z left f m) ?_
    intro a m₁ _ _ _
    refine .bind (.holding (tends.evaluate Z right f _) fun _ _ _ h => h) ?_
    intro b m₂ _ _ _
    exact .act fun _ => tends_binary
  | logical op left right =>
    refine .bind (tends.evaluate Z left f m) ?_
    intro a m₁ _ _ good
    refine .look_then ?_
    split
    · exact .pure good
    · exact .holding (tends.evaluate Z right f _) fun _ _ _ h => h
  | call callee arguments =>
    refine .bind (tends_arguments tends) ?_
    intro a m₁ _ _ public_
    exact tends_callName tends public_
  | callValue callee arguments =>
    refine .bind (tends.evaluate Z callee f m) ?_
    intro v m₁ _ _ good
    refine .bind (.holding (tends_arguments tends) fun _ _ _ h => h) ?_
    intro a m₂ _ g public_
    exact tends_callValue tends (good.mono g.count) public_
  | chain origin es => exact tends_chain tends

theorem tends_expression (tends : k.Tends) {e : Expr} :
    Run.Tends Z f (k.expression e f) (PublicValue Z) m := by
  obtain ⟨t, span⟩ := e
  exact .mapError (tends_term tends)

/-! ## Statements -/

/-- A block runs in a new scope, which is open. -/
theorem tends_blockStatement (tends : k.Tends) {body : List Statement} :
    Run.Tends Z f (k.blockStatement body f) (PublicOutcome Z) m := by
  refine .look_then (.assume fun _ fits => ?_)
  refine .bind (Q := fun s w => w.Open Z s) (.act fun _ => .change
    (fun h => (h.createChild f.scope .block (by decide) _).1)
    fun h => (h.createChild f.scope .block (by decide) _).2) ?_
  intro s m₁ _ g opened
  refine .followedBy (.holding (.within (g := { f with scope := s })
    (fun _ => ⟨⟨opened.there, opened.making⟩, fun i e => (fits.receiver i e).mono g.count⟩)
    (tends_block tends)) fun _ _ _ h => h) (fun w t => t.removeChild _ _) ?_
  intro o w good
  rw [PublicOutcome, PublicValue, World.count_removeChild]
  exact good

theorem tends_branches (tends : k.Tends) {otherwise : Option (List Statement)} {bs : List Branch} :
    ∀ {m : Machine}, Run.Tends Z f (k.branches f otherwise bs) (PublicOutcome Z) m := by
  induction bs with
  | nil =>
    intro m
    cases otherwise with
    | none => exact .pure Value.public_null
    | some body => exact tends_block tends
  | cons b rest ih =>
    intro m
    obtain ⟨condition, body⟩ := b
    refine .bind (tends.evaluate Z condition f m) ?_
    intro v m₁ _ _ _
    refine .look_then ?_
    split
    · exact tends_block tends
    · exact ih

theorem tends_loop (tends : k.Tends) {condition : Expr} {body : List Statement} :
    ∀ {n : Nat} {m : Machine},
      Run.Tends Z f (k.loop condition body f n) (PublicOutcome Z) m
  | 0, _ => .throw
  | n + 1, m => by
    refine .bind (tends.evaluate Z condition f m) ?_
    intro v m₁ _ _ _
    refine .look_then ?_
    split
    · refine .bind (tends_block tends) ?_
      intro o m₂ _ _ good
      cases o with
      | settled v => exact tends_loop tends
      | continued => exact tends_loop tends
      | broke => exact .pure Value.public_null
      | returned v => exact .pure good
      | thrown v => exact .pure good
    · exact .pure Value.public_null

/-! ## Class bodies -/

/-- The scope of a class in the making is open, and the body of the class runs in it. -/
theorem tends_classStatement (tends : k.Tends) {c : ClassId} (making : Z c) {s : Statement} :
    Run.Tends Z f (k.classStatement c s) (fun _ _ => True) m := by
  obtain ⟨node, span⟩ := s
  simp only [classStatement]
  split
  · exact .act fun _ => .modify (fun h => h.defineMethod c _) fun _ => trivial
  · refine .look_then (.assume fun tended _ => ?_)
    have opened : m.world.Open Z (m.world.classOf c).scope :=
      ⟨tended.classScope (tended.there making), fun _ => ⟨c, making, rfl⟩⟩
    refine .bind (.within (g := ⟨(m.world.classOf c).scope, none⟩)
      (fun _ => ⟨opened, fun _ e => by cases e⟩) (tends.interpret Z _ _ m)) ?_
    intro o m₁ _ _ _
    split
    · exact .pure trivial
    · exact .throw

theorem tends_classBody (tends : k.Tends) {c : ClassId} (making : Z c) {body : List Statement} :
    ∀ {m : Machine}, Run.Tends Z f (k.classBody c body) (fun _ _ => True) m := by
  induction body with
  | nil => exact .pure trivial
  | cons s rest ih =>
    intro m
    refine .bind (tends_classStatement tends making) ?_
    intro _ m₁ _ _ _
    exact ih

/-- A class is in the making while its body runs; when it is registered it is public. -/
theorem tends_defineClass (tends : k.Tends) {d : ClassDecl} :
    Run.Tends Z f (k.defineClass d f) (fun _ _ => True) m := by
  refine .assume fun tended _ => ?_
  refine .bind (Q := fun c w => w.Tended (fun z => Z z ∨ z = c) ∧ c.cell.Public Z w.count)
    (.act fun _ => .change (fun h => (h.openClass f.scope d _).tends) fun h =>
      ⟨(h.openClass f.scope d _).tended, (h.openClass f.scope d _).cell_public h⟩) ?_
  rintro c m₁ _ g ⟨making, public_⟩
  refine .holding (.bind (.making (Y := fun z => Z z ∨ z = c) (making.setHeld _)
    (fun _ => .inl) (tends_classBody tends (.inr rfl))) ?_) fun _ _ _ _ => trivial
  intro _ m₂ _ g' _
  refine .look_then (.look_then ?_)
  split
  · exact .act fun _ => tends_registerClass (public_.mono g'.count)
  · exact .fail

theorem tends_node (tends : k.Tends) {n : Node} :
    Run.Tends Z f (k.node n f) (PublicOutcome Z) m := by
  cases n with
  | expression e => exact .bind (tends.evaluate Z e f m) fun v _ _ _ good => .pure good
  | declare d =>
    refine .assume fun _ fits => ?_
    exact .bind (tends_declareVariable tends fits.scope) fun v _ _ _ good => .pure good
  | assign name value => exact .bind (tends_assignVariable tends) fun v _ _ _ good => .pure good
  | block body => exact tends_blockStatement tends
  | cond bs otherwise => exact tends_branches tends
  | loop condition body => exact tends_loop tends
  | «return» e =>
    cases e with
    | none => exact .pure Value.public_null
    | some e => exact .bind (tends.evaluate Z e f m) fun v _ _ _ good => .pure good
  | «break» => exact .pure Value.public_null
  | «continue» => exact .pure Value.public_null
  | throw e => exact .bind (tends.evaluate Z e f m) fun v _ _ _ good => .pure good
  | function d =>
    exact .bind (Q := fun _ _ => True) (.act fun _ => .modify (fun h => h.defineFunction f.scope d)
      fun _ => trivial) fun _ _ _ _ _ => .pure Value.public_null
  | classDef d => exact .bind (tends_defineClass tends) fun _ _ _ _ _ => .pure Value.public_null
  | typeAlias name t =>
    exact .bind (Q := fun _ _ => True) (.act fun _ => .change (fun h => h.bindAlias f.scope name t)
      fun _ => trivial) fun _ _ _ _ _ => .pure Value.public_null

theorem tends_statement (tends : k.Tends) {s : Statement} :
    Run.Tends Z f (k.statement s f) (PublicOutcome Z) m := by
  obtain ⟨node, span⟩ := s
  exact .look_then (.mapError (tends_node tends))

end Knot

/-! ## Tying the knot -/

theorem tends_tick_then {f : Frame} {m : Machine} {r : Run α} {Q : α → World → Prop}
    (h : ∀ m, Run.Tends Z f r Q m) : Run.Tends Z f (Run.tick >>= fun _ => r) Q m :=
  .bind (Q := fun _ _ => True) (.act fun _ => .modify .refl fun _ => trivial) fun _ m' _ _ _ => h m'

/-- The evaluator of every depth leaves a tended world tended. -/
theorem knot_tends {config : Config} {host : Host} (tends : host.Tends) :
    ∀ n, (knot config host n).Tends
  | 0 => ⟨tends, fun _ _ _ _ => .throw, fun _ _ _ _ => .throw⟩
  | n + 1 =>
    { host := tends
      evaluate := fun _ _ _ _ =>
        tends_tick_then fun _ => Knot.tends_expression (knot_tends tends n)
      interpret := fun _ _ _ _ =>
        tends_tick_then fun _ => Knot.tends_statement (knot_tends tends n) }

/-- A program runs at the root, statement by statement. -/
theorem Knot.tends_programFrom {k : Knot} (tends : k.Tends) {root : ScopeId}
    {program : List Statement} : ∀ {last : Value} {m : Machine}, last.Public Z m.world.count →
      Run.Tends Z ⟨root, none⟩ (k.programFrom root last program) (PublicValue Z) m := by
  induction program with
  | nil => exact fun good => .pure good
  | cons s rest ih =>
    intro last m _
    refine .bind (.holding (tends.interpret Z s _ _) fun _ _ _ h => h) ?_
    intro o m₁ _ _ good
    cases o with
    | settled v => exact ih good
    | returned v => exact .pure good
    | thrown v => exact .throw
    | broke => exact .throw
    | continued => exact .throw

end ScopeLang
