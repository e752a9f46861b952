/-
# Sessions

A host starts a session, registers its procedures and classes at the root, and
has programs run.  Everything it comes to in this way is a reachable session.
Between two of these acts nothing is running, so that all of them are traces of
code at the root; hence a property that holds of the world of a new session and
is kept by steps holds of every reachable session, and at every moment of every
program that is run in one.

A moment is where a program stops for want of fuel.  With more fuel it goes on from there
(`Session.Reachable.extends_reached`), so that the moments of a program come one after the
other (`Session.Reachable.reached_later`).
-/
import ScopeLang.Proofs.Statements
import ScopeLang.Proofs.Variants

namespace ScopeLang

variable {D : Dialect}

/-! ## The first world -/

namespace Session

variable (config : Config) (host : Host)

/-- The root of a new session. -/
def rootScope : Scope :=
  { kind := .root, label := "<root>", level := 0, isCopy := false, tornDown := false,
    bindings := .empty, functions := .empty, classes := .empty, aliases := .empty,
    children := [], parent := none, owner := none, caller := none,
    globals := .owned .empty .empty, types := ⟨0⟩ }

theorem scope_start (s : ScopeId) :
    (start config host).world.scope s = if s.index = 0 then rootScope else default :=
  World.scope_newScope _ _ _

theorem count_start (k : CellKind) :
    (start config host).world.count k = if k = .scope ∨ k = .types then 1 else 0 := by
  cases k <;> rfl

theorem bindings_start (s : ScopeId) : ((start config host).world.scope s).bindings = .empty := by
  rw [scope_start]
  split
  · rfl
  · rfl

theorem values_start (c : Cell) : (start config host).world.values c = [] := by
  obtain ⟨k, i⟩ := c
  cases k with
  | scope =>
    simp only [World.values, bindings_start]
    rfl
  | _ => rfl

/-- Of cells a new session has only the root and its types. -/
theorem vacant_start {k : CellKind} {h : Handle k} (hs : k ≠ .scope) (ht : k ≠ .types) :
    ¬ h.In (start config host).world.count := by
  intro old
  have less : h.index < (start config host).world.count k := old
  rw [count_start, if_neg (by simp [hs, ht])] at less
  exact Nat.not_lt_zero _ less

theorem sound_start : Sound D (start config host).world := by
  have vacant : ∀ {k : CellKind} {h : Handle k}, k ≠ .scope → k ≠ .types →
      ¬ h.In (start config host).world.count := vacant_start config host
  exact
    { value := fun hv => absurd (values_start config host _ ▸ hv) List.not_mem_nil
      scope := fun s => by
        refine ⟨?_, ?_, ?_, ?_⟩
        · rw [bindings_start]
          exact fun b hb => absurd hb List.not_mem_nil
        all_goals
          rw [scope_start]
          split
        · exact fun c hc => absurd hc List.not_mem_nil
        · exact fun c hc => absurd hc List.not_mem_nil
        · exact nofun
        · exact nofun
        · rfl
        · rfl
      context := Nat.zero_lt_one
      classId := fun hi => absurd hi (vacant nofun nofun)
      home := fun hi => absurd hi (vacant nofun nofun)
      function := fun hf => absurd hf (vacant nofun nofun)
      captured := fun hf => absurd hf (vacant nofun nofun)
      closed := fun hf => absurd hf (vacant nofun nofun)
      method := fun hm => absurd hm (vacant nofun nofun)
      methodClass := fun hm => absurd hm (vacant nofun nofun)
      classScope := fun hc => absurd hc (vacant nofun nofun)
      classCaptured := fun hc => absurd hc (vacant nofun nofun)
      overloads := fun ho => absurd ho List.not_mem_nil
      held := fun c hc => List.mem_singleton.mp hc ▸ Nat.zero_lt_one }

theorem ready_start : Ready D (start config host).frame [] (start config host).world :=
  ⟨sound_start config host, ⟨Nat.zero_lt_one, nofun⟩, fun _ h => absurd h List.not_mem_nil⟩

/-! ## Acts of a host -/

/-- Parameters and a body with which a host may register a function. -/
structure Offers (D : Dialect) (ps : List Parameter) (body : String) : Prop where
  natives : D.natives body
  marks : ∀ p ∈ ps, D.Admits p.marks

/-- Parameters and a body with which a host may register a method. -/
structure OffersMethod (D : Dialect) (ps : List Parameter) (body : String) : Prop
    extends Offers D ps body where
  defaults : ¬ D.hostDefaults → ∀ p ∈ ps, p.default = none

/-- What a host does between two programs, or has done by one that comes to an end. -/
inductive Act (D : Dialect) (s : Session) : Session → Prop
  | function (name : String) {ps : List Parameter} (returns : Option TypeExpr) (body : String) :
      Offers D ps body →
      Act D s { s with world := s.world.addNative s.root name ps returns body }
  | method (name : String) {ps : List Parameter} (returns : Option TypeExpr) (body : String)
      {owner : String} {c : ClassId} : s.world.lookupClass s.root owner = some c →
      OffersMethod D ps body →
      Act D s { s with world := s.world.addNativeMethod s.root c name ps returns body }
  | classObject (name : String) (accessor : Option String) {methods : List NativeMethod}
      {constructor : NativeMethod} :
      (∀ m ∈ methods ++ [constructor], OffersMethod D m.parameters m.body) →
      Act D s (s.addNativeClass name accessor methods constructor).2
  | run {fuel : Nat} {program : List Statement} : D.Admits (blockMarks program) →
      (s.run fuel program).1 ≠ .error .outOfFuel →
      Act D s (s.run fuel program).2
  | evaluate {fuel : Nat} {e : Expr} : D.Admits e.marks →
      (s.evaluate fuel e).1 ≠ .error .outOfFuel →
      Act D s (s.evaluate fuel e).2
  | interpret {fuel : Nat} {statement : Statement} : D.Admits statement.marks →
      (s.interpret fuel statement).1 ≠ .error .outOfFuel →
      Act D s (s.interpret fuel statement).2
  | interpretBlock {fuel : Nat} {body : List Statement} : D.Admits (blockMarks body) →
      (s.interpretBlock fuel body).1 ≠ .error .outOfFuel →
      Act D s (s.interpretBlock fuel body).2

/-- The sessions that a host comes to. -/
inductive Reachable (D : Dialect) : Session → Prop
  | start (config : Config) (host : Host) : Reachable D (start config host)
  | act {s s' : Session} : Reachable D s → Act D s s' → Reachable D s'

/-! ## Acts are traces -/

theorem trace_perform {α : Type} {s : Session} {fuel : Nat} {g : Knot → Run α}
    {Q : α → World → Prop}
    (leads : Leads D s.frame (g (knot s.config s.host fuel)) Q (s.machine fuel))
    (ready : Ready D s.frame [] s.world) (done : (s.perform fuel g).1 ≠ .error .outOfFuel) :
    Trace D s.frame [] s.world (s.perform fuel g).2.world := by
  have led := leads.led ready
  simp only [perform] at done ⊢
  generalize (g (knot s.config s.host fuel)) (s.machine fuel) = made at led done ⊢
  obtain ⟨result, m⟩ := made
  cases result with
  | ok x => exact led.1
  | error e =>
    cases e with
    | error e => exact led.1
    | outOfFuel => exact absurd rfl done

theorem Offers.ok {ps : List Parameter} {body : String} (offers : Offers D ps body) (t : ScopeId)
    (name : String) (returns : Option TypeExpr) (w : World) :
    (bindProcedure t name ps returns (.native body) w).1.Ok D :=
  bindProcedure_ok offers.marks offers.natives

/-- A native method suits its class. -/
theorem OffersMethod.suits {ps : List Parameter} {body : String} (offers : OffersMethod D ps body)
    {t : ScopeId} {name : String} {returns : Option TypeExpr} {w w' : World} {c : ClassId}
    (there : c.In w'.count) :
    World.Suits D w' ⟨(bindProcedure t name ps returns (.native body) w).1, c⟩ := by
  refine ⟨there, nofun, fun forbidden q hq has => ?_⟩
  obtain ⟨p, hp, default⟩ := bindProcedure_default hq
  rw [default, offers.defaults forbidden p hp] at has
  exact absurd has nofun

theorem steps_addNative {w : World} {s : ScopeId} {name : String} {ps : List Parameter}
    {returns : Option TypeExpr} {body : String} (sound : Sound D w) (hs : s.In w.count)
    (root : (w.scope s).kind = .root)
    (offers : Offers D ps body) : Steps D s w (w.addNative s name ps returns body) := by
  have ok := offers.ok s name returns w
  have bind := steps_bindProcedure (D := D) (s := s) (w := w) s name ps returns (.native body)
  have native : (bindProcedure s name ps returns (.native body) w).1.body = .native body := rfl
  obtain ⟨-, g⟩ := bind.kept sound hs
  have still : ((bindProcedure s name ps returns (.native body) w).2.scope s).kind = .root :=
    (g.scope hs).kind.trans root
  simp only [World.addNative]
  generalize bindProcedure s name ps returns (.native body) w = bound at ok bind native still ⊢
  refine (bind.tail (.newFunction (x := ⟨bound.1, none⟩) ok nofun fun b hb => ?_)).tail
    (.register name (.inl ⟨rfl, ⟨_, rfl⟩, .inr still⟩) (World.newFunction_in _ _))
  rw [native] at hb
  exact absurd hb nofun

theorem steps_addNativeMethod {w : World} {s : ScopeId} {c : ClassId} (sound : Sound D w)
    (hs : s.In w.count) (root : (w.scope s).kind = .root) (there : c.In w.count) (name : String) {ps : List Parameter}
    (returns : Option TypeExpr) {body : String} (offers : OffersMethod D ps body) (t : ScopeId)
    (primary : Role) (secondary : Option Role) :
    Steps D s w ((bindProcedure t name ps returns (.native body) w).2.addMethod c name
      (bindProcedure t name ps returns (.native body) w).1 primary secondary) := by
  have bind := steps_bindProcedure (D := D) (s := s) (w := w) t name ps returns (.native body)
  obtain ⟨-, g⟩ := bind.kept sound hs
  exact bind.trans (steps_addMethod (offers.ok _ _ _ _) (offers.suits (there.mono g.count))
    (.inr ((g.scope hs).kind.trans root)))

/-- The methods of a native class, one after the other. -/
theorem steps_addMethods {s : ScopeId} {c : ClassId} : ∀ {methods : List NativeMethod} {w : World},
    Sound D w → s.In w.count → (w.scope s).kind = .root → c.In w.count →
      (∀ m ∈ methods, OffersMethod D m.parameters m.body) →
        Steps D s w (methods.foldl (fun w m => m.add c w) w)
  | [], _, _, _, _, _, _ => .refl
  | m :: rest, w, sound, hs, root, there, offers => by
    have first : Steps D s w (m.add c w) :=
      steps_addNativeMethod sound hs root there m.name none (offers m List.mem_cons_self)
        (w.classOf c).scope .method (some .native)
    obtain ⟨sound', g⟩ := first.kept sound hs
    exact first.trans (steps_addMethods sound' (hs.mono g.count) ((g.scope hs).kind.trans root)
      (there.mono g.count) fun m' hm' => offers m' (List.mem_cons_of_mem m hm'))

theorem steps_addNativeClass {s : Session} {name : String} {accessor : Option String}
    {methods : List NativeMethod} {constructor : NativeMethod} (sound : Sound D s.world)
    (hs : s.root.In s.world.count) (root : (s.world.scope s.root).kind = .root)
    (offers : ∀ m ∈ methods ++ [constructor], OffersMethod D m.parameters m.body) :
    Steps D s.root s.world (s.addNativeClass name accessor methods constructor).2.world := by
  have natives : D.natives constructor.body := (offers constructor (by simp)).natives
  have all : ∀ m ∈ methods ++ [{ constructor with name := s.config.constructor }],
      OffersMethod D m.parameters m.body := by
    intro m hm
    rcases List.mem_append.mp hm with hm | hm
    · exact offers m (List.mem_append_left _ hm)
    · rw [List.mem_singleton.mp hm]
      exact offers constructor (by simp)
  have first : Steps D s.root s.world
      (s.world.addClass s.root name (accessor.getD s.config.accessor) none).2 :=
    .one (.newClass name _ hs (.inr ⟨rfl, _, natives⟩))
  have there : (s.world.addClass s.root name (accessor.getD s.config.accessor) none).1.In
      (s.world.addClass s.root name (accessor.getD s.config.accessor) none).2.count :=
    World.newClass_in _ _
  simp only [addNativeClass]
  generalize s.world.addClass s.root name (accessor.getD s.config.accessor) none = made
    at first there ⊢
  obtain ⟨sound₁, g₁⟩ := first.kept sound hs
  have second := steps_addMethods sound₁ (hs.mono g₁.count) ((g₁.scope hs).kind.trans root) there
    all
  obtain ⟨sound₂, g₂⟩ := second.kept sound₁ (hs.mono g₁.count)
  refine (first.trans second).trans ?_
  exact (acts_registerClass (there.mono g₂.count) sound₂ ((hs.mono g₁.count).mono g₂.count)).1

theorem Act.frame_eq {s s' : Session} (h : Act D s s') : s'.frame = s.frame := by
  cases h <;> rfl

theorem Act.root_eq {s s' : Session} (h : Act D s s') : s'.root = s.root :=
  congrArg Frame.scope h.frame_eq

theorem Act.host_eq {s s' : Session} (h : Act D s s') : s'.host = s.host := by
  cases h <;> rfl

theorem Act.config_eq {s s' : Session} (h : Act D s s') : s'.config = s.config := by
  cases h <;> rfl

/-- What an act does is a trace at the root. -/
theorem Act.trace {s s' : Session} (h : Act D s s') (obeys : s.host.Obeys D)
    (ready : Ready D s.frame [] s.world) (root : (s.world.scope s.root).kind = .root) :
    Trace D s.frame [] s.world s'.world := by
  cases h with
  | function name returns body offers => exact (steps_addNative ready.sound ready.frame.scope root offers).trace
  | method name returns body found offers =>
    exact (steps_addNativeMethod ready.sound ready.frame.scope root
      (ready.sound.classFound found) name returns offers _ _ _).trace
  | classObject name accessor offers =>
    exact (steps_addNativeClass ready.sound ready.frame.scope root offers).trace
  | run marks done =>
    exact trace_perform (Knot.leads_programFrom (knot_sound obeys _) marks Value.ok_null) ready done
  | evaluate marks done =>
    exact trace_perform (Knot.leads_expression (knot_sound obeys _) marks) ready done
  | interpret marks done =>
    exact trace_perform (Knot.leads_statement (knot_sound obeys _) marks) ready done
  | interpretBlock marks done =>
    exact trace_perform (Knot.leads_block (knot_sound obeys _) marks) ready done

/-! ## Reachable sessions -/

namespace Reachable

variable {s : Session} {I : Frame → List Invocation → World → Prop}

/-- A reachable session is ready to run code at its root. -/
theorem rooted (h : Reachable D s) :
    s.host.Obeys D → Ready D s.frame [] s.world ∧ (s.world.scope s.root).kind = .root := by
  induction h with
  | start config host => exact fun _ => ⟨ready_start config host, rfl⟩
  | act _ a ih =>
    intro obeys
    rw [a.host_eq] at obeys
    obtain ⟨ready, root⟩ := ih obeys
    have trace := a.trace obeys ready root
    obtain ⟨-, g⟩ := trace.kept ready
    rw [a.frame_eq, a.root_eq]
    exact ⟨trace.ready ready, (g.scope ready.frame.scope).kind.trans root⟩

/-- The root of a session is its oldest scope. -/
theorem root_eq (h : Reachable D s) : s.root = ⟨0⟩ := by
  induction h with
  | start => rfl
  | act _ a ih => exact a.root_eq.trans ih

theorem ready (h : Reachable D s) (obeys : s.host.Obeys D) : Ready D s.frame [] s.world :=
  (h.rooted obeys).1

/-- What holds of new sessions and is an invariant of code holds of reachable sessions. -/
theorem invariant (inv : Invariant D I)
    (base : ∀ config host, I (Session.start config host).frame []
      (Session.start config host).world)
    (h : Reachable D s) :
    s.host.Obeys D → I s.frame [] s.world := by
  induction h with
  | start config host => exact fun _ => base config host
  | act h a ih =>
    intro obeys
    rw [a.host_eq] at obeys
    obtain ⟨ready, root⟩ := h.rooted obeys
    rw [a.frame_eq]
    exact inv.trace (a.trace obeys ready root) ready (ih obeys)

/-- Every moment of a program is reached by code at the root. -/
theorem reach (h : Reachable D s) (obeys : s.host.Obeys D)
    {program : List Statement} (marks : D.Admits (blockMarks program)) (fuel : Nat) :
    ∃ f, Reach D s.frame [] s.world f (s.reached fuel program).calls
      (s.reached fuel program).world :=
  Leads.reach (m := s.machine fuel)
    (Knot.leads_programFrom (knot_sound obeys fuel) marks Value.ok_null) (h.ready obeys)

/-- With more fuel a program goes on from where it was stopped. -/
theorem extends_reached (h : Reachable D s) (obeys : s.host.Obeys D)
    {program : List Statement} (marks : D.Admits (blockMarks program)) {n k : Nat} (le : n ≤ k) :
    Extends D (k - n) ((s.run n program).1, s.reached n program)
      ((s.run k program).1, s.reached k program) := by
  have leads : Leads D s.frame ((knot s.config s.host k).programFrom s.root .null program)
      (OkValue D) (s.machine n) :=
    Knot.leads_programFrom (knot_sound obeys k) marks Value.ok_null
  have more : Extends D (k - n)
      ((knot s.config s.host k).programFrom s.root .null program (s.machine n))
      ((knot s.config s.host k).programFrom s.root .null program (s.machine (n + (k - n)))) :=
    (leads (h.ready obeys) n).2 (k - n)
  rw [Nat.add_sub_cancel' le,
    programFrom_deeper s.config s.host le s.root .null program (Nat.le_refl n)] at more
  exact more

/-- Of two moments of a program the one with more fuel comes later. -/
theorem reached_later (h : Reachable D s) (obeys : s.host.Obeys D)
    {program : List Statement} (marks : D.Admits (blockMarks program)) {n k : Nat} (le : n ≤ k) :
    (s.reached n program).world.Later D (s.reached k program).world :=
  (h.extends_reached obeys marks le).later

/-- All moments of the programs that are run in a session, or in a session that it becomes, come
later than the session. -/
theorem later {s' : Session} (h : Reachable D s) (obeys : s.host.Obeys D)
    (sharing : D.sharing) (acts : Relation.ReflTransGen (Act D) s s') (fuel : Nat)
    (program : List Statement) : s.world.Later D (s'.reached fuel program).world := by
  have sessions : Reachable D s' ∧ s'.host = s.host ∧ s.world.Later D s'.world := by
    induction acts with
    | refl => exact ⟨h, rfl, .refl⟩
    | tail _ act ih =>
      obtain ⟨reachable, host, later⟩ := ih
      have obeys' := host ▸ obeys
      obtain ⟨ready, root⟩ := reachable.rooted obeys'
      exact ⟨.act reachable act, act.host_eq.trans host,
        later.trans ((act.trace obeys' ready root).later ready)⟩
  obtain ⟨reachable, host, later⟩ := sessions
  have obeys' : s'.host.Obeys D := host ▸ obeys
  obtain ⟨f, reach⟩ := reachable.reach obeys' (Dialect.admits_of_sharing sharing _) fuel
  exact later.trans (reach.later (reachable.ready obeys'))

/-- A program that has ended ends in this way with more fuel as well. -/
theorem run_eq (h : Reachable D s) (obeys : s.host.Obeys D)
    {program : List Statement} (marks : D.Admits (blockMarks program)) {n k : Nat} (le : n ≤ k)
    (ended : (s.run n program).1 ≠ .error .outOfFuel) : s.run k program = s.run n program := by
  obtain ⟨same, world⟩ := (h.extends_reached obeys marks le).of_ended ended
  exact Prod.ext same (congrArg (fun world => { s with world }) world)

/-- An invariant of code holds at every moment of a program. -/
theorem reached (inv : Invariant D I)
    (base : ∀ config host, I (Session.start config host).frame []
      (Session.start config host).world)
    (h : Reachable D s) (obeys : s.host.Obeys D) {program : List Statement}
    (marks : D.Admits (blockMarks program)) (fuel : Nat) :
    ∃ f, Ready D f (s.reached fuel program).calls (s.reached fuel program).world ∧
      I f (s.reached fuel program).calls (s.reached fuel program).world := by
  have ready := h.ready obeys
  have i := h.invariant inv base obeys
  obtain ⟨f, reach⟩ := h.reach obeys marks fuel
  exact ⟨f, (reach.kept ready).1, inv.reach reach ready i⟩

/-- What new worlds have and code keeps that copies all it stores, every moment of a program has
that declares nothing as mutable. -/
theorem reached_fixed {P : World → Prop} (inv : Invariant .copying fun _ _ w => P w)
    (base : ∀ config host, P (Session.start config host).world) (h : Reachable .copying s)
    {program : List Statement} (fixed : ∀ f ∈ blockMarks program, f.isMutable = false)
    (fuel : Nat) :
    Sound .copying (s.reached fuel program).world ∧ P (s.reached fuel program).world := by
  have obeys : s.host.Obeys .copying := fun _ native => native.elim
  have marks : Dialect.copying.Admits (blockMarks program) := by
    intro f hf shared
    rw [fixed f hf] at shared
    exact absurd shared Bool.false_ne_true
  obtain ⟨_, ready, held⟩ := h.reached inv base obeys marks fuel
  exact ⟨ready.sound, held⟩

/-- The types of a reachable session are checked under the options of its configuration. -/
theorem options (h : Reachable D s) :
    s.host.Obeys D → (s.world.typeContext ⟨0⟩).options = s.config.options := by
  induction h with
  | start config host => exact fun _ => rfl
  | @act s s' h a ih =>
    intro obeys
    rw [a.host_eq] at obeys
    obtain ⟨ready, root⟩ := h.rooted obeys
    obtain ⟨-, g⟩ := (a.trace obeys ready root).kept ready
    rw [(g.context ready.sound.context).options, ih obeys, a.config_eq]

/-- The same holds at every moment of a program. -/
theorem reached_options (h : Reachable D s) (obeys : s.host.Obeys D)
    {program : List Statement} (marks : D.Admits (blockMarks program)) (fuel : Nat) :
    ((s.reached fuel program).world.typeContext ⟨0⟩).options = s.config.options := by
  have ready := h.ready obeys
  obtain ⟨f, reach⟩ := h.reach obeys marks fuel
  obtain ⟨-, g⟩ := reach.kept ready
  rw [(g.context ready.sound.context).options, h.options obeys]

end Reachable

end Session

end ScopeLang
