/-
# Members stay with their instance

A member is looked for in the scope of the instance and then in that of its class,
and nobody looks at the flags of what is found there.  It is right nonetheless: in a
tended world an instance has a variable for each member that is not static, so
that only static ones are found in the class (`World.Tended.keepsTo`).  It is the same with
calls.  They look for a function along the chain of scopes, but only if the table
of the instance has the name, and then the search ends there.

So what is left to show is that all worlds of all sessions are tended.  The host has
its part in it: bodies that make variables in the scopes of classes, or get hold of a
class whose body is being run, are excluded by `Host.Tends`.  An instance that is made while its
class still declares members lacks those that are to come (`not_keepsTo_leaking`).
-/
import ScopeLang.Proofs.Receivers
import ScopeLang.Proofs.Upkeep

namespace ScopeLang

variable {Z : Making} {w : World} {i : InstanceId} {name : String}

/-! ## Where members are -/

/-- The scope of the class is only asked for what the instance does not have. -/
theorem memberScope?_eq {t : ScopeId} (e : Knot.memberScope? w i name = some t) :
    t = (w.inst i).scope ∨ w.hasLocalVariable (w.inst i).scope name = false ∧
      t = (w.classOf (w.inst i).classId).scope := by
  cases own : w.hasLocalVariable (w.inst i).scope name with
  | true =>
    simp only [Knot.memberScope?, List.find?_cons, own] at e
    exact .inl (Option.some.inj e).symm
  | false =>
    simp only [Knot.memberScope?, List.find?_cons, own] at e
    split at e
    · exact .inr ⟨rfl, (Option.some.inj e).symm⟩
    · exact absurd e nofun

/-- The candidates for a call are those in the table of the instance. -/
def World.CallsOwn (w : World) (i : InstanceId) (name : String) : Prop :=
  ∃ os, (w.scope (w.inst i).scope).functions.get? name = some os ∧
    ∀ arguments, (Action.resolveFunction (w.inst i).scope name arguments).runIn w =
      (Action.resolveAmong (w.inst i).scope name os arguments).runIn w

theorem World.callsOwn (has : w.hasLocalFunction (w.inst i).scope name = true) :
    w.CallsOwn i name := by
  obtain ⟨os, found⟩ := Option.isSome_iff_exists.mp has
  refine ⟨os, found, fun arguments => ?_⟩
  rw [Action.resolveFunction, runIn_look_bind, World.lookupFunction_of_local found]

/-- The receiver of a native call is given something that only the host sees. -/
theorem World.Tended.setNative (h : w.Tended Z) (i : InstanceId) (l : Option (Handle .list)) :
    w.Tends Z (w.setInstance i { w.inst i with native := l }) := by
  have same : ∀ j, ((w.setInstance i { w.inst i with native := l }).inst j).classId =
      (w.inst j).classId ∧
        ((w.setInstance i { w.inst i with native := l }).inst j).scope = (w.inst j).scope := by
    intro j
    rw [inst_setInstance]
    split
    · rename_i set
      exact set.1 ▸ ⟨rfl, rfl⟩
    · exact ⟨rfl, rfl⟩
  have count := w.count_setInstance i { w.inst i with native := l }
  refine ⟨?_, .unmoved (le_of_eq count.symm) rfl rfl⟩
  constructor
  case toDiscreet =>
    refine ⟨fun hz => count ▸ h.there hz, fun hv => count ▸ h.value hv,
      fun hc => count ▸ h.registered hc, fun {j} hj => ?_⟩
    rw [count] at hj ⊢
    rw [(same j).1]
    exact h.classId hj
  case toFurnished =>
    constructor
    case home =>
      intro j hj
      rw [count] at hj ⊢
      rw [(same j).2]
      exact h.home hj
    case homeKind =>
      intro j hj
      rw [count] at hj
      rw [(same j).2]
      exact h.homeKind hj
    case classScope => exact fun hc => count ▸ h.classScope (count ▸ hc)
    case classKind => exact fun hc => h.classKind (count ▸ hc)
    case apart => exact fun hc hc' => h.apart (count ▸ hc) (count ▸ hc')
    case members =>
      intro j name b hj
      rw [count] at hj
      rw [(same j).1, (same j).2]
      exact h.members hj

namespace Kit

variable {c : NativeCall}

end Kit

/-! ## Sessions -/

/-- No class is in the making. -/
abbrev Making.none : Making := fun _ => False

namespace World.Tended

theorem addNative (h : w.Tended Z) (s : ScopeId) (name : String) (ps : List Parameter)
    (returns : Option TypeExpr) (body : String) :
    w.Tends Z (w.addNative s name ps returns body) :=
  (h.tends_aside (aside_bindProcedure s name ps returns (.native body) w)).also fun h =>
    h.addFunction s name _ none .native none

theorem addNativeMethod (h : w.Tended Z) (s : ScopeId) (c : ClassId) (name : String)
    (ps : List Parameter) (returns : Option TypeExpr) (body : String) (secondary : Option Role) :
    w.Tends Z ((bindProcedure s name ps returns (.native body) w).2.addMethod c name
      (bindProcedure s name ps returns (.native body) w).1 .method secondary) :=
  (h.tends_aside (aside_bindProcedure s name ps returns (.native body) w)).also fun h =>
    h.addMethod c name _ .method secondary

theorem addNativeMethods (c : ClassId) : ∀ (methods : List NativeMethod) {w : World},
    w.Tended Z → w.Tends Z (methods.foldl (fun w m => m.add c w) w)
  | [], _, h => .refl h
  | m :: rest, _, h =>
    (h.addNativeMethod _ c m.name m.parameters none m.body (some .native)).also fun h =>
      addNativeMethods c rest h

end World.Tended

namespace Session

variable {D : Dialect} {s s' : Session}

theorem tended_start (config : Config) (host : Host) : (start config host).world.Tended .none := by
  have vacant : ∀ {k : CellKind} {h : Handle k}, k ≠ .scope → k ≠ .types →
      ¬ h.In (start config host).world.count := vacant_start config host
  constructor
  case toDiscreet =>
    refine ⟨nofun, fun hv => ?_, fun {t c} hc => ?_, fun hi => absurd hi (vacant nofun nofun)⟩
    · rw [values_start] at hv
      exact absurd hv List.not_mem_nil
    · rw [scope_start] at hc
      split at hc
      · exact absurd hc (not_or_intro List.not_mem_nil List.not_mem_nil)
      · exact absurd hc (not_or_intro List.not_mem_nil List.not_mem_nil)
  case toFurnished =>
    exact
      { home := fun hi => absurd hi (vacant nofun nofun)
        homeKind := fun hi => absurd hi (vacant nofun nofun)
        classScope := fun hc => absurd hc (vacant nofun nofun)
        classKind := fun hc => absurd hc (vacant nofun nofun)
        apart := fun hc => absurd hc (vacant nofun nofun)
        members := fun hi => absurd hi (vacant nofun nofun) }

theorem open_start (config : Config) (host : Host) :
    (start config host).world.Open .none (start config host).root :=
  .of_kind Nat.zero_lt_one (by rw [scope_start]; exact nofun)

/-- A class of the host is in the making until it has its methods. -/
theorem tends_addNativeClass (h : s.world.Tended .none) (name : String) (accessor : Option String)
    (methods : List NativeMethod) (constructor : NativeMethod) :
    s.world.Tends .none (s.addNativeClass name accessor methods constructor).2.world := by
  have made := h.addClass s.root name (accessor.getD s.config.accessor) none
  have public_ := made.cell_public h
  simp only [addNativeClass]
  generalize s.world.addClass s.root name (accessor.getD s.config.accessor) none = new
    at made public_ ⊢
  have filled := made.tends.tended.addNativeMethods new.1
    (methods ++ [{ constructor with name := s.config.constructor }])
  exact (made.tends.trans filled).trans
    (tends_registerClass (public_.mono filled.precedes.count) filled.tended).1

theorem tends_perform {α : Type} {fuel : Nat} {g : Knot → Run α} {Q : α → World → Prop}
    (tends : Run.Tends .none s.frame (g (knot s.config s.host fuel)) Q (s.machine fuel))
    (h : s.world.Tended .none) (opened : s.world.Open .none s.root) :
    s.world.Tends .none (s.perform fuel g).2.world :=
  (tends h ⟨opened, nofun⟩).1

theorem Act.tends (a : Act D s s') (host : s.host.Tends) (h : s.world.Tended .none)
    (opened : s.world.Open .none s.root) : s.world.Tends .none s'.world := by
  have knot : ∀ fuel, (knot s.config s.host fuel).Tends := knot_tends host
  cases a with
  | function name returns body _ => exact h.addNative s.root name _ returns body
  | method name returns body _ _ => exact h.addNativeMethod s.root _ name _ returns body none
  | classObject name accessor _ => exact tends_addNativeClass h name accessor _ _
  | run _ _ => exact tends_perform (Knot.tends_programFrom (knot _) Value.public_null) h opened
  | evaluate _ _ => exact tends_perform (Knot.tends_expression (knot _)) h opened
  | interpret _ _ => exact tends_perform (Knot.tends_statement (knot _)) h opened
  | interpretBlock _ _ => exact tends_perform (Knot.tends_block (knot _)) h opened

/-- All sessions of a host are tended, and their roots are open. -/
theorem Reachable.tended (h : s.Reachable D) :
    s.host.Tends → s.world.Tended .none ∧ s.world.Open .none s.root := by
  induction h with
  | start config host => exact fun _ => ⟨tended_start config host, open_start config host⟩
  | act _ a ih =>
    intro host
    rw [a.host_eq] at host
    obtain ⟨tended, opened⟩ := ih host
    have later := a.tends host tended opened
    rw [a.root_eq]
    exact ⟨later.tended, opened.later tended later.precedes⟩

end Session

/-! ## Members at every moment -/

theorem Knot.arguments_nil (k : Knot) (f : Frame) (m : Machine) :
    k.arguments [] f m = (.ok ⟨[], []⟩, m) := rfl

/-- A class with a static member and another one, an instance of it and a copy of the instance. -/
def counted : List Statement :=
  [⟨.classDef ⟨"A", none,
      [⟨.declare ⟨"total", none, some (.ofTerm (.literal (.int 0))), { isStatic := true }⟩,
          Span.none⟩,
        declaring "size" (.literal (.int 1)), methodNamed "construct" [],
        methodNamed "tell" [returning (.receiver)]]⟩, Span.none⟩,
    declaring "a" (.call "A" []), declaring "b" (.variable "a")]

end ScopeLang
