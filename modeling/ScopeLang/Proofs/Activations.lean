/-
# Activations

While a call runs, the scopes below it on the stack wait, and so do those of classes
that have no instances yet.  What the call does reaches them only through links
that show the variables of another scope, and these links end: a function runs
below a scope that it captured, a method below the scopes of its receiver and its
class and of what the class captured, and captured scopes hide whatever is further up.

So a frame in the course of a call is `Secluded`: from its scope nothing is in sight
that was there before the call and waits.  Steps write to scopes in sight and
to those of instances and classes, and every frame entered on the way is
secluded again.  There is one way out: a native method with defaults evaluates
them where it is called, but against its receiver, which may be an instance of a class of
the host, and such a class lies below the root.
-/
import ScopeLang.Proofs.Receivers
import ScopeLang.Proofs.Writes

namespace ScopeLang

variable {D : Dialect} {w w₀ w₁ : World} {s t : ScopeId}

/-! ## What a scope has in its tables -/

/-- The kinds of scopes that wait while a call runs. -/
def ScopeKind.isGuarded (k : ScopeKind) : Bool := k == .root || k.isActivation

/-- The same variables, functions, classes and aliases, and the same globals. -/
structure Scope.SameTables (a b : Scope) : Prop where
  bindings : b.bindings = a.bindings
  functions : b.functions = a.functions
  classes : b.classes = a.classes
  aliases : b.aliases = a.aliases
  globals : b.globals = a.globals

namespace Scope.SameTables

theorem refl (a : Scope) : a.SameTables a := ⟨rfl, rfl, rfl, rfl, rfl⟩

theorem trans {a b c : Scope} (h : a.SameTables b) (i : b.SameTables c) : a.SameTables c where
  bindings := i.bindings.trans h.bindings
  functions := i.functions.trans h.functions
  classes := i.classes.trans h.classes
  aliases := i.aliases.trans h.aliases
  globals := i.globals.trans h.globals

theorem of_eq {a b : Scope} (h : b = a) : a.SameTables b := h ▸ refl a

end Scope.SameTables

/-- The guarded scopes of a world have the same tables in a later one. -/
def World.Untouched (w w' : World) : Prop :=
  ∀ t, t.In w.count → (w.scope t).kind.isGuarded = true → (w.scope t).SameTables (w'.scope t)

/-! ## What is in sight -/

/-- The scopes of which a scope may see the variables. -/
inductive World.Sees (w : World) : ScopeId → ScopeId → Prop
  | refl (s : ScopeId) : Sees w s s
  | parent {s p t : ScopeId} : (w.scope s).kind.hidesParent = false →
      (w.scope s).parent = some p → Sees w p t → Sees w s t

namespace World.Sees

theorem tail {p : ScopeId} (h : w.Sees s t) (open_ : (w.scope t).kind.hidesParent = false)
    (parent : (w.scope t).parent = some p) : w.Sees s p := by
  induction h with
  | refl s => exact .parent open_ parent (.refl p)
  | parent hides e _ ih => exact .parent hides e (ih open_ parent)

theorem of_mem_variableChain (h : t ∈ w.variableChain s) : w.Sees s t := by
  refine of_mem_follow (P := w.Sees s) (fun u p sees next => ?_) (.refl s) h
  simp only [variableParent?, parent?] at next
  split at next
  · cases next
  · rename_i open_
    obtain ⟨q, parent, alive⟩ := Option.bind_eq_some_iff.mp next
    simp only [upgrade, Option.ite_none_right_eq_some, Option.some.injEq] at alive
    exact sees.tail (Bool.eq_false_iff.mpr open_) (alive.2 ▸ parent)

/-- What an old scope sees later it saw before. -/
theorem earlier (sound : Sound D w) (g : w.Grows w₁) (h : w₁.Sees s t) :
    s.In w.count → w.Sees s t ∧ t.In w.count := by
  induction h with
  | refl s => exact fun hs => ⟨.refl s, hs⟩
  | parent hides parent _ ih =>
    intro hs
    rw [(g.scope hs).kind] at hides
    rw [(g.scope hs).parent] at parent
    obtain ⟨sees, ht⟩ := ih (Nat.lt_trans ((sound.scope _).older _ parent) hs)
    exact ⟨.parent hides parent sees, ht⟩

/-- A scope that hides its parent sees only itself. -/
theorem eq_of_hides (hides : (w.scope s).kind.hidesParent = true) (h : w.Sees s t) : t = s := by
  cases h with
  | refl => rfl
  | parent open_ _ _ => exact absurd (hides.symm.trans open_) nofun

end World.Sees

/-! ## What a step writes -/

/-- No instance belongs to the class with this scope. -/
def World.Unmade (w : World) (t : ScopeId) : Prop :=
  ∀ i, i.In w.count → (w.classOf (w.inst i).classId).scope ≠ t

/-- A scope that only code in sight of it writes to: one of a guarded kind, or the scope of a class
without instances. -/
def World.Waits (w : World) (t : ScopeId) : Prop :=
  (w.scope t).kind.isGuarded = true ∨ (w.scope t).kind = .classScope ∧ w.Unmade t

namespace World.Waits

/-- Instances do not go away. -/
theorem earlier (sound : Sound D w) (g : w.Grows w₁) (old : t.In w.count) (h : w₁.Waits t) :
    w.Waits t := by
  rw [Waits, (g.scope old).kind] at h
  refine h.imp_right (And.imp_right fun unmade i hi home => unmade i (hi.mono g.count) ?_)
  rw [g.classId hi, g.classOf (sound.classId hi), home]

theorem not_home (kin : w.Kin D) (h : w.Waits t) {i : InstanceId} (hi : i.In w.count) :
    t ≠ (w.inst i).scope := by
  rintro rfl
  rw [Waits, kin.homeKind hi] at h
  exact h.elim nofun fun h => absurd h.1 nofun

theorem not_class (kin : w.Kin D) (sound : Sound D w) (h : w.Waits t) {i : InstanceId}
    (hi : i.In w.count) : t ≠ (w.classOf (w.inst i).classId).scope := by
  rintro rfl
  rcases h with guarded | ⟨-, unmade⟩
  · rw [kin.classKind (sound.classId hi)] at guarded
    exact absurd guarded nofun
  · exact unmade i hi rfl

theorem not_hides (hides : (w.scope s).kind.hidesParent = true) : ¬ w.Waits s := by
  rw [Waits]
  generalize (w.scope s).kind = k at hides
  cases k with
  | detached | classDef | isolated => exact fun h => h.elim nofun fun h => absurd h.1 nofun
  | _ => exact absurd hides nofun

end World.Waits

/-- Of the scopes that were there a step writes only to those in sight, to those of instances and
to those of their classes. -/
theorem Step.sameTables (mute : ¬ D.hostWrites) (h : Step D s w w₁) (sound : Sound D w)
    (hs : s.In w.count) (kin : w.Kin D) (inner : (w.scope s).kind ≠ .root) (old : t.In w.count)
    (waits : w.Waits t) (hidden : ¬ w.Sees s t) : (w.scope t).SameTables (w₁.scope t) := by
  have other : t ≠ s := by
    rintro rfl
    exact hidden (.refl t)
  obtain ⟨functions, classes, aliases, globals⟩ := h.definitions sound hs inner old other
  refine ⟨?_, functions, classes, aliases, globals⟩
  have alters := h.alters mute sound hs old
  generalize (w₁.scope t).bindings = after at alters
  cases alters with
  | same => rfl
  | declare may _ =>
    rcases may with here | ⟨i, hi, home⟩
    · exact absurd here other
    · exact absurd home (waits.not_home kin hi)
  | assign may _ _ =>
    rcases may with here | ⟨i, hi, home | class_⟩
    · exact absurd (.of_mem_variableChain here) hidden
    · exact absurd home (waits.not_home kin hi)
    · exact absurd class_ (waits.not_class kin sound hi)

/-! ## Receivers that code runs against -/

/-- An instance of a class of the program, and not of the host. -/
def World.OfProgram (w : World) (i : InstanceId) : Prop :=
  (w.classOf (w.inst i).classId).captured.isSome = true

/-- An invocation that is there and, if it runs code, has an instance of the program for a
receiver. -/
structure World.AtHome (w : World) (i : Invocation) : Prop where
  there : i.callable.cell.In w.count
  receiver : ∀ r, i.receiver = some r → r.In w.count
  home : w.RunsCode i → ∀ r, i.receiver = some r → w.OfProgram r

/-- Code on a stack, all of it at home. -/
structure World.Homely (w : World) (D : Dialect) (f : Frame) (calls : List Invocation) : Prop where
  kin : w.Kin D
  calls : ∀ i ∈ calls, w.AtHome i
  frame : ∀ r, f.receiver = some r → w.OfProgram r

namespace World

theorem OfProgram.later (sound : Sound D w) (g : w.Grows w₁) {r : InstanceId} (hr : r.In w.count)
    (h : w.OfProgram r) : w₁.OfProgram r := by
  rw [OfProgram, g.classId hr, g.classOf (sound.classId hr)]
  exact h

theorem AtHome.later (sound : Sound D w) (g : w.Grows w₁) {i : Invocation} (h : w.AtHome i) :
    w₁.AtHome i where
  there := h.there.mono g.count
  receiver r e := (h.receiver r e).mono g.count
  home runs r e := by
    rw [RunsCode, procedure?_later g h.there] at runs
    exact (h.home runs r e).later sound g (h.receiver r e)

/-- A method that runs code belongs to a class of the program. -/
theorem Kin.captured_of_runsCode (kin : w.Kin D) (plain : ¬ D.hostDefaults) {h : Handle .method}
    (there : h.In w.count) (runs : (w.method h).procedure.RunsCode) :
    (w.classOf (w.method h).classId).captured.isSome = true := by
  have suits := kin.suits there
  rcases runs with ⟨b, body⟩ | ⟨q, hq, has⟩
  · exact suits.body b body
  · obtain ⟨b, body⟩ := suits.defaults plain q hq has
    exact suits.body b body

theorem Homely.atHome {f : Frame} {calls : List Invocation} (homely : w.Homely D f calls)
    (plain : ¬ D.hostDefaults) (hf : f.In w.count) {i : Invocation} (h : w.Invokes f i) :
    w.AtHome i := by
  have receiver := h.receiver_in hf
  cases h with
  | function access hh => exact ⟨hh, receiver, fun _ _ e => absurd e nofun⟩
  | @member h r o hh hr listed e =>
    refine ⟨hh, receiver, fun ⟨p, hp, runs⟩ r' e' => ?_⟩
    obtain rfl := Option.some.inj e'
    obtain rfl := Option.some.inj hp
    have member := homely.kin.homeMembers hr o listed
    rw [e] at member
    rw [OfProgram, ← show (w.method h).classId = (w.inst r).classId from member]
    exact homely.kin.captured_of_runsCode plain hh runs
  | @method access h r other hh er =>
    exact ⟨hh, receiver, fun _ r' e' => homely.frame r' (er.trans e')⟩

end World

theorem homely_start (config : Config) (host : Host) :
    (Session.start config host).world.Homely D (Session.start config host).frame [] :=
  ⟨kin_start config host, fun _ h => absurd h List.not_mem_nil, nofun⟩

theorem homely_invariant (plain : ¬ D.hostDefaults) :
    Invariant D fun f calls w => w.Homely D f calls where
  step ready i h := by
    have g := (h.kept ready.sound ready.frame.scope).2
    exact ⟨h.kin ready.sound ready.frame.scope i.kin, fun j hj => (i.calls j hj).later ready.sound g,
      fun r e => (i.frame r e).later ready.sound g (ready.frame.receiver r e)⟩
  enter ready i h := by
    have kin := kin_invariant.enter ready i.kin h
    have g := (h.kept ready).2
    have calls := fun j hj => (i.calls j hj).later ready.sound g
    cases h with
    | scope label _ =>
      exact ⟨kin, calls, fun r e => (i.frame r e).later ready.sound g (ready.frame.receiver r e)⟩
    | classBody => exact ⟨kin, calls, nofun⟩
    | invocation invokes =>
      refine ⟨kin, fun j hj => ?_, nofun⟩
      rcases List.mem_cons.mp hj with rfl | hj
      · exact i.atHome plain ready.frame invokes
      · exact calls j hj
    | receiver head runs =>
      exact ⟨kin, calls, fun r e => (calls _ (List.mem_of_mem_head? head)).home runs r e⟩
  leave ready i h g ready' i' := by
    have g' := (h.kept ready).2.trans g
    exact ⟨i'.kin, fun j hj => (i.calls j hj).later ready.sound g',
      fun r e => (i.frame r e).later ready.sound g' (ready.frame.receiver r e)⟩

/-! ## Secluded scopes -/

/-- From a scope nothing is in sight that was there in an earlier world and waits, nor any root. -/
def World.Secluded (w₀ w : World) (s : ScopeId) : Prop :=
  ∀ t, w.Sees s t → (w.scope t).kind ≠ .root ∧ (t.In w₀.count → ¬ w.Waits t)

namespace World.Secluded

theorem later (sound : Sound D w) (g : w.Grows w₁) (hs : s.In w.count) (h : w₀.Secluded w s) :
    w₀.Secluded w₁ s := by
  intro t sees
  obtain ⟨before, ht⟩ := sees.earlier sound g hs
  rw [(g.scope ht).kind]
  obtain ⟨inner, free⟩ := h t before
  exact ⟨inner, fun old waits => free old (waits.earlier sound g ht)⟩

/-- A scope that does not wait and hides its parent, or whose parent is secluded. -/
theorem of_parent (inner : (w.scope s).kind ≠ .root) (free : s.In w₀.count → ¬ w.Waits s)
    (next : (w.scope s).kind.hidesParent = false → ∀ p, (w.scope s).parent = some p →
      w₀.Secluded w p) : w₀.Secluded w s := by
  intro t sees
  cases sees with
  | refl => exact ⟨inner, free⟩
  | parent open_ parent sees => exact next open_ _ parent t sees

theorem of_hides (hides : (w.scope s).kind.hidesParent = true) : w₀.Secluded w s := by
  refine of_parent (fun root => ?_) (fun _ => Waits.not_hides hides) fun open_ =>
    absurd (hides.symm.trans open_) nofun
  rw [root] at hides
  exact absurd hides nofun

/-- The scope of a class of the program lies below one that hides its parent. -/
theorem of_class (kin : w.Kin D) {c : ClassId} (hc : c.In w.count)
    (captured : (w.classOf c).captured.isSome = true)
    (free : (w.classOf c).scope.In w₀.count → ¬ w.Waits (w.classOf c).scope) :
    w₀.Secluded w (w.classOf c).scope := by
  obtain ⟨q, hq⟩ := Option.isSome_iff_exists.mp captured
  obtain ⟨parent, hides⟩ := kin.classParent hc q hq
  refine of_parent ?_ free fun _ p hp => ?_
  · rw [kin.classKind hc]
    exact nofun
  · obtain rfl := Option.some.inj (parent.symm.trans hp)
    exact of_hides hides

/-- The body of a new class runs in a secluded scope. -/
theorem of_newClass {home : ScopeId} (name accessor : String)
    (kin : (w.addClass home name accessor (some home)).2.Kin D) (g : w₀.Grows w) :
    w₀.Secluded (w.addClass home name accessor (some home)).2
      (w.makeCallScope home .classScope name).1 := by
  have here := w.home_addClass home name accessor (some home)
  rw [← here]
  refine of_class kin (w.addClass_in home name accessor (some home)) ?_ fun old => ?_
  · rw [World.captured_addClass]
    rfl
  · rw [here] at old
    exact absurd (old.mono g.count) (w.derive_new home .classScope name (some home))

/-- A class of the program has captured such a scope. -/
theorem of_captured (kin : w.Kin D) (sound : Sound D w) {c : ClassId} (hc : c.In w.count)
    (captured : (w.classOf c).captured.isSome = true) : ∃ q, q.In w.count ∧ w₀.Secluded w q := by
  obtain ⟨q, hq⟩ := Option.isSome_iff_exists.mp captured
  exact ⟨q, sound.classCaptured hc hq, of_hides (kin.classParent hc q hq).2⟩

/-- The scope of an instance lies below the one of its class. -/
theorem of_instance (kin : w.Kin D) (sound : Sound D w) {i : InstanceId} (hi : i.In w.count)
    (home : w.OfProgram i) : w₀.Secluded w (w.inst i).scope := by
  refine of_parent ?_ (fun _ waits => waits.not_home kin hi rfl) fun _ p hp => ?_
  · rw [kin.homeKind hi]
    exact nofun
  · obtain rfl := Option.some.inj ((kin.homeParent hi).symm.trans hp)
    exact of_class kin (sound.classId hi) home fun _ waits => waits.not_class kin sound hi rfl

/-- A new scope below a secluded one. -/
theorem child (sound : Sound D w) (g₀ : w₀.Grows w) (hs : s.In w.count) (h : w₀.Secluded w s)
    {kind : ScopeKind} (label : String) (activation : kind.isActivation = true) :
    w₀.Secluded (w.makeCallScope s kind label).2 (w.makeCallScope s kind label).1 := by
  have made := w.scope_derive s kind label (some s)
  have new := w.derive_new s kind label (some s)
  intro t sees
  cases sees with
  | refl =>
    refine ⟨fun root => ?_, fun old => absurd (old.mono g₀.count) new⟩
    rw [World.makeCallScope, made] at root
    exact ScopeKind.ne_root_of_isActivation activation root
  | @parent _ p _ _ parent sees =>
    rw [World.makeCallScope, made] at parent
    obtain rfl : s = p := Option.some.inj parent
    exact h.later sound (w.grows_derive s kind label (some s)) hs t sees

/-- An invocation starts from a secluded scope if its caller runs in one. -/
theorem entry (kin : w.Kin D) (sound : Sound D w) {f : Frame} {i : Invocation}
    (h : w₀.Secluded w f.scope) (invokes : w.Invokes f i) (home : w.AtHome i) :
    w₀.Secluded w (w.entry f.scope i) := by
  have user : ∀ r, i.receiver = some r → w.RunsCode i → w₀.Secluded w (w.inst r).scope :=
    fun r e runs => of_instance kin sound (home.receiver r e) (home.home runs r e)
  cases invokes with
  | @function access g hg =>
    simp only [World.entry]
    split
    · rename_i b body
      obtain ⟨p, hp⟩ := Option.isSome_iff_exists.mp (sound.closed hg body)
      rw [hp]
      exact of_hides (kin.captured hg hp)
    · exact h
  | member =>
    simp only [World.entry]
    split
    · rename_i b r body e
      obtain rfl := Option.some.inj e
      exact user _ rfl ⟨_, rfl, .inl ⟨b, body⟩⟩
    · exact h
  | method =>
    simp only [World.entry]
    split
    · rename_i b r body e
      obtain rfl := Option.some.inj e
      exact user _ rfl ⟨_, rfl, .inl ⟨b, body⟩⟩
    · exact h

end World.Secluded

/-! ## Code in the course of a call -/

/-- The scopes of a world that still wait in a later one have the same tables there. -/
def World.Undisturbed (w w' : World) : Prop :=
  ∀ t, t.In w.count → w'.Waits t → (w.scope t).SameTables (w'.scope t)

theorem World.Undisturbed.refl (w : World) : w.Undisturbed w := fun _ _ _ => .refl _

/-- Code that runs after an earlier world, from which it is secluded and of which it has left
alone the scopes that wait. -/
structure World.Inside (D : Dialect) (w₀ : World) (f : Frame) (calls : List Invocation)
    (w : World) : Prop where
  homely : w.Homely D f calls
  grown : w₀.Grows w
  secluded : w₀.Secluded w f.scope
  undisturbed : w₀.Undisturbed w

theorem World.Inside.untouched {f : Frame} {calls : List Invocation} (h : w₀.Inside D f calls w) :
    w₀.Untouched w := fun t old guarded =>
  h.undisturbed t old (.inl ((h.grown.scope old).kind ▸ guarded))

theorem inside_invariant (plain : ¬ D.hostDefaults) (mute : ¬ D.hostWrites) :
    Invariant D (w₀.Inside D) where
  step {f calls w w₁} ready i h := by
    have g := (h.kept ready.sound ready.frame.scope).2
    refine ⟨(homely_invariant plain).step ready i.homely h, i.grown.trans g,
      i.secluded.later ready.sound g ready.frame.scope, fun t ht waits => ?_⟩
    have waited := waits.earlier ready.sound g (ht.mono i.grown.count)
    exact (i.undisturbed t ht waited).trans (h.sameTables mute ready.sound ready.frame.scope
      i.homely.kin (i.secluded _ (.refl _)).1 (ht.mono i.grown.count) waited
      fun sees => (i.secluded t sees).2 ht waited)
  enter {f calls w f' calls' w₁} ready i h := by
    have homely := (homely_invariant plain).enter ready i.homely h
    have g := (h.kept ready).2
    have alone : (∀ t : ScopeId, t.In w.count → w₁.scope t = w.scope t) → w₀.Undisturbed w₁ :=
      fun same t ht waits => by
        have there := ht.mono i.grown.count
        exact (i.undisturbed t ht (waits.earlier ready.sound g there)).trans (.of_eq (same t there))
    cases h with
    | @scope kind label activation =>
      exact ⟨homely, i.grown.trans g, i.secluded.child ready.sound i.grown ready.frame.scope label
        activation, alone fun t there => World.scope_derive_old there _ _ _⟩
    | classBody name accessor _ _ =>
      exact ⟨homely, i.grown.trans g, .of_newClass name accessor homely.kin i.grown,
        alone fun t there => World.scope_derive_old there _ _ _⟩
    | invocation invokes =>
      refine ⟨homely, i.grown, ?_, i.undisturbed⟩
      exact i.secluded.entry i.homely.kin ready.sound invokes
        (homely.calls _ List.mem_cons_self)
    | receiver => exact ⟨homely, i.grown, i.secluded, i.undisturbed⟩
  leave ready i h g ready' i' := by
    have g' := (h.kept ready).2.trans g
    exact ⟨(homely_invariant plain).leave ready i.homely h g ready' i'.homely, i'.grown,
      i.secluded.later ready.sound g' ready.frame.scope, i'.undisturbed⟩

/-! ## Calls of the program -/

/-- A frame in which code may run on a machine: it has no receiver, or the one of the innermost
invocation. -/
structure Machine.Runs (m : Machine) (f : Frame) : Prop where
  scope : f.scope.In m.world.count
  receiver : ∀ r, f.receiver = some r →
    ∃ i, m.calls.head? = some i ∧ m.world.RunsCode i ∧ i.receiver = some r

/-- Where some code is ready, so is code in any frame in which it may run. -/
theorem Machine.Runs.ready {m : Machine} {f g : Frame} (runs : m.Runs f)
    (ready : Ready D g m.calls m.world) : Ready D f m.calls m.world := by
  refine ⟨ready.sound, ⟨runs.scope, fun r e => ?_⟩, ready.calls⟩
  obtain ⟨i, head, -, receiver⟩ := runs.receiver r e
  exact ready.calls i (List.mem_of_mem_head? head) r receiver

theorem Machine.Runs.homely {m : Machine} {f g : Frame} (runs : m.Runs f)
    (homely : m.world.Homely D g m.calls) : m.world.Homely D f m.calls := by
  refine ⟨homely.kin, homely.calls, fun r e => ?_⟩
  obtain ⟨i, head, code, receiver⟩ := runs.receiver r e
  exact (homely.calls i (List.mem_of_mem_head? head)).home code r receiver

/-- The calls of procedures and classes of the program that code in a frame makes when the
arguments have been evaluated. -/
inductive UserCall (D : Dialect) (k : Knot) (w : World) (f : Frame) : Run Value → Prop
  | function {r : Resolution} {h : Handle .function} (access : Access)
      (receiver : Option InstanceId) : r.Ok D w.count → r.overload.callable = .function h →
      w.HasCode (.function h) → UserCall D k w f (k.invoke access r ⟨f.scope, receiver⟩)
  /-- A method that is found under a name or in a value. -/
  | method {access : Access} {r : Resolution} {h : Handle .method} : access ≠ .member →
      r.Ok D w.count → r.overload.callable = .method h → w.HasCode (.method h) →
      UserCall D k w f (k.invoke access r f)
  /-- A method of an instance. -/
  | member {r : Resolution} {h : Handle .method} {i : InstanceId} : i.In w.count →
      FunctionTable.Lists (w.scope (w.inst i).scope).functions r.overload → r.Ok D w.count →
      r.overload.callable = .method h → w.HasCode (.method h) →
      UserCall D k w f (k.invoke .member r ⟨f.scope, some i⟩)
  /-- A class with a body. -/
  | classObject {c : ClassId} {arguments : CallArguments} : c.In w.count →
      (w.classOf c).captured.isSome = true → arguments.Ok D w.count →
      UserCall D k w f (k.instantiate c arguments f.scope)

theorem World.HasCode.not_runsInPlace {c : Callable} (h : w.HasCode c) : ¬ w.RunsInPlace c := by
  obtain ⟨p, b, hp, body⟩ := h.body
  rintro ⟨q, hq, foreign, -⟩
  obtain rfl := Option.some.inj (hp.symm.trans hq)
  exact foreign b body

/-- Without defaults for methods of the host, nothing in the table of a class runs code in place. -/
theorem World.Kin.not_runsInPlace (kin : w.Kin D) (sound : Sound D w) (plain : ¬ D.hostDefaults)
    {c : ClassId} (hc : c.In w.count) {o : Overload}
    (listed : FunctionTable.Lists (w.scope (w.classOf c).scope).functions o) :
    ¬ w.RunsInPlace o.callable := by
  have member := kin.classMembers hc o listed
  have there := sound.listed listed
  generalize o.callable = callable at member there
  cases callable with
  | function h => exact HasCode.not_runsInPlace member
  | method h =>
    rintro ⟨p, hp, foreign, code⟩
    obtain rfl := Option.some.inj hp
    rcases code with ⟨b, body⟩ | ⟨q, hq, has⟩
    · exact foreign b body
    · obtain ⟨b, body⟩ := (kin.suits there).defaults plain q hq has
      exact foreign b body
  | classObject h =>
    rintro ⟨p, hp, -⟩
    exact absurd hp nofun

/-- A call of the program may as well be made from a secluded frame: it starts where the procedure
or the class belongs. -/
theorem UserCall.leads (w₀ : World) (plain : ¬ D.hostDefaults) {k : Knot} (sound : k.Sound D)
    {f : Frame} {calls : List Invocation}
    {r : Run Value} (call : UserCall D k w f r) (ready : Ready D f calls w) (kin : w.Kin D) :
    ∃ home, home.In w.count ∧ w₀.Secluded w home ∧
      ∀ fuel, Leads D ⟨home, f.receiver⟩ r (OkValue D) ⟨w, fuel, calls⟩ := by
  have hs := ready.frame.scope
  -- the class of a method with code is one of the program
  have method : ∀ {h : Handle .method}, h.In w.count → w.HasCode (.method h) →
      ∃ home, home.In w.count ∧ w₀.Secluded w home := by
    intro h hh code
    obtain ⟨p, b, hp, body⟩ := code.body
    obtain rfl := Option.some.inj hp
    exact World.Secluded.of_captured kin ready.sound (ready.sound.methodClass hh)
      ((kin.suits hh).body b body)
  cases call with
  | @function r h access receiver ok e code =>
    have there := ok.callable
    rw [e] at there
    obtain ⟨p, b, hp, body⟩ := code.body
    obtain rfl := Option.some.inj hp
    obtain ⟨home, hhome⟩ := Option.isSome_iff_exists.mp (ready.sound.closed there body)
    refine ⟨home, ready.sound.captured there hhome, .of_hides (kin.captured there hhome),
      fun fuel => ?_⟩
    exact Knot.leads_invoke sound ok hs (.inr (e ▸ code.not_runsInPlace))
      fun g eg => absurd (e.symm.trans eg) nofun
  | @method access r h other ok e code =>
    have there := ok.callable
    rw [e] at there
    obtain ⟨home, hhome, secluded⟩ := method there code
    refine ⟨home, hhome, secluded, fun fuel => ?_⟩
    refine Knot.leads_invoke sound ok hs (.inr (e ▸ code.not_runsInPlace)) fun g eg i ei => ?_
    obtain rfl := Callable.method.inj (e.symm.trans eg)
    exact ⟨.method other there ei, ready.frame.receiver i ei⟩
  | @member r h i present listed ok e code =>
    have there := ok.callable
    rw [e] at there
    obtain ⟨home, hhome, secluded⟩ := method there code
    refine ⟨home, hhome, secluded, fun fuel => ?_⟩
    refine Knot.leads_invoke sound ok hs (.inr (e ▸ code.not_runsInPlace)) fun g eg j ej => ?_
    obtain rfl := Callable.method.inj (e.symm.trans eg)
    obtain rfl := Option.some.inj ej
    exact ⟨.member there present listed e, present⟩
  | @classObject c arguments hc captured ok =>
    obtain ⟨home, hhome, secluded⟩ := World.Secluded.of_captured kin ready.sound hc captured
    exact ⟨home, hhome, secluded, fun fuel => Knot.leads_instantiate sound hs
      (.inr fun o listed => kin.not_runsInPlace ready.sound plain hc listed) hc ok⟩

/-- At every moment of every program, a call of the program leaves all guarded scopes untouched
that are there, with whatever fuel it runs and whatever it comes to. -/
theorem Session.Reachable.calls_untouched {natives : String → Prop} {s : Session}
    (h : s.Reachable (.plain natives)) (obeys : s.host.Obeys (.plain natives)) {fuel : Nat}
    {program : List Statement} {f : Frame} (runs : (s.reached fuel program).Runs f) {n : Nat}
    {r : Run Value} (call : UserCall (.plain natives) (knot s.config s.host n)
      (s.reached fuel program).world f r) (left : Nat) :
    (s.reached fuel program).world.Untouched
      (r { s.reached fuel program with fuel := left }).2.world := by
  have marks := Dialect.admits_of_sharing (D := .plain natives) trivial (blockMarks program)
  obtain ⟨g, ready, homely⟩ := h.reached (homely_invariant id) homely_start obeys marks fuel
  generalize s.reached fuel program = m at runs call ready homely ⊢
  have here := runs.ready ready
  have homely' := runs.homely homely
  obtain ⟨w, old, calls⟩ := m
  obtain ⟨home, there, secluded, leads⟩ :=
    call.leads w id (knot_sound obeys n) here homely.kin
  have ready' : Ready (.plain natives) ⟨home, f.receiver⟩ calls w :=
    ⟨ready.sound, ⟨there, here.frame.receiver⟩, ready.calls⟩
  obtain ⟨f', reach⟩ := (leads left).reach ready'
  have inside : w.Inside (.plain natives) ⟨home, f.receiver⟩ calls w :=
    ⟨⟨homely.kin, homely.calls, homely'.frame⟩, .refl w, secluded, .refl w⟩
  exact ((inside_invariant id id).reach reach ready' inside).untouched

/-- A program with a variable `x` and a function `f` that declares an `x` of its own. -/
def shadowing : List Statement :=
  [⟨.declare ⟨"x", none, some (.ofTerm (.literal (.int 0))), {}⟩, Span.none⟩,
    ⟨.function ⟨"f", .function, [], none,
      [⟨.declare ⟨"x", none, some (.ofTerm (.literal (.int 1))), {}⟩, Span.none⟩,
        returning (.variable "x")]⟩, Span.none⟩]

/-- The machine at the end of the program. -/
def afterShadowing : Machine := (Session.start {} Kit.host).reached 20 shadowing

/-- The call `f()`. -/
def callShadowing : Run Value :=
  (knot {} Kit.host 20).invoke .name ⟨⟨.function ⟨0⟩, .function, none⟩, []⟩ ⟨⟨0⟩, none⟩

/-- The call yields the value of the inner variable. -/
theorem untouched_shadowing :
    (callShadowing { afterShadowing with fuel := 20 }).1.toOption.any
        (fun v => World.empty.isTruthy v) = true ∧
      afterShadowing.world.Untouched
        (callShadowing { afterShadowing with fuel := 20 }).2.world := by
  refine ⟨by decide +kernel, ?_⟩
  have obeys : Kit.host.Obeys (.plain fun _ => False) := Kit.host_obeys fun _ no => no.elim
  have runs : afterShadowing.Runs ⟨⟨0⟩, none⟩ := ⟨by decide +kernel, nofun⟩
  have call : UserCall (.plain fun _ => False) (knot {} Kit.host 20) afterShadowing.world
      ⟨⟨0⟩, none⟩ callShadowing :=
    .function .name none ⟨by decide +kernel, fun _ no => absurd no List.not_mem_nil⟩ rfl
      (by decide +kernel)
  exact Session.Reachable.calls_untouched (.start {} Kit.host) obeys runs call 20

/-! ## A default of the host -/

/-- A session whose host has registered a class `N` with a method `m` that has a default, `foo()`,
for its parameter. -/
def Session.withHostDefault : Session :=
  let m : NativeMethod := ⟨"m", [⟨"p", none, some (.ofTerm (.call "foo" [])), false, {}⟩], "first"⟩
  ((start {} Kit.host).addNativeClass "N" none [m] ⟨"construct", [], "first"⟩).2

/-- A program with a variable `x` and a class `A`, whose `run(n)` calls `n.m()` and whose `foo()`
assigns to `x`; at the end `a` is an instance of `A`, and `n` one of `N`. -/
def defaultThatAssigns : List Statement :=
  [⟨.declare ⟨"x", none, some (.ofTerm (.literal (.int 0))), {}⟩, Span.none⟩,
    ⟨.classDef ⟨"A", none,
      [methodNamed "construct" [],
        methodNamed "foo"
          [⟨.assign "x" (.ofTerm (.literal (.int 5))), Span.none⟩, returning (.literal (.int 1))],
        ⟨.function ⟨"run", .function, [⟨"n", none, none, false, {}⟩], none,
          [returning (.chain .scope [.read "n", .call "m" []])]⟩, Span.none⟩]⟩, Span.none⟩,
    ⟨.declare ⟨"a", none, some (.ofTerm (.call "A" [])), {}⟩, Span.none⟩,
    ⟨.declare ⟨"n", none, some (.ofTerm (.call "N" [])), {}⟩, Span.none⟩]

/-- The machine at the end of the program. -/
def afterDefaultThatAssigns : Machine := Session.withHostDefault.reached 40 defaultThatAssigns

/-- The method `run` with the instance `n` for its argument. -/
def runWithHostDefault : Resolution :=
  ⟨⟨.method ⟨4⟩, .method, none⟩, [.value (.ofDatum (.object ⟨3⟩))]⟩

/-- The call `a.run(n)`. -/
def callWithHostDefault : Run Value :=
  (knot {} Kit.host 40).invoke .member runWithHostDefault ⟨⟨0⟩, some ⟨1⟩⟩

/-- The call is one of the program, and it changes the variable `x` of the root. -/
theorem not_untouched_hostDefault :
    UserCall (.checked (· = "first")) (knot {} Kit.host 40) afterDefaultThatAssigns.world
        ⟨⟨0⟩, none⟩ callWithHostDefault ∧
      ¬ afterDefaultThatAssigns.world.Untouched
        (callWithHostDefault { afterDefaultThatAssigns with fuel := 40 }).2.world := by
  refine ⟨?_, fun untouched => ?_⟩
  · have there : (⟨3⟩ : InstanceId).In afterDefaultThatAssigns.world.count := by
      decide +kernel
    refine .member (by decide +kernel) ?_ ⟨by decide +kernel, fun slot hs v hv => ?_⟩ rfl
      (by decide +kernel)
    · have found : (afterDefaultThatAssigns.world.scope
          (afterDefaultThatAssigns.world.inst ⟨1⟩).scope).functions.get? "run" =
            some [runWithHostDefault.overload] := by decide +kernel
      exact FunctionTable.lists_of_get? found (List.mem_singleton_self _)
    · rw [List.mem_singleton.mp hs] at hv
      rw [List.mem_singleton.mp hv]
      exact Value.ok_cell rfl there
  · have same := (untouched ⟨0⟩ (by decide +kernel) (by decide +kernel)).bindings
    have before : ((afterDefaultThatAssigns.world.scope ⟨0⟩).bindings.get? "x").any
      (fun b => World.empty.isTruthy b.value) = false := by decide +kernel
    have after : (((callWithHostDefault { afterDefaultThatAssigns with fuel := 40 }).2.world.scope
      ⟨0⟩).bindings.get? "x").any (fun b => World.empty.isTruthy b.value) = true := by
      decide +kernel
    rw [same, before] at after
    exact absurd after nofun

end ScopeLang
