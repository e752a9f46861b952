/-
# The scopes of methods

The body of a method runs in a scope below the one of its receiver, and its blocks run in
scopes below this one.  `World.Rises` is the way up from such a scope.  Scopes on
the way are held as long as code runs in them, and so is the receiver, which
keeps its scope, its class and the scope of its class.  For this reason all links on the
way up lead on, and whatever is looked up from such a scope passes the scope of the receiver
(`OnBehalf.chains`).

It follows that a name which nothing on the way has is found among the members of the
receiver, if they have it.
-/
import ScopeLang.Proofs.Keepers
import ScopeLang.Proofs.Members
import ScopeLang.Proofs.Steadiness

namespace ScopeLang

variable {D : Dialect} {w w' : World} {s t p home : ScopeId} {i r : InstanceId} {x : String}
  {l below : List ScopeId}

/-- A path begins with its first scope. -/
theorem Path.exists_eq_cons {next : ScopeId → Option ScopeId} (h : Path next s l) :
    ∃ rest, l = s :: rest := by
  cases h with
  | last => exact ⟨_, rfl⟩
  | step => exact ⟨_, rfl⟩

/-! ## The way up to the receiver -/

namespace World

/-- The scopes of calls and blocks from one up to a call of a method, which is below the scope of
its receiver. -/
inductive Rises (w : World) (home : ScopeId) : ScopeId → List ScopeId → Prop
  | call {s : ScopeId} (activation : (w.scope s).kind.isActivation = true)
      (parent : (w.scope s).parent = some home) : Rises w home s [s]
  | block {s p : ScopeId} {l : List ScopeId} (activation : (w.scope s).kind.isActivation = true)
      (parent : (w.scope s).parent = some p) (rest : Rises w home p l) : Rises w home s (s :: l)

namespace Rises

theorem activation (h : w.Rises home s l) : (w.scope s).kind.isActivation = true := by
  cases h with
  | call activation => exact activation
  | block activation => exact activation

/-- The way up stays as long as kinds and parents do. -/
theorem congr (h : w.Rises home s l)
    (kind : ∀ t ∈ l, (w'.scope t).kind = (w.scope t).kind)
    (parent : ∀ t ∈ l, (w'.scope t).parent = (w.scope t).parent) : w'.Rises home s l := by
  induction h with
  | @call s activation up =>
    refine .call ?_ ((parent s List.mem_cons_self).trans up)
    rwa [kind s List.mem_cons_self]
  | @block s p l activation up _ ih =>
    refine .block ?_ ((parent s List.mem_cons_self).trans up)
      (ih (fun t mem => kind t (List.mem_cons_of_mem _ mem))
        fun t mem => parent t (List.mem_cons_of_mem _ mem))
    rwa [kind s List.mem_cons_self]

theorem mono (h : w.Rises home s l) (g : w.Grows w') (there : ∀ t ∈ l, t.In w.count) :
    w'.Rises home s l :=
  h.congr (fun t mem => (g.scope (there t mem)).kind) fun t mem => (g.scope (there t mem)).parent

end Rises

/-- A call of a method is entered below the scope of its receiver. -/
theorem rises_enterMethod {caller : ScopeId} {name : String}
    (entered : (Action.enterMethod caller r name).runIn w = (.ok t, w')) :
    w'.Rises (w.inst r).scope t [t] := by
  have branches := w.branches_enter caller (w.inst r).scope .methodCall name
  rw [Action.enterMethod, runIn_look_bind] at entered
  rw [entered] at branches
  exact .call (congrArg ScopeKind.isActivation branches.kind) branches.parent

/-- A block is entered below the scope that it is in. -/
theorem Rises.createChild (h : w.Rises home s l) (there : ∀ t ∈ l, t.In w.count)
    (label : String) : (w.createChild s .block label).2.Rises home (w.createChild s .block label).1
      ((w.createChild s .block label).1 :: l) := by
  have branches := w.branches_createChild s .block label
  exact .block (congrArg ScopeKind.isActivation branches.kind) branches.parent
    (h.congr (fun t mem => branches.persists.kind (there t mem))
      fun t mem => branches.persists.parent (there t mem))

/-- A block or a call that is borne is held. -/
theorem Kin.held_of_borne (kin : w.Kin D) (borne : w.Borne s)
    (activation : (w.scope s).kind.isActivation = true) : s.cell ∈ w.held := by
  rcases borne with held | ⟨c, -, keeps, there, owned⟩
  · exact held
  · have never := kin.not_activation_of_kept keeps (carries_of_owned there owned)
    rw [activation] at never
    cases never

/-- All scopes on the way up are held. -/
theorem Rises.held (h : w.Rises home s l) (older : w.ParentsOlder) (secured : w.Secured)
    (kin : w.Kin D) (held : s.cell ∈ w.held) : ∀ t ∈ l, t.cell ∈ w.held := by
  induction h with
  | call => exact fun t mem => List.mem_singleton.mp mem ▸ held
  | block activation parent rest ih =>
    have borne := secured.borne_parent older held parent
    intro t mem
    rcases List.mem_cons.mp mem with rfl | mem
    · exact held
    · exact ih (kin.held_of_borne borne rest.activation) t mem

theorem variableChain_of_parent (older : w.ParentsOlder) (link : w.variableParent? s = some p) :
    w.variableChain s = s :: w.variableChain p :=
  (w.path_variableChain older s).unique (.step link (w.path_variableChain older p))

theorem lookupChain_of_parent (older : w.ParentsOlder) (link : w.parent? s = some p) :
    w.lookupChain s = s :: w.lookupChain p :=
  (w.path_lookupChain older s).unique (.step link (w.path_lookupChain older p))

/-- What is looked up from below passes the scope of the receiver. -/
theorem Rises.chains (h : w.Rises home s l) (older : w.ParentsOlder)
    (up : w.alive home.cell = true) (held : ∀ t ∈ l, t.cell ∈ w.held) :
    w.variableChain s = l ++ w.variableChain home ∧ w.lookupChain s = l ++ w.lookupChain home := by
  have links : ∀ {s p : ScopeId}, (w.scope s).kind.isActivation = true →
      (w.scope s).parent = some p → w.alive p.cell = true →
      w.variableParent? s = some p ∧ w.parent? s = some p := fun activation parent alive =>
    ⟨variableParent?_eq_some.mpr
      ⟨ScopeKind.hidesParent_of_isActivation activation, parent, alive⟩,
      parent?_eq_some.mpr ⟨parent, alive⟩⟩
  induction h with
  | call activation parent =>
    obtain ⟨variable_, any⟩ := links activation parent up
    exact ⟨variableChain_of_parent older variable_, lookupChain_of_parent older any⟩
  | @block s p l activation parent rest ih =>
    have alive : w.alive p.cell = true := by
      refine (anchored_of_held (held p (List.mem_cons_of_mem _ ?_))).alive
      cases rest with
      | call => exact List.mem_singleton_self p
      | block => exact List.mem_cons_self
    obtain ⟨variable_, any⟩ := links activation parent alive
    obtain ⟨near, all⟩ := ih fun t mem => held t (List.mem_cons_of_mem _ mem)
    rw [variableChain_of_parent older variable_, lookupChain_of_parent older any, near, all]
    exact ⟨rfl, rfl⟩

/-! ## Members -/

/-- Some scopes have no variable and no function of a name. -/
def Clear (w : World) (l : List ScopeId) (x : String) : Prop :=
  ∀ t ∈ l, w.hasLocalVariable t x = false ∧ w.hasLocalFunction t x = false

instance (w : World) (l : List ScopeId) (x : String) : Decidable (w.Clear l x) :=
  inferInstanceAs (Decidable (∀ t ∈ l, _ ∧ _))

/-- A name of a variable of an instance, or of its class. -/
def HasMember (w : World) (i : InstanceId) (x : String) : Prop :=
  w.hasLocalVariable (w.inst i).scope x = true ∨
    w.hasLocalVariable (w.classOf (w.inst i).classId).scope x = true

theorem HasMember.exists_scope (member : w.HasMember r x) :
    ∃ t, Knot.memberScope? w r x = some t ∧ w.hasLocalVariable t x = true := by
  rw [Knot.memberScope?, List.find?_cons, List.find?_cons]
  cases own : w.hasLocalVariable (w.inst r).scope x with
  | true => exact ⟨_, rfl, own⟩
  | false =>
    have static := member.resolve_left (by rw [own]; exact Bool.false_ne_true)
    rw [static]
    exact ⟨_, rfl, static⟩

/-- The value of a member, and the scope that it is assigned in. -/
theorem member?_eq (found : Knot.memberScope? w i x = some t)
    (has : w.hasLocalVariable t x = true) :
    Knot.member? w i x = (w.localBinding? t x).map Binding.value := by
  rcases memberScope?_eq found with rfl | ⟨absent, rfl⟩
  · obtain ⟨b, own⟩ := Option.isSome_iff_exists.mp has
    have own : w.localBinding? (w.inst i).scope x = some b := own
    rw [Knot.member?, own, Option.some_or]
  · have none : w.localBinding? (w.inst i).scope x = none :=
      Option.isNone_iff_eq_none.mp (by rw [← Option.not_isSome]; exact congrArg not absent)
    rw [Knot.member?, none, Option.none_or]

/-- A scope in the course of a method: code runs in it against a receiver that is held. -/
structure OnBehalf (D : Dialect) (w : World) (r : InstanceId) (s : ScopeId) (below : List ScopeId) :
    Prop where
  sound : Sound D w
  kin : w.Kin D
  secured : w.Secured
  there : r.In w.count
  standing : r.cell ∈ w.held
  held : s.cell ∈ w.held
  rises : w.Rises (w.inst r).scope s below

namespace OnBehalf

variable (h : w.OnBehalf D r s below)

include h

theorem held_below : ∀ t ∈ below, t.cell ∈ w.held :=
  h.rises.held h.sound.wellFormed.older h.secured h.kin h.held

theorem in_below : ∀ t ∈ below, t.In w.count := fun t mem => h.secured.there t (h.held_below t mem)

theorem anchored : w.Anchored r.cell := anchored_of_held h.standing

/-- All lookups from the scope pass the scope of the receiver. -/
theorem chains : w.variableChain s = below ++ w.variableChain (w.inst r).scope ∧
    w.lookupChain s = below ++ w.lookupChain (w.inst r).scope :=
  h.rises.chains h.sound.wellFormed.older (h.anchored.home h.there).alive h.held_below

/-- After the scope of the receiver comes the one of its class. -/
theorem home_chain : ∃ rest, w.variableChain (w.inst r).scope =
    (w.inst r).scope :: (w.classOf (w.inst r).classId).scope :: rest := by
  have up : w.variableParent? (w.inst r).scope = some (w.classOf (w.inst r).classId).scope := by
    refine variableParent?_eq_some.mpr ⟨?_, h.kin.homeParent h.there, ?_⟩
    · rw [h.kin.homeKind h.there]
      rfl
    · exact ((h.anchored.classId h.there).classScope (h.sound.classId h.there)).alive
  have older : w.ParentsOlder := h.sound.wellFormed.older
  obtain ⟨rest, first⟩ :=
    (w.path_variableChain older (w.classOf (w.inst r).classId).scope).exists_eq_cons
  exact ⟨rest, by rw [variableChain_of_parent older up, first]⟩

/-- A member is bound where the instance has it. -/
theorem bindingScope?_eq (clear : w.Clear below x) (member : w.HasMember r x) :
    w.bindingScope? s x = Knot.memberScope? w r x := by
  obtain ⟨rest, home⟩ := h.home_chain
  have none : below.find? (fun t => w.hasLocalVariable t x) = none :=
    List.find?_eq_none.mpr fun t mem => by
      rw [(clear t mem).1]
      exact Bool.false_ne_true
  rw [bindingScope?, h.chains.1, home, List.find?_append, none, Option.none_or, Knot.memberScope?,
    List.find?_cons, List.find?_cons, List.find?_cons, List.find?_cons]
  rcases member with own | static
  · rw [own]
  · rw [static]

/-- A member is read where the instance has it. -/
theorem getVariable_eq (clear : w.Clear below x) (member : w.HasMember r x) :
    ∃ v, w.getVariable s x = .ok v ∧ Knot.member? w r x = some v := by
  obtain ⟨t, found, has⟩ := member.exists_scope
  obtain ⟨b, own⟩ := Option.isSome_iff_exists.mp has
  have own : w.localBinding? t x = some b := own
  have scope : w.bindingScope? s x = some t := (h.bindingScope?_eq clear member).trans found
  refine ⟨b.value, ?_, ?_⟩
  · rw [getVariable, binding?_of_bindingScope? scope, own]
  · rw [member?_eq found has, own]
    rfl

/-- A function is found in the table of the instance. -/
theorem lookupFunction_eq (clear : w.Clear below x) {os : List Overload}
    (found : (w.scope (w.inst r).scope).functions.get? x = some os) :
    w.lookupFunction s x = some os := by
  have none : below.findSome? (fun t => (w.scope t).functions.get? x) = none :=
    List.findSome?_eq_none_iff.mpr fun t mem => by
      have absent : ((w.scope t).functions.get? x).isSome = false := (clear t mem).2
      exact Option.isNone_iff_eq_none.mp (by rw [← Option.not_isSome, absent]; rfl)
  obtain ⟨rest, order⟩ : ∃ rest, w.searchOrder s = w.lookupChain s ++ rest := ⟨_, rfl⟩
  obtain ⟨more, home⟩ :=
    (w.path_lookupChain h.sound.wellFormed.older (w.inst r).scope).exists_eq_cons
  rw [lookupFunction, order, h.chains.2, home, List.append_assoc, List.findSome?_append, none,
    Option.none_or, List.cons_append, List.findSome?_cons, found]
  rfl

/-- All scopes share their types, and a call may be resolved from any. -/
theorem resolveAmong_eq (os : List Overload) (a : CallArguments) :
    (Action.resolveAmong s x os a).runIn w =
      (Action.resolveAmong (w.inst r).scope x os a).runIn w := by
  have types : (w.scope s).types = (w.scope (w.inst r).scope).types :=
    (h.sound.scope s).types.trans (h.sound.scope _).types.symm
  have change : w.withPool s (w.resolveOverload (w.optionsOf s) x os a) =
      w.withPool (w.inst r).scope (w.resolveOverload (w.optionsOf (w.inst r).scope) x os a) := by
    simp only [withPool, poolOf, setPool, optionsOf, typesOf, types]
  rw [Action.resolveAmong, Action.resolveAmong, runIn_change_bind, runIn_change_bind, change]

end OnBehalf

end World

end ScopeLang
