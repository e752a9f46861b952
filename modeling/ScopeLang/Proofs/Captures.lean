/-
# What a definition keeps

A closure keeps copies of its free names, taken from the scope that it is defined in.
The copies are found again at every later call: nothing takes a variable away from
a scope, and the scope of the copies is alive as long as the closure is, which
the evaluator holds while it runs.  A method keeps nothing of its own.  It sees
what the scope of its class sees, as long as its receiver is held.

`World.Later` is everything that may come after, whoever runs it and wherever; it
has the moments of the frame in which the definition is run, but also those of all
frames that are entered once that one has been left.  So it has all the moments of a
program that follow (`Session.Reachable.reached_later`) and those of the programs after it
(`Session.Reachable.later`).
-/
import ScopeLang.Proofs.Activations
import ScopeLang.Proofs.Alive
import ScopeLang.Proofs.Mentions
import ScopeLang.Proofs.Resemblance

namespace ScopeLang

variable {D : Dialect} {w w' : World} {s t : ScopeId} {n : String} {b : Binding}

/-! ## Variables in sight -/

/-- What is found along a chain is found again along a chain that goes on from it. -/
theorem findSome?_follow {α : Type} {next next' : ScopeId → Option ScopeId}
    {find find' : ScopeId → Option α} {P : ScopeId → Prop}
    (step : ∀ s t, P s → next s = some t → next' s = some t ∧ P t)
    (same : ∀ s, P s → find' s = find s) {a : α} :
    ∀ {k : Nat} {s : ScopeId}, P s → (follow next k s).findSome? find = some a →
      (follow next' k s).findSome? find' = some a := by
  intro k
  induction k with
  | zero =>
    intro s hs found
    rw [follow] at found ⊢
    rw [List.findSome?_cons, same s hs]
    rwa [List.findSome?_cons] at found
  | succ k ih =>
    intro s hs found
    rw [follow] at found
    cases next_ : next s with
    | none =>
      have here : find s = some a := by
        simp only [next_, List.findSome?_cons, List.findSome?_nil] at found
        split at found
        · rename_i e
          exact e.trans found
        · cases found
      rw [follow]
      split <;> rw [List.findSome?_cons, same s hs, here]
    | some t =>
      obtain ⟨next', ht⟩ := step s t hs next_
      rw [follow, next', List.findSome?_cons, same s hs]
      simp only [next_, List.findSome?_cons] at found
      split at found
      · exact found
      · exact ih ht found

namespace World

/-- A link that is followed leads to what is alive. -/
theorem bind_upgrade_eq_some {k : CellKind} {link : Option (Handle k)} {h : Handle k} :
    link.bind w.upgrade = some h ↔ link = some h ∧ w.alive h.cell = true := by
  simp only [Option.bind_eq_some_iff, upgrade, Option.ite_none_right_eq_some, Option.some.injEq]
  constructor
  · rintro ⟨_, link, alive, rfl⟩
    exact ⟨link, alive⟩
  · rintro ⟨link, alive⟩
    exact ⟨h, link, alive, rfl⟩

/-- The parent in sight is the parent. -/
theorem parent?_eq_some : w.parent? s = some t ↔
    (w.scope s).parent = some t ∧ w.alive t.cell = true := bind_upgrade_eq_some

theorem variableParent?_eq_some : w.variableParent? s = some t ↔
    (w.scope s).kind.hidesParent = false ∧ (w.scope s).parent = some t ∧
      w.alive t.cell = true := by
  rw [variableParent?, ← parent?_eq_some]
  cases (w.scope s).kind.hidesParent <;> simp

theorem owner_of_scope (ht : t.In w.count) : t.cell ∈ w.owners :=
  mem_owners.mpr ⟨mem_ownerKinds.mpr ⟨nofun, nofun⟩, ht⟩

/-- A parent in sight stays in sight when cells are added. -/
theorem Spares.variableParent? (h : w.Spares w') (sound : Sound D w) (hs : s.In w.count)
    (e : w.variableParent? s = some t) : w'.variableParent? s = some t := by
  obtain ⟨open_, parent, alive⟩ := variableParent?_eq_some.mp e
  have ht : t.In w.count := Nat.lt_trans ((sound.scope s).older t parent) hs
  have anchored := h.anchored sound.held (anchored_of_alive (owner_of_scope ht) alive)
  rw [← h.scope hs] at open_ parent
  exact variableParent?_eq_some.mpr ⟨open_, parent, anchored.alive⟩

/-- A variable in sight stays in sight, as it is, when cells are added. -/
theorem Spares.binding? (h : w.Spares w') (sound : Sound D w) (hs : s.In w.count)
    (found : w.binding? s n = some b) : w'.binding? s n = some b := by
  refine findSome?_follow (P := fun u => u.In w.count) (fun u v hu e => ?_) (fun u hu => ?_) hs
    found
  · obtain ⟨-, parent, -⟩ := variableParent?_eq_some.mp e
    exact ⟨h.variableParent? sound hu e, Nat.lt_trans ((sound.scope u).older v parent) hu⟩
  · rw [localBinding?, localBinding?, h.scope hu]

/-- The scope of a variable that is seen sees it. -/
theorem isSome_binding? (mem : t ∈ w.variableChain s) (has : w.hasLocalVariable t n = true) :
    (w.binding? s n).isSome = true := by
  rw [binding?, List.findSome?_isSome_iff]
  exact ⟨t, mem, has⟩

theorem mem_follow_next {next : ScopeId → Option ScopeId}
    (older : ∀ s t, next s = some t → t.index < s.index) (e : next s = some t) :
    ∀ {k : Nat} {u : ScopeId}, u.index ≤ k → s ∈ follow next k u → t ∈ follow next k u := by
  intro k
  induction k with
  | zero =>
    intro u le mem
    rw [follow, List.mem_singleton] at mem
    have := older s t e
    subst mem
    omega
  | succ k ih =>
    intro u le mem
    rw [follow] at mem ⊢
    cases next_ : next u with
    | none =>
      simp only [next_, List.mem_singleton] at mem
      rw [mem, next_] at e
      cases e
    | some v =>
      simp only [next_, List.mem_cons] at mem ⊢
      have newer := older u v next_
      rcases mem with rfl | mem
      · obtain rfl := Option.some.inj (next_.symm.trans e)
        refine .inr ?_
        unfold follow
        split
        · exact List.mem_singleton_self _
        · split <;> exact List.mem_cons_self
      · exact .inr (ih (by omega) mem)

/-- The scopes in sight go on to the parent of each. -/
theorem mem_variableChain_next (sound : Sound D w) {u : ScopeId} (e : w.variableParent? s = some t)
    (mem : s ∈ w.variableChain u) : t ∈ w.variableChain u := by
  refine mem_follow_next (fun s t e => ?_) e (Nat.le_refl _) mem
  exact (sound.scope s).older t (variableParent?_eq_some.mp e).2.1

end World

/-! ## Copies of variables in sight -/

namespace World

theorem spares_captureVariables (w : World) (s : ScopeId) :
    ∀ names, w.Spares (w.captureVariables s names).2
  | [] => .refl w
  | name :: rest => by
    have ih : w.Spares (w.captureVariables s rest).2 := spares_captureVariables w s rest
    simp only [captureVariables]
    split
    · exact ih
    · exact ih.trans (spares_copyWithin _ _ _)

end World

/-- What is kept of a variable: one of the same declaration, whose value is kindred, and has contents
that resemble if it is made of scalars and containers. -/
structure Binding.Kept (D : Dialect) (w : World) (a : Binding) (w' : World) (b : Binding) :
    Prop extends a.Kindred D w w' b where
  contents : Composite w a.value → Remakes w a.value w' b.value

/-- It is kept while the world grows and containers hold what they held. -/
theorem Binding.Kept.later {a : Binding} {w₁ w₂ : World} (h : a.Kept D w w₁ b)
    (sound : Sound D w₁) (g : w₁.Grows w₂) (keeps : w₁.KeepsContents w₂) : a.Kept D w w₂ b where
  flags := h.flags
  declared := h.declared
  value := h.value.later sound g
  contents fit := (h.contents fit).later fit keeps

theorem World.amends_captureVariables (w : World) (s : ScopeId) :
    ∀ names, w.Amends Nowhere Nowhere (w.captureVariables s names).2
  | [] => .refl w
  | name :: rest => by
    have ih := amends_captureVariables w s rest
    simp only [captureVariables]
    split
    · exact ih
    · exact ih.also (amends_copyWithin _ _ _)

/-- A variable that is in sight and named is captured. -/
theorem captureVariables_get? (sound : Sound D w) (hs : s.In w.count)
    (found : w.binding? s n = some b) : ∀ {names}, n ∈ names →
      ∃ b', (w.captureVariables s names).1.get? n = some b' ∧
        b.Kept D w (w.captureVariables s names).2 b' := by
  have ok : b.value.Ok D w.count := by
    obtain ⟨u, -, e⟩ := World.localBinding?_of_binding? found
    exact sound.binding (World.mem_values_of_localBinding? e)
  intro names
  induction names with
  | nil => exact fun mem => absurd mem List.not_mem_nil
  | cons name rest ih =>
    intro mem
    have spares := w.spares_captureVariables s rest
    have amends := w.amends_captureVariables s rest
    have copying := (captureVariables_seeds sound hs rest).copying
    simp only [World.captureVariables]
    generalize w.captureVariables s rest = made at ih spares amends copying ⊢
    obtain ⟨captured, w₁⟩ := made
    have still : w₁.binding? s n = some b := spares.binding? sound hs found
    by_cases same : n = name
    · subst same
      simp only [still]
      obtain ⟨-, copied⟩ := copyWithin_copies (w₁.size + 1) b.value w₁ copying.sound
        (ok.mono copying.quiet.count)
      have kindred := copied.earlier sound copying.quiet.grows ok
      refine ⟨_, Table.get?_insert_same .., ⟨rfl, rfl, kindred⟩, fun fit => ?_⟩
      obtain ⟨fit₁, alike⟩ := fit.later amends
      obtain ⟨fit₂, alike'⟩ := (copiesParts_copyWithin (w₁.size + 1)).remakes fit₁
      exact ⟨fit₂, alike.trans fit alike'⟩
    · obtain ⟨b', get, kept⟩ := ih ((List.mem_cons.mp mem).resolve_left same)
      cases other : w₁.binding? s name with
      | none => exact ⟨b', get, kept⟩
      | some a =>
        obtain ⟨u, -, e⟩ := World.localBinding?_of_binding? other
        obtain ⟨c, -⟩ := copyWithin_copies (w₁.size + 1) a.value w₁ copying.sound
          (copying.sound.binding (World.mem_values_of_localBinding? e))
        have onward := World.amends_copyWithin (w₁.size + 1) a.value w₁
        exact ⟨b', (Table.get?_insert_other same ..).trans get,
          kept.later copying.sound c.quiet.grows
            ⟨onward.count, fun old kind => onward.values old kind id⟩⟩

/-- A scope that keeps copies of variables in sight has a copy of each that is named. -/
theorem Sound.detachAs_captures (sound : Sound D w) (hs : s.In w.count)
    (found : w.binding? s n = some b) (kind : ScopeKind) (label : String) {names : List String}
    (mem : n ∈ names) : ∃ b', (w.detachAs s kind names label).2.localBinding?
        (w.detachAs s kind names label).1 n = some b' ∧
      b.Kept D w (w.detachAs s kind names label).2 b' := by
  have older : ∀ p, some s = some p → p.In w.count := fun p hp => Option.some.inj hp ▸ hs
  have derived := sound.derive s kind label (some s) older
  have grown := w.grows_derive s kind label (some s)
  have copying := (sound.detach_seeds hs kind names label (some s) older).copying
  have ok : b.value.Ok D w.count := by
    obtain ⟨u, -, e⟩ := World.localBinding?_of_binding? found
    exact sound.binding (World.mem_values_of_localBinding? e)
  have still : (w.derive s kind label (some s)).2.binding? s n = some b :=
    (w.spares_newScope _).binding? sound hs found
  -- no container is touched when the scope is made, nor when it gets its variables
  have first : w.KeepsContents (w.derive s kind label (some s)).2 :=
    ⟨grown.count, fun {c} _ kind => World.values_of_container kind rfl rfl rfl⟩
  obtain ⟨b', get, kept⟩ := captureVariables_get? derived (hs.mono grown.count) still mem
  refine ⟨b', ?_, ⟨kept.flags, kept.declared, ?_⟩, fun fit => ?_⟩
  · rw [World.localBinding?, sound.scope_detachAs hs]
    exact get
  · have before := kept.value.earlier sound grown ok
    rw [World.detachAs_eq]
    refine ⟨?_, before.attrs, before.alike.kind,
      (World.valueType_congr rfl rfl _).trans before.alike.type⟩
    rw [World.count_setScope]
    exact before.ok
  · obtain ⟨fit₁, alike⟩ := fit.carry first
    obtain ⟨fit₂, alike'⟩ := kept.contents fit₁
    rw [World.detachAs_eq]
    refine Remakes.later ⟨fit₂, alike.trans fit alike'⟩ fit ⟨?_, fun {c} _ kind =>
      World.values_of_container kind rfl rfl rfl⟩
    rw [World.count_setScope]

/-- No class is left without its home by what comes later. -/
theorem World.Later.kin (h : w.Later D w') (sound : Sound D w) (kin : w.Kin D) : w'.Kin D := by
  induction h with
  | refl => exact kin
  | step later hs step ih => exact step.kin (later.kept sound).1 hs ih
  | enter kind label later hs ih => exact ih.derive (later.kept sound).1 _ _ _ _

/-! ## Variables that stay in sight -/

/-- From a world on, a variable is in sight of all scopes that see those of `x`, as long as a cell
is held. -/
def World.Sights (D : Dialect) (w : World) (x : ScopeId) (holder : Cell) (n : String) : Prop :=
  ∀ {w' : World}, w.Later D w' → holder ∈ w'.held → ∀ {y : ScopeId}, x ∈ w'.variableChain y →
    (w'.binding? y n).isSome = true

/-- A new scope that a call is run in. -/
structure World.Entered (D : Dialect) (w : World) (x parent : ScopeId) (w' : World) : Prop where
  later : w.Later D w'
  open_ : (w'.scope x).kind.hidesParent = false
  parent : (w'.scope x).parent = some parent
  there : x.In w'.count

/-- Entering a call makes a scope under the parent. -/
theorem entered_of_enter {caller parent x : ScopeId} {kind : ScopeKind} {label : String}
    (sound : Sound D w) (hp : parent.In w.count) (activation : kind.isActivation = true)
    (h : (Action.enter caller parent kind label).runIn w = (.ok x, w')) :
    w.Entered D x parent w' := by
  have made : Sound D (w.makeCallScope parent kind label).2 :=
    sound.derive _ _ _ _ fun _ e => Option.some.inj e ▸ hp
  have grown : w.Grows (w.makeCallScope parent kind label).2 := w.grows_derive _ _ _ _
  have fresh : (w.makeCallScope parent kind label).1.In (w.makeCallScope parent kind label).2.count :=
    w.derive_in _ _ _ _
  obtain ⟨steps, result⟩ := steps_enter (D := D) (s := parent) (w := w) caller parent label
    activation
  rw [h] at steps result
  obtain rfl : x = (w.makeCallScope parent kind label).1 := result x rfl
  have g := (steps.kept made (hp.mono grown.count)).2
  have scope := w.scope_derive parent kind label (some parent)
  refine ⟨(World.Later.enter kind label .refl hp).trans (.of_steps steps made (hp.mono grown.count)),
    ?_, ?_, fresh.mono g.count⟩
  · rw [(g.scope fresh).kind]
    exact (congrArg (fun x => x.kind.hidesParent) scope).trans
      (ScopeKind.hidesParent_of_isActivation activation)
  · rw [(g.scope fresh).parent]
    exact congrArg Scope.parent scope

/-- A scope that is anchored through what is held is in sight from below. -/
theorem World.Entered.next {x parent : ScopeId} {w₁ w₂ : World} (h : w.Entered D x parent w₁)
    (sound : Sound D w) (later : w₁.Later D w₂) (anchored : w₂.Anchored parent.cell) :
    w₂.variableParent? x = some parent := by
  have g := (later.kept (h.later.kept sound).1).2
  refine World.variableParent?_eq_some.mpr ⟨?_, ?_, anchored.alive⟩
  · rw [(g.scope h.there).kind]
    exact h.open_
  · rw [(g.scope h.there).parent]
    exact h.parent

/-! ## Calls of closures -/

/-- What a closure of `s` keeps of a variable `b`: a copy in the scope that its body is run
under, which is in sight throughout every later call. -/
structure World.Keeps (D : Dialect) (w : World) (s : ScopeId) (d : FunctionDecl) (n : String)
    (b : Binding) (h : Handle .function) : Prop where
  new : ¬ h.In w.count
  body : ((w.defineFunction s d).function h).procedure.body = .user d.body
  copy : ∃ c b', ((w.defineFunction s d).function h).captured = some c ∧
    (w.defineFunction s d).localBinding? c n = some b' ∧ b.Kept D w (w.defineFunction s d) b'
  sights : ∀ {w' : World}, (w.defineFunction s d).Later D w' →
    ∀ {caller x : ScopeId} {w₂ : World},
      (Action.enterFunction caller (w'.function h)).runIn (w'.hold [h.cell]) = (.ok x, w₂) →
        w₂.Sights D x h.cell n

/-- Binding the types of a procedure changes nothing but pools of types. -/
theorem mapState_bindParameter_eq (s : ScopeId) : ∀ (ps : List Parameter) (w : World),
    ∃ types, (mapState (bindParameter s) ps w).2 = { w with types }
  | [], w => ⟨w.types, rfl⟩
  | p :: rest, w => by
    obtain ⟨types, same⟩ := mapState_bindParameter_eq s rest (bindParameter s p w).2
    exact ⟨types, same⟩

theorem bindProcedure_eq (s : ScopeId) (name : String) (ps : List Parameter)
    (returns : Option TypeExpr) (body : Body) (w : World) :
    ∃ types, (bindProcedure s name ps returns body w).2 = { w with types } := by
  obtain ⟨types, same⟩ := mapState_bindParameter_eq s ps w
  simp only [bindProcedure, same]
  exact ⟨_, rfl⟩

theorem scope_bindProcedure (s : ScopeId) (name : String) (ps : List Parameter)
    (returns : Option TypeExpr) (body : Body) (w : World) (t : ScopeId) :
    (bindProcedure s name ps returns body w).2.scope t = w.scope t := by
  obtain ⟨types, same⟩ := bindProcedure_eq s name ps returns body w
  rw [same]
  rfl

/-- A function that is registered has no part in what containers hold. -/
theorem World.values_defineFunction (w : World) (s : ScopeId) (d : FunctionDecl) {c : Cell}
    (kind : c.kind.isContainer = true) :
    (w.defineFunction s d).values c = (w.functionDefScope s d).2.values c := by
  simp only [World.defineFunction]
  generalize w.functionDefScope s d = captured
  obtain ⟨types, same⟩ :=
    bindProcedure_eq s d.name d.parameters d.returns (.user d.body) captured.2
  generalize bindProcedure s d.name d.parameters d.returns (.user d.body) captured.2 = bound
    at same ⊢
  simp only [World.registerFunction, same]
  split
  · exact World.values_of_container kind rfl rfl rfl
  · exact World.values_of_container kind rfl rfl rfl

/-- A function that has been defined is new, and so is the scope that it captures. -/
theorem Sound.defineFunction_captured (sound : Sound D w) (hs : s.In w.count) (d : FunctionDecl) :
    ∃ h : Handle .function, ¬ h.In w.count ∧
      h.In (w.defineFunction s d).count ∧
      ((w.defineFunction s d).function h).procedure.body = .user d.body ∧
      ((w.defineFunction s d).function h).captured = some (w.functionDefScope s d).1 ∧
      ((w.defineFunction s d).scope (w.functionDefScope s d).1).bindings =
        ((w.functionDefScope s d).2.scope (w.functionDefScope s d).1).bindings ∧
      (w.functionDefScope s d).2.Grows (w.defineFunction s d) := by
  obtain ⟨steps, there, -⟩ := steps_functionDefScope (D := D) sound hs d
  obtain ⟨sound₁, g₁⟩ := steps.kept sound hs
  simp only [World.defineFunction]
  generalize w.functionDefScope s d = captured at steps there sound₁ g₁ ⊢
  have bind : Steps D s captured.2
      (bindProcedure s d.name d.parameters d.returns (.user d.body) captured.2).2 :=
    steps_bindProcedure _ _ _ _ _
  have scope := scope_bindProcedure s d.name d.parameters d.returns (.user d.body) captured.2
    captured.1
  have user : (bindProcedure s d.name d.parameters d.returns (.user d.body) captured.2).1.body =
    .user d.body := rfl
  generalize bindProcedure s d.name d.parameters d.returns (.user d.body) captured.2 = bound
    at bind scope user ⊢
  obtain ⟨-, g₂⟩ := bind.kept sound₁ (hs.mono g₁.count)
  have made : (bound.2.newFunction ⟨bound.1, some captured.1⟩).2.function
      (bound.2.newFunction ⟨bound.1, some captured.1⟩).1 = ⟨bound.1, some captured.1⟩ :=
    Store.get_alloc_new _ _
  have new : (bound.2.newFunction ⟨bound.1, some captured.1⟩).1.In
      (bound.2.newFunction ⟨bound.1, some captured.1⟩).2.count := World.newFunction_in _ _
  have g₃ := bound.2.grows_newFunction ⟨bound.1, some captured.1⟩
  have old : ¬ (bound.2.newFunction ⟨bound.1, some captured.1⟩).1.In bound.2.count :=
    Census.not_in_next bound.2.count .function
  have same : ((bound.2.newFunction ⟨bound.1, some captured.1⟩).2.scope captured.1).bindings =
    (captured.2.scope captured.1).bindings := congrArg Scope.bindings scope
  generalize bound.2.newFunction ⟨bound.1, some captured.1⟩ = f at made new old g₃ same ⊢
  have g₄ := f.2.grows_registerFunction s d.name ⟨.function f.1, d.kind.role, none⟩
  have function := (g₄.function new).trans made
  refine ⟨f.1, fun h => old (h.mono (g₁.trans g₂).count), new.mono g₄.count, ?_, ?_, ?_,
    (g₂.trans g₃).trans g₄⟩
  · rw [function]
    exact user
  · rw [function]
  · rw [World.bindings_registerFunction]
    exact same

/-- A closure keeps a copy of every variable that is in sight of it and one of its free names. -/
theorem Sound.keeps (sound : Sound D w) (hs : s.In w.count) {d : FunctionDecl}
    (marks : D.Admits d.marks) (closure : d.kind = .closure) (free : n ∈ d.freeNames)
    (found : w.binding? s n = some b) : ∃ h, w.Keeps D s d n b h := by
  obtain ⟨sound₁, -⟩ := (steps_defineFunction sound hs marks).kept sound hs
  have scope : w.functionDefScope s d = w.detachAs s .detached d.freeNames d.name := by
    rw [World.functionDefScope, closure]
    rfl
  obtain ⟨b', copy, copied⟩ := sound.detachAs_captures hs found .detached d.name free
  obtain ⟨h, new, there, body, captured, bindings, grown⟩ :=
    sound.defineFunction_captured hs d
  rw [scope] at captured bindings grown
  have kept : (w.defineFunction s d).localBinding? (w.detachAs s .detached d.freeNames d.name).1 n =
      some b' := by
    rw [World.localBinding?, bindings]
    exact copy
  have sound₀ : Sound D (w.detachAs s .detached d.freeNames d.name).2 := (sound.detachAs hs).1
  have contents : (w.detachAs s .detached d.freeNames d.name).2.KeepsContents
      (w.defineFunction s d) :=
    ⟨grown.count, fun {c} _ kind => scope ▸ w.values_defineFunction s d kind⟩
  refine ⟨h, new, body, ⟨_, b', captured, kept, copied.later sound₀ grown contents⟩, ?_⟩
  generalize (w.detachAs s .detached d.freeNames d.name).1 = c at captured kept
  intro w' later caller x w₂ run w₃ later' held y mem
  have hc : c.In (w.defineFunction s d).count := sound₁.captured there captured
  obtain ⟨sound', g⟩ := later.kept sound₁
  have held_ : Sound D (w'.hold [h.cell]) :=
    SoundAt.hold (fun o ho => List.mem_singleton.mp ho ▸ there.mono g.count) sound'
  rw [Action.enterFunction, g.function there, captured, Option.getD_some] at run
  have entered : (w'.hold [h.cell]).Entered D x c w₂ :=
    entered_of_enter held_ (hc.mono g.count) rfl run
  obtain ⟨sound₂, g₂⟩ := entered.later.kept held_
  obtain ⟨sound₃, g₃⟩ := later'.kept sound₂
  -- what has happened to the closure and its scope since they were made
  have whole : (w.defineFunction s d).Grows w₃ := (g.trans (w'.grows_setHeld _)).trans (g₂.trans g₃)
  have anchored : w₃.Anchored c.cell := by
    refine (World.anchored_of_held held).owned (there.mono whole.count) ?_
    rw [show w₃.owned h.cell = (w₃.function h).cells from rfl, whole.function there, Function.cells,
      captured]
    exact List.mem_singleton_self _
  have next := entered.next held_ later' anchored
  refine World.isSome_binding? (World.mem_variableChain_next sound₃ next mem) (whole.bound hc ?_)
  rw [World.hasLocalVariable, Table.contains]
  exact Option.isSome_iff_exists.mpr ⟨b', kept⟩

/-! ## Calls of methods -/

/-- From a world in which a method is defined on, a variable is in sight throughout every later
call of the method on an instance of the class. -/
def World.MethodsSight (D : Dialect) (w : World) (c : ClassId) (d : FunctionDecl) (n : String) :
    Prop :=
  ∀ {w' : World}, (w.defineMethod c d).Later D w' →
    ∀ {i : InstanceId}, i.In w'.count → (w'.inst i).classId = c →
      ∀ {caller x : ScopeId} {w₂ : World},
        (Action.enterMethod caller i d.name).runIn (w'.hold [i.cell]) = (.ok x, w₂) →
          w₂.Sights D x i.cell n

/-- The scope of a class sees its own variables and those of the scope that it captures. -/
theorem World.Kin.classSight (kin : w.Kin D) {c : ClassId} (hc : c.In w.count)
    (body : (w.classOf c).captured.isSome = true) (mem : t ∈ w.variableChain (w.classOf c).scope) :
    t = (w.classOf c).scope ∨ (w.classOf c).captured = some t := by
  obtain ⟨p, captured⟩ := Option.isSome_iff_exists.mp body
  obtain ⟨parent, hides⟩ := kin.classParent hc p captured
  cases World.Sees.of_mem_variableChain mem with
  | refl => exact .inl rfl
  | parent _ up sees =>
    obtain rfl := Option.some.inj (parent.symm.trans up)
    exact .inr (sees.eq_of_hides hides ▸ captured)

/-- What the scope of a class sees the methods see. -/
theorem Sound.methodsSight (sound : Sound D w) (kin : w.Kin D) {c : ClassId} (hc : c.In w.count)
    (body : (w.classOf c).captured.isSome = true) {d : FunctionDecl} (marks : D.Admits d.marks)
    (found : w.binding? (w.classOf c).scope n = some b) : w.MethodsSight D c d n := by
  have hk := sound.classScope hc
  have defined := steps_defineMethod sound hc body marks
  intro w' later i hi class_ caller x w₂ run w₃ later' held y mem
  have later := (World.Later.of_steps defined sound hk).trans later
  obtain ⟨sound', g⟩ := later.kept sound
  have held_ : Sound D (w'.hold [i.cell]) :=
    SoundAt.hold (fun o ho => List.mem_singleton.mp ho ▸ hi) sound'
  rw [Action.enterMethod, runIn_look_bind] at run
  have entered : (w'.hold [i.cell]).Entered D x (w'.inst i).scope w₂ :=
    entered_of_enter held_ (sound'.home hi) rfl run
  obtain ⟨sound₂, g₂⟩ := entered.later.kept held_
  obtain ⟨sound₃, g₃⟩ := later'.kept sound₂
  have since : w'.Grows w₃ := (w'.grows_setHeld _).trans (g₂.trans g₃)
  have whole : w.Grows w₃ := g.trans since
  have kin₃ : w₃.Kin D :=
    later'.kin sound₂ (entered.later.kin held_ ((later.kin sound kin).quiet sound' (.held w' _)))
  -- everything above the call hangs on its receiver
  have hi₃ := hi.mono since.count
  have class₃ : (w₃.inst i).classId = c := (since.classId hi).trans class_
  have receiver : w₃.Anchored i.cell := World.anchored_of_held held
  have home : w₃.Anchored (w₃.inst i).scope.cell :=
    receiver.owned hi₃ (List.mem_cons_of_mem _ List.mem_cons_self)
  have anchored : w₃.Anchored c.cell := receiver.owned hi₃ (class₃ ▸ List.mem_cons_self)
  have same : w₃.classOf c = w.classOf c := whole.classOf hc
  have hc₃ := hc.mono whole.count
  have scope : w₃.Anchored (w.classOf c).scope.cell :=
    same ▸ anchored.owned hc₃ List.mem_cons_self
  have upToHome := World.mem_variableChain_next sound₃
    (entered.next held_ later' (since.home hi ▸ home)) mem
  have upToClass : (w.classOf c).scope ∈ w₃.variableChain y := by
    refine World.mem_variableChain_next sound₃ (World.variableParent?_eq_some.mpr ⟨?_, ?_, scope.alive⟩)
      upToHome
    · rw [← since.home hi, kin₃.homeKind hi₃]
      rfl
    · rw [← since.home hi, kin₃.homeParent hi₃, class₃, same]
  obtain ⟨t, chain, get⟩ := World.localBinding?_of_binding? found
  have has : w.hasLocalVariable t n = true := Option.isSome_iff_exists.mpr ⟨b, get⟩
  rcases kin.classSight hc body chain with rfl | captured
  · exact World.isSome_binding? upToClass (whole.bound hk has)
  · obtain ⟨parent, -⟩ := kin₃.classParent hc₃ t (same ▸ captured)
    have kept : w₃.Anchored t.cell := by
      refine anchored.owned hc₃ ?_
      rw [show w₃.owned c.cell = (w₃.classOf c).cells from rfl, same, Class.cells, captured]
      exact List.mem_cons_of_mem _ (List.mem_singleton_self _)
    refine World.isSome_binding? (World.mem_variableChain_next sound₃
      (World.variableParent?_eq_some.mpr ⟨?_, same ▸ parent, kept.alive⟩) upToClass)
      (whole.bound (sound.classCaptured hc captured) has)
    rw [← same, kin₃.classKind hc₃]
    rfl

/-! ## Runs of programs -/

/-- At every moment of every program, whatever a closure meets and does not declare is one of its
free names; it is kept wherever the closure is defined in sight of it, and in a class body it is
in sight of the methods. -/
theorem Session.Reachable.captures {natives : String → Prop} {S : Session}
    (h : S.Reachable (.full natives)) (obeys : S.host.Obeys (.full natives)) (fuel : Nat)
    (program : List Statement) {d : FunctionDecl} {n : String} (closure : d.kind = .closure)
    (meets : d.Meets n) (fresh : ¬ d.Declares n) :
    n ∈ d.freeNames ∧
      (∀ {s : ScopeId} {b : Binding}, s.In (S.reached fuel program).world.count →
        (S.reached fuel program).world.binding? s n = some b →
          ∃ h, (S.reached fuel program).world.Keeps (.full natives) s d n b h) ∧
      ∀ {c : ClassId} {b : Binding}, c.In (S.reached fuel program).world.count →
        ((S.reached fuel program).world.classOf c).captured.isSome = true →
        (S.reached fuel program).world.binding?
            ((S.reached fuel program).world.classOf c).scope n = some b →
          (S.reached fuel program).world.MethodsSight (.full natives) c d n := by
  have admitted := Dialect.admits_of_sharing (D := .full natives) trivial
  obtain ⟨f, ready, kin⟩ := h.reached kin_invariant kin_start obeys (admitted _) fuel
  have free : n ∈ d.freeNames := meets.free fresh
  refine ⟨free, fun hs found => ?_, fun hc body found => ?_⟩
  · exact ready.sound.keeps hs (admitted _) closure free found
  · exact ready.sound.methodsSight kin hc body (admitted _) found

/-- A statement that declares a variable. -/
def declaring (name : String) (t : Term) : Statement :=
  ⟨.declare ⟨name, none, some (.ofTerm t), {}⟩, Span.none⟩

/-- A closure without parameters. -/
def closureNamed (name : String) (body : List Statement) : FunctionDecl :=
  ⟨name, .closure, [], none, body⟩

/-- A closure that hands on a closure that reads `x`, and has a variable `y` in a block. -/
def snapshot : FunctionDecl :=
  closureNamed "snapshot"
    [⟨.block [declaring "y" (.variable "x")], Span.none⟩,
      ⟨.function (closureNamed "inner" [returning (.variable "x")]), Span.none⟩,
      returning (.variable "inner")]

/-- The closure keeps the variable `x` of the root. -/
theorem captures_snapshot :
    snapshot.Meets "x" ∧ ¬ snapshot.Declares "x" ∧ "x" ∈ snapshot.freeNames ∧
      ∃ b h, ((Session.start {} Kit.host).reached 20
          [declaring "x" (.literal (.int 5))]).world.binding? ⟨0⟩ "x" = some b ∧
        ((Session.start {} Kit.host).reached 20
          [declaring "x" (.literal (.int 5))]).world.Keeps (.full fun _ => True) ⟨0⟩ snapshot "x" b
            h := by
  have obeys : Kit.host.Obeys (.full fun _ => True) := Kit.host_obeys fun _ _ => .inl trivial
  have meets : snapshot.Meets "x" :=
    .block (List.mem_singleton_self _) (.operand (List.mem_singleton_self _) (.here rfl))
  have fresh : ¬ snapshot.Declares "x" := by decide +kernel
  obtain ⟨b, found⟩ := Option.isSome_iff_exists.mp
    (show (((Session.start {} Kit.host).reached 20
      [declaring "x" (.literal (.int 5))]).world.binding? ⟨0⟩ "x").isSome = true by decide +kernel)
  obtain ⟨free, keeps, -⟩ := Session.Reachable.captures (.start {} Kit.host) obeys 20
    [declaring "x" (.literal (.int 5))] rfl meets fresh
  obtain ⟨h, keeps⟩ := keeps (by decide +kernel) found
  exact ⟨meets, fresh, free, b, h, found, keeps⟩

/-! ## What is not kept -/

/-- A closure that reads `x` before it declares a variable of this name. -/
def readsTooEarly : FunctionDecl :=
  closureNamed "f"
    [declaring "y" (.variable "x"), declaring "x" (.literal (.int 1)), returning (.variable "y")]

/-- A program that calls the closure in sight of a variable `x`. -/
def earlyRead : List Statement :=
  [declaring "x" (.literal (.int 5)), ⟨.function readsTooEarly, Span.none⟩,
    ⟨.expression (.ofTerm (.call "f" [])), Span.none⟩]

/-- A method that reads a variable of its class. -/
def readsMember : FunctionDecl := closureNamed "who" [returning (.variable "secret")]

/-- A program in which `A().run()` calls `B().go()`, which calls `who()`, a method of `A` that is
in sight along the chain of the callers; a class `A` has a variable `secret`. -/
def borrowedRead : List Statement :=
  [⟨.classDef ⟨"A", none,
      [declaring "secret" (.literal (.int 5)), methodNamed "construct" [],
        ⟨.function readsMember, Span.none⟩,
        methodNamed "run" [returning (.chain .scope [.call "B" [], .call "go" []])]]⟩, Span.none⟩,
    ⟨.classDef ⟨"B", none,
      [methodNamed "construct" [], methodNamed "go" [returning (.call "who" [])]]⟩, Span.none⟩,
    ⟨.expression (.ofTerm (.chain .scope [.call "A" [], .call "run" []])), Span.none⟩]

/-- Whether a run fails for want of a variable. -/
def wants (name : String) : Except Halt Value → Bool
  | .error (.error e) =>
      match e.kind with
      | .undefinedVariable other => other == name
      | _ => false
  | _ => false

/-- A name that is declared further on is met, but not kept, and the call fails.  A method that is
called on an instance of another class fails where it reads a variable of its own. -/
theorem not_captured_earlyRead :
    (readsTooEarly.Meets "x" ∧ "x" ∉ readsTooEarly.freeNames ∧
        (((Session.start {} Kit.host).reached 7 earlyRead).world.binding? ⟨0⟩ "x").isSome = true ∧
        wants "x" ((Session.start {} Kit.host).run 40 earlyRead).1 = true) ∧
      readsMember.Meets "secret" ∧ ¬ readsMember.Declares "secret" ∧
        (((Session.start {} Kit.host).reached 9 borrowedRead).world.binding?
          (((Session.start {} Kit.host).reached 9 borrowedRead).world.classOf ⟨0⟩).scope
            "secret").isSome = true ∧
        wants "secret" ((Session.start {} Kit.host).run 60 borrowedRead).1 = true := by
  refine ⟨⟨?_, by decide +kernel, by decide +kernel, by decide +kernel⟩, ?_, by decide +kernel,
    by decide +kernel, by decide +kernel⟩
  · exact .operand (List.mem_singleton_self _) (.here rfl)
  · exact .operand (List.mem_singleton_self _) (.here rfl)

end ScopeLang
