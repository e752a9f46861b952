/-
# What a scope sees of aliases

A scope sees its own aliases, and those of its parent as long as this one is
alive.  In a world that `Agrees` with an earlier one, every scope of before sees
what it saw: none has another parent or other aliases, and none has been lost or
found.  A type that is bound there again, in a scope that sees the same of the
names in it, is bound to the same id.

Adding types, holding cells, defining functions and methods and entering calls
lead to worlds that agree.  The scope of a call sees what its parent sees.
-/
import ScopeLang.Proofs.Naming
import ScopeLang.Proofs.Upholding

namespace ScopeLang

variable {D : Dialect} {w w₁ w₂ : World} {s : ScopeId}

/-! ## Along the parents -/

/-- As far as a path goes that only leads to older scopes, the bound on its length does not
matter. -/
theorem follow_of_le {next : ScopeId → Option ScopeId}
    (older : ∀ s t, next s = some t → t.index < s.index) :
    ∀ {k m : Nat} {s : ScopeId}, s.index ≤ k → s.index ≤ m → follow next k s = follow next m s := by
  have last : ∀ {s : ScopeId}, s.index = 0 → next s = none := fun {s} zero =>
    Option.eq_none_iff_forall_ne_some.mpr fun t e => Nat.not_lt_zero _ (zero ▸ older s t e)
  intro k
  induction k with
  | zero =>
    intro m s le _
    cases m with
    | zero => rfl
    | succ m => rw [follow, follow, last (Nat.le_zero.mp le)]
  | succ k ih =>
    intro m s le le'
    cases m with
    | zero => rw [follow, follow, last (Nat.le_zero.mp le')]
    | succ m =>
      rw [follow, follow]
      cases found : next s with
      | none => rfl
      | some t =>
        have newer := older s t found
        exact congrArg (s :: ·) (ih (by omega) (by omega))

namespace World

/-- A scope sees its own aliases, and behind them those that its parent sees. -/
theorem alias?_eq (sound : Sound D w) (s : ScopeId) (n : String) :
    w.alias? s n =
      ((w.scope s).aliases.get? n <|> (w.parent? s).bind fun p => w.alias? p n) := by
  have older : ∀ s t, w.parent? s = some t → t.index < s.index := fun s t e =>
    (sound.scope s).older t (parent?_eq_some.mp e).1
  have chain : w.lookupChain s = s :: ((w.parent? s).map w.lookupChain).getD [] := by
    rw [lookupChain]
    cases found : w.parent? s with
    | none => cases s.index <;> simp [follow, found]
    | some p =>
      have newer := older s p found
      obtain ⟨k, hk⟩ := Nat.exists_eq_succ_of_ne_zero (Nat.ne_of_gt (Nat.zero_lt_of_lt newer))
      rw [hk, follow, found]
      exact congrArg (s :: ·) (follow_of_le older (by omega) (le_refl _))
  rw [alias?, chain, List.findSome?_cons]
  cases (w.scope s).aliases.get? n with
  | some id => rfl
  | none =>
    cases w.parent? s with
    | none => rfl
    | some p => rfl

/-- A scope without aliases and without a parent in sight sees none but its own. -/
theorem alias?_of_orphan (sound : Sound D w) (parent : (w.scope s).parent = none) (n : String) :
    w.alias? s n = (w.scope s).aliases.get? n := by
  have none : w.parent? s = none := by rw [parent?, parent, Option.bind_none]
  rw [alias?_eq sound, none, Option.bind_none]
  cases (w.scope s).aliases.get? n <;> rfl

/-- A scope sees what its parent sees of a name that it has no alias for. -/
theorem alias?_of_parent (sound : Sound D w) {p : ScopeId} (parent : (w.scope s).parent = some p)
    (alive : w.alive p.cell = true) {n : String} (own : (w.scope s).aliases.get? n = none) :
    w.alias? s n = w.alias? p n := by
  rw [alias?_eq sound, parent?_eq_some.mpr ⟨parent, alive⟩, own]
  rfl

/-! ## Agreeing worlds -/

/-- A later world in which every scope of before sees the same aliases. -/
structure Agrees (D : Dialect) (w w₁ : World) : Prop where
  sound : Sound D w₁
  named : w₁.WellNamed
  grows : w.Grows w₁
  pool : w.pool.Grows w₁.pool
  anchored : ∀ {c : Cell}, w.Anchored c → w₁.Anchored c
  alive : ∀ {s : ScopeId}, s.In w.count → w₁.alive s.cell = w.alive s.cell
  aliases : ∀ {s : ScopeId}, s.In w.count → (w₁.scope s).aliases = (w.scope s).aliases

namespace Agrees

theorem trans (h : w.Agrees D w₁) (i : w₁.Agrees D w₂) : w.Agrees D w₂ where
  sound := i.sound
  named := i.named
  grows := h.grows.trans i.grows
  pool := h.pool.trans i.pool
  anchored up := i.anchored (h.anchored up)
  alive there := (i.alive (there.mono h.grows.count)).trans (h.alive there)
  aliases there := (i.aliases (there.mono h.grows.count)).trans (h.aliases there)

theorem parent_eq (h : w.Agrees D w₁) (there : s.In w.count) :
    (w₁.scope s).parent = (w.scope s).parent := (h.grows.scope there).parent

/-- Scopes of before see what they saw. -/
theorem alias?_eq (h : w.Agrees D w₁) (sound : Sound D w) (n : String) {s : ScopeId}
    (there : s.In w.count) : w₁.alias? s n = w.alias? s n := by
  rw [World.alias?_eq sound, World.alias?_eq h.sound, h.aliases there, parent?, parent?,
    h.parent_eq there]
  cases link : (w.scope s).parent with
  | none => rfl
  | some p =>
    have newer : p.index < s.index := (sound.scope s).older p link
    have old : p.In w.count := Nat.lt_trans newer there
    have up := alias?_eq h sound n old
    simp only [Option.bind_some, upgrade, h.alive old]
    split
    · exact congrArg (_ <|> ·) up
    · rfl
termination_by s.index

end Agrees

/-- What a world upholds it agrees with. -/
theorem Upholds.agrees (h : w.Upholds w₁) (named : w.WellNamed) (sound : Sound D w₁)
    (grows : w.Grows w₁) (names : w.Names w₁) : w.Agrees D w₁ where
  sound := sound
  named := names.wellNamed named
  grows := grows
  pool := names.pools ⟨0⟩
  anchored := h.anchored
  alive := h.alive_eq
  aliases := h.aliases

/-- A cell that is not gone may be held as well. -/
theorem Upholds.agrees_hold (h : w.Upholds w₁) (named : w.WellNamed) (sound : Sound D w₁)
    (grows : w.Grows w₁) (names : w.Names w₁) {c : Cell} (there : c.In w₁.count)
    (found : ¬ w.Gone c) : w.Agrees D (w₁.hold [c]) := by
  have upholds : w.Upholds (w₁.hold [c]) := h.hold fun d hd =>
    List.mem_singleton.mp hd ▸ ⟨there, found⟩
  exact upholds.agrees named (SoundAt.hold (fun d hd => List.mem_singleton.mp hd ▸ there) sound)
    (grows.trans (w₁.grows_setHeld _)) (names.setHeld w.held _)

namespace Agrees

variable (sound : Sound D w) (named : w.WellNamed)

include sound named

/-- Types are added. -/
theorem setPool {pool : TypePool} (more : (w.poolOf s).Grows pool) :
    w.Agrees D (w.setPool s pool) :=
  ((Upholds.refl sound.wellFormed.toClosed).aside (.setTypeContext w _ _)).agrees named
    (sound.setPool s pool) (w.grows_setPool more)
    (.keeps ⟨rfl, rfl, rfl, w.pools_setPool more⟩)

theorem bindType (s : ScopeId) (T : Option TypeExpr) : w.Agrees D (w.bindType s T).2 :=
  setPool sound named (grows_bindOptional _ T _)

theorem refl : w.Agrees D w :=
  (Upholds.refl sound.wellFormed.toClosed).agrees named sound (.refl w) (.refl w)

/-- A cell that is alive is held. -/
theorem hold {c : Cell} (there : c.In w.count) (alive : w.alive c = true) :
    w.Agrees D (w.hold [c]) :=
  (Upholds.refl sound.wellFormed.toClosed).agrees_hold named sound (.refl w) (.refl w) there
    (not_gone_of_alive alive)

/-- The scope of a function is made. -/
theorem functionDefScope (there : s.In w.count) (alive : w.alive s.cell = true)
    (d : FunctionDecl) : w.Agrees D (w.functionDefScope s d).2 := by
  obtain ⟨sound₁, grows⟩ := (steps_functionDefScope sound there d).1.kept sound there
  exact (sound.upholds_functionDefScope there alive d).agrees named sound₁ grows
    (w.names_functionDefScope s d)

/-- A function is defined. -/
theorem defineFunction (there : s.In w.count) (alive : w.alive s.cell = true) {d : FunctionDecl}
    (marks : D.Admits d.marks) : w.Agrees D (w.defineFunction s d) := by
  obtain ⟨sound₁, grows⟩ := (steps_defineFunction sound there marks).kept sound there
  exact (sound.upholds_defineFunction there alive d).agrees named sound₁ grows
    (naming.done_defineFunction w s d)

/-- A method is defined. -/
theorem defineMethod {k : ClassId} (there : k.In w.count)
    (body : (w.classOf k).captured.isSome = true) {d : FunctionDecl} (marks : D.Admits d.marks) :
    w.Agrees D (w.defineMethod k d) := by
  obtain ⟨sound₁, grows⟩ :=
    (steps_defineMethod sound there body marks).kept sound (sound.classScope there)
  exact (sound.upholds_defineMethod k d).agrees named sound₁ grows (naming.done_defineMethod w k d)

/-- A call is entered. -/
theorem enter {caller parent x : ScopeId} {kind : ScopeKind} {label : String}
    (there : parent.In w.count) (activation : kind.isActivation = true) (loud : kind.isSilent = false)
    (run : (Action.enter caller parent kind label).runIn w = (.ok x, w₁)) : w.Agrees D w₁ := by
  obtain ⟨sound₁, grows⟩ := (entered_of_enter sound there activation run).later.kept sound
  have names := w.names_enter caller parent loud label
  rw [run] at names
  exact ((Upholds.refl sound.wellFormed.toClosed).enter run).agrees named sound₁ grows names.1

end Agrees

/-! ## Calls -/

theorem aliases_setScope (w : World) {t : ScopeId} {x : Scope}
    (same : x.aliases = (w.scope t).aliases) (s : ScopeId) :
    ((w.setScope t x).scope s).aliases = (w.scope s).aliases := by
  rw [scope_setScope]
  split
  · rename_i e
    rw [e.1, same]
  · rfl

theorem aliases_addChild (w : World) (s child t : ScopeId) :
    ((w.addChild s child).scope t).aliases = (w.scope t).aliases := by
  have owned := w.aliases_setScope (x := { w.scope child with owner := some s }) (by rfl) t
  exact (aliases_setScope _ (by rfl) t).trans owned

/-- The scope of a call is entered without aliases. -/
theorem aliases_enter {caller parent x : ScopeId} {kind : ScopeKind} {label : String}
    (run : (Action.enter caller parent kind label).runIn w = (.ok x, w₁)) :
    (w₁.scope x).aliases = .empty := by
  have fresh : ((w.makeCallScope parent kind label).2.scope
      (w.makeCallScope parent kind label).1).aliases = .empty :=
    congrArg Scope.aliases (w.scope_derive parent kind label (some parent))
  rw [Action.enter, runIn_change_bind] at run
  generalize w.makeCallScope parent kind label = m at fresh run
  rw [runIn_modify_bind, Action.appendChild, bind_assoc, runIn_look_bind] at run
  by_cases ring : ((m.2.setCaller m.1 caller).ownerChain caller).contains m.1 = true
  · rw [if_pos ring] at run
    cases run
  · rw [if_neg ring] at run
    obtain ⟨rfl, rfl⟩ : m.1 = x ∧ (m.2.setCaller m.1 caller).addChild caller m.1 = w₁ := by
      have both := Prod.mk.inj run
      exact ⟨Except.ok.inj both.1, both.2⟩
    rw [aliases_addChild]
    exact (m.2.aliases_setScope (by rfl) m.1).trans fresh

/-- The scope of a call sees what the scope above it sees. -/
theorem alias?_enter (sound : Sound D w) (named : w.WellNamed) {caller parent x : ScopeId}
    {kind : ScopeKind} {label : String} (there : parent.In w.count)
    (alive : w.alive parent.cell = true) (activation : kind.isActivation = true)
    (loud : kind.isSilent = false)
    (run : (Action.enter caller parent kind label).runIn w = (.ok x, w₁)) (n : String) :
    w₁.alias? x n = w.alias? parent n := by
  have agrees := Agrees.enter sound named there activation loud run
  have entered := entered_of_enter sound there activation run
  rw [alias?_of_parent agrees.sound entered.parent ((agrees.alive there).trans alive)
    (aliases_enter run ▸ rfl), agrees.alias?_eq sound n there]

/-! ## Types that are bound again -/

/-- The names in a written type, where one is written. -/
def annotationNames : Option TypeExpr → List String
  | none => []
  | some T => T.names

/-- A written type is bound to the same id wherever its names stand for the same. -/
theorem WellNamed.bindType_again (named : w.WellNamed) (named₁ : w₁.WellNamed) {x : ScopeId} :
    ∀ {T : Option TypeExpr}, (w.bindType s T).2.pool.Grows w₁.pool →
      (∀ n ∈ annotationNames T, w₁.alias? x n = w.alias? s n) →
      (w₁.bindType x T).1 = (w.bindType s T).1
  | none, _, _ => rfl
  | some T, grown, agree => by
    rw [named.bindType_eq, named.pool_setPool] at grown
    rw [named.bindType_eq, named₁.bindType_eq,
      T.bind_again named.top (fun _ _ => named.alias_usable) agree grown]

/-- A procedure has the signatures that a scope gives to the types of a declaration. -/
structure Reads (w : World) (x : ScopeId) (d : FunctionDecl) (p : Procedure) : Prop where
  parameters : p.parameters.map ParameterSpec.signature =
    d.parameters.map fun q => (w.bindType x q.type).1
  returns : p.returns = (w.bindType x d.returns).1

end World

/-- The names in the types of a declaration. -/
def FunctionDecl.typeNames (d : FunctionDecl) : List String :=
  d.parameters.flatMap (fun q => World.annotationNames q.type) ++ World.annotationNames d.returns

namespace World

theorem Agrees.bindParameters (s : ScopeId) : ∀ (ps : List Parameter) {w₁ : World},
    w.Agrees D w₁ → w.Agrees D (mapState (bindParameter s) ps w₁).2
  | [], _, h => h
  | q :: rest, _, h => bindParameters s rest (h.trans (.bindType h.sound h.named s q.type))

/-- The parameters of a list are bound as they would be bound again. -/
theorem Agrees.signatures_again (sound : Sound D w) (there : s.In w.count) (named₂ : w₂.WellNamed)
    {x : ScopeId} : ∀ (ps : List Parameter) {w₁ : World}, w.Agrees D w₁ →
      (mapState (bindParameter s) ps w₁).2.pool.Grows w₂.pool →
      (∀ q ∈ ps, ∀ n ∈ annotationNames q.type, w₂.alias? x n = w.alias? s n) →
      (mapState (bindParameter s) ps w₁).1.map ParameterSpec.signature =
        ps.map fun q => (w₂.bindType x q.type).1
  | [], _, _, _, _ => rfl
  | q :: rest, w₁, h, grown, agree => by
    have next := h.trans (.bindType h.sound h.named s q.type)
    have others : Names (w₁.bindType s q.type).2
        (mapState (bindParameter s) rest (w₁.bindType s q.type).2).2 :=
      within_bindParameters s rest _
    have first := h.named.bindType_again named₂ (s := s) (x := x) (T := q.type)
      ((others.pools ⟨0⟩).trans grown) fun n hn =>
        (agree q List.mem_cons_self n hn).trans (h.alias?_eq sound n there).symm
    exact congrArg₂ List.cons first.symm (signatures_again sound there named₂ rest next grown
      fun q' hq' => agree q' (List.mem_cons_of_mem _ hq'))

/-- A procedure is bound as it would be bound again. -/
theorem Agrees.reads (h : w.Agrees D w₁) (sound : Sound D w) (there : s.In w.count)
    (named₂ : w₂.WellNamed) {x : ScopeId} {d : FunctionDecl} {body : Body}
    (grown : (bindProcedure s d.name d.parameters d.returns body w₁).2.pool.Grows w₂.pool)
    (agree : ∀ n ∈ d.typeNames, w₂.alias? x n = w.alias? s n) :
    w₂.Reads x d (bindProcedure s d.name d.parameters d.returns body w₁).1 := by
  have more : Names (mapState (bindParameter s) d.parameters w₁).2
      (bindProcedure s d.name d.parameters d.returns body w₁).2 := within_bindType _ s d.returns
  have bound := h.bindParameters s d.parameters
  constructor
  · refine h.signatures_again sound there named₂ d.parameters ((more.pools ⟨0⟩).trans grown)
      fun q hq n hn => agree n (List.mem_append_left _ (List.mem_flatMap.mpr ⟨q, hq, hn⟩))
  · refine (bound.named.bindType_again named₂ grown fun n hn => ?_).symm
    exact (agree n (List.mem_append_right _ hn)).trans (bound.alias?_eq sound n there).symm

end World

end ScopeLang
