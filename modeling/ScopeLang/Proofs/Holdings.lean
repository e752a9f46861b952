/-
# How cells are held

What is held keeps other cells alive, and a link to a parent is followed only while the
parent is alive.  That is the only way in which it matters what is held: neither the
order in which cells are held nor how often one is has an effect.  `World.Reheld`
relates worlds that differ in nothing else.  A reading that is `Blind` to the difference
yields the same in both, and a change does the same and leads to two such worlds again.
-/
import ScopeLang.Proofs.Within

namespace ScopeLang

variable {α β γ : Type}

/-- A world in which the same cells are held, in another order or another number of times. -/
def World.Reheld (w w' : World) : Prop :=
  ∃ cells : List Cell, (∀ c, c ∈ cells ↔ c ∈ w.held) ∧ w' = { w with held := cells }

namespace World

variable {w w' w₁ w₂ : World}

namespace Reheld

theorem refl (w : World) : w.Reheld w := ⟨w.held, fun _ => Iff.rfl, rfl⟩

theorem mem_iff (h : w.Reheld w') (c : Cell) : c ∈ w'.held ↔ c ∈ w.held := by
  obtain ⟨cells, same, rfl⟩ := h
  exact same c

/-- Other lists of the same cells may be held in both. -/
theorem setHeld (h : w.Reheld w') {cells cells' : List Cell}
    (same : ∀ c, c ∈ cells' ↔ c ∈ cells) :
    ({ w with held := cells } : World).Reheld { w' with held := cells' } := by
  obtain ⟨_, _, rfl⟩ := h
  exact ⟨cells', same, rfl⟩

theorem hold (h : w.Reheld w') (cells : List Cell) : (w.hold cells).Reheld (w'.hold cells) :=
  h.setHeld fun c => by rw [List.mem_append, List.mem_append, h.mem_iff]

end Reheld

/-- A reading that pays no attention to how cells are held. -/
def Blind (read : World → α) : Prop := ∀ ⦃w w' : World⦄, w.Reheld w' → read w' = read w

/-- A reading that does not look at what is held. -/
theorem Blind.plain {read : World → α}
    (h : ∀ (w : World) (cells : List Cell), read { w with held := cells } = read w) :
    Blind read := by
  rintro w _ ⟨cells, -, rfl⟩
  exact h w cells

/-- A change that pays no attention to how cells are held. -/
def BlindChange (change : World → α × World) : Prop :=
  ∀ ⦃w w' : World⦄, w.Reheld w' →
    (change w').1 = (change w).1 ∧ (change w).2.Reheld (change w').2

namespace BlindChange

variable {f : World → α × World} {g : World → β × World}

/-- A reading that yields a change. -/
theorem of_reading {read : World → γ} (blind : Blind read) {change : γ → World → α × World}
    (each : ∀ x, BlindChange (change x)) : BlindChange fun w => change (read w) w := by
  intro w w' h
  show (change (read w') w').1 = (change (read w) w).1 ∧
    (change (read w) w).2.Reheld (change (read w') w').2
  rw [blind h]
  exact each (read w) h

/-- One change after the other. -/
theorem seq (first : BlindChange f) {next : α → World → β × World}
    (each : ∀ x, BlindChange (next x)) : BlindChange fun w => next (f w).1 (f w).2 := by
  intro w w' h
  obtain ⟨same, after⟩ := first h
  show (next (f w').1 (f w').2).1 = (next (f w).1 (f w).2).1 ∧
    (next (f w).1 (f w).2).2.Reheld (next (f w').1 (f w').2).2
  rw [same]
  exact each (f w).1 after

/-- Nothing is done. -/
theorem skip (x : α) : BlindChange fun w => (x, w) := fun _ _ h => ⟨rfl, h⟩

end BlindChange

/-! ## What is alive -/

theorem blind_aliveWithin (n : Nat) (c : Cell) : Blind fun w => w.aliveWithin n c := by
  intro w w' h
  obtain ⟨cells, same, rfl⟩ := h
  show aliveWithin { w with held := cells } n c = w.aliveWithin n c
  induction n generalizing c with
  | zero => rfl
  | succ n ih =>
    have held : ∀ p : Cell → Bool, cells.any p = w.held.any p := by
      intro p
      rw [Bool.eq_iff_iff, List.any_eq_true, List.any_eq_true]
      exact exists_congr fun c => and_congr_left fun _ => same c
    have mem : cells.contains c = w.held.contains c := by
      rw [Bool.eq_iff_iff, List.contains_iff_mem, List.contains_iff_mem, same]
    have owners : (fun o => (({ w with held := cells } : World).owned o).contains c &&
        aliveWithin { w with held := cells } n o) =
          fun o => (w.owned o).contains c && w.aliveWithin n o :=
      funext fun o => congrArg ((w.owned o).contains c && ·) (ih o)
    rw [aliveWithin, aliveWithin, owners, anyOwner, anyOwner]
    show (cells.contains c || (cells.any _ || _ || _ || _ || _ || _ || _ || _ || _)) = _
    rw [mem, held]

namespace Reheld

variable (h : w.Reheld w')

include h

theorem scope_eq (s : ScopeId) : w'.scope s = w.scope s := by
  obtain ⟨_, _, rfl⟩ := h
  rfl

theorem size_eq : w'.size = w.size := by
  obtain ⟨_, _, rfl⟩ := h
  rfl

theorem upgrade_eq {k : CellKind} : (w'.upgrade : Handle k → Option (Handle k)) = w.upgrade := by
  funext x
  have alive : w'.alive x.cell = w.alive x.cell := by
    rw [alive, alive, h.size_eq]
    exact blind_aliveWithin _ _ h
  rw [upgrade, upgrade, alive]

/-! ## Links and chains -/

theorem parent?_eq : w'.parent? = w.parent? := by
  funext s
  rw [parent?, parent?, h.scope_eq, h.upgrade_eq]

theorem caller?_eq : w'.caller? = w.caller? := by
  funext s
  rw [caller?, caller?, h.scope_eq, h.upgrade_eq]

theorem owner?_eq : w'.owner? = w.owner? := by
  funext s
  rw [owner?, owner?, h.scope_eq, h.upgrade_eq]

theorem variableParent?_eq : w'.variableParent? = w.variableParent? := by
  funext s
  rw [variableParent?, variableParent?, h.scope_eq, h.parent?_eq]

theorem variableChain_eq (s : ScopeId) : w'.variableChain s = w.variableChain s := by
  rw [variableChain, variableChain, h.variableParent?_eq]

theorem lookupChain_eq : w'.lookupChain = w.lookupChain := by
  funext s
  rw [lookupChain, lookupChain, h.parent?_eq]

theorem ownerChain_eq (s : ScopeId) : w'.ownerChain s = w.ownerChain s := by
  have scopes : w'.scopes = w.scopes := by
    obtain ⟨_, _, rfl⟩ := h
    rfl
  rw [ownerChain, ownerChain, h.owner?_eq, scopes]

theorem searchChains_eq : ∀ (n : Nat) (done queue : List ScopeId),
    w'.searchChains n done queue = w.searchChains n done queue
  | 0, _, _ => rfl
  | _ + 1, _, [] => rfl
  | n + 1, done, s :: queue => by
    rw [searchChains, searchChains, h.lookupChain_eq, h.caller?_eq]
    exact congrArg _ (searchChains_eq n _ _)

theorem searchOrder_eq (s : ScopeId) : w'.searchOrder s = w.searchOrder s := by
  have scopes : w'.scopes = w.scopes := by
    obtain ⟨_, _, rfl⟩ := h
    rfl
  rw [searchOrder, searchOrder, h.searchChains_eq, scopes]

/-! ## Names -/

theorem bindingScope?_eq (s : ScopeId) (name : String) :
    w'.bindingScope? s name = w.bindingScope? s name := by
  rw [bindingScope?, bindingScope?, h.variableChain_eq]
  exact congrArg (List.find? · _)
    (funext fun t => congrArg (·.bindings.contains name) (h.scope_eq t))

theorem binding?_eq (s : ScopeId) (name : String) : w'.binding? s name = w.binding? s name := by
  rw [binding?, binding?, h.variableChain_eq]
  exact congrArg (List.findSome? · _)
    (funext fun t => congrArg (·.bindings.get? name) (h.scope_eq t))

theorem getVariable_eq (s : ScopeId) (name : String) :
    w'.getVariable s name = w.getVariable s name := by
  rw [getVariable, getVariable, h.binding?_eq]

theorem globalRoot?_eq (s : ScopeId) : w'.globalRoot? s = w.globalRoot? s := by
  rw [globalRoot?, globalRoot?, h.scope_eq, h.upgrade_eq]

theorem lookupFunction_eq (s : ScopeId) (name : String) :
    w'.lookupFunction s name = w.lookupFunction s name := by
  simp only [lookupFunction, globalFunctions, h.searchOrder_eq, h.globalRoot?_eq, h.scope_eq]

theorem lookupClass_eq (s : ScopeId) (name : String) :
    w'.lookupClass s name = w.lookupClass s name := by
  simp only [lookupClass, globalClasses, h.searchOrder_eq, h.globalRoot?_eq, h.scope_eq]

theorem alias?_eq (s : ScopeId) : w'.alias? s = w.alias? s := by
  funext name
  simp only [alias?, h.lookupChain_eq, h.scope_eq]

theorem registrationRoot?_eq (s : ScopeId) : w'.registrationRoot? s = w.registrationRoot? s := by
  rw [registrationRoot?, registrationRoot?, h.scope_eq, h.globalRoot?_eq]

theorem classTable_eq (s : ScopeId) : w'.classTable s = w.classTable s := by
  simp only [classTable, globalClasses, h.registrationRoot?_eq, h.scope_eq]

/-! ## Values -/

theorem strictEq_eq : w'.strictEq = w.strictEq := by
  obtain ⟨cells, _, rfl⟩ := h
  have within : ∀ n, strictEqWithin { w with held := cells } n = w.strictEqWithin n := by
    intro n
    induction n with
    | zero => rfl
    | succ n ih =>
      funext a b
      rw [strictEqWithin, strictEqWithin, ih]
      rfl
  funext a b
  exact congrFun₂ (within _) a b

theorem looseEq_eq : w'.looseEq = w.looseEq := by
  have strict := h.strictEq_eq
  obtain ⟨cells, _, rfl⟩ := h
  have within : ∀ n, looseEqWithin { w with held := cells } n = w.looseEqWithin n := by
    intro n
    induction n with
    | zero => rfl
    | succ n ih =>
      funext a b
      rw [looseEqWithin, looseEqWithin, ih, strict]
      rfl
  funext a b
  exact congrFun₂ (within _) a b

theorem text_eq (v : Value) : w'.text v = w.text v := by
  have inner := h.hold v.cells
  have upgrade := inner.upgrade_eq (k := .classObject)
  rw [text, text, h.size_eq]
  obtain ⟨cells, _, e⟩ := inner
  rw [e] at upgrade ⊢
  have callable : ∀ c, callableText { w.hold v.cells with held := cells } c =
      (w.hold v.cells).callableText c := by
    intro c
    cases c with
    | method x =>
      rw [callableText, callableText, upgrade]
      rfl
    | function x => rfl
    | classObject x => rfl
  have within : ∀ n, textWithin { w.hold v.cells with held := cells } n =
      (w.hold v.cells).textWithin n := by
    intro n
    induction n with
    | zero => rfl
    | succ n ih =>
      funext x
      rw [textWithin, textWithin, ih]
      simp only [callable]
      rfl
  exact congrFun (within _) v

end Reheld

/-! ## Changes -/

/-- An update that pays no attention to how cells are held. -/
def BlindUpdate (f : World → World) : Prop := ∀ ⦃w w' : World⦄, w.Reheld w' → (f w).Reheld (f w')

theorem BlindUpdate.change {f : World → World} (h : BlindUpdate f) (x : α) :
    BlindChange fun w => (x, f w) := fun _ _ held => ⟨rfl, h held⟩

/-- What does not look at what is held pays no attention to how. -/
theorem BlindChange.plain {f : World → α × World}
    (commutes : ∀ (w : World) (cells : List Cell),
      f { w with held := cells } = ((f w).1, { (f w).2 with held := cells }))
    (held : ∀ w, (f w).2.held = w.held) : BlindChange f := by
  rintro w _ ⟨cells, same, rfl⟩
  rw [commutes]
  refine ⟨rfl, cells, fun c => ?_, rfl⟩
  rw [held]
  exact same c

theorem BlindUpdate.plain {f : World → World}
    (commutes : ∀ (w : World) (cells : List Cell),
      f { w with held := cells } = { f w with held := cells })
    (held : ∀ w, (f w).held = w.held) : BlindUpdate f := by
  rintro w _ ⟨cells, same, rfl⟩
  rw [commutes w cells]
  refine ⟨cells, fun c => ?_, rfl⟩
  rw [held]
  exact same c

theorem blind_setScope (s : ScopeId) (f : Scope → Scope) :
    BlindUpdate fun w => w.setScope s (f (w.scope s)) := .plain (fun _ _ => rfl) fun _ => rfl

theorem blind_setVariable (s : ScopeId) (name : String) (b : Binding) :
    BlindUpdate fun w => w.setVariable s name b :=
  blind_setScope s fun x => { x with bindings := x.bindings.insert name b }

/-! ### New cells -/

theorem blind_newScope (x : Scope) : BlindChange fun w => w.newScope x :=
  .plain (fun _ _ => rfl) fun _ => rfl

theorem blind_newItems (xs : List Value) : BlindChange fun w => w.newItems xs :=
  .plain (fun _ _ => rfl) fun _ => rfl

theorem blind_newEntries (es : List (Value × Value)) : BlindChange fun w => w.newEntries es :=
  .plain (fun _ _ => rfl) fun _ => rfl

theorem blind_newElements (xs : List Value) : BlindChange fun w => w.newElements xs :=
  .plain (fun _ _ => rfl) fun _ => rfl

theorem blind_newInstance (i : Instance) : BlindChange fun w => w.newInstance i :=
  .plain (fun _ _ => rfl) fun _ => rfl

theorem blind_newFunction (f : Function) : BlindChange fun w => w.newFunction f :=
  .plain (fun _ _ => rfl) fun _ => rfl

theorem blind_newMethod (m : Method) : BlindChange fun w => w.newMethod m :=
  .plain (fun _ _ => rfl) fun _ => rfl

theorem blind_newClass (c : Class) : BlindChange fun w => w.newClass c :=
  .plain (fun _ _ => rfl) fun _ => rfl

/-! ### Copies -/

theorem blind_mapState {f : α → World → β × World} (each : ∀ a, BlindChange (f a)) :
    ∀ items : List α, BlindChange (mapState f items)
  | [] => .skip []
  | a :: rest => .seq (each a) fun b => .seq (blind_mapState each rest) fun bs => .skip (b :: bs)

theorem blind_mapBindings {f : Value → World → Value × World} (each : ∀ v, BlindChange (f v))
    (t : Table Binding) : BlindChange (mapBindings f t) :=
  .seq (blind_mapState (fun e : String × Binding => .seq (each e.2.value) fun value =>
    .skip ((e.1, { e.2 with value }) : String × Binding)) t.entries)
      fun entries => .skip (⟨entries⟩ : Table Binding)

theorem blind_duplicateBy {copy : Value → World → Value × World}
    (each : ∀ v, BlindChange (copy v)) (v : Value) : BlindChange (duplicateBy copy v) := by
  unfold duplicateBy
  split
  · exact .skip v
  · exact each v

theorem blind_duplicateScopeBy {copy : Value → World → Value × World}
    (each : ∀ v, BlindChange (copy v)) (s : ScopeId) : BlindChange (duplicateScopeBy copy s) := by
  have source : Blind fun w => w.scope s := fun _ _ h => h.scope_eq s
  exact .of_reading source fun scope =>
    .seq (blind_mapBindings (blind_duplicateBy each) scope.bindings) fun bindings =>
      blind_newScope (scope.twin s bindings)

theorem blind_copyWithin : ∀ (n : Nat) (v : Value), BlindChange (copyWithin n v)
  | 0, v => .skip v
  | n + 1, ⟨d, a⟩ => by
    have ih : ∀ v, BlindChange (copyWithin n v) := blind_copyWithin n
    have items : ∀ h, Blind fun w => w.items h := fun h => .plain fun _ _ => rfl
    cases d with
    | list h =>
      exact .of_reading (items h) fun xs => .seq (blind_mapState ih xs) fun ys =>
        .seq (blind_newItems ys) fun h => .skip (⟨.list h, a⟩ : Value)
    | array h =>
      exact .of_reading (items h) fun xs => .seq (blind_mapState ih xs) fun ys =>
        .seq (blind_newItems ys) fun h => .skip (⟨.array h, a⟩ : Value)
    | dict h =>
      have entries : Blind fun w => w.entries h := .plain fun _ _ => rfl
      have entry : ∀ e : Value × Value, BlindChange (copyEntry (copyWithin n) e) := fun e =>
        .seq (ih e.1) fun key => .seq (ih e.2) fun value => .skip (key, value)
      exact .of_reading entries fun es => .seq (blind_mapState entry es) fun es =>
        .seq (blind_newEntries es) fun h => .skip (⟨.dict h, a⟩ : Value)
    | set h =>
      have elements : Blind fun w => w.elements h := .plain fun _ _ => rfl
      exact .of_reading elements fun xs => .seq (blind_mapState ih xs) fun ys =>
        .seq (blind_newElements ys) fun h => .skip (⟨.set h, a⟩ : Value)
    | object h =>
      have inst : Blind fun w => w.inst h := .plain fun _ _ => rfl
      exact .of_reading inst fun i => .seq (blind_duplicateScopeBy ih i.scope) fun scope =>
        .seq (blind_newInstance { i with scope }) fun h => .skip (⟨.object h, a⟩ : Value)
    | _ => exact .skip _

theorem blind_deepCopy (v : Value) : BlindChange fun w => w.deepCopy v := by
  have size : Blind World.size := fun _ _ h => h.size_eq
  exact .of_reading size fun n => blind_copyWithin (n + 1) v

theorem blind_duplicate (v : Value) : BlindChange fun w => w.duplicate v :=
  blind_duplicateBy blind_deepCopy v

theorem blind_prepare (b : Binding) (v : Value) : BlindChange (b.prepare v) := by
  unfold Binding.prepare
  split
  · exact .skip _
  · exact .seq (blind_duplicate v) fun v => .skip { v with attrs := b.stamp v.attrs }

/-! ### Types -/

theorem blind_withPool (s : ScopeId) {f : World → TypePool → α × TypePool} (blind : Blind f) :
    BlindChange fun w => w.withPool s (f w) := by
  intro w w' h
  show (w'.withPool s (f w')).1 = (w.withPool s (f w)).1 ∧
    (w.withPool s (f w)).2.Reheld (w'.withPool s (f w')).2
  rw [blind h]
  obtain ⟨cells, same, rfl⟩ := h
  exact ⟨rfl, cells, same, rfl⟩

theorem blind_bindType (s : ScopeId) (t : Option TypeExpr) : BlindChange fun w => w.bindType s t :=
  blind_withPool s (f := fun w => bindOptional (w.alias? s) t) fun _ _ h =>
    congrArg (bindOptional · t) (h.alias?_eq s)

theorem blind_inferType (s : ScopeId) (v : Value) : BlindChange fun w => w.inferType s v :=
  .plain (fun _ _ => rfl) fun _ => rfl

theorem blind_bindAlias (s : ScopeId) (name : String) (t : TypeExpr) :
    BlindChange fun w => w.bindAlias s name t :=
  .seq (blind_bindType s (some t)) fun id =>
    (blind_setScope s fun x => { x with aliases := x.aliases.insert name id }).change id

theorem blind_bindParameter (s : ScopeId) (p : Parameter) : BlindChange (bindParameter s p) :=
  .seq (blind_bindType s p.type) fun signature => .skip
    (⟨p.name, signature, (p.type.map fun t : TypeExpr => !t.isAny).getD false, p.default,
        p.variadic, p.flags⟩ :
      ParameterSpec)

theorem blind_bindProcedure (s : ScopeId) (name : String) (ps : List Parameter)
    (returns : Option TypeExpr) (body : Body) :
    BlindChange (bindProcedure s name ps returns body) :=
  .seq (blind_mapState (blind_bindParameter s) ps) fun ps =>
    .seq (blind_bindType s returns) fun returns => .skip (⟨name, ps, returns, body⟩ : Procedure)

/-! ### Scopes -/

theorem blind_captureVariables (s : ScopeId) :
    ∀ names, BlindChange fun w => w.captureVariables s names
  | [] => .skip (.empty : Table Binding)
  | name :: rest => by
    intro w w' h
    obtain ⟨same, after⟩ := blind_captureVariables s rest h
    have found := after.binding?_eq s name
    simp only [captureVariables, found]
    split
    · exact ⟨same, after⟩
    · rename_i b _
      obtain ⟨copied, after⟩ := blind_deepCopy b.value after
      have copied : (((captureVariables w' s rest).2).deepCopy b.value).1 = _ := copied
      rw [same, copied]
      exact ⟨rfl, after⟩

theorem blind_derive (s : ScopeId) (kind : ScopeKind) (label : String) (parent : Option ScopeId) :
    BlindChange fun w => w.derive s kind label parent := .plain (fun _ _ => rfl) fun _ => rfl

theorem blind_detachAs (s : ScopeId) (kind : ScopeKind) (names : List String) (label : String) :
    BlindChange fun w => w.detachAs s kind names label :=
  .seq (blind_derive s kind label (some s)) fun d => .seq (blind_captureVariables s names)
    fun bindings => (blind_setScope d fun x => { x with bindings }).change d

theorem blind_isolate (s : ScopeId) (names : List String) (label : String) :
    BlindChange fun w => w.isolate s names label :=
  .seq (blind_derive s .isolated label none) fun d => .seq (blind_captureVariables s names)
    fun bindings => .plain (f := fun w => (d, w.setScope d
      { w.scope d with
        bindings, functions := (w.scope s).functions, classes := (w.scope s).classes,
        aliases := (w.scope s).aliases })) (fun _ _ => rfl) fun _ => rfl

theorem blind_functionDefScope (s : ScopeId) (f : FunctionDecl) :
    BlindChange fun w => w.functionDefScope s f := by
  unfold functionDefScope
  split
  · exact blind_isolate s [] f.name
  · exact blind_detachAs s .detached f.freeNames f.name

theorem blind_declareType (s : ScopeId) (name : String) :
    BlindChange fun w => w.declareType s name := .plain (fun _ _ => rfl) fun _ => rfl

theorem blind_openClass (s : ScopeId) (d : ClassDecl) (accessor : String) :
    BlindChange fun w => w.openClass s d accessor :=
  .seq (blind_detachAs s .classDef d.freeNames d.name) fun captured =>
    .seq (blind_derive captured .classScope d.name (some captured)) fun scope =>
      .seq (blind_declareType s d.name) fun type =>
        blind_newClass { name := d.name, type, accessor, scope, captured := some captured }

theorem blind_makeInstance (c : ClassId) : BlindChange fun w => w.makeInstance c := by
  have source : Blind fun w => (w.classOf c, w.scope (w.classOf c).scope) :=
    .plain fun _ _ => rfl
  have home : BlindChange fun w => w.instanceScope c :=
    .of_reading source fun x => .seq (blind_derive x.1.scope .members x.1.name (some x.1.scope))
      fun s => .seq (blind_mapBindings blind_duplicate
        (x.2.bindings.filter fun b => !b.flags.isStatic)) fun bindings =>
          (blind_setScope s fun y => { y with bindings, functions := x.2.functions }).change s
  exact .seq home fun scope => blind_newInstance { classId := c, scope, native := none }

theorem blind_addChild (s child : ScopeId) : BlindUpdate fun w => w.addChild s child :=
  .plain (fun _ _ => rfl) fun _ => rfl

theorem blind_createChild (s : ScopeId) (kind : ScopeKind) (label : String) :
    BlindChange fun w => w.createChild s kind label :=
  .seq (blind_derive s kind label (some s)) fun child => (blind_addChild s child).change child

theorem blind_removeChild (s child : ScopeId) : BlindUpdate fun w => w.removeChild s child := by
  rintro w _ ⟨cells, same, rfl⟩
  show (w.removeChild s child).Reheld (removeChild { w with held := cells } s child)
  have scope : World.scope { w with held := cells } = w.scope := rfl
  simp only [removeChild, scope]
  split
  · exact ⟨cells, same, rfl⟩
  · exact ⟨cells, same, rfl⟩

/-! ### Tables -/

theorem blind_registerFunction (s : ScopeId) (name : String) (o : Overload) :
    BlindUpdate fun w => w.registerFunction s name o := by
  intro w w' h
  have root := h.registrationRoot?_eq s
  obtain ⟨cells, same, rfl⟩ := h
  simp only [registerFunction, root]
  split
  · exact ⟨cells, same, rfl⟩
  · exact ⟨cells, same, rfl⟩

theorem blind_setClassTable (s : ScopeId) (classes : ClassTable) :
    BlindUpdate fun w => w.setClassTable s classes := by
  intro w w' h
  have root := h.registrationRoot?_eq s
  obtain ⟨cells, same, rfl⟩ := h
  simp only [setClassTable, root]
  split
  · exact ⟨cells, same, rfl⟩
  · exact ⟨cells, same, rfl⟩

theorem blind_defineFunction (s : ScopeId) (f : FunctionDecl) :
    BlindUpdate fun w => w.defineFunction s f := by
  have change : BlindChange fun w => ((), w.defineFunction s f) :=
    .seq (blind_functionDefScope s f) fun captured =>
      .seq (blind_bindProcedure s f.name f.parameters f.returns (.user f.body)) fun procedure =>
        .seq (blind_newFunction ⟨procedure, some captured⟩) fun h =>
          (blind_registerFunction s f.name ⟨.function h, f.kind.role, none⟩).change ()
  exact fun _ _ held => (change held).2

theorem blind_defineMethod (c : ClassId) (f : FunctionDecl) :
    BlindUpdate fun w => w.defineMethod c f := by
  have info : Blind fun w => w.classOf c := .plain fun _ _ => rfl
  have change : BlindChange fun w => ((), w.defineMethod c f) :=
    .of_reading info fun info =>
      .seq (blind_bindProcedure info.scope f.name f.parameters f.returns
        (.user (stripBlock info.accessor f.body))) fun procedure =>
          .seq (blind_newMethod ⟨procedure, c⟩) fun h =>
            (blind_registerFunction info.scope f.name ⟨.method h, .method, _⟩).change ()
  exact fun _ _ held => (change held).2

end World

end ScopeLang
