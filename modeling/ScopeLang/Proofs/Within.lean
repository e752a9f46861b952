/-
# Actions that stay within a relation

What an action does to the world is often asked about one part of it that most
actions leave alone.  The part is given as a relation between worlds, and an
action is `Within` it if it leads only to worlds that are related to the one
before.  A `Calm` relation is a preorder that pays no attention to containers,
to sets of overloads and to types that are added, and that lets values be
copied.  Operators and intrinsics do nothing else, so they are within every such
relation; what writes to a variable or a table is, where the relation lets it.
A `Tame` relation lets scopes be copied, and a `Mild` one also lets them be made and be
filled with variables, functions and classes.
-/
import ScopeLang.Host.Kit
import ScopeLang.Proofs.Leads

namespace ScopeLang

variable {α β : Type}

/-- Only containers and sets of overloads are changed, and types are added. -/
structure World.OnlyContents (w w' : World) : Prop where
  scopes : w'.scopes = w.scopes
  instances : w'.instances = w.instances
  functions : w'.functions = w.functions
  methods : w'.methods = w.methods
  classes : w'.classes = w.classes
  held : w'.held = w.held
  pools : ∀ h, (w.typeContext h).pool.Grows (w'.typeContext h).pool

theorem World.OnlyContents.kept {w w' : World} (scopes : w'.scopes = w.scopes)
    (instances : w'.instances = w.instances) (functions : w'.functions = w.functions)
    (methods : w'.methods = w.methods) (classes : w'.classes = w.classes)
    (held : w'.held = w.held) (types : w'.types = w.types) : w.OnlyContents w' :=
  ⟨scopes, instances, functions, methods, classes, held, fun h => by
    rw [typeContext, typeContext, types]
    exact .refl _⟩

/-- A preorder of worlds that pays no attention to containers, to sets of overloads and to types
that are added, and lets values be copied. -/
class Calm (R : World → World → Prop) : Prop where
  refl : ∀ w, R w w
  trans : ∀ {w w₁ w₂}, R w w₁ → R w₁ w₂ → R w w₂
  contents : ∀ {w w₁ : World}, w.OnlyContents w₁ → R w w₁
  copy : ∀ n v w, R w (World.copyWithin n v w).2

/-- An action that leads only to worlds in relation to the one before. -/
def Action.Within (R : World → World → Prop) (a : Action α) : Prop := ∀ w, R w (a.runIn w).2

variable {R : World → World → Prop}

namespace Action.Within

theorem change {f : World → α × World} (h : ∀ w, R w (f w).2) : Within R (Action.change f) := h

theorem update {f : World → World} (h : ∀ w, R w (f w)) :
    Within R (Action.change fun w => ((), f w)) := h

theorem modify {f : World → World} (h : ∀ w, R w (f w)) : Within R (modify f : Action Unit) := h

variable [Calm R]

theorem pure (x : α) : Within R (Pure.pure x : Action α) := fun w => Calm.refl w

theorem throw (kind : ErrorKind) : Within R (throw kind : Action α) := fun w => Calm.refl w

theorem look (f : World → α) : Within R (Action.look f) := fun w => Calm.refl w

theorem consult (f : World → Except ErrorKind α) : Within R (Action.consult f) := by
  intro w
  rw [Action.runIn_consult]
  cases f w with
  | ok x => exact Calm.refl w
  | error kind => exact Calm.refl w

theorem contents {f : World → α × World} (h : ∀ w : World, w.OnlyContents (f w).2) :
    Within R (Action.change f) := fun w => Calm.contents (h w)

theorem bind {a : Action α} {k : α → Action β} (first : Within R a) (next : ∀ x, Within R (k x)) :
    Within R (a >>= k) := by
  intro w
  have step := first w
  have run : (a >>= k).runIn w = ExceptT.bindCont k (a.runIn w).1 (a.runIn w).2 := rfl
  rw [run]
  generalize a.runIn w = made at step ⊢
  obtain ⟨result, w'⟩ := made
  cases result with
  | ok x => exact Calm.trans step (next x w')
  | error kind => exact step

end Action.Within

/-! ## Values and variables -/

section Actions

variable [Calm R]

namespace World

theorem within_duplicate (w : World) (v : Value) : R w (w.duplicate v).2 := by
  simp only [duplicate, duplicateBy]
  split
  · exact Calm.refl w
  · exact Calm.copy _ v w

theorem within_prepare (b : Binding) (v : Value) (w : World) : R w (b.prepare v w).2 := by
  simp only [Binding.prepare]
  split
  · exact Calm.refl w
  · exact w.within_duplicate v

/-- A scope whose pool is replaced by a larger one. -/
theorem pools_setPool (w : World) {s : ScopeId} {pool : TypePool} (more : (w.poolOf s).Grows pool)
    (h : Handle .types) : (w.typeContext h).pool.Grows ((w.setPool s pool).typeContext h).pool := by
  rw [setPool, typeContext_setTypeContext]
  split
  · rename_i same
    rw [same.1]
    exact more
  · exact .refl _

theorem within_withPool (w : World) (s : ScopeId) {f : TypePool → α × TypePool}
    (grows : ∀ p : TypePool, p.Grows (f p).2) : R w (w.withPool s f).2 :=
  Calm.contents ⟨rfl, rfl, rfl, rfl, rfl, rfl, w.pools_setPool (grows (w.poolOf s))⟩

theorem within_bindType (w : World) (s : ScopeId) (t : Option TypeExpr) : R w (w.bindType s t).2 :=
  w.within_withPool s fun p => grows_bindOptional _ t p

theorem within_inferType (w : World) (s : ScopeId) (v : Value) : R w (w.inferType s v).2 :=
  w.within_withPool s fun p => p.grows_bare _

end World

theorem within_bindParameters (s : ScopeId) : ∀ (ps : List Parameter) (w : World),
    R w (mapState (bindParameter s) ps w).2
  | [], w => Calm.refl w
  | p :: rest, w => Calm.trans (w.within_bindType s p.type) (within_bindParameters s rest _)

theorem within_bindProcedure (s : ScopeId) (name : String) (ps : List Parameter)
    (returns : Option TypeExpr) (body : Body) (w : World) :
    R w (bindProcedure s name ps returns body w).2 :=
  Calm.trans (within_bindParameters s ps w) (World.within_bindType _ s returns)

namespace Action

theorem within_newList (items : List Value) : Within R (newList items) :=
  .bind (.contents fun _ => .kept rfl rfl rfl rfl rfl rfl rfl) fun _ => .pure _

theorem within_newArray (items : List Value) : Within R (newArray items) :=
  .bind (.contents fun _ => .kept rfl rfl rfl rfl rfl rfl rfl) fun _ => .pure _

theorem within_newSet (items : List Value) : Within R (newSet items) :=
  .bind (.look _) fun _ =>
    .bind (.contents fun _ => .kept rfl rfl rfl rfl rfl rfl rfl) fun _ => .pure _

theorem within_newDict (entries : List (Value × Value)) : Within R (newDict entries) :=
  .bind (.look _) fun _ =>
    .bind (.contents fun _ => .kept rfl rfl rfl rfl rfl rfl rfl) fun _ => .pure _

theorem within_build (items : List Value) : ∀ kind : SequenceKind, Within R (kind.build items)
  | .list => within_newList items
  | .array => within_newArray items
  | .set => within_newSet items

theorem within_duplicate (v : Value) : Within R (duplicate v) :=
  .change fun w => w.within_duplicate v

theorem within_declareVariable {s : ScopeId} {name : String}
    (write : ∀ (w : World) (b : Binding), R w (w.setVariable s name b)) (b : Binding) :
    Within R (declareVariable s name b) := by
  refine .bind (.look _) fun found => ?_
  have store : Within R (do
      let value ← change (b.prepare b.value)
      modify fun w : World => w.setVariable s name { b with value }) :=
    .bind (.change fun w => World.within_prepare b _ w) fun _ => .modify fun w => write w _
  cases found with
  | true => exact .throw _
  | false => exact store

theorem within_updateLocalVariable {s : ScopeId} {name : String}
    (write : ∀ (w : World) (b : Binding), R w (w.setVariable s name b)) (v : Value) :
    Within R (updateLocalVariable s name v) := by
  refine .bind (.look _) fun found => ?_
  cases found with
  | none => exact .throw _
  | some b =>
    have store : Within R (do
        consult fun w => w.checkType s name b.declared v
        let value ← change (b.prepare v)
        modify fun w : World => w.setVariable s name { b with value }) := by
      refine .bind (.consult _) fun _ => ?_
      exact .bind (.change fun w => World.within_prepare b _ w) fun _ => .modify fun w => write w _
    cases const : b.flags.isConst with
    | true =>
      simp only [const]
      exact .throw _
    | false =>
      simp only [const]
      exact store

theorem within_updateVariable {name : String}
    (write : ∀ (w : World) (t : ScopeId) (b : Binding), R w (w.setVariable t name b))
    (s : ScopeId) (v : Value) : Within R (updateVariable s name v) := by
  refine .bind (.look _) fun found => ?_
  cases found with
  | none => exact .throw _
  | some t => exact within_updateLocalVariable (fun w b => write w t b) v

theorem within_resolveAmong (s : ScopeId) (name : String) (candidates : List Overload)
    (arguments : CallArguments) : Within R (resolveAmong s name candidates arguments) := by
  refine .bind (.change fun w => w.within_withPool s ?_) fun result => ?_
  · exact w.grows_resolveOverload _ _ _ _
  cases result with
  | ok r => exact .pure r
  | error kind => exact .throw kind

theorem within_resolveFunction (s : ScopeId) (name : String) (arguments : CallArguments) :
    Within R (resolveFunction s name arguments) := by
  refine .bind (.look _) fun found => ?_
  cases found with
  | none => exact .throw _
  | some candidates => exact within_resolveAmong s name candidates arguments

theorem within_registerClass {s : ScopeId}
    (write : ∀ (w : World) (classes : ClassTable), R w (w.setClassTable s classes)) (c : ClassId) :
    Within R (registerClass s c) := by
  refine .bind (.look _) fun name => .bind (.look _) fun taken => ?_
  cases taken with
  | true => exact .bind (.throw _) fun _ => .modify fun w => write w _
  | false => exact .modify fun w => write w _

theorem within_binary (op : BinaryOperator) (a b : Value) : Within R (Action.binary op a b) := by
  simp only [Action.binary]
  split
  · exact .bind (.look _) fun items => within_newList items
  · exact .consult _

end Action

theorem Knot.within_readName (name : String) (s : ScopeId) : Action.Within R (readName name s) := by
  have getting : Action.Within R (get : Action World) := .look id
  refine .bind getting fun w => ?_
  split
  · exact .pure _
  · split
    · exact .bind (.contents fun _ => .kept rfl rfl rfl rfl rfl rfl rfl) fun _ => .pure _
    · exact .pure _
    · exact .throw _

theorem Knot.within_assignMember {name : String}
    (write : ∀ (w : World) (t : ScopeId) (b : Binding), R w (w.setVariable t name b))
    (i : InstanceId) (v : Value) : Action.Within R (assignMember i name v) := by
  refine .bind (.look _) fun found => ?_
  cases found with
  | some s => exact Action.within_updateLocalVariable (fun w b => write w s b) v
  | none => exact .throw _

theorem Knot.within_checkArgument (q : ParameterSpec) (s : ScopeId) (v : Value) :
    Action.Within R (checkArgument q s v) := by
  simp only [checkArgument]
  split
  · exact .consult _
  · exact .pure _

theorem Knot.within_result (procedure : Procedure) (s : ScopeId) (o : Outcome) :
    Action.Within R (result procedure s o) := by
  cases o with
  | settled v =>
    refine .bind (.look _) fun admitted => ?_
    cases admitted with
    | true => exact .pure _
    | false => exact .throw _
  | returned v => exact .pure v
  | thrown v => exact .throw _
  | broke => exact .throw _
  | continued => exact .throw _

/-! ## Intrinsics -/

/-- An operation that is within a relation, whatever its arguments. -/
def Intrinsic.Within (R : World → World → Prop) (run : Intrinsic) : Prop :=
  ∀ arguments, Action.Within R (run arguments)

namespace Intrinsic.Within

variable {operation : String}

theorem nullary {run : Action Value} (h : Action.Within R run) :
    Within R (Intrinsic.nullary operation run)
  | [] => h
  | _ :: _ => .throw _

theorem unary {run : Value → Action Value} (h : ∀ v, Action.Within R (run v)) :
    Within R (Intrinsic.unary operation run)
  | [v] => h v
  | [] | _ :: _ :: _ => .throw _

theorem binary {run : Value → Value → Action Value} (h : ∀ v v', Action.Within R (run v v')) :
    Within R (Intrinsic.binary operation run)
  | [v, v'] => h v v'
  | [] | [_] | _ :: _ :: _ :: _ => .throw _

theorem ranged {run : Value → Option Value → Action Value}
    (h : ∀ v o, Action.Within R (run v o)) : Within R (Intrinsic.ranged operation run)
  | [v] => h v none
  | [v, v'] => h v (some v')
  | [] | _ :: _ :: _ :: _ => .throw _

end Intrinsic.Within

section Operations

variable {operation : String} {run : Intrinsic}

theorem within_measure {length : World → Nat} (found : measure? operation length = some run) :
    Intrinsic.Within R run := by
  simp only [measure?] at found
  split at found
  · exact Option.some.inj found ▸ .nullary (.look _)
  · exact Option.some.inj found ▸ .nullary (.look _)
  · exact Option.some.inj found ▸ .nullary (.look _)
  · cases found

theorem within_indexBelow (operation : String) (v : Value) (length limit : Nat) :
    Action.Within R (indexBelow operation v length limit) := by
  simp only [indexBelow]
  split
  · exact .bind (.look _) fun _ => .throw _
  · split
    · exact .pure _
    · exact .throw _

theorem within_sliceBounds (operation : String) (first : Value) (second : Option Value)
    (length : Nat) : Action.Within R (sliceBounds operation first second length) := by
  refine .bind (within_indexBelow _ _ _ _) fun start => ?_
  have ordered : ∀ (stop : Nat) (text : String),
      Action.Within R (if stop < start then throw (invalidArgument operation text)
        else pure (start, stop)) := by
    intro stop text
    split
    · exact .throw _
    · exact .pure _
  cases second with
  | none => exact ordered length _
  | some v => exact .bind (within_indexBelow _ _ _ _) fun stop => ordered stop _

theorem within_stringIntrinsic {text : String}
    (found : stringIntrinsic? text operation = some run) :
    Intrinsic.Within R run := by
  simp only [stringIntrinsic?] at found
  split at found
  · refine Option.some.inj found ▸ .ranged fun first second => ?_
    exact .bind (within_sliceBounds _ _ _ _) fun _ => .pure _
  · refine Option.some.inj found ▸ .ranged fun first second => ?_
    exact .bind (within_sliceBounds _ _ _ _) fun _ => .pure _
  · refine Option.some.inj found ▸ .unary fun v => ?_
    split
    · exact .pure _
    · exact .throw _
  · refine Option.some.inj found ▸ .unary fun v => ?_
    exact .bind (within_indexBelow _ _ _ _) fun _ => .pure _
  · exact within_measure found

theorem within_sequenceIntrinsic {h : Handle .list} {rebuild : List Value → Action Value}
    (rebuilds : ∀ items, Action.Within R (rebuild items))
    (found : sequenceIntrinsic? h rebuild operation = some run) : Intrinsic.Within R run := by
  simp only [sequenceIntrinsic?] at found
  split at found
  · exact Option.some.inj found ▸ .nullary (.contents fun _ => .kept rfl rfl rfl rfl rfl rfl rfl)
  · refine Option.some.inj found ▸ .ranged fun first second => .bind (.look _) fun items => ?_
    exact .bind (within_sliceBounds _ _ _ _) fun bounds => rebuilds _
  · exact Option.some.inj found ▸ .unary fun v => .look _
  · refine Option.some.inj found ▸ .unary fun v => .bind (.look _) fun items => ?_
    exact .bind (within_indexBelow _ _ _ _) fun i => .pure _
  · refine Option.some.inj found ▸ .binary fun first v => .bind (.look _) fun items => ?_
    refine .bind (within_indexBelow _ _ _ _) fun i => ?_
    exact .bind (Action.within_duplicate v) fun v =>
      .contents fun _ => .kept rfl rfl rfl rfl rfl rfl rfl
  · exact within_measure found

theorem within_listIntrinsic {h : Handle .list} (found : listIntrinsic? h operation = some run) :
    Intrinsic.Within R run := by
  simp only [listIntrinsic?] at found
  split at found
  · refine Option.some.inj found ▸ .unary fun v => ?_
    exact .bind (Action.within_duplicate v) fun v =>
      .contents fun _ => .kept rfl rfl rfl rfl rfl rfl rfl
  · refine Option.some.inj found ▸ .nullary (.bind (.look _) fun items => ?_)
    split
    · exact .contents fun _ => .kept rfl rfl rfl rfl rfl rfl rfl
    · exact .throw _
  · refine Option.some.inj found ▸ .binary fun first v => .bind (.look _) fun items => ?_
    refine .bind (within_indexBelow _ _ _ _) fun i => ?_
    exact .bind (Action.within_duplicate v) fun v =>
      .contents fun _ => .kept rfl rfl rfl rfl rfl rfl rfl
  · refine Option.some.inj found ▸ .unary fun v => .bind (.look _) fun items => ?_
    exact .bind (within_indexBelow _ _ _ _) fun i =>
      .contents fun _ => .kept rfl rfl rfl rfl rfl rfl rfl
  · exact within_sequenceIntrinsic Action.within_newList found

theorem within_setIntrinsic {h : Handle .set} (found : setIntrinsic? h operation = some run) :
    Intrinsic.Within R run := by
  simp only [setIntrinsic?] at found
  split at found
  · exact Option.some.inj found ▸ .nullary (.contents fun _ => .kept rfl rfl rfl rfl rfl rfl rfl)
  · exact Option.some.inj found ▸ .unary fun v => .look _
  · refine Option.some.inj found ▸ .unary fun v => ?_
    exact .bind (Action.within_duplicate v) fun v =>
      .contents fun _ => .kept rfl rfl rfl rfl rfl rfl rfl
  · exact Option.some.inj found ▸ .unary fun v =>
      .contents fun _ => .kept rfl rfl rfl rfl rfl rfl rfl
  · exact within_measure found

theorem within_putEntry (h : Handle .dict) (key value : Value) :
    Action.Within R (putEntry h key value) := by
  refine .bind (Action.within_duplicate key) fun key => ?_
  exact .bind (Action.within_duplicate value) fun value =>
    .contents fun _ => .kept rfl rfl rfl rfl rfl rfl rfl

theorem within_dictIntrinsic {h : Handle .dict} (found : dictIntrinsic? h operation = some run) :
    Intrinsic.Within R run := by
  simp only [dictIntrinsic?] at found
  split at found
  · exact Option.some.inj found ▸ .nullary (.contents fun _ => .kept rfl rfl rfl rfl rfl rfl rfl)
  · exact Option.some.inj found ▸ .unary fun v => .look _
  · refine Option.some.inj found ▸ .unary fun key => .bind (.look _) fun value => ?_
    split
    · exact .pure _
    · exact .bind (.look _) fun _ => .throw _
  · exact Option.some.inj found ▸ .binary fun key v => within_putEntry h key v
  · exact Option.some.inj found ▸ .binary fun key v => within_putEntry h key v
  · exact Option.some.inj found ▸ .unary fun key =>
      .contents fun _ => .kept rfl rfl rfl rfl rfl rfl rfl
  · refine Option.some.inj found ▸ .nullary (.bind (.look _) fun keys => ?_)
    exact Action.within_newList keys
  · refine Option.some.inj found ▸ .nullary (.bind (.look _) fun values => ?_)
    exact Action.within_newList values
  · exact within_measure found

theorem within_commonIntrinsic {target : Value}
    (found : commonIntrinsic? target operation = some run) : Intrinsic.Within R run := by
  simp only [commonIntrinsic?] at found
  split at found
  · exact Option.some.inj found ▸
      .nullary (.change fun w => Calm.copy _ target w)
  · exact Option.some.inj found ▸ .nullary (.look _)
  · cases found

/-- Every operation is within a calm relation. -/
theorem within_intrinsic {target : Value} (found : intrinsic? target operation = some run) :
    Intrinsic.Within R run := by
  rw [intrinsic?] at found
  cases common : commonIntrinsic? target operation with
  | some f =>
    rw [common] at found
    exact Option.some.inj found ▸ within_commonIntrinsic common
  | none =>
    rw [common] at found
    obtain ⟨d, a⟩ := target
    cases d with
    | string text => exact within_stringIntrinsic found
    | list h => exact within_listIntrinsic found
    | array h => exact within_sequenceIntrinsic Action.within_newArray found
    | set h => exact within_setIntrinsic found
    | dict h => exact within_dictIntrinsic found
    | _ => cases found

end Operations

end Actions

/-! ## Making and filling scopes -/

/-- No scope and no class is changed, and types are only added. -/
structure World.KeepsScopes (w w' : World) : Prop where
  scopes : w'.scopes = w.scopes
  classes : w'.classes = w.classes
  held : w'.held = w.held
  pools : ∀ h, (w.typeContext h).pool.Grows (w'.typeContext h).pool

/-- A scope without children and with the types of another one, that has its kind and its aliases
or none at all. -/
structure Scope.StartsFrom (x y : Scope) : Prop where
  children : x.children = []
  types : x.types = y.types
  aliases : x.aliases = .empty ∨ x.kind = y.kind ∧ x.aliases = y.aliases

theorem Scope.startsFrom_derived (x : Scope) (s : ScopeId) (kind : ScopeKind) (label : String)
    (parent : Option ScopeId) : (x.derived s kind label parent).StartsFrom x :=
  ⟨rfl, rfl, .inl rfl⟩

theorem Scope.startsFrom_twin (x : Scope) (s : ScopeId) (bindings : Table Binding) :
    (x.twin s bindings).StartsFrom x :=
  ⟨rfl, rfl, .inr ⟨rfl, rfl⟩⟩

/-- A preorder of worlds that lets scopes be copied, and pays no attention to what is no scope. -/
class Tame (R : World → World → Prop) : Prop where
  refl : ∀ w, R w w
  trans : ∀ {w w₁ w₂}, R w w₁ → R w₁ w₂ → R w w₂
  keeps : ∀ {w w₁ : World}, w.KeepsScopes w₁ → R w w₁
  twin : ∀ {w w₁ : World} {s : ScopeId} {bindings : Table Binding}, R w w₁ →
    R w (w₁.newScope ((w.scope s).twin s bindings)).2

/-- A preorder of worlds that lets scopes be made and be filled. -/
class Mild (R : World → World → Prop) : Prop where
  refl : ∀ w, R w w
  trans : ∀ {w w₁ w₂}, R w w₁ → R w₁ w₂ → R w w₂
  keeps : ∀ {w w₁ : World}, w.KeepsScopes w₁ → R w w₁
  newScope : ∀ {w w₁ : World} {s : ScopeId} {x : Scope}, R w w₁ → x.StartsFrom (w.scope s) →
    R w (w₁.newScope x).2
  newClass : ∀ {w : World} {x : Class}, x.scope.In w.count → R w (w.newClass x).2
  fill : ∀ (w : World) (s : ScopeId) (bindings : Table Binding) (functions : FunctionTable)
    (classes : ClassTable) (globals : Globals),
    R w (w.setScope s { w.scope s with bindings, functions, classes, globals })

instance [Mild R] : Tame R where
  refl := Mild.refl
  trans := Mild.trans
  keeps := Mild.keeps
  twin made := Mild.newScope made (Scope.startsFrom_twin _ _ _)

section Copying

variable [Tame R]

theorem within_mapState {f : α → World → β × World} (each : ∀ a w, R w (f a w).2) :
    ∀ (items : List α) (w : World), R w (mapState f items w).2
  | [], w => Tame.refl w
  | a :: rest, w => Tame.trans (each a w) (within_mapState each rest _)

theorem within_mapBindings {f : Value → World → Value × World} (each : ∀ v w, R w (f v w).2)
    (t : Table Binding) (w : World) : R w (mapBindings f t w).2 := by
  have entries : ∀ (e : String × Binding) (w : World), R w (f e.2.value w).2 :=
    fun e w => each e.2.value w
  exact within_mapState (f := fun e w => ((e.1, { e.2 with value := (f e.2.value w).1 }),
    (f e.2.value w).2)) entries t.entries w

theorem within_duplicateBy {copy : Value → World → Value × World}
    (each : ∀ v w, R w (copy v w).2) (v : Value) (w : World) : R w (duplicateBy copy v w).2 := by
  simp only [duplicateBy]
  split
  · exact Tame.refl w
  · exact each v w

theorem within_duplicateScopeBy {copy : Value → World → Value × World}
    (each : ∀ v w, R w (copy v w).2) (s : ScopeId) (w : World) :
    R w (duplicateScopeBy copy s w).2 :=
  Tame.twin (within_mapBindings (within_duplicateBy each) (w.scope s).bindings w)

namespace World

theorem within_copyWithin : ∀ (n : Nat) (v : Value) (w : World), R w (copyWithin n v w).2
  | 0, _, w => Tame.refl w
  | n + 1, ⟨d, a⟩, w => by
    have ih : ∀ v w, R w (copyWithin n v w).2 := within_copyWithin n
    have made : ∀ {w w₁ w₂ : World}, R w w₁ → w₁.KeepsScopes w₂ → R w w₂ :=
      fun copied kept => Tame.trans copied (Tame.keeps kept)
    cases d with
    | list h =>
      rw [copyWithin_list]
      exact made (within_mapState ih _ w) ⟨rfl, rfl, rfl, fun _ => .refl _⟩
    | array h =>
      rw [copyWithin_array]
      exact made (within_mapState ih _ w) ⟨rfl, rfl, rfl, fun _ => .refl _⟩
    | dict h =>
      rw [copyWithin_dict]
      refine made (within_mapState (fun e w => ?_) _ w) ⟨rfl, rfl, rfl, fun _ => .refl _⟩
      exact Tame.trans (ih e.1 w) (ih e.2 _)
    | set h =>
      rw [copyWithin_set]
      exact made (within_mapState ih _ w) ⟨rfl, rfl, rfl, fun _ => .refl _⟩
    | object h =>
      rw [copyWithin_object]
      exact made (within_duplicateScopeBy ih (w.inst h).scope w) ⟨rfl, rfl, rfl, fun _ => .refl _⟩
    | _ => exact Tame.refl w

end World

instance : Calm R where
  refl := Tame.refl
  trans := Tame.trans
  contents h := Tame.keeps ⟨h.scopes, h.classes, h.held, h.pools⟩
  copy := World.within_copyWithin

namespace World

variable (w : World) (s : ScopeId)

theorem within_captureVariables : ∀ names, R w (w.captureVariables s names).2
  | [] => Tame.refl w
  | name :: rest => by
    have ih := within_captureVariables rest
    simp only [captureVariables]
    split
    · exact ih
    · exact Tame.trans ih (within_copyWithin _ _ _)

theorem within_duplicateScope : R w (w.duplicateScope s).2 :=
  within_duplicateScopeBy (fun v w => within_copyWithin _ v w) s w

end World

end Copying

section Making

variable [Mild R]

namespace World

variable (w : World) (s : ScopeId)

theorem within_newFunction (f : Function) : R w (w.newFunction f).2 :=
  Mild.keeps ⟨rfl, rfl, rfl, fun _ => .refl _⟩

theorem within_newMethod (m : Method) : R w (w.newMethod m).2 :=
  Mild.keeps ⟨rfl, rfl, rfl, fun _ => .refl _⟩

theorem within_derive (kind : ScopeKind) (label : String) (parent : Option ScopeId) :
    R w (w.derive s kind label parent).2 :=
  Mild.newScope (Mild.refl w) ((w.scope s).startsFrom_derived s kind label parent)

theorem within_setVariable (name : String) (b : Binding) : R w (w.setVariable s name b) :=
  Mild.fill w s _ _ _ _

theorem within_setClassTable (classes : ClassTable) : R w (w.setClassTable s classes) := by
  simp only [setClassTable]
  split
  · exact Mild.fill w _ _ _ _ _
  · exact Mild.fill w s _ _ _ _

theorem within_registerFunction (name : String) (o : Overload) :
    R w (w.registerFunction s name o) := by
  simp only [registerFunction]
  split
  · exact Mild.fill w _ _ _ _ _
  · exact Mild.fill w s _ _ _ _

theorem within_detachAs (kind : ScopeKind) (names : List String) (label : String) :
    R w (w.detachAs s kind names label).2 :=
  have derived : R w (w.derive s kind label (some s)).2 := w.within_derive s kind label (some s)
  Mild.trans (Mild.trans derived (within_captureVariables _ s names)) (Mild.fill _ _ _ _ _ _)

/-- A class in a new scope under `s`, whose type is declared in the pool of `u`. -/
theorem within_classIn (u : ScopeId) (name : String) {x : Class}
    (home : x.scope = (w.classScope s name).1) :
    R w (((w.classScope s name).2.declareType u name).2.newClass x).2 := by
  have made : R w (w.classScope s name).2 := w.within_derive s .classScope name (some s)
  have there : (w.classScope s name).1.In (w.classScope s name).2.count := w.newScope_in _
  have declared : R (w.classScope s name).2 ((w.classScope s name).2.declareType u name).2 :=
    within_withPool _ u fun pool => pool.grows_declare name
  refine Mild.trans (Mild.trans made declared) (Mild.newClass ?_)
  exact home ▸ (count_setTypeContext _ _ _).symm ▸ there

theorem within_addClass (name accessor : String) (captured : Option ScopeId) :
    R w (w.addClass s name accessor captured).2 :=
  w.within_classIn s s name rfl

theorem within_openClass (d : ClassDecl) (accessor : String) : R w (w.openClass s d accessor).2 :=
  Mild.trans (w.within_detachAs s .classDef d.freeNames d.name)
    (within_classIn _ (w.classDefScope s d).1 s d.name rfl)

theorem within_makeInstance (c : ClassId) : R w (w.makeInstance c).2 := by
  have made : R w (w.emptyMembers c).2 := w.within_derive _ .members _ _
  have members := within_mapBindings (R := R) (fun v w => w.within_duplicate v)
    ((w.scope (w.classOf c).scope).bindings.filter fun b => !b.flags.isStatic) (w.emptyMembers c).2
  have furnished : R w (w.furnished c) :=
    Mild.trans (Mild.trans made members) (Mild.fill (w.members c).2 (w.emptyMembers c).1 _ _ _ _)
  rw [makeInstance_eq]
  exact Mild.trans furnished (Mild.keeps ⟨rfl, rfl, rfl, fun _ => .refl _⟩)

end World

/-! ## The kit -/

namespace Kit

theorem within_foldlM {f : β → α → Action β} (each : ∀ b a, Action.Within R (f b a)) :
    ∀ (items : List α) (b : β), Action.Within R (items.foldlM f b)
  | [], b => .pure b
  | a :: rest, b => .bind (each b a) fun b => within_foldlM each rest b

theorem within_stack (c : NativeCall) : Action.Within R c.stack := by
  have getting : Action.Within R (get : Action World) := .look id
  refine .bind getting fun w => ?_
  split
  · exact .pure _
  · exact .throw _

/-- The bodies of the kit are within every mild relation. -/
theorem within_host (body : String) (c : NativeCall) : Action.Within R (host.run body c) := by
  have write : ∀ (w : World) (t : ScopeId) (b : Binding), R w (w.setVariable t c.text b) :=
    fun w t b => w.within_setVariable t c.text b
  simp only [host, run]
  split
  · exact Action.within_newList _
  · simp only [sum]
    split
    · exact .pure _
    · exact within_foldlM (Action.within_binary .add) _ _
  · exact .pure _
  · exact .pure _
  · exact .throw _
  · exact .look _
  · exact .look _
  · exact .pure _
  · exact .consult _
  · exact .bind (Action.within_updateVariable write _ _) fun _ => .pure _
  · exact .bind (Action.within_declareVariable (fun w b => write w _ b) _) fun _ => .pure _
  · simp only [newStack]
    split
    · exact .pure _
    · exact .change fun w => Mild.keeps ⟨rfl, rfl, rfl, fun _ => .refl _⟩
  · exact .bind (within_stack c) fun _ => .contents fun _ => .kept rfl rfl rfl rfl rfl rfl rfl
  · exact .bind (within_stack c) fun _ => .contents fun _ => .kept rfl rfl rfl rfl rfl rfl rfl
  · exact .bind (within_stack c) fun _ => .look _
  · exact .pure _

end Kit

end Making

end ScopeLang
