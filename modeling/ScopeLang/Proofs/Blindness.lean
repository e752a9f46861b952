/-
# Actions that do not see how cells are held

Every action of the evaluator pays no attention to the order in which cells are held, nor
to how often one is: started in two worlds that differ in nothing else it yields the
same, a result or an error, and leads to two such worlds.
-/
import ScopeLang.Proofs.Holdings

namespace ScopeLang

variable {α β γ : Type}

open World (Blind BlindChange BlindUpdate)

/-- An action that pays no attention to how cells are held. -/
def Action.Blind (a : Action α) : Prop := BlindChange a.runIn

namespace Action.Blind

theorem pure (x : α) : Action.Blind (Pure.pure x) := fun _ _ held => ⟨rfl, held⟩

theorem throw (kind : ErrorKind) : Action.Blind (throw kind : Action α) := fun _ _ held =>
  ⟨rfl, held⟩

theorem look {f : World → α} (h : World.Blind f) : Action.Blind (Action.look f) := by
  intro w w' held
  exact ⟨congrArg Except.ok (h held), held⟩

theorem change {f : World → α × World} (h : BlindChange f) : Action.Blind (Action.change f) := by
  intro w w' held
  obtain ⟨same, after⟩ := h held
  exact ⟨congrArg Except.ok same, after⟩

theorem modify {f : World → World} (h : BlindUpdate f) : Action.Blind (modify f : Action Unit) :=
  change (h.change ())

theorem consult {f : World → Except ErrorKind α} (h : World.Blind f) :
    Action.Blind (Action.consult f) := by
  intro w w' held
  rw [Action.runIn_consult, Action.runIn_consult, h held]
  cases f w with
  | ok x => exact ⟨rfl, held⟩
  | error kind => exact ⟨rfl, held⟩

theorem bind {a : Action α} {k : α → Action β} (first : Action.Blind a)
    (next : ∀ x, Action.Blind (k x)) : Action.Blind (a >>= k) := by
  intro w w' held
  have run : ∀ w, (a >>= k).runIn w = ExceptT.bindCont k (a.runIn w).1 (a.runIn w).2 :=
    fun w => rfl
  obtain ⟨same, after⟩ := first held
  rw [run, run, same]
  generalize (a.runIn w).1 = result
  cases result with
  | ok x => exact next x after
  | error kind => exact ⟨rfl, after⟩

/-- What depends on something that is looked up. -/
theorem look_then {f : World → γ} {k : γ → Action α} (h : World.Blind f)
    (next : ∀ x, Action.Blind (k x)) : Action.Blind (Action.look f >>= k) := bind (look h) next

/-- What depends on the world in which it is done. -/
theorem get_then {k : World → Action α} (same : World.Blind k) (next : ∀ w, Action.Blind (k w)) :
    Action.Blind (get >>= k) := by
  intro w w' held
  show ((k w').runIn w').1 = ((k w).runIn w).1 ∧ ((k w).runIn w).2.Reheld ((k w').runIn w').2
  rw [same held]
  exact next w held

end Action.Blind

/-! ## Values and variables -/

theorem World.blind_checkType (s : ScopeId) (name : String) (declared : SigId) (v : Value) :
    World.Blind fun w => w.checkType s name declared v := .plain fun _ _ => rfl

theorem World.blind_resolveOverload (s : ScopeId) (name : String) (candidates : List Overload)
    (arguments : CallArguments) :
    World.Blind fun w => w.resolveOverload (w.optionsOf s) name candidates arguments := by
  rintro w _ ⟨cells, -, rfl⟩
  have examined : ∀ options os pool,
      examineAll { w with held := cells } options arguments os pool =
        w.examineAll options arguments os pool := by
    intro options os
    induction os with
    | nil => exact fun _ => rfl
    | cons o rest ih =>
      intro pool
      simp only [examineAll, ih]
      rfl
  funext pool
  simp only [resolveOverload, examined]
  rfl

namespace Action

theorem blind_newList (items : List Value) : Action.Blind (newList items) :=
  .bind (.change (World.blind_newItems items)) fun _ => .pure _

theorem blind_newArray (items : List Value) : Action.Blind (newArray items) :=
  .bind (.change (World.blind_newItems items)) fun _ => .pure _

theorem blind_newSet (items : List Value) : Action.Blind (newSet items) :=
  .look_then (fun _ _ h => congrArg (fun eq => items.foldl (insertElement eq) []) h.looseEq_eq)
    fun xs => .bind (.change (World.blind_newElements xs)) fun _ => .pure _

theorem blind_newDict (entries : List (Value × Value)) : Action.Blind (newDict entries) :=
  .look_then (fun _ _ h => congrArg
      (fun eq => entries.foldl (fun done e => insertEntry eq e.1 e.2 done) []) h.looseEq_eq)
    fun es => .bind (.change (World.blind_newEntries es)) fun _ => .pure _

theorem blind_build (items : List Value) : ∀ kind : SequenceKind, Action.Blind (kind.build items)
  | .list => blind_newList items
  | .array => blind_newArray items
  | .set => blind_newSet items

theorem blind_duplicate (v : Value) : Action.Blind (duplicate v) :=
  .change (World.blind_duplicate v)

theorem blind_declareVariable (s : ScopeId) (name : String) (b : Binding) :
    Action.Blind (declareVariable s name b) := by
  refine .look_then (.plain fun _ _ => rfl) fun found => ?_
  have store : Action.Blind (do
      let value ← change (b.prepare b.value)
      modify fun w : World => w.setVariable s name { b with value }) :=
    .bind (.change (World.blind_prepare b b.value)) fun _ =>
      .modify (World.blind_setVariable s name _)
  cases found with
  | true => exact .throw _
  | false => exact store

theorem blind_updateLocalVariable (s : ScopeId) (name : String) (v : Value) :
    Action.Blind (updateLocalVariable s name v) := by
  refine .look_then (.plain fun _ _ => rfl) fun found => ?_
  cases found with
  | none => exact .throw _
  | some b =>
    have store : Action.Blind (do
        consult fun w => w.checkType s name b.declared v
        let value ← change (b.prepare v)
        modify fun w : World => w.setVariable s name { b with value }) := by
      refine .bind (.consult (World.blind_checkType s name b.declared v)) fun _ => ?_
      exact .bind (.change (World.blind_prepare b v)) fun _ =>
        .modify (World.blind_setVariable s name _)
    cases const : b.flags.isConst with
    | true =>
      simp only [const]
      exact .throw _
    | false =>
      simp only [const]
      exact store

theorem blind_updateVariable (s : ScopeId) (name : String) (v : Value) :
    Action.Blind (updateVariable s name v) := by
  refine .look_then (fun _ _ h => h.bindingScope?_eq s name) fun found => ?_
  cases found with
  | none => exact .throw _
  | some t => exact blind_updateLocalVariable t name v

theorem blind_resolveAmong (s : ScopeId) (name : String) (candidates : List Overload)
    (arguments : CallArguments) : Action.Blind (resolveAmong s name candidates arguments) := by
  refine .bind (.change (World.blind_withPool s
    (World.blind_resolveOverload s name candidates arguments))) fun result => ?_
  cases result with
  | ok r => exact .pure r
  | error kind => exact .throw kind

theorem blind_resolveFunction (s : ScopeId) (name : String) (arguments : CallArguments) :
    Action.Blind (resolveFunction s name arguments) := by
  refine .look_then (fun _ _ h => h.lookupFunction_eq s name) fun found => ?_
  cases found with
  | none => exact .throw _
  | some candidates => exact blind_resolveAmong s name candidates arguments

theorem blind_registerClass (s : ScopeId) (c : ClassId) : Action.Blind (registerClass s c) := by
  refine .look_then (.plain fun _ _ => rfl) fun name => ?_
  refine .look_then (fun _ _ h => congrArg (Table.contains · name) (h.classTable_eq s))
    fun taken => ?_
  have register : BlindUpdate fun w => w.setClassTable s ((w.classTable s).insert name c) := by
    intro w w' h
    show (w.setClassTable s _).Reheld (w'.setClassTable s ((w'.classTable s).insert name c))
    rw [h.classTable_eq]
    exact World.blind_setClassTable s _ h
  cases taken with
  | true => exact .bind (.throw _) fun _ => .modify register
  | false => exact .modify register

theorem blind_appendChild (s child : ScopeId) : Action.Blind (appendChild s child) := by
  refine .look_then (fun _ _ h => congrArg (List.contains · child) (h.ownerChain_eq s))
    fun owned => ?_
  cases owned with
  | true => exact .look_then (.plain fun _ _ => rfl) fun _ => .bind (.throw _) fun _ =>
      .modify (World.blind_addChild s child)
  | false => exact .modify (World.blind_addChild s child)

theorem blind_enter (caller parent : ScopeId) (kind : ScopeKind) (label : String) :
    Action.Blind (enter caller parent kind label) := by
  refine .bind (.change (World.blind_derive parent kind label (some parent))) fun s => ?_
  refine .bind (.modify (World.blind_setScope s fun x => { x with caller := some caller }))
    fun _ => ?_
  exact .bind (blind_appendChild caller s) fun _ => .pure s

theorem blind_enterMethod (caller : ScopeId) (receiver : InstanceId) (name : String) :
    Action.Blind (enterMethod caller receiver name) :=
  .look_then (.plain fun _ _ => rfl) fun home => blind_enter caller home .methodCall name

/-! ## Operators -/

theorem blind_scalarBinary (op : BinaryOperator) (a b : Value) :
    World.Blind fun w => w.scalarBinary op a b := by
  intro w w' h
  have loose := h.looseEq_eq
  obtain ⟨cells, -, rfl⟩ := h
  show World.scalarBinary { w with held := cells } op a b = w.scalarBinary op a b
  cases op with
  | equal => rw [World.scalarBinary, World.scalarBinary, loose]
  | notEqual => rw [World.scalarBinary, World.scalarBinary, loose]
  | _ => rfl

theorem blind_binary (op : BinaryOperator) (a b : Value) : Action.Blind (Action.binary op a b) := by
  simp only [Action.binary]
  split
  · exact .look_then (.plain fun _ _ => rfl) fun items => blind_newList items
  · exact .consult (blind_scalarBinary _ a b)

end Action

namespace Knot

theorem blind_readName (name : String) (s : ScopeId) : Action.Blind (readName name s) := by
  refine .get_then (fun w w' h => ?_) fun w => ?_
  · simp only [h.getVariable_eq, h.lookupFunction_eq, h.lookupClass_eq]
  · split
    · exact .pure _
    · split
      · exact .bind (.change (.plain (fun _ _ => rfl) fun _ => rfl)) fun _ => .pure _
      · exact .pure _
      · exact .throw _

theorem blind_assignMember (i : InstanceId) (name : String) (v : Value) :
    Action.Blind (assignMember i name v) := by
  refine .look_then (.plain fun _ _ => rfl) fun found => ?_
  cases found with
  | some s => exact Action.blind_updateLocalVariable s name v
  | none => exact .throw _

theorem blind_checkArgument (q : ParameterSpec) (s : ScopeId) (v : Value) :
    Action.Blind (checkArgument q s v) := by
  simp only [checkArgument]
  split
  · exact .consult (World.blind_checkType s q.name q.signature v)
  · exact .pure _

theorem blind_result (procedure : Procedure) (s : ScopeId) (o : Outcome) :
    Action.Blind (result procedure s o) := by
  cases o with
  | settled v =>
    refine .look_then (.plain fun _ _ => rfl) fun admitted => ?_
    cases admitted with
    | true => exact .pure _
    | false => exact .throw _
  | returned v => exact .pure v
  | thrown v => exact .throw _
  | broke => exact .throw _
  | continued => exact .throw _

end Knot

/-! ## Intrinsics -/

/-- An operation that pays no attention to how cells are held, whatever its arguments. -/
def Intrinsic.Blind (run : Intrinsic) : Prop := ∀ arguments, Action.Blind (run arguments)

namespace Intrinsic.Blind

variable {operation : String}

theorem nullary {run : Action Value} (h : Action.Blind run) :
    Intrinsic.Blind (Intrinsic.nullary operation run)
  | [] => h
  | _ :: _ => .throw _

theorem unary {run : Value → Action Value} (h : ∀ v, Action.Blind (run v)) :
    Intrinsic.Blind (Intrinsic.unary operation run)
  | [v] => h v
  | [] | _ :: _ :: _ => .throw _

theorem binary {run : Value → Value → Action Value} (h : ∀ v v', Action.Blind (run v v')) :
    Intrinsic.Blind (Intrinsic.binary operation run)
  | [v, v'] => h v v'
  | [] | [_] | _ :: _ :: _ :: _ => .throw _

theorem ranged {run : Value → Option Value → Action Value}
    (h : ∀ v o, Action.Blind (run v o)) : Intrinsic.Blind (Intrinsic.ranged operation run)
  | [v] => h v none
  | [v, v'] => h v (some v')
  | [] | _ :: _ :: _ :: _ => .throw _

end Intrinsic.Blind

section Operations

variable {operation : String} {run : Intrinsic}

theorem blind_measure {length : World → Nat} (plain : World.Blind length)
    (found : measure? operation length = some run) : run.Blind := by
  have answer : ∀ f : Nat → Value, Action.Blind (Action.look fun w => f (length w)) :=
    fun f => .look fun _ _ h => congrArg f (plain h)
  simp only [measure?] at found
  split at found
  · exact Option.some.inj found ▸ .nullary (answer fun n => .long (Int64.ofNat n))
  · exact Option.some.inj found ▸ .nullary (answer fun n => .long (Int64.ofNat n))
  · exact Option.some.inj found ▸ .nullary (answer fun n => .bool (n == 0))
  · cases found

theorem blind_indexBelow (operation : String) (v : Value) (length limit : Nat) :
    Action.Blind (indexBelow operation v length limit) := by
  simp only [indexBelow]
  split
  · exact .look_then (.plain fun _ _ => rfl) fun _ => .throw _
  · split
    · exact .pure _
    · exact .throw _

theorem blind_sliceBounds (operation : String) (first : Value) (second : Option Value)
    (length : Nat) : Action.Blind (sliceBounds operation first second length) := by
  refine .bind (blind_indexBelow _ _ _ _) fun start => ?_
  have ordered : ∀ (stop : Nat) (text : String),
      Action.Blind (if stop < start then throw (invalidArgument operation text)
        else pure (start, stop)) := by
    intro stop text
    split
    · exact .throw _
    · exact .pure _
  cases second with
  | none => exact ordered length _
  | some v => exact .bind (blind_indexBelow _ _ _ _) fun stop => ordered stop _

theorem blind_stringIntrinsic {text : String}
    (found : stringIntrinsic? text operation = some run) : run.Blind := by
  simp only [stringIntrinsic?] at found
  split at found
  · refine Option.some.inj found ▸ .ranged fun first second => ?_
    exact .bind (blind_sliceBounds _ _ _ _) fun _ => .pure _
  · refine Option.some.inj found ▸ .ranged fun first second => ?_
    exact .bind (blind_sliceBounds _ _ _ _) fun _ => .pure _
  · refine Option.some.inj found ▸ .unary fun v => ?_
    split
    · exact .pure _
    · exact .throw _
  · refine Option.some.inj found ▸ .unary fun v => ?_
    exact .bind (blind_indexBelow _ _ _ _) fun _ => .pure _
  · exact blind_measure (fun _ _ _ => rfl) found

theorem blind_sequenceIntrinsic {h : Handle .list} {rebuild : List Value → Action Value}
    (rebuilds : ∀ items, Action.Blind (rebuild items))
    (found : sequenceIntrinsic? h rebuild operation = some run) : run.Blind := by
  have items : World.Blind fun w => w.items h := .plain fun _ _ => rfl
  simp only [sequenceIntrinsic?] at found
  split at found
  · exact Option.some.inj found ▸ .nullary (.change (.plain (fun _ _ => rfl) fun _ => rfl))
  · refine Option.some.inj found ▸ .ranged fun first second => .look_then items fun items => ?_
    exact .bind (blind_sliceBounds _ _ _ _) fun bounds => rebuilds _
  · refine Option.some.inj found ▸ .unary fun v => .look fun w w' held => ?_
    show Value.bool (hasElement w'.looseEq (w'.items h) v) = _
    rw [held.looseEq_eq]
    exact congrArg (fun xs => Value.bool (hasElement w.looseEq xs v)) (items held)
  · refine Option.some.inj found ▸ .unary fun v => .look_then items fun items => ?_
    exact .bind (blind_indexBelow _ _ _ _) fun i => .pure _
  · refine Option.some.inj found ▸ .binary fun first v => .look_then items fun items => ?_
    refine .bind (blind_indexBelow _ _ _ _) fun i => ?_
    exact .bind (Action.blind_duplicate v) fun v => .change (.plain (fun _ _ => rfl) fun _ => rfl)
  · exact blind_measure (.plain fun _ _ => rfl) found

theorem blind_listIntrinsic {h : Handle .list} (found : listIntrinsic? h operation = some run) :
    run.Blind := by
  have items : World.Blind fun w => w.items h := .plain fun _ _ => rfl
  simp only [listIntrinsic?] at found
  split at found
  · refine Option.some.inj found ▸ .unary fun v => ?_
    exact .bind (Action.blind_duplicate v) fun v => .change (.plain (fun _ _ => rfl) fun _ => rfl)
  · refine Option.some.inj found ▸ .nullary (.look_then items fun items => ?_)
    split
    · exact .change (.plain (fun _ _ => rfl) fun _ => rfl)
    · exact .throw _
  · refine Option.some.inj found ▸ .binary fun first v => .look_then items fun items => ?_
    refine .bind (blind_indexBelow _ _ _ _) fun i => ?_
    exact .bind (Action.blind_duplicate v) fun v => .change (.plain (fun _ _ => rfl) fun _ => rfl)
  · refine Option.some.inj found ▸ .unary fun v => .look_then items fun items => ?_
    exact .bind (blind_indexBelow _ _ _ _) fun i => .change (.plain (fun _ _ => rfl) fun _ => rfl)
  · exact blind_sequenceIntrinsic Action.blind_newList found

/-- What an operation reads and writes may depend on the equality of values. -/
theorem blind_comparing {f : (Value → Value → Bool) → World → α × World}
    (each : ∀ equal, BlindChange (f equal)) : BlindChange fun w => f w.looseEq w :=
  .of_reading (fun _ _ h => h.looseEq_eq) each

theorem blind_setIntrinsic {h : Handle .set} (found : setIntrinsic? h operation = some run) :
    run.Blind := by
  have comparing : ∀ f : (Value → Value → Bool) → World → Value × World,
      (∀ equal, BlindChange (f equal)) → Action.Blind (Action.change fun w => f w.looseEq w) :=
    fun f each => .change (blind_comparing each)
  simp only [setIntrinsic?] at found
  split at found
  · exact Option.some.inj found ▸ .nullary (.change (.plain (fun _ _ => rfl) fun _ => rfl))
  · refine Option.some.inj found ▸ .unary fun v => .look fun w w' held => ?_
    show Value.bool (hasElement w'.looseEq (w'.elements h) v) = _
    rw [held.looseEq_eq]
    have plain : World.Blind fun u => Value.bool (hasElement w.looseEq (u.elements h) v) :=
      .plain fun _ _ => rfl
    exact plain held
  · refine Option.some.inj found ▸ .unary fun v => ?_
    refine .bind (Action.blind_duplicate v) fun v => ?_
    exact comparing (fun equal w => (.bool (!hasElement equal (w.elements h) v),
      w.setElements h (insertElement equal (w.elements h) v)))
      fun _ => .plain (fun _ _ => rfl) fun _ => rfl
  · refine Option.some.inj found ▸ .unary fun v => ?_
    exact comparing (fun equal w => (.bool (hasElement equal (w.elements h) v),
      w.setElements h ((w.elements h).eraseP fun e => equal e v)))
      fun _ => .plain (fun _ _ => rfl) fun _ => rfl
  · exact blind_measure (.plain fun _ _ => rfl) found

theorem blind_putEntry (h : Handle .dict) (key value : Value) :
    Action.Blind (putEntry h key value) := by
  refine .bind (Action.blind_duplicate key) fun key => ?_
  refine .bind (Action.blind_duplicate value) fun value => .change ?_
  exact blind_comparing (f := fun equal w =>
    ((lookupEntry equal (w.entries h) key).getD .null,
      w.setEntries h (insertEntry equal key value (w.entries h))))
    fun _ => .plain (fun _ _ => rfl) fun _ => rfl

theorem blind_dictIntrinsic {h : Handle .dict} (found : dictIntrinsic? h operation = some run) :
    run.Blind := by
  have lookup : ∀ key, World.Blind fun w => lookupEntry w.looseEq (w.entries h) key := by
    intro key w w' held
    have loose := held.looseEq_eq
    obtain ⟨cells, -, rfl⟩ := held
    exact congrArg (lookupEntry · (w.entries h) key) loose
  simp only [dictIntrinsic?] at found
  split at found
  · exact Option.some.inj found ▸ .nullary (.change (.plain (fun _ _ => rfl) fun _ => rfl))
  · exact Option.some.inj found ▸ .unary fun key =>
      .look fun _ _ held => congrArg (fun o => Value.bool (Option.isSome o)) (lookup key held)
  · refine Option.some.inj found ▸ .unary fun key => .look_then (lookup key) fun value => ?_
    split
    · exact .pure _
    · exact .look_then (fun _ _ held => held.text_eq key) fun _ => .throw _
  · exact Option.some.inj found ▸ .binary fun key v => blind_putEntry h key v
  · exact Option.some.inj found ▸ .binary fun key v => blind_putEntry h key v
  · refine Option.some.inj found ▸ .unary fun key => .change ?_
    exact blind_comparing (f := fun equal w =>
      ((lookupEntry equal (w.entries h) key).getD .null,
        w.setEntries h ((w.entries h).eraseP fun e => equal e.1 key)))
      fun _ => .plain (fun _ _ => rfl) fun _ => rfl
  · refine Option.some.inj found ▸ .nullary (.look_then (.plain fun _ _ => rfl) fun keys => ?_)
    exact Action.blind_newList keys
  · refine Option.some.inj found ▸ .nullary (.look_then (.plain fun _ _ => rfl) fun values => ?_)
    exact Action.blind_newList values
  · exact blind_measure (.plain fun _ _ => rfl) found

theorem blind_commonIntrinsic {target : Value}
    (found : commonIntrinsic? target operation = some run) : run.Blind := by
  simp only [commonIntrinsic?] at found
  split at found
  · exact Option.some.inj found ▸ .nullary (.change (World.blind_deepCopy target))
  · exact Option.some.inj found ▸
      .nullary (.look fun _ _ held => congrArg Value.string (held.text_eq target))
  · cases found

theorem blind_intrinsic {target : Value} (found : intrinsic? target operation = some run) :
    run.Blind := by
  rw [intrinsic?] at found
  cases common : commonIntrinsic? target operation with
  | some f =>
    rw [common] at found
    exact Option.some.inj found ▸ blind_commonIntrinsic common
  | none =>
    rw [common] at found
    obtain ⟨d, a⟩ := target
    cases d with
    | string text => exact blind_stringIntrinsic found
    | list h => exact blind_listIntrinsic found
    | array h => exact blind_sequenceIntrinsic Action.blind_newArray found
    | set h => exact blind_setIntrinsic found
    | dict h => exact blind_dictIntrinsic found
    | _ => cases found

end Operations

/-! ## The kit -/

/-- A host whose bodies pay no attention to how cells are held. -/
def Host.Blind (host : Host) : Prop := ∀ body call, Action.Blind (host.run body call)

namespace Kit

theorem blind_foldlM {f : β → α → Action β} (each : ∀ b a, Action.Blind (f b a)) :
    ∀ (items : List α) (b : β), Action.Blind (items.foldlM f b)
  | [], b => .pure b
  | a :: rest, b => .bind (each b a) fun b => blind_foldlM each rest b

theorem blind_stack (c : NativeCall) : Action.Blind c.stack := by
  refine .get_then (.plain fun _ _ => rfl) fun w => ?_
  split
  · exact .pure _
  · exact .throw _

theorem blind_host : Kit.host.Blind := by
  intro body c
  simp only [host, run]
  split
  · exact Action.blind_newList _
  · simp only [sum]
    split
    · exact .pure _
    · exact blind_foldlM (Action.blind_binary .add) _ _
  · exact .pure _
  · exact .pure _
  · exact .throw _
  · exact .look (.plain fun _ _ => rfl)
  · exact .look (.plain fun _ _ => rfl)
  · exact .pure _
  · exact .consult fun _ _ held => held.getVariable_eq _ _
  · exact .bind (Action.blind_updateVariable _ _ _) fun _ => .pure _
  · exact .bind (Action.blind_declareVariable _ _ _) fun _ => .pure _
  · simp only [newStack]
    split
    · exact .pure _
    · exact .change (.plain (fun _ _ => rfl) fun _ => rfl)
  · exact .bind (blind_stack c) fun _ => .change (.plain (fun _ _ => rfl) fun _ => rfl)
  · exact .bind (blind_stack c) fun _ => .change (.plain (fun _ _ => rfl) fun _ => rfl)
  · exact .bind (blind_stack c) fun _ => .look (.plain fun _ _ => rfl)
  · exact .pure _

end Kit

end ScopeLang
