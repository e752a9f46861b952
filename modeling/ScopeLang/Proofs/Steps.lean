/-
# What a run can do

A run of the evaluator is described from the outside, without its code.  Code
runs in a frame, on top of a stack of invocations.  There it takes steps, each of
which changes the world in one of the ways listed in `Step`, and now and then it
enters another frame: a new scope, a class body, an invocation.

* `Trace D f calls w w'`: code in frame `f` leads from `w` to `w'` and is back in
  its frame, every frame entered on the way having been left.
* `Reach D f calls w f' calls' w'`: code in frame `f` leads from `w` to a moment
  at which code in `f'` has got to `w'`.

A property of all reached worlds is then a property that the steps keep, and
nobody has to look at the evaluator again.  `Step` says what it does with the
same words as the program, so that nothing is lost that a later proof may need;
what each step keeps is proved once, here for soundness and growth.
-/
import ScopeLang.Proofs.Copies
import ScopeLang.Host.Native
import Mathlib.Data.List.Perm.Subperm

namespace ScopeLang

/-! ## Steps on containers -/

/-- The values of some entries. -/
def entryValues (es : List (Value × Value)) : List Value := es.flatMap fun e => [e.1, e.2]

/-- What a step can do to containers: make them, copy values, take items out of them and put
duplicates in. -/
inductive Contents (D : Dialect) (w : World) : World → Prop
  | held {cells : List Cell} : (∀ c ∈ cells, c.In w.count) → Contents D w { w with held := cells }
  | newItems {xs : List Value} : (∀ v ∈ xs, v.Ok D w.count) → Contents D w (w.newItems xs).2
  | newSet {xs : List Value} : (∀ v ∈ xs, v.Ok D w.count) →
      Contents D w (w.newElements (xs.foldl (insertElement w.looseEq) [])).2
  | newDict {es : List (Value × Value)} : (∀ v ∈ entryValues es, v.Ok D w.count) →
      Contents D w (w.newEntries
        (es.foldl (fun done e => insertEntry w.looseEq e.1 e.2 done) [])).2
  | copy {v : Value} : v.Ok D w.count → Contents D w (w.deepCopy v).2
  | dropItems (h : Handle .list) {xs : List Value} : xs.Sublist (w.items h) →
      Contents D w (w.setItems h xs)
  | storeItem {h : Handle .list} {v : Value} {xs : List Value} : h.In w.count → v.Ok D w.count →
      xs.Subperm ((w.duplicate v).1 :: w.items h) →
      Contents D w ((w.duplicate v).2.setItems h xs)
  | dropElements (h : Handle .set) {xs : List Value} : xs.Sublist (w.elements h) →
      Contents D w (w.setElements h xs)
  | storeElement {h : Handle .set} {v : Value} : h.In w.count → v.Ok D w.count →
      Contents D w ((w.duplicate v).2.setElements h
        (insertElement (w.duplicate v).2.looseEq ((w.duplicate v).2.elements h)
          (w.duplicate v).1))
  | dropEntries (h : Handle .dict) {es : List (Value × Value)} : es.Sublist (w.entries h) →
      Contents D w (w.setEntries h es)
  | storeEntry {h : Handle .dict} {key value : Value} {k v : Value × World} : h.In w.count →
      key.Ok D w.count → value.Ok D w.count → w.duplicate key = k → k.2.duplicate value = v →
      Contents D w (v.2.setEntries h (insertEntry v.2.looseEq k.1 v.1 (v.2.entries h)))

/-! ## Steps -/

/-- Whether a body is of the program. -/
def Body.isUser : Body → Bool
  | .user _ => true
  | .native _ => false

namespace World

/-- A callable whose body is of the program. -/
def HasCode (w : World) (c : Callable) : Prop := (w.procedure? c).any (·.body.isUser) = true

instance (w : World) (c : Callable) : Decidable (w.HasCode c) :=
  inferInstanceAs (Decidable (_ = true))

theorem HasCode.body {w : World} {c : Callable} (h : w.HasCode c) :
    ∃ p b, w.procedure? c = some p ∧ p.body = .user b := by
  obtain ⟨p, hp, user⟩ := (Option.any_eq_true _ _).mp h
  cases body : p.body with
  | user b => exact ⟨p, b, hp, body⟩
  | native b =>
    rw [body] at user
    exact absurd user nofun

/-- Whether a value may be the value of a variable: null always may. -/
def Accepts (w : World) (t : ScopeId) (declared : SigId) (v : Value) : Prop :=
  v.isNull = true ∨ w.admits t declared v = true

/-- The world in which a value has been stored in a variable. -/
def store (w : World) (t : ScopeId) (name : String) (b : Binding) (v : Value) : World :=
  (b.prepare v w).2.setVariable t name { b with value := (b.prepare v w).1 }

/-- A scope in which code that runs in `s` may assign to variables: one in sight, or the scope
of an instance or of its class. -/
def MayAssign (w : World) (s t : ScopeId) : Prop :=
  t ∈ w.variableChain s ∨
    ∃ i, i.In w.count ∧ (t = (w.inst i).scope ∨ t = (w.classOf (w.inst i).classId).scope)

/-- A scope in which code that runs in `s` may declare variables: this one, or the scope of an
instance. -/
def MayDeclare (w : World) (s t : ScopeId) : Prop :=
  t = s ∨ ∃ i, i.In w.count ∧ t = (w.inst i).scope

/-- A scope in whose tables code that runs in `s` may register a callable: this one, which is that
of its class for a method.  From a root the host registers functions of its own, and methods of
any class. -/
def MayRegister (w : World) (s t : ScopeId) (c : Callable) : Prop :=
  (t = s ∧ (∃ h, c = .function h) ∧ (w.HasCode c ∨ (w.scope s).kind = .root)) ∨
    ∃ h, c = .method h ∧ t = (w.classOf (w.method h).classId).scope ∧
      (t = s ∨ (w.scope s).kind = .root)

/-- A method that its class may have: one of the program belongs to a class with a body, and
only such a one has defaults where the dialect asks for it. -/
structure Suits (D : Dialect) (w : World) (m : Method) : Prop where
  classId : m.classId.In w.count
  body : ∀ b, m.procedure.body = .user b → (w.classOf m.classId).captured.isSome = true
  defaults : ¬ D.hostDefaults → ∀ q ∈ m.procedure.parameters, q.default.isSome = true →
    ∃ b, m.procedure.body = .user b

end World

/-- What one step can do where code runs in scope `s`. -/
inductive Step (D : Dialect) (s : ScopeId) (w : World) : World → Prop
  | contents {w' : World} : Contents D w w' → Step D s w w'
  /-- A body of the host that leaves scopes alone. -/
  | native {w' : World} {body : String} : D.natives body → Copying D w w' → Step D s w w'
  /-- A body of the host that writes to a variable. -/
  | hostWrite (t : ScopeId) (name : String) {b : Binding} {v : Value} : D.hostWrites →
      (b.flags.isMutable = true → D.sharing) → v.Ok D w.count → Step D s w (w.store t name b v)
  | overloads {o : OverloadSet} : (∀ p ∈ o.overloads, p.callable.cell.In w.count) →
      Step D s w (w.newOverloads o).2
  | pool (t : ScopeId) {pool : TypePool} : (w.poolOf t).Grows pool → Step D s w (w.setPool t pool)
  | addAlias (name : String) (id : SigId) :
      Step D s w (w.setScope s
        { w.scope s with aliases := (w.scope s).aliases.insert name id })
  /-- The links of a scope that its variables and tables do not depend on.  A root is not called. -/
  | relink (t : ScopeId) (children : List ScopeId) (owner : Option ScopeId)
      {caller : Option ScopeId} : ((w.scope t).kind = .root → caller = (w.scope t).caller) →
      Step D s w (w.setScope t { w.scope t with children, owner, caller })
  | declare {t : ScopeId} {name : String} {b : Binding} :
      w.MayDeclare s t → w.hasLocalVariable t name = false →
      (b.flags.isMutable = true → D.sharing) → b.value.Ok D w.count →
      w.Accepts t b.declared b.value → Step D s w (w.store t name b b.value)
  | assign {t : ScopeId} {name : String} {b : Binding} {v : Value} :
      w.MayAssign s t → w.localBinding? t name = some b → b.flags.isConst = false →
      v.Ok D w.count → w.Accepts t b.declared v → Step D s w (w.store t name b v)
  /-- A scope that keeps copies of variables in sight. -/
  | detach {kind : ScopeKind} (names : List String) (label : String) :
      kind.hidesParent = true → Step D s w (w.detachAs s kind names label).2
  | isolate (names : List String) (label : String) : Step D s w (w.isolate s names label).2
  | newFunction {x : Function} : x.procedure.Ok D →
      (∀ p, x.captured = some p → p.In w.count ∧ (w.scope p).kind.hidesParent = true) →
      (∀ b, x.procedure.body = .user b → x.captured.isSome = true) →
      Step D s w (w.newFunction x).2
  | newMethod {x : Method} : x.procedure.Ok D → World.Suits D w x → Step D s w (w.newMethod x).2
  /-- A class of the program in a scope under the one that its body sees, or one of the host. -/
  | newClass {home : ScopeId} (name accessor : String) {captured : Option ScopeId} :
      home.In w.count →
      (captured = some home ∧ (w.scope home).kind.hidesParent = true ∨
        captured = none ∧ ∃ body, D.natives body) →
      Step D s w (w.addClass home name accessor captured).2
  | register {t : ScopeId} {o : Overload} (name : String) : w.MayRegister s t o.callable →
      o.callable.cell.In w.count → Step D s w (w.registerFunction t name o)
  | registerClass {c : ClassId} (name : String) : c.In w.count →
      Step D s w (w.setClassTable s ((w.classTable s).insert name c))
  | makeInstance {c : ClassId} : c.In w.count → Step D s w (w.makeInstance c).2

/-! ## Entering frames -/

namespace ScopeKind

/-- The kinds of scopes that code is run in while its caller waits. -/
def isActivation : ScopeKind → Bool
  | block | functionCall | methodCall => true
  | _ => false

theorem ne_root_of_isActivation {k : ScopeKind} (h : k.isActivation = true) : k ≠ .root := by
  rintro rfl
  cases h

theorem hidesParent_of_isActivation {k : ScopeKind} (h : k.isActivation = true) :
    k.hidesParent = false := by
  cases k <;> first | rfl | cases h

end ScopeKind

/-- Whether a procedure runs code of the program: its body, or a default. -/
def Procedure.RunsCode (p : Procedure) : Prop :=
  (∃ b, p.body = .user b) ∨ ∃ q ∈ p.parameters, q.default.isSome = true

namespace World

/-- Whether an invocation runs code of the program. -/
def RunsCode (w : World) (i : Invocation) : Prop :=
  ∃ p, w.procedure? i.callable = some p ∧ p.RunsCode

/-- Whether a procedure runs code of the program where it is called: one of the host runs its
defaults there. -/
def RunsInPlace (w : World) (c : Callable) : Prop :=
  ∃ p, w.procedure? c = some p ∧ (∀ b, p.body ≠ .user b) ∧ p.RunsCode

/-- The scope from which an invocation starts: where the procedure belongs if it is of the
program, else where it is called. -/
def entry (w : World) (caller : ScopeId) (i : Invocation) : ScopeId :=
  match i.callable with
  | .function h =>
      match (w.function h).procedure.body with
      | .user _ => (w.function h).captured.getD caller
      | .native _ => caller
  | .method h =>
      match (w.method h).procedure.body, i.receiver with
      | .user _, some receiver => (w.inst receiver).scope
      | _, _ => caller
  | .classObject _ => caller

/-- The invocations that code in a frame can make.  A method that is found in the table of an
instance runs against this instance, any other one against the receiver of the frame. -/
inductive Invokes (w : World) (f : Frame) : Invocation → Prop
  | function (access : Access) {h : Handle .function} : h.In w.count →
      Invokes w f ⟨access, .function h, none⟩
  | member {h : Handle .method} {i : InstanceId} {o : Overload} : h.In w.count → i.In w.count →
      FunctionTable.Lists (w.scope (w.inst i).scope).functions o → o.callable = .method h →
      Invokes w f ⟨.member, .method h, some i⟩
  | method {access : Access} {h : Handle .method} {i : InstanceId} : access ≠ .member →
      h.In w.count → f.receiver = some i → Invokes w f ⟨access, .method h, some i⟩

end World

/-- The ways from one frame into another. -/
inductive Enter (f : Frame) (calls : List Invocation) (w : World) :
    Frame → List Invocation → World → Prop
  /-- A new scope under the one of the frame. -/
  | scope {kind : ScopeKind} (label : String) : kind.isActivation = true →
      Enter f calls w ⟨(w.makeCallScope f.scope kind label).1, f.receiver⟩ calls
        (w.makeCallScope f.scope kind label).2
  /-- The body of a new class, in a scope under the one that it sees. -/
  | classBody {home : ScopeId} (name accessor : String) : home.In w.count →
      (w.scope home).kind.hidesParent = true →
      Enter f calls w ⟨(w.makeCallScope home .classScope name).1, none⟩ calls
        (w.addClass home name accessor (some home)).2
  | invocation {i : Invocation} : w.Invokes f i →
      Enter f calls w ⟨w.entry f.scope i, none⟩ (i :: calls) w
  /-- The code of the innermost invocation runs against its receiver. -/
  | receiver {i : Invocation} : calls.head? = some i → w.RunsCode i →
      Enter f calls w ⟨f.scope, i.receiver⟩ calls w

/-- Code in a frame that leads from one world to another, back in its frame. -/
inductive Trace (D : Dialect) : Frame → List Invocation → World → World → Prop
  | refl {f : Frame} {calls : List Invocation} {w : World} : Trace D f calls w w
  | step {f : Frame} {calls : List Invocation} {w w₁ w₂ : World} : Step D f.scope w w₁ →
      Trace D f calls w₁ w₂ → Trace D f calls w w₂
  | inner {f f' : Frame} {calls calls' : List Invocation} {w w₁ w₂ w₃ : World} :
      Enter f calls w f' calls' w₁ → Trace D f' calls' w₁ w₂ → Trace D f calls w₂ w₃ →
      Trace D f calls w w₃

/-- Code in a frame that leads from one world to a moment in some frame. -/
inductive Reach (D : Dialect) : Frame → List Invocation → World → Frame → List Invocation →
    World → Prop
  | here {f : Frame} {calls : List Invocation} {w w' : World} : Trace D f calls w w' →
      Reach D f calls w f calls w'
  | inside {f f' f'' : Frame} {calls calls' calls'' : List Invocation} {w w₁ w₂ w₃ : World} :
      Trace D f calls w w₁ → Enter f calls w₁ f' calls' w₂ →
      Reach D f' calls' w₂ f'' calls'' w₃ → Reach D f calls w f'' calls'' w₃

section Traces

variable {D : Dialect} {f : Frame} {calls : List Invocation} {w w₁ w₂ : World}

theorem Trace.trans (h : Trace D f calls w w₁) (i : Trace D f calls w₁ w₂) :
    Trace D f calls w w₂ := by
  induction h with
  | refl => exact i
  | step s _ ih => exact .step s (ih i)
  | inner e t _ _ ih => exact .inner e t (ih i)

theorem Trace.one (s : Step D f.scope w w₁) : Trace D f calls w w₁ := .step s .refl

theorem Trace.reach {f' : Frame} {calls' : List Invocation} (h : Trace D f calls w w₁)
    (r : Reach D f calls w₁ f' calls' w₂) : Reach D f calls w f' calls' w₂ := by
  cases r with
  | here t => exact .here (h.trans t)
  | inside t e r => exact .inside (h.trans t) e r

end Traces

end ScopeLang
