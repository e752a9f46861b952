/-
# Where control may stand

`break` and `continue` belong into a loop, `return` into the body of a function
or into a program.  What stands where is a property of the text: `placed` goes
through a statement with the place it stands in, and starts anew in the body of
every function and class.

The code that a world holds is the bodies of its functions and methods.  A world
is `Placed` if control stands where it may in all of them.  Nothing but a
definition adds code, so that for every other change the two stores of
procedures stay as they are (`SameCode`), and a definition adds code from the
text of the program, where the accessor of a method body may have been resolved.
-/
import ScopeLang.Host.Native
import ScopeLang.Proofs.Copies

namespace ScopeLang

/-! ## Statements -/

/-- A place in a body. -/
structure Place where
  /-- Inside a loop of this body. -/
  loop : Bool
  /-- In the body of a function, or at the top level. -/
  returns : Bool
deriving DecidableEq, Inhabited

namespace Place

/-- The body of a function, and the top level. -/
def body : Place := ⟨false, true⟩

def classBody : Place := ⟨false, false⟩

def inLoop (p : Place) : Place := { p with loop := true }

/-- The outcomes of a statement that stands at a place. -/
def allows (p : Place) : Outcome → Bool
  | .settled _ | .thrown _ => true
  | .returned _ => p.returns
  | .broke | .continued => p.loop

end Place

mutual

/-- Whether the signals of a statement that stands at a place may stand there. -/
def Statement.placed (p : Place) : Statement → Bool
  | ⟨node, _⟩ => node.placed p

def Node.placed (p : Place) : Node → Bool
  | .expression _ | .declare _ | .assign _ _ | .throw _ | .typeAlias _ _ => true
  | .block body => blockPlaced p body
  | .cond branches none => branchesPlaced p branches
  | .cond branches (some otherwise) => branchesPlaced p branches && blockPlaced p otherwise
  | .loop _ body => blockPlaced p.inLoop body
  | .return _ => p.returns
  | .break | .continue => p.loop
  | .function declaration => declaration.placed
  | .classDef declaration => declaration.placed

def Branch.placed (p : Place) : Branch → Bool
  | ⟨_, body⟩ => blockPlaced p body

def FunctionDecl.placed : FunctionDecl → Bool
  | ⟨_, _, _, _, body⟩ => blockPlaced .body body

def ClassDecl.placed : ClassDecl → Bool
  | ⟨_, _, body⟩ => blockPlaced .classBody body

def blockPlaced (p : Place) : List Statement → Bool
  | [] => true
  | s :: rest => s.placed p && blockPlaced p rest

def branchesPlaced (p : Place) : List Branch → Bool
  | [] => true
  | b :: rest => b.placed p && branchesPlaced p rest

end

theorem FunctionDecl.placed_eq (f : FunctionDecl) : f.placed = blockPlaced .body f.body := by
  cases f
  rfl

mutual

theorem Statement.placed_stripAccessor (accessor : String) (p : Place) :
    ∀ s : Statement, (s.stripAccessor accessor).placed p = s.placed p
  | ⟨node, _⟩ => node.placed_stripAccessor accessor p

theorem Node.placed_stripAccessor (accessor : String) (p : Place) :
    ∀ n : Node, (n.stripAccessor accessor).placed p = n.placed p
  | .block body => blockPlaced_stripBlock accessor p body
  | .cond branches none => branchesPlaced_stripBranches accessor p branches
  | .cond branches (some otherwise) =>
      congrArg₂ (· && ·) (branchesPlaced_stripBranches accessor p branches)
        (blockPlaced_stripBlock accessor p otherwise)
  | .loop _ body => blockPlaced_stripBlock accessor p.inLoop body
  | .return none | .return (some _) => rfl
  | .expression _ | .declare _ | .assign _ _ | .throw _ | .typeAlias _ _ => rfl
  | .break | .continue | .function _ | .classDef _ => rfl

theorem Branch.placed_stripAccessor (accessor : String) (p : Place) :
    ∀ b : Branch, (b.stripAccessor accessor).placed p = b.placed p
  | ⟨_, body⟩ => blockPlaced_stripBlock accessor p body

/-- Resolving the accessor moves no signal. -/
theorem blockPlaced_stripBlock (accessor : String) (p : Place) :
    ∀ body : List Statement, blockPlaced p (stripBlock accessor body) = blockPlaced p body
  | [] => rfl
  | s :: rest =>
      congrArg₂ (· && ·) (s.placed_stripAccessor accessor p)
        (blockPlaced_stripBlock accessor p rest)

theorem branchesPlaced_stripBranches (accessor : String) (p : Place) :
    ∀ bs : List Branch, branchesPlaced p (stripBranches accessor bs) = branchesPlaced p bs
  | [] => rfl
  | b :: rest =>
      congrArg₂ (· && ·) (b.placed_stripAccessor accessor p)
        (branchesPlaced_stripBranches accessor p rest)

end

/-! ## The code of a world -/

/-- Whether control stands where it may in a body. -/
def Body.placed : Body → Bool
  | .user statements => blockPlaced .body statements
  | .native _ => true

namespace World

/-- Control stands where it may in the body of every function and method. -/
structure Placed (w : World) : Prop where
  function : ∀ h, (w.function h).procedure.body.placed = true
  method : ∀ h, (w.method h).procedure.body.placed = true

/-- The functions and methods are the same. -/
structure SameCode (w w' : World) : Prop where
  functions : w'.functions = w.functions
  methods : w'.methods = w.methods

variable {w w₁ w₂ : World}

namespace SameCode

theorem refl (w : World) : w.SameCode w := ⟨rfl, rfl⟩

theorem trans (h : w.SameCode w₁) (i : w₁.SameCode w₂) : w.SameCode w₂ :=
  ⟨i.functions.trans h.functions, i.methods.trans h.methods⟩

theorem placed (h : w.SameCode w₁) (placed : w.Placed) : w₁.Placed where
  function i := by
    rw [World.function, h.functions]
    exact placed.function i
  method i := by
    rw [World.method, h.methods]
    exact placed.method i

end SameCode

theorem Placed.newFunction (h : w.Placed) {x : Function} (code : x.procedure.body.placed = true) :
    (w.newFunction x).2.Placed where
  function i := by
    rw [function_newFunction]
    split
    · exact code
    · exact h.function i
  method i := h.method i

theorem Placed.newMethod (h : w.Placed) {x : Method} (code : x.procedure.body.placed = true) :
    (w.newMethod x).2.Placed where
  function i := h.function i
  method i := by
    rw [method_newMethod]
    split
    · exact code
    · exact h.method i

/-! ### What adds no code -/

section Same

variable {α β : Type}

theorem sameCode_mapState {f : α → World → β × World} (each : ∀ a w, SameCode w (f a w).2) :
    ∀ (items : List α) (w : World), w.SameCode (mapState f items w).2
  | [], w => .refl w
  | a :: rest, w => (each a w).trans (sameCode_mapState each rest _)

theorem sameCode_duplicateBy {copy : Value → World → Value × World}
    (each : ∀ v w, SameCode w (copy v w).2) (v : Value) (w : World) :
    w.SameCode (duplicateBy copy v w).2 := by
  simp only [duplicateBy]
  split
  · exact .refl w
  · exact each v w

theorem sameCode_mapBindings {f : Value → World → Value × World}
    (each : ∀ v w, SameCode w (f v w).2) (t : Table Binding) (w : World) :
    w.SameCode (mapBindings f t w).2 := by
  refine sameCode_mapState (fun e w => ?_) t.entries w
  exact ⟨(each e.2.value w).functions, (each e.2.value w).methods⟩

theorem sameCode_copyWithin : ∀ (n : Nat) (v : Value) (w : World), w.SameCode (copyWithin n v w).2
  | 0, _, w => .refl w
  | n + 1, ⟨d, a⟩, w => by
    have ih : ∀ v w, SameCode w (copyWithin n v w).2 := sameCode_copyWithin n
    cases d with
    | list h =>
      rw [copyWithin_list]
      exact (sameCode_mapState ih _ w).trans ⟨rfl, rfl⟩
    | array h =>
      rw [copyWithin_array]
      exact (sameCode_mapState ih _ w).trans ⟨rfl, rfl⟩
    | dict h =>
      rw [copyWithin_dict]
      refine (sameCode_mapState (fun e w => ?_) _ w).trans ⟨rfl, rfl⟩
      exact (ih e.1 w).trans (ih e.2 _)
    | set h =>
      rw [copyWithin_set]
      exact (sameCode_mapState ih _ w).trans ⟨rfl, rfl⟩
    | object h =>
      rw [copyWithin_object]
      have members := sameCode_mapBindings (sameCode_duplicateBy ih) (w.scope (w.inst h).scope).bindings w
      exact ⟨members.functions, members.methods⟩
    | _ => exact .refl w

theorem sameCode_duplicate (w : World) (v : Value) : w.SameCode (w.duplicate v).2 :=
  sameCode_duplicateBy (fun v w => sameCode_copyWithin _ v w) v w

theorem sameCode_prepare (b : Binding) (v : Value) (w : World) : w.SameCode (b.prepare v w).2 := by
  simp only [Binding.prepare]
  split
  · exact .refl w
  · exact w.sameCode_duplicate v

theorem sameCode_captureVariables (w : World) (s : ScopeId) :
    ∀ names, w.SameCode (w.captureVariables s names).2
  | [] => .refl w
  | name :: rest => by
    have ih := sameCode_captureVariables w s rest
    simp only [captureVariables]
    split
    · exact ih
    · exact ih.trans (sameCode_copyWithin _ _ _)

theorem sameCode_detachAs (w : World) (s : ScopeId) (kind : ScopeKind) (names : List String)
    (label : String) : w.SameCode (w.detachAs s kind names label).2 :=
  have derived : w.SameCode (w.derive s kind label (some s)).2 := ⟨rfl, rfl⟩
  (derived.trans (sameCode_captureVariables _ s names)).trans ⟨rfl, rfl⟩

theorem sameCode_isolate (w : World) (s : ScopeId) (names : List String) (label : String) :
    w.SameCode (w.isolate s names label).2 :=
  have derived : w.SameCode (w.derive s .isolated label none).2 := ⟨rfl, rfl⟩
  (derived.trans (sameCode_captureVariables _ s names)).trans ⟨rfl, rfl⟩

theorem sameCode_functionDefScope (w : World) (s : ScopeId) (f : FunctionDecl) :
    w.SameCode (w.functionDefScope s f).2 := by
  simp only [functionDefScope]
  split
  · exact w.sameCode_isolate s [] f.name
  · exact w.sameCode_detachAs s .detached f.freeNames f.name

theorem sameCode_removeChild (w : World) (s child : ScopeId) :
    w.SameCode (w.removeChild s child) := by
  simp only [removeChild]
  split
  · exact ⟨rfl, rfl⟩
  · exact .refl w

theorem sameCode_withPool (w : World) (s : ScopeId) (f : TypePool → α × TypePool) :
    w.SameCode (w.withPool s f).2 :=
  ⟨rfl, rfl⟩

theorem sameCode_bindParameter (s : ScopeId) (p : Parameter) (w : World) :
    w.SameCode (bindParameter s p w).2 :=
  ⟨rfl, rfl⟩

theorem sameCode_bindProcedure (s : ScopeId) (name : String) (parameters : List Parameter)
    (returns : Option TypeExpr) (body : Body) (w : World) :
    w.SameCode (bindProcedure s name parameters returns body w).2 :=
  have bound := sameCode_mapState (sameCode_bindParameter s) parameters w
  ⟨bound.functions, bound.methods⟩

theorem sameCode_registerFunction (w : World) (s : ScopeId) (name : String) (o : Overload) :
    w.SameCode (w.registerFunction s name o) := by
  simp only [registerFunction]
  split <;> exact ⟨rfl, rfl⟩

theorem sameCode_setClassTable (w : World) (s : ScopeId) (classes : ClassTable) :
    w.SameCode (w.setClassTable s classes) := by
  simp only [setClassTable]
  split <;> exact ⟨rfl, rfl⟩

theorem sameCode_makeInstance (w : World) (c : ClassId) : w.SameCode (w.makeInstance c).2 :=
  have members := sameCode_mapBindings (fun v w => w.sameCode_duplicate v)
    ((w.scope (w.classOf c).scope).bindings.filter fun b => !b.flags.isStatic)
    (w.makeCallScope (w.classOf c).scope .members (w.classOf c).name).2
  ⟨members.functions, members.methods⟩

theorem sameCode_addClass (w : World) (s : ScopeId) (name accessor : String)
    (captured : Option ScopeId) : w.SameCode (w.addClass s name accessor captured).2 :=
  ⟨rfl, rfl⟩

theorem sameCode_openClass (w : World) (s : ScopeId) (d : ClassDecl) (accessor : String) :
    w.SameCode (w.openClass s d accessor).2 :=
  (w.sameCode_detachAs s .classDef d.freeNames d.name).trans ⟨rfl, rfl⟩

end Same

/-! ### What adds code -/

theorem Placed.addFunction (h : w.Placed) {x : Procedure} (code : x.body.placed = true)
    (s : ScopeId) (name : String) (captured : Option ScopeId) (primary : Role)
    (secondary : Option Role) : (w.addFunction s name x captured primary secondary).Placed :=
  (sameCode_registerFunction _ s name _).placed (h.newFunction code)

theorem Placed.addMethod (h : w.Placed) {x : Procedure} (code : x.body.placed = true)
    (c : ClassId) (name : String) (primary : Role) (secondary : Option Role) :
    (w.addMethod c name x primary secondary).Placed :=
  (sameCode_registerFunction _ _ name _).placed (h.newMethod code)

theorem Placed.defineFunction (h : w.Placed) {f : FunctionDecl} (code : f.placed = true)
    (s : ScopeId) : (w.defineFunction s f).Placed := by
  have captured := w.sameCode_functionDefScope s f
  have bound := captured.trans
    (sameCode_bindProcedure s f.name f.parameters f.returns (.user f.body) _)
  refine (sameCode_registerFunction _ s f.name _).placed ((bound.placed h).newFunction ?_)
  exact f.placed_eq.symm.trans code

theorem Placed.defineMethod (h : w.Placed) {f : FunctionDecl} (code : f.placed = true)
    (c : ClassId) : (w.defineMethod c f).Placed := by
  have bound := w.sameCode_bindProcedure (w.classOf c).scope f.name f.parameters f.returns
    (.user (stripBlock (w.classOf c).accessor f.body))
  rw [f.placed_eq, ← blockPlaced_stripBlock (w.classOf c).accessor] at code
  exact (sameCode_registerFunction _ _ f.name _).placed ((bound.placed h).newMethod code)

/-- The host adds no code of the program. -/
theorem Placed.addNative (h : w.Placed) (s : ScopeId) (name : String)
    (parameters : List Parameter) (returns : Option TypeExpr) (body : String) :
    (w.addNative s name parameters returns body).Placed := by
  have bound := w.sameCode_bindProcedure s name parameters returns (.native body)
  exact (bound.placed h).addFunction rfl s name none .native none

theorem Placed.addNativeMethod (h : w.Placed) (s : ScopeId) (c : ClassId) (name : String)
    (parameters : List Parameter) (returns : Option TypeExpr) (body : String) :
    (w.addNativeMethod s c name parameters returns body).Placed := by
  have bound := w.sameCode_bindProcedure s name parameters returns (.native body)
  exact (bound.placed h).addMethod rfl c name .method none

theorem Placed.addAll (h : w.Placed) (c : ClassId) : ∀ (methods : List NativeMethod),
    (methods.foldl (fun w m => m.add c w) w).Placed := by
  intro methods
  induction methods generalizing w with
  | nil => exact h
  | cons m rest ih =>
    have bound := w.sameCode_bindProcedure (w.classOf c).scope m.name m.parameters none
      (.native m.body)
    exact ih ((bound.placed h).addMethod rfl c m.name .method (some .native))

end World

end ScopeLang
