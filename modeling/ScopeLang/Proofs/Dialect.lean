/-
# Dialects

Some properties hold of every program, others only of programs that leave
something out.  A dialect says what may be used: variables that share instead
of copying, bodies of the host, and what these may do.

What a program says about sharing is all in the flags of its declarations and
parameters.  `marks` lists them, nested definitions included, and resolving
the accessor in a method body neither adds nor drops one.
-/
import ScopeLang.Program.Accessor
import Mathlib.Logic.Basic

namespace ScopeLang

/-! ## The marks of a program -/

mutual

/-- The flags that an expression declares variables with. -/
def Expr.marks : Expr → List Flags
  | ⟨term, _⟩ => term.marks

def Term.marks : Term → List Flags
  | .literal _ | .variable _ | .receiver => []
  | .sequence _ items => exprMarks items
  | .dict entries => entryMarks entries
  | .unary _ operand => operand.marks
  | .binary _ left right => left.marks ++ right.marks
  | .logical _ left right => left.marks ++ right.marks
  | .call _ arguments => argumentMarks arguments
  | .callValue callee arguments => callee.marks ++ argumentMarks arguments
  | .chain _ elements => elementMarks elements

def Entry.marks : Entry → List Flags
  | ⟨key, value⟩ => key.marks ++ value.marks

def Argument.marks : Argument → List Flags
  | ⟨_, value⟩ => value.marks

def Element.marks : Element → List Flags
  | .read _ => []
  | .assign _ value => value.marks
  | .declare declaration => declaration.marks
  | .call _ arguments => argumentMarks arguments

def VariableDecl.marks : VariableDecl → List Flags
  | ⟨_, _, some initial, flags⟩ => flags :: initial.marks
  | ⟨_, _, none, flags⟩ => [flags]

def exprMarks : List Expr → List Flags
  | [] => []
  | e :: rest => e.marks ++ exprMarks rest

def entryMarks : List Entry → List Flags
  | [] => []
  | e :: rest => e.marks ++ entryMarks rest

def argumentMarks : List Argument → List Flags
  | [] => []
  | a :: rest => a.marks ++ argumentMarks rest

def elementMarks : List Element → List Flags
  | [] => []
  | e :: rest => e.marks ++ elementMarks rest

end

/-- The flags of a parameter and those in its default. -/
def Parameter.marks (p : Parameter) : List Flags :=
  p.flags :: (p.default.map Expr.marks).getD []

mutual

/-- The flags that a statement declares variables and parameters with. -/
def Statement.marks : Statement → List Flags
  | ⟨node, _⟩ => node.marks

def Node.marks : Node → List Flags
  | .expression value => value.marks
  | .declare declaration => declaration.marks
  | .assign _ value => value.marks
  | .block body => blockMarks body
  | .cond branches none => branchMarks branches
  | .cond branches (some otherwise) => branchMarks branches ++ blockMarks otherwise
  | .loop condition body => condition.marks ++ blockMarks body
  | .return none => []
  | .return (some value) => value.marks
  | .break | .continue => []
  | .throw value => value.marks
  | .function declaration => declaration.marks
  | .classDef declaration => declaration.marks
  | .typeAlias _ _ => []

def Branch.marks : Branch → List Flags
  | ⟨condition, body⟩ => condition.marks ++ blockMarks body

def FunctionDecl.marks : FunctionDecl → List Flags
  | ⟨_, _, parameters, _, body⟩ => parameters.flatMap Parameter.marks ++ blockMarks body

def ClassDecl.marks : ClassDecl → List Flags
  | ⟨_, _, body⟩ => blockMarks body

def blockMarks : List Statement → List Flags
  | [] => []
  | s :: rest => s.marks ++ blockMarks rest

def branchMarks : List Branch → List Flags
  | [] => []
  | b :: rest => b.marks ++ branchMarks rest

end

/-! ## Marks and the accessor -/

theorem resolveVariable_marks (accessor name : String) :
    (resolveVariable accessor name).marks = [] := by
  simp only [resolveVariable]
  split <;> rfl

theorem resolveChain_marks (accessor : String) (origin : ChainOrigin) (elements : List Element) :
    (resolveChain accessor origin elements).marks = elementMarks elements := by
  cases origin with
  | receiver => rfl
  | scope =>
    cases elements with
    | nil => rfl
    | cons head rest =>
      cases head with
      | read name =>
        simp only [resolveChain]
        split
        · split
          · rename_i empty
            rw [List.isEmpty_iff.mp empty]
            rfl
          · rfl
        · rfl
      | assign => rfl
      | declare => rfl
      | call => rfl

mutual

theorem Expr.marks_stripAccessor (accessor : String) :
    ∀ e : Expr, (e.stripAccessor accessor).marks = e.marks
  | ⟨term, _⟩ => term.marks_stripAccessor accessor

theorem Term.marks_stripAccessor (accessor : String) :
    ∀ t : Term, (t.stripAccessor accessor).marks = t.marks
  | .literal _ => rfl
  | .variable name => resolveVariable_marks accessor name
  | .receiver => rfl
  | .sequence _ items => exprMarks_stripExprs accessor items
  | .dict entries => entryMarks_stripEntries accessor entries
  | .unary _ operand => operand.marks_stripAccessor accessor
  | .binary _ left right =>
      congrArg₂ (· ++ ·) (left.marks_stripAccessor accessor) (right.marks_stripAccessor accessor)
  | .logical _ left right =>
      congrArg₂ (· ++ ·) (left.marks_stripAccessor accessor) (right.marks_stripAccessor accessor)
  | .call _ arguments => argumentMarks_stripArguments accessor arguments
  | .callValue callee arguments =>
      congrArg₂ (· ++ ·) (callee.marks_stripAccessor accessor)
        (argumentMarks_stripArguments accessor arguments)
  | .chain origin elements =>
      (resolveChain_marks accessor origin _).trans (elementMarks_stripElements accessor elements)

theorem Entry.marks_stripAccessor (accessor : String) :
    ∀ e : Entry, (e.stripAccessor accessor).marks = e.marks
  | ⟨key, value⟩ =>
      congrArg₂ (· ++ ·) (key.marks_stripAccessor accessor) (value.marks_stripAccessor accessor)

theorem Argument.marks_stripAccessor (accessor : String) :
    ∀ a : Argument, (a.stripAccessor accessor).marks = a.marks
  | ⟨_, value⟩ => value.marks_stripAccessor accessor

theorem Element.marks_stripAccessor (accessor : String) :
    ∀ e : Element, (e.stripAccessor accessor).marks = e.marks
  | .read _ => rfl
  | .assign _ value => value.marks_stripAccessor accessor
  | .declare declaration => declaration.marks_stripAccessor accessor
  | .call _ arguments => argumentMarks_stripArguments accessor arguments

theorem VariableDecl.marks_stripAccessor (accessor : String) :
    ∀ d : VariableDecl, (d.stripAccessor accessor).marks = d.marks
  | ⟨_, _, some initial, flags⟩ =>
      congrArg (flags :: ·) (initial.marks_stripAccessor accessor)
  | ⟨_, _, none, _⟩ => rfl

theorem exprMarks_stripExprs (accessor : String) :
    ∀ es : List Expr, exprMarks (stripExprs accessor es) = exprMarks es
  | [] => rfl
  | e :: rest =>
      congrArg₂ (· ++ ·) (e.marks_stripAccessor accessor) (exprMarks_stripExprs accessor rest)

theorem entryMarks_stripEntries (accessor : String) :
    ∀ es : List Entry, entryMarks (stripEntries accessor es) = entryMarks es
  | [] => rfl
  | e :: rest =>
      congrArg₂ (· ++ ·) (e.marks_stripAccessor accessor) (entryMarks_stripEntries accessor rest)

theorem argumentMarks_stripArguments (accessor : String) :
    ∀ as : List Argument, argumentMarks (stripArguments accessor as) = argumentMarks as
  | [] => rfl
  | a :: rest =>
      congrArg₂ (· ++ ·) (a.marks_stripAccessor accessor)
        (argumentMarks_stripArguments accessor rest)

theorem elementMarks_stripElements (accessor : String) :
    ∀ es : List Element, elementMarks (stripElements accessor es) = elementMarks es
  | [] => rfl
  | e :: rest =>
      congrArg₂ (· ++ ·) (e.marks_stripAccessor accessor)
        (elementMarks_stripElements accessor rest)

end

mutual

theorem Statement.marks_stripAccessor (accessor : String) :
    ∀ s : Statement, (s.stripAccessor accessor).marks = s.marks
  | ⟨node, _⟩ => node.marks_stripAccessor accessor

theorem Node.marks_stripAccessor (accessor : String) :
    ∀ n : Node, (n.stripAccessor accessor).marks = n.marks
  | .expression value => value.marks_stripAccessor accessor
  | .declare declaration => declaration.marks_stripAccessor accessor
  | .assign _ value => value.marks_stripAccessor accessor
  | .block body => blockMarks_stripBlock accessor body
  | .cond branches none => branchMarks_stripBranches accessor branches
  | .cond branches (some otherwise) =>
      congrArg₂ (· ++ ·) (branchMarks_stripBranches accessor branches)
        (blockMarks_stripBlock accessor otherwise)
  | .loop condition body =>
      congrArg₂ (· ++ ·) (condition.marks_stripAccessor accessor)
        (blockMarks_stripBlock accessor body)
  | .return none => rfl
  | .return (some value) => value.marks_stripAccessor accessor
  | .break => rfl
  | .continue => rfl
  | .throw value => value.marks_stripAccessor accessor
  | .function _ => rfl
  | .classDef _ => rfl
  | .typeAlias _ _ => rfl

theorem Branch.marks_stripAccessor (accessor : String) :
    ∀ b : Branch, (b.stripAccessor accessor).marks = b.marks
  | ⟨condition, body⟩ =>
      congrArg₂ (· ++ ·) (condition.marks_stripAccessor accessor)
        (blockMarks_stripBlock accessor body)

theorem blockMarks_stripBlock (accessor : String) :
    ∀ body : List Statement, blockMarks (stripBlock accessor body) = blockMarks body
  | [] => rfl
  | s :: rest =>
      congrArg₂ (· ++ ·) (s.marks_stripAccessor accessor) (blockMarks_stripBlock accessor rest)

theorem branchMarks_stripBranches (accessor : String) :
    ∀ bs : List Branch, branchMarks (stripBranches accessor bs) = branchMarks bs
  | [] => rfl
  | b :: rest =>
      congrArg₂ (· ++ ·) (b.marks_stripAccessor accessor)
        (branchMarks_stripBranches accessor rest)

end

/-! ## Dialects -/

/-- What programs and hosts may use. -/
structure Dialect where
  /-- Variables that share their values with others. -/
  sharing : Prop
  /-- Bodies of the host. -/
  natives : String → Prop
  /-- Defaults for the parameters of methods of the host. -/
  hostDefaults : Prop
  /-- Bodies of the host that write to variables. -/
  hostWrites : Prop

namespace Dialect

/-- All programs, and hosts with some bodies that may write to variables. -/
def full (natives : String → Prop) : Dialect := ⟨True, natives, True, True⟩

/-- All programs, and hosts with some bodies that write to no variables. -/
def checked (natives : String → Prop) : Dialect := ⟨True, natives, True, False⟩

/-- All programs, and hosts with some bodies that write to no variables and whose methods have no
defaults. -/
def plain (natives : String → Prop) : Dialect := ⟨True, natives, False, False⟩

/-- Programs in which no variable shares its value, and hosts without bodies. -/
def copying : Dialect := ⟨False, fun _ => False, False, False⟩

/-- Whether the variables that are declared with some flags are allowed. -/
def Admits (D : Dialect) (marks : List Flags) : Prop :=
  ∀ f ∈ marks, f.isMutable = true → D.sharing

variable {D : Dialect}

theorem admits_of_sharing (sharing : D.sharing) (marks : List Flags) : D.Admits marks :=
  fun _ _ _ => sharing

@[simp] theorem admits_nil : D.Admits [] := fun _ h => absurd h List.not_mem_nil

@[simp] theorem admits_append {xs ys : List Flags} :
    D.Admits (xs ++ ys) ↔ D.Admits xs ∧ D.Admits ys := by
  simp only [Admits, List.mem_append]
  constructor
  · intro h
    exact ⟨fun f hf => h f (.inl hf), fun f hf => h f (.inr hf)⟩
  · rintro ⟨hx, hy⟩ f (hf | hf)
    · exact hx f hf
    · exact hy f hf

@[simp] theorem admits_cons {f : Flags} {fs : List Flags} :
    D.Admits (f :: fs) ↔ (f.isMutable = true → D.sharing) ∧ D.Admits fs := by
  simp [Admits]

theorem admits_flatMap {α : Type} {xs : List α} {marks : α → List Flags} :
    D.Admits (xs.flatMap marks) ↔ ∀ x ∈ xs, D.Admits (marks x) := by
  simp only [Admits, List.mem_flatMap]
  constructor
  · intro h x hx f hf
    exact h f ⟨x, hx, hf⟩
  · rintro h f ⟨x, hx, hf⟩
    exact h x hx f hf

end Dialect

end ScopeLang
