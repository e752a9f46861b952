/-
# What the code of a definition looks up

A definition keeps copies of its free names, which are collected in one pass over
the text: the names that it refers to, less the names that it binds anywhere.  When
its code runs, a declaration takes effect where it stands and ends with its block.
`Meets` follows the code in this way, from the first default to the last
statement, up to a look-up of a name that has not been declared yet.

* `Expr.Mentions n e`: some part of `e` reads, assigns or calls the variable `n`.
* `Passes n body`: the statements can be run to their end without declaring `n`.
* `Meets n ps body`: code that installs the parameters `ps` and then runs `body`
  can look `n` up at a point where no declaration of it is in force.
* `Declares n body`: `n` is declared somewhere in the body or its blocks.

Whatever is met and not declared is collected.  A name that is met and declared
further on is not, and this is where the two notions of scope part.
-/
import ScopeLang.Program.FreeNames
import Mathlib.Data.List.Basic

namespace ScopeLang

variable {n : String}

/-! ## Expressions -/

/-- The expressions right below an element of a chain. -/
def Element.parts : Element → List Expr
  | .read _ => []
  | .assign _ value => [value]
  | .declare declaration => declaration.initial.toList
  | .call _ arguments => arguments.map Argument.value

/-- The expressions right below a term. -/
def Term.parts : Term → List Expr
  | .literal _ | .variable _ | .receiver => []
  | .sequence _ items => items
  | .dict entries => entries.flatMap fun e => [e.key, e.value]
  | .unary _ operand => [operand]
  | .binary _ left right | .logical _ left right => [left, right]
  | .call _ arguments => arguments.map Argument.value
  | .callValue callee arguments => callee :: arguments.map Argument.value
  | .chain _ elements => elements.flatMap Element.parts

/-- The variable that a term itself reads, assigns or calls.  In a chain it is the first name;
those after it are members. -/
def Term.lookup? : Term → Option String
  | .variable name => some name
  | .call callee _ => some callee
  | .chain .scope (.read name :: _) => some name
  | .chain .scope (.assign name _ :: _) => some name
  | .chain .scope (.call name _ :: _) => some name
  | _ => none

/-- Some part of an expression reads, assigns or calls a variable. -/
inductive Expr.Mentions (n : String) : Expr → Prop
  | here {e : Expr} : e.term.lookup? = some n → Mentions n e
  | inside {e part : Expr} : part ∈ e.term.parts → Mentions n part → Mentions n e

theorem mem_exprReferences {es : List Expr} :
    n ∈ exprReferences es ↔ ∃ e ∈ es, n ∈ e.references := by
  induction es with
  | nil => simp [exprReferences]
  | cons e rest ih => simp [exprReferences, ih]

theorem mem_argumentReferences {as : List Argument} :
    n ∈ argumentReferences as ↔ ∃ a ∈ as, n ∈ a.value.references := by
  induction as with
  | nil => simp [argumentReferences]
  | cons a rest ih =>
    obtain ⟨_, value⟩ := a
    simp [argumentReferences, Argument.references, ih]

theorem mem_entryReferences {es : List Entry} :
    n ∈ entryReferences es ↔ ∃ e ∈ es, n ∈ e.key.references ∨ n ∈ e.value.references := by
  induction es with
  | nil => simp [entryReferences]
  | cons e rest ih =>
    obtain ⟨key, value⟩ := e
    simp [entryReferences, Entry.references, ih, or_assoc]

theorem mem_elementReferences {es : List Element} :
    n ∈ elementReferences es ↔ ∃ e ∈ es, n ∈ e.references := by
  induction es with
  | nil => simp [elementReferences]
  | cons e rest ih => simp [elementReferences, ih]

theorem VariableDecl.references_eq (d : VariableDecl) :
    d.references = (d.initial.map Expr.references).getD [] := by
  obtain ⟨_, _, initial, _⟩ := d
  cases initial <;> rfl

/-- An element refers to what its parts refer to. -/
theorem Element.references_of_part {e : Element} {part : Expr} (mem : part ∈ e.parts)
    (h : n ∈ part.references) : n ∈ e.references := by
  cases e with
  | read name => exact absurd mem List.not_mem_nil
  | assign name value => exact List.mem_singleton.mp mem ▸ h
  | declare d =>
    rw [Element.references, d.references_eq, Option.mem_toList.mp mem]
    exact h
  | call name arguments =>
    obtain ⟨a, ha, rfl⟩ := List.mem_map.mp mem
    exact mem_argumentReferences.mpr ⟨a, ha, h⟩

/-- A term refers to what its parts refer to. -/
theorem Term.references_of_part {t : Term} {part : Expr} (mem : part ∈ t.parts)
    (h : n ∈ part.references) : n ∈ t.references := by
  have pair : ∀ {a b : Expr}, part ∈ [a, b] → n ∈ a.references ++ b.references := by
    intro a b mem
    rcases List.mem_pair.mp mem with rfl | rfl
    · exact List.mem_append_left _ h
    · exact List.mem_append_right _ h
  cases t with
  | literal _ | «variable» _ | receiver => exact absurd mem List.not_mem_nil
  | sequence kind items => exact mem_exprReferences.mpr ⟨part, mem, h⟩
  | dict entries =>
    obtain ⟨e, he, mem⟩ := List.mem_flatMap.mp mem
    exact mem_entryReferences.mpr ⟨e, he, List.mem_append.mp (pair mem)⟩
  | unary op operand => exact List.mem_singleton.mp mem ▸ h
  | binary op left right => exact pair mem
  | logical op left right => exact pair mem
  | call callee arguments =>
    obtain ⟨a, ha, rfl⟩ := List.mem_map.mp mem
    exact List.mem_cons_of_mem _ (mem_argumentReferences.mpr ⟨a, ha, h⟩)
  | callValue callee arguments =>
    rcases List.mem_cons.mp mem with rfl | mem
    · exact List.mem_append_left _ h
    · obtain ⟨a, ha, rfl⟩ := List.mem_map.mp mem
      exact List.mem_append_right _ (mem_argumentReferences.mpr ⟨a, ha, h⟩)
  | chain origin elements =>
    obtain ⟨e, he, mem⟩ := List.mem_flatMap.mp mem
    exact List.mem_append_right _
      (mem_elementReferences.mpr ⟨e, he, e.references_of_part mem h⟩)

/-- A term refers to the variable that it looks up itself. -/
theorem Term.references_of_lookup {t : Term} (h : t.lookup? = some n) : n ∈ t.references := by
  cases t with
  | «variable» name => exact Option.some.inj h ▸ List.mem_singleton_self name
  | call callee arguments => exact Option.some.inj h ▸ List.mem_cons_self
  | chain origin elements =>
    refine List.mem_append_left _ ?_
    cases origin with
    | receiver => exact absurd h nofun
    | scope =>
      cases elements with
      | nil => exact absurd h nofun
      | cons head rest =>
        cases head with
        | declare _ => exact absurd h nofun
        | read name | assign name _ | call name _ =>
          exact Option.some.inj h ▸ List.mem_singleton_self name
  | _ => exact absurd h nofun

/-- Whatever an expression mentions it refers to. -/
theorem Expr.Mentions.references {e : Expr} (h : e.Mentions n) : n ∈ e.references := by
  induction h with
  | @here e found =>
    obtain ⟨term, _⟩ := e
    exact Term.references_of_lookup found
  | @inside e part mem _ ih =>
    obtain ⟨term, _⟩ := e
    exact Term.references_of_part mem ih

/-! ## Statements -/

namespace Node

/-- The name that a statement declares in the scope that it is run in. -/
def declared? : Node → Option String
  | .declare d => some d.name
  | .function d => some d.name
  | .classDef d => some d.name
  | _ => none

/-- The variable that a statement assigns. -/
def assigned? : Node → Option String
  | .assign name _ => some name
  | _ => none

/-- The expressions that a statement evaluates, apart from those in its blocks. -/
def operands : Node → List Expr
  | .expression value | .assign _ value | .return (some value) | .throw value => [value]
  | .declare d => d.initial.toList
  | .cond branches _ => branches.map Branch.condition
  | .loop condition _ => [condition]
  | _ => []

/-- The blocks of a statement. -/
def blocks : Node → List (List Statement)
  | .block body | .loop _ body => [body]
  | .cond branches otherwise => branches.map Branch.body ++ otherwise.toList
  | _ => []

/-- Whether one of the blocks of a statement is run, in the scope of the statement itself. -/
def chooses : Node → Bool
  | .cond _ (some _) => true
  | _ => false

end Node

/-- Statements that declare a name, on their own or in their blocks.  Other definitions are not
looked into. -/
inductive Declares (n : String) : List Statement → Prop
  | here {s : Statement} {rest : List Statement} : s.node.declared? = some n →
      Declares n (s :: rest)
  | inside {s : Statement} {body rest : List Statement} : body ∈ s.node.blocks →
      Declares n body → Declares n (s :: rest)
  | later {s : Statement} {rest : List Statement} : Declares n rest → Declares n (s :: rest)

/-- A definition that binds a name: a parameter, or something that its body declares. -/
def FunctionDecl.Declares (n : String) (d : FunctionDecl) : Prop :=
  n ∈ d.parameters.map Parameter.name ∨ ScopeLang.Declares n d.body

/-- Statements that can be run to their end, in one scope, without a declaration of a name in
this scope.  What a block declares ends with it, a loop may be run no time at all, and of the
branches of a condition one is taken, or none if there is no other case. -/
inductive Passes (n : String) : List Statement → Prop
  | nil : Passes n []
  | over {s : Statement} {rest : List Statement} : s.node.declared? ≠ some n →
      s.node.chooses = false → Passes n rest → Passes n (s :: rest)
  | through {s : Statement} {body rest : List Statement} : body ∈ s.node.blocks →
      s.node.chooses = true → Passes n body → Passes n rest → Passes n (s :: rest)

/-- Code that comes to look a variable up where no declaration of it is in force.  The code
installs parameters one after the other, each after its default has been evaluated, and then
runs a body.  The code of a closure is met where the closure is defined, and that of a class
where the class is, unless they declare the name themselves; a plain function has no part in
its surroundings. -/
inductive Meets (n : String) : List Parameter → List Statement → Prop
  | default {p : Parameter} {ps : List Parameter} {body : List Statement} {e : Expr} :
      p.default = some e → e.Mentions n → Meets n (p :: ps) body
  | installed {p : Parameter} {ps : List Parameter} {body : List Statement} : p.name ≠ n →
      Meets n ps body → Meets n (p :: ps) body
  | operand {s : Statement} {rest : List Statement} {e : Expr} : e ∈ s.node.operands →
      e.Mentions n → Meets n [] (s :: rest)
  | assigned {s : Statement} {rest : List Statement} : s.node.assigned? = some n →
      Meets n [] (s :: rest)
  | block {s : Statement} {body rest : List Statement} : body ∈ s.node.blocks →
      Meets n [] body → Meets n [] (s :: rest)
  | closure {s : Statement} {d : FunctionDecl} {rest : List Statement} : s.node = .function d →
      d.kind = .closure → ¬ d.Declares n → Meets n d.parameters d.body → Meets n [] (s :: rest)
  | classBody {s : Statement} {d : ClassDecl} {rest : List Statement} : s.node = .classDef d →
      ¬ Declares n d.body → Meets n [] d.body → Meets n [] (s :: rest)
  | later {s : Statement} {rest : List Statement} : Passes n [s] → Meets n [] rest →
      Meets n [] (s :: rest)

/-- A definition whose call comes to look a variable up where no declaration of it is in force. -/
def FunctionDecl.Meets (n : String) (d : FunctionDecl) : Prop :=
  ScopeLang.Meets n d.parameters d.body

/-! ## What is bound is declared -/

theorem mem_branchBinds {bs : List Branch} :
    n ∈ branchBinds bs ↔ ∃ b ∈ bs, n ∈ blockBinds b.body := by
  induction bs with
  | nil => simp [branchBinds]
  | cons b rest ih =>
    obtain ⟨_, body⟩ := b
    simp [branchBinds, Branch.binds, ih]

theorem Statement.binds_eq (s : Statement) : s.binds = s.node.binds := by
  obtain ⟨node, span⟩ := s
  rfl

/-- A statement binds what it declares and what its blocks bind. -/
theorem Node.mem_binds {node : Node} : n ∈ node.binds ↔
    node.declared? = some n ∨ ∃ body ∈ node.blocks, n ∈ blockBinds body := by
  cases node with
  | cond branches otherwise =>
    cases otherwise <;>
      simp [Node.binds, Node.declared?, Node.blocks, mem_branchBinds, or_and_right, exists_or]
  | _ => simp [Node.binds, Node.declared?, Node.blocks, eq_comm]

/-- A block of a statement is smaller than a list that has the statement. -/
theorem sizeOf_block_lt {s : Statement} {body rest : List Statement}
    (mem : body ∈ s.node.blocks) : sizeOf body < sizeOf (s :: rest) := by
  obtain ⟨node, span⟩ := s
  simp only [List.cons.sizeOf_spec, Statement.mk.sizeOf_spec]
  cases node with
  | block inner | loop _ inner =>
    rw [List.mem_singleton.mp mem]
    simp only [Node.block.sizeOf_spec, Node.loop.sizeOf_spec]
    omega
  | cond branches otherwise =>
    rcases List.mem_append.mp mem with mem | mem
    · obtain ⟨b, hb, rfl⟩ := List.mem_map.mp mem
      have := List.sizeOf_lt_of_mem hb
      have : sizeOf b.body < sizeOf b := by
        obtain ⟨_, inner⟩ := b
        simp only [Branch.mk.sizeOf_spec]
        omega
      simp only [Node.cond.sizeOf_spec]
      omega
    · rw [Option.mem_toList.mp mem]
      simp only [Node.cond.sizeOf_spec, Option.some.sizeOf_spec]
      omega
  | _ => exact absurd mem List.not_mem_nil

/-- What a body binds it declares. -/
theorem declares_of_mem_blockBinds : ∀ {body : List Statement}, n ∈ blockBinds body →
    Declares n body
  | [], h => absurd h List.not_mem_nil
  | s :: rest, h => by
    rcases List.mem_append.mp h with h | h
    · rcases Node.mem_binds.mp (s.binds_eq ▸ h) with h | ⟨body, mem, h⟩
      · exact .here h
      · exact .inside mem (declares_of_mem_blockBinds h)
    · exact .later (declares_of_mem_blockBinds h)
termination_by body => sizeOf body
decreasing_by
  · exact sizeOf_block_lt mem
  · rw [List.cons.sizeOf_spec]
    omega

theorem declares_iff {body : List Statement} : Declares n body ↔ n ∈ blockBinds body := by
  refine ⟨fun h => ?_, declares_of_mem_blockBinds⟩
  induction h with
  | @here s rest e => exact List.mem_append_left _ (s.binds_eq ▸ Node.mem_binds.mpr (.inl e))
  | @inside s body rest mem _ ih =>
    exact List.mem_append_left _ (s.binds_eq ▸ Node.mem_binds.mpr (.inr ⟨body, mem, ih⟩))
  | later _ ih => exact List.mem_append_right _ ih

instance (n : String) (body : List Statement) : Decidable (Declares n body) :=
  decidable_of_iff _ declares_iff.symm

instance (n : String) (d : FunctionDecl) : Decidable (d.Declares n) :=
  inferInstanceAs (Decidable (_ ∨ _))

/-! ## What is met is collected -/

theorem mem_branchReferences {bs : List Branch} : n ∈ branchReferences bs ↔
    ∃ b ∈ bs, n ∈ b.condition.references ∨ n ∈ blockReferences b.body := by
  induction bs with
  | nil => simp [branchReferences]
  | cons b rest ih =>
    obtain ⟨_, body⟩ := b
    simp [branchReferences, Branch.references, ih, or_assoc]

theorem Node.references_of_operand {node : Node} {e : Expr} (mem : e ∈ node.operands)
    (h : n ∈ e.references) : n ∈ node.references := by
  cases node with
  | expression value | throw value => exact List.mem_singleton.mp mem ▸ h
  | assign name value => exact List.mem_cons_of_mem _ (List.mem_singleton.mp mem ▸ h)
  | declare d =>
    rw [Node.references, d.references_eq, Option.mem_toList.mp mem]
    exact h
  | cond branches otherwise =>
    obtain ⟨b, hb, rfl⟩ := List.mem_map.mp mem
    have found := mem_branchReferences.mpr ⟨b, hb, .inl h⟩
    cases otherwise with
    | none => exact found
    | some body => exact List.mem_append_left _ found
  | loop condition body => exact List.mem_append_left _ (List.mem_singleton.mp mem ▸ h)
  | «return» value =>
    cases value with
    | none => exact absurd mem List.not_mem_nil
    | some value => exact List.mem_singleton.mp mem ▸ h
  | _ => exact absurd mem List.not_mem_nil

theorem Node.references_of_block {node : Node} {body : List Statement} (mem : body ∈ node.blocks)
    (h : n ∈ blockReferences body) : n ∈ node.references := by
  cases node with
  | block inner => exact List.mem_singleton.mp mem ▸ h
  | loop condition inner => exact List.mem_append_right _ (List.mem_singleton.mp mem ▸ h)
  | cond branches otherwise =>
    rcases List.mem_append.mp mem with mem | mem
    · obtain ⟨b, hb, rfl⟩ := List.mem_map.mp mem
      have found := mem_branchReferences.mpr ⟨b, hb, .inr h⟩
      cases otherwise with
      | none => exact found
      | some body => exact List.mem_append_left _ found
    · rw [Option.mem_toList.mp mem]
      exact List.mem_append_right _ h
  | _ => exact absurd mem List.not_mem_nil

theorem mem_without {names bound : List String} :
    n ∈ without names bound ↔ n ∈ names ∧ n ∉ bound := by
  simp [without]

theorem FunctionDecl.not_bound {d : FunctionDecl} (h : ¬ d.Declares n) :
    n ∉ d.parameters.map Parameter.name ++ blockBinds d.body := by
  intro bound
  refine h ((List.mem_append.mp bound).imp_right declares_of_mem_blockBinds)

/-- Whatever code meets, its defaults or its body refer to. -/
theorem Meets.references {ps : List Parameter} {body : List Statement} (h : Meets n ps body) :
    n ∈ defaultReferences ps ∨ n ∈ blockReferences body := by
  -- what a list of statements refers to first is what its first statement refers to
  have first : ∀ {s : Statement} {rest : List Statement}, n ∈ s.node.references →
      n ∈ defaultReferences [] ∨ n ∈ blockReferences (s :: rest) := fun {s _} h => by
    obtain ⟨node, span⟩ := s
    exact .inr (List.mem_append_left _ h)
  induction h with
  | @default p ps body e default mentions =>
    refine .inl (List.mem_flatMap.mpr ⟨p, List.mem_cons_self, ?_⟩)
    rw [default]
    exact mentions.references
  | @installed p ps body _ _ ih =>
    refine ih.imp_left fun h => ?_
    obtain ⟨q, hq, h⟩ := List.mem_flatMap.mp h
    exact List.mem_flatMap.mpr ⟨q, List.mem_cons_of_mem p hq, h⟩
  | operand mem mentions => exact first (Node.references_of_operand mem mentions.references)
  | @assigned s rest target =>
    refine first ?_
    cases node : s.node with
    | assign name value =>
      rw [node] at target
      exact Option.some.inj target ▸ List.mem_cons_self
    | _ =>
      rw [node] at target
      exact absurd target nofun
  | block mem _ ih => exact first (Node.references_of_block mem (ih.resolve_left List.not_mem_nil))
  | @closure s d rest node kind fresh _ ih =>
    refine first ?_
    obtain ⟨name, _, parameters, returns, body⟩ := d
    obtain rfl : _ = FunctionKind.closure := kind
    rw [node]
    exact mem_without.mpr ⟨List.mem_append.mpr ih, FunctionDecl.not_bound fresh⟩
  | @classBody s d rest node fresh _ ih =>
    refine first ?_
    obtain ⟨name, accessor, body⟩ := d
    rw [node]
    exact mem_without.mpr ⟨ih.resolve_left List.not_mem_nil,
      fun bound => fresh (declares_of_mem_blockBinds bound)⟩
  | later _ _ ih => exact .inr (List.mem_append_right _ (ih.resolve_left List.not_mem_nil))

theorem mem_insertName {name : String} {names : List String} :
    n ∈ insertName name names ↔ n = name ∨ n ∈ names := by
  induction names with
  | nil => simp [insertName]
  | cons other rest ih =>
    simp only [insertName]
    split
    · simp
    · split
      · rename_i same
        simp [same]
      · simp only [List.mem_cons, ih]
        tauto

theorem mem_nameSet {names : List String} : n ∈ nameSet names ↔ n ∈ names := by
  induction names with
  | nil => simp [nameSet]
  | cons name rest ih =>
    rw [nameSet, List.foldr_cons, mem_insertName, List.mem_cons]
    exact or_congr_right ih

/-- The free names of a definition are those that its text refers to, less those that it binds. -/
theorem FunctionDecl.mem_freeNames {d : FunctionDecl} : n ∈ d.freeNames ↔
    n ∈ defaultReferences d.parameters ++ blockReferences d.body ∧
      n ∉ d.parameters.map Parameter.name ++ blockBinds d.body := by
  rw [FunctionDecl.freeNames, mem_nameSet, mem_without]

/-- What a definition meets is one of its free names, unless it declares it. -/
theorem FunctionDecl.Meets.free {d : FunctionDecl} (h : d.Meets n) (fresh : ¬ d.Declares n) :
    n ∈ d.freeNames :=
  FunctionDecl.mem_freeNames.mpr ⟨List.mem_append.mpr h.references, d.not_bound fresh⟩

end ScopeLang
