/-
# Resolving the accessor

Resolving the accessor is a rewrite of the expressions of a body, and it goes wherever the
body itself evaluates something: the parts of the resolved text are the resolved parts of the
text, and likewise for what statements evaluate and for their blocks (`Term.parts_stripAccessor`,
`Node.operands_stripAccessor`, `Node.blocks_stripAccessor`).  All the rest follows from this by
induction on parts and blocks, together with what happens to one term: it is changed just if
it reads the accessor.
-/
import ScopeLang.Proofs.Mentions
import ScopeLang.Program.Accessor

namespace ScopeLang

variable {a n : String}

/-! ## Parts and blocks -/

theorem stripExprs_eq (es : List Expr) : stripExprs a es = es.map (·.stripAccessor a) := by
  induction es with
  | nil => rfl
  | cons e rest ih => exact congrArg _ ih

theorem stripArguments_eq (as : List Argument) :
    stripArguments a as = as.map (·.stripAccessor a) := by
  induction as with
  | nil => rfl
  | cons e rest ih => exact congrArg _ ih

theorem stripEntries_eq (es : List Entry) : stripEntries a es = es.map (·.stripAccessor a) := by
  induction es with
  | nil => rfl
  | cons e rest ih => exact congrArg _ ih

theorem stripElements_eq (es : List Element) : stripElements a es = es.map (·.stripAccessor a) := by
  induction es with
  | nil => rfl
  | cons e rest ih => exact congrArg _ ih

theorem stripBranches_eq (bs : List Branch) : stripBranches a bs = bs.map (·.stripAccessor a) := by
  induction bs with
  | nil => rfl
  | cons b rest ih => exact congrArg _ ih

theorem Expr.stripAccessor_term (e : Expr) :
    (e.stripAccessor a).term = e.term.stripAccessor a := by
  cases e
  rfl

theorem Expr.stripAccessor_span (e : Expr) : (e.stripAccessor a).span = e.span := by
  cases e
  rfl

theorem Argument.stripAccessor_value (x : Argument) :
    (x.stripAccessor a).value = x.value.stripAccessor a := by
  cases x
  rfl

theorem map_value_stripArguments (as : List Argument) :
    (stripArguments a as).map Argument.value =
      (as.map Argument.value).map (·.stripAccessor a) := by
  rw [stripArguments_eq, List.map_map, List.map_map]
  exact List.map_congr_left fun x _ => x.stripAccessor_value

theorem Element.parts_stripAccessor (e : Element) :
    (e.stripAccessor a).parts = e.parts.map (·.stripAccessor a) := by
  cases e with
  | read name => rfl
  | assign name value => rfl
  | declare d =>
    obtain ⟨_, _, initial, _⟩ := d
    cases initial <;> rfl
  | call name arguments => exact map_value_stripArguments arguments

/-- Dropping the head of a chain drops no part. -/
theorem resolveChain_parts (origin : ChainOrigin) (elements : List Element) :
    (resolveChain a origin elements).parts = elements.flatMap Element.parts := by
  unfold resolveChain
  split
  · split
    · split
      · rename_i empty
        rw [List.isEmpty_iff.mp empty]
        rfl
      · rfl
    · rfl
  · rfl

theorem resolveVariable_parts (name : String) : (resolveVariable a name).parts = [] := by
  unfold resolveVariable
  split <;> rfl

/-- The parts of the resolved text are the resolved parts of the text. -/
theorem Term.parts_stripAccessor (t : Term) :
    (t.stripAccessor a).parts = t.parts.map (·.stripAccessor a) := by
  cases t with
  | literal _ | receiver | unary _ _ | binary _ _ _ | logical _ _ _ => rfl
  | «variable» name => exact resolveVariable_parts name
  | sequence kind items => exact stripExprs_eq items
  | dict entries =>
    show (stripEntries a entries).flatMap (fun e => [e.key, e.value]) = _
    rw [stripEntries_eq, List.flatMap_map, Term.parts, List.map_flatMap]
    refine congrArg (List.flatMap · entries) (funext fun e => ?_)
    cases e
    rfl
  | call callee arguments => exact map_value_stripArguments arguments
  | callValue callee arguments => exact congrArg _ (map_value_stripArguments arguments)
  | chain origin elements =>
    show (resolveChain a origin (stripElements a elements)).parts = _
    rw [resolveChain_parts, stripElements_eq, List.flatMap_map, Term.parts, List.map_flatMap]
    exact congrArg (List.flatMap · elements) (funext fun e => e.parts_stripAccessor)

theorem Statement.stripAccessor_node (s : Statement) :
    (s.stripAccessor a).node = s.node.stripAccessor a := by
  cases s
  rfl

theorem Statement.stripAccessor_span (s : Statement) : (s.stripAccessor a).span = s.span := by
  cases s
  rfl

theorem Node.operands_stripAccessor (node : Node) :
    (node.stripAccessor a).operands = node.operands.map (·.stripAccessor a) := by
  cases node with
  | declare d =>
    obtain ⟨_, _, initial, _⟩ := d
    cases initial <;> rfl
  | «return» value => cases value <;> rfl
  | cond branches otherwise =>
    have conditions : (stripBranches a branches).map Branch.condition =
        (branches.map Branch.condition).map (·.stripAccessor a) := by
      rw [stripBranches_eq, List.map_map, List.map_map]
      exact List.map_congr_left fun b _ => by cases b; rfl
    cases otherwise <;> exact conditions
  | _ => rfl

theorem Node.blocks_stripAccessor (node : Node) :
    (node.stripAccessor a).blocks = node.blocks.map (stripBlock a) := by
  cases node with
  | «return» value => cases value <;> rfl
  | cond branches otherwise =>
    have bodies : (stripBranches a branches).map Branch.body =
        (branches.map Branch.body).map (stripBlock a) := by
      rw [stripBranches_eq, List.map_map, List.map_map]
      exact List.map_congr_left fun b _ => by cases b; rfl
    cases otherwise with
    | none => exact congrArg (· ++ []) bodies |>.trans (by simp [Node.blocks])
    | some body =>
      rw [Node.blocks, List.map_append, ← bodies]
      rfl
  | _ => rfl

/-! ## Inductions on parts and blocks -/

theorem sizeOf_argument_lt {as : List Argument} {p : Expr} (mem : p ∈ as.map Argument.value) :
    sizeOf p < sizeOf as := by
  obtain ⟨x, hx, rfl⟩ := List.mem_map.mp mem
  have inside := List.sizeOf_lt_of_mem hx
  obtain ⟨name, value⟩ := x
  simp only [Argument.mk.sizeOf_spec] at inside
  show sizeOf value < sizeOf as
  omega

theorem Element.sizeOf_part_lt {e : Element} {p : Expr} (mem : p ∈ e.parts) :
    sizeOf p < sizeOf e := by
  cases e with
  | read name => exact absurd mem List.not_mem_nil
  | assign name value =>
    rw [List.mem_singleton.mp mem, Element.assign.sizeOf_spec]
    omega
  | declare d =>
    obtain ⟨_, _, initial, _⟩ := d
    obtain rfl : initial = some p := Option.mem_toList.mp mem
    rw [Element.declare.sizeOf_spec, VariableDecl.mk.sizeOf_spec, Option.some.sizeOf_spec]
    omega
  | call name arguments =>
    have := sizeOf_argument_lt mem
    rw [Element.call.sizeOf_spec]
    omega

/-- A part is smaller than the expression. -/
theorem Expr.sizeOf_part_lt {e p : Expr} (mem : p ∈ e.term.parts) : sizeOf p < sizeOf e := by
  obtain ⟨t, span⟩ := e
  simp only [Expr.mk.sizeOf_spec]
  replace mem : p ∈ t.parts := mem
  cases t with
  | literal _ | «variable» _ | receiver => exact absurd mem List.not_mem_nil
  | sequence kind items =>
    have := List.sizeOf_lt_of_mem (show p ∈ items from mem)
    rw [Term.sequence.sizeOf_spec]
    omega
  | dict entries =>
    obtain ⟨e, he, mem⟩ := List.mem_flatMap.mp mem
    have inside := List.sizeOf_lt_of_mem he
    obtain ⟨key, value⟩ := e
    simp only [Entry.mk.sizeOf_spec] at inside
    rw [Term.dict.sizeOf_spec]
    rcases List.mem_pair.mp mem with rfl | rfl <;> omega
  | unary op operand =>
    rw [List.mem_singleton.mp mem, Term.unary.sizeOf_spec]
    omega
  | binary op left right =>
    rw [Term.binary.sizeOf_spec]
    rcases List.mem_pair.mp mem with rfl | rfl <;> omega
  | logical op left right =>
    rw [Term.logical.sizeOf_spec]
    rcases List.mem_pair.mp mem with rfl | rfl <;> omega
  | call callee arguments =>
    have := sizeOf_argument_lt mem
    rw [Term.call.sizeOf_spec]
    omega
  | callValue callee arguments =>
    rw [Term.callValue.sizeOf_spec]
    rcases List.mem_cons.mp mem with rfl | mem
    · omega
    · have := sizeOf_argument_lt mem
      omega
  | chain origin elements =>
    obtain ⟨e, he, mem⟩ := List.mem_flatMap.mp mem
    have inside := List.sizeOf_lt_of_mem he
    have part := Element.sizeOf_part_lt mem
    rw [Term.chain.sizeOf_spec]
    omega

/-- Induction on the parts of expressions. -/
theorem Expr.induction {P : Expr → Prop} (step : ∀ e, (∀ p ∈ e.term.parts, P p) → P e) (e : Expr) :
    P e :=
  step e fun p _ => Expr.induction step p
termination_by sizeOf e
decreasing_by
  rename_i mem
  exact Expr.sizeOf_part_lt mem

/-- Induction on the statements of a body and the blocks in them. -/
theorem block_induction {P : List Statement → Prop} (nil : P [])
    (cons : ∀ s rest, (∀ body ∈ s.node.blocks, P body) → P rest → P (s :: rest)) :
    ∀ body, P body := by
  intro body
  induction body using (measure (sizeOf : List Statement → Nat)).wf.induction with
  | _ body ih =>
    cases body with
    | nil => exact nil
    | cons s rest =>
      have shorter : sizeOf rest < sizeOf (s :: rest) := by
        rw [List.cons.sizeOf_spec]
        omega
      exact cons s rest (fun body mem => ih body (sizeOf_block_lt mem)) (ih rest shorter)

/-! ## Uses -/

/-- The variable that a term reads, also where a chain in the scope starts by reading it. -/
def Term.read? : Term → Option String
  | .variable name => some name
  | .chain .scope (.read name :: _) => some name
  | _ => none

/-- An expression in which the accessor is read, or a chain starts by reading it. -/
inductive Expr.Uses (a : String) : Expr → Prop
  | here {e : Expr} : e.term.read? = some a → Uses a e
  | inside {e part : Expr} : part ∈ e.term.parts → Uses a part → Uses a e

/-- Statements in which the accessor is used, nested definitions apart. -/
inductive UsesIn (a : String) : List Statement → Prop
  | operand {s : Statement} {e : Expr} {rest : List Statement} : e ∈ s.node.operands →
      e.Uses a → UsesIn a (s :: rest)
  | block {s : Statement} {body rest : List Statement} : body ∈ s.node.blocks → UsesIn a body →
      UsesIn a (s :: rest)
  | later {s : Statement} {rest : List Statement} : UsesIn a rest → UsesIn a (s :: rest)

theorem resolveVariable_read? (name : String) : (resolveVariable a name).read? ≠ some a := by
  unfold resolveVariable
  split
  · exact nofun
  · rename_i other
    exact fun same => other (Option.some.inj same)

theorem resolveChain_read? (origin : ChainOrigin) (elements : List Element) :
    (resolveChain a origin elements).read? ≠ some a := by
  cases origin with
  | receiver => exact nofun
  | scope =>
    rcases elements with _ | ⟨name | _ | _ | _, rest⟩
    case cons.read =>
      simp only [resolveChain]
      split
      · split <;> exact nofun
      · rename_i other
        exact fun same => other (Option.some.inj same)
    all_goals exact nofun

/-- No term reads the accessor once it is resolved. -/
theorem Term.read?_stripAccessor (t : Term) : (t.stripAccessor a).read? ≠ some a := by
  cases t with
  | «variable» name => exact resolveVariable_read? name
  | chain origin elements => exact resolveChain_read? origin _
  | _ => exact nofun

/-- Nor does any part of an expression. -/
theorem Expr.not_uses_stripAccessor (e : Expr) : ¬ (e.stripAccessor a).Uses a := by
  refine Expr.induction (P := fun e => ¬ (e.stripAccessor a).Uses a) (fun e ih uses => ?_) e
  cases uses with
  | here reads => exact e.term.read?_stripAccessor (e.stripAccessor_term ▸ reads)
  | inside mem uses =>
    rw [e.stripAccessor_term, e.term.parts_stripAccessor] at mem
    obtain ⟨p, hp, rfl⟩ := List.mem_map.mp mem
    exact ih p hp uses

/-- Nor does anything in a body. -/
theorem not_usesIn_stripBlock (body : List Statement) : ¬ UsesIn a (stripBlock a body) := by
  refine block_induction (P := fun body => ¬ UsesIn a (stripBlock a body)) nofun
    (fun s rest blocks later uses => ?_) body
  cases uses with
  | operand mem uses =>
    rw [s.stripAccessor_node, s.node.operands_stripAccessor] at mem
    obtain ⟨e, -, rfl⟩ := List.mem_map.mp mem
    exact e.not_uses_stripAccessor uses
  | block mem uses =>
    rw [s.stripAccessor_node, s.node.blocks_stripAccessor] at mem
    obtain ⟨inner, hinner, rfl⟩ := List.mem_map.mp mem
    exact blocks inner hinner uses
  | later uses => exact later uses

/-! ## Texts without uses -/

/-- A term that does not read the accessor changes with its parts only. -/
theorem Term.stripAccessor_eq_self {t : Term} (unread : t.read? ≠ some a)
    (parts : ∀ p ∈ t.parts, p.stripAccessor a = p) : t.stripAccessor a = t := by
  have arguments : ∀ {as : List Argument}, (∀ p ∈ as.map Argument.value, p.stripAccessor a = p) →
      stripArguments a as = as := fun {as} same => by
    rw [stripArguments_eq]
    refine (List.map_congr_left fun x hx => ?_).trans as.map_id
    obtain ⟨name, value⟩ := x
    exact congrArg (Argument.mk name) (same value (List.mem_map_of_mem hx))
  cases t with
  | literal _ | receiver => rfl
  | «variable» name =>
    show resolveVariable a name = _
    rw [resolveVariable, if_neg fun same => unread (congrArg some same)]
  | sequence kind items =>
    show Term.sequence kind (stripExprs a items) = _
    rw [stripExprs_eq]
    exact congrArg _ ((List.map_congr_left parts).trans items.map_id)
  | dict entries =>
    show Term.dict (stripEntries a entries) = _
    rw [stripEntries_eq]
    refine congrArg _ ((List.map_congr_left fun e he => ?_).trans entries.map_id)
    obtain ⟨key, value⟩ := e
    have inside : ∀ p ∈ [key, value], p ∈ (Term.dict entries).parts := fun p hp =>
      List.mem_flatMap.mpr ⟨_, he, hp⟩
    exact congrArg₂ Entry.mk (parts key (inside key List.mem_cons_self))
      (parts value (inside value (List.mem_cons_of_mem _ List.mem_cons_self)))
  | unary op operand => exact congrArg _ (parts operand (List.mem_singleton_self _))
  | binary op left right =>
    exact congrArg₂ _ (parts left List.mem_cons_self) (parts right (by simp [Term.parts]))
  | logical op left right =>
    exact congrArg₂ _ (parts left List.mem_cons_self) (parts right (by simp [Term.parts]))
  | call callee as => exact congrArg _ (arguments parts)
  | callValue callee as =>
    exact congrArg₂ _ (parts callee List.mem_cons_self)
      (arguments fun p hp => parts p (List.mem_cons_of_mem _ hp))
  | chain origin elements =>
    have same : stripElements a elements = elements := by
      rw [stripElements_eq]
      refine (List.map_congr_left fun e he => ?_).trans elements.map_id
      have inside : ∀ p ∈ e.parts, p.stripAccessor a = p := fun p hp =>
        parts p (List.mem_flatMap.mpr ⟨e, he, hp⟩)
      cases e with
      | read name => rfl
      | assign name value => exact congrArg _ (inside value (List.mem_singleton_self _))
      | declare d =>
        obtain ⟨name, type, initial, flags⟩ := d
        cases initial with
        | none => rfl
        | some initial =>
          show Element.declare ⟨name, type, some (initial.stripAccessor a), flags⟩ = _
          rw [inside initial (List.mem_singleton_self _)]
          rfl
      | call name as => exact congrArg _ (arguments inside)
    show resolveChain a origin (stripElements a elements) = _
    rw [same]
    unfold resolveChain
    split
    · rename_i name rest
      rw [if_neg fun same => unread (congrArg some same)]
    · rfl

theorem Expr.stripAccessor_eq_self (e : Expr) : ¬ e.Uses a → e.stripAccessor a = e := by
  refine Expr.induction (P := fun e => ¬ e.Uses a → e.stripAccessor a = e) (fun e ih unused => ?_) e
  obtain ⟨t, span⟩ := e
  have same : t.stripAccessor a = t :=
    Term.stripAccessor_eq_self (fun reads => unused (.here reads))
      fun p hp => ih p hp fun uses => unused (.inside hp uses)
  exact congrArg (Expr.mk · span) same

/-- A statement changes with what it evaluates and with its blocks only. -/
theorem Node.stripAccessor_eq_self {node : Node}
    (operands : ∀ e ∈ node.operands, e.stripAccessor a = e)
    (blocks : ∀ body ∈ node.blocks, stripBlock a body = body) : node.stripAccessor a = node := by
  cases node with
  | expression value => exact congrArg _ (operands value (List.mem_singleton_self _))
  | declare d =>
    obtain ⟨name, type, initial, flags⟩ := d
    cases initial with
    | none => rfl
    | some initial =>
      show Node.declare ⟨name, type, some (initial.stripAccessor a), flags⟩ = _
      rw [operands initial (List.mem_singleton_self _)]
  | assign name value => exact congrArg _ (operands value (List.mem_singleton_self _))
  | block body => exact congrArg _ (blocks body (List.mem_singleton_self _))
  | cond branches otherwise =>
    have same : stripBranches a branches = branches := by
      rw [stripBranches_eq]
      refine (List.map_congr_left fun b hb => ?_).trans branches.map_id
      have condition := operands b.condition (List.mem_map_of_mem hb)
      have body := blocks b.body (List.mem_append_left _ (List.mem_map_of_mem hb))
      obtain ⟨_, _⟩ := b
      exact congrArg₂ Branch.mk condition body
    cases otherwise with
    | none => exact congrArg (Node.cond · none) same
    | some body =>
      exact congrArg₂ (fun bs body => Node.cond bs (some body)) same
        (blocks body (List.mem_append_right _ (List.mem_singleton_self _)))
  | loop condition body =>
    exact congrArg₂ _ (operands condition (List.mem_singleton_self _))
      (blocks body (List.mem_singleton_self _))
  | «return» value =>
    cases value with
    | none => rfl
    | some value => exact congrArg (Node.return ∘ some) (operands value (List.mem_singleton_self _))
  | throw value => exact congrArg _ (operands value (List.mem_singleton_self _))
  | «break» | «continue» | function _ | classDef _ | typeAlias _ _ => rfl

theorem stripBlock_eq_self (body : List Statement) :
    ¬ UsesIn a body → stripBlock a body = body := by
  refine block_induction (P := fun body => ¬ UsesIn a body → stripBlock a body = body)
    (fun _ => rfl) (fun s rest blocks later unused => ?_) body
  obtain ⟨node, span⟩ := s
  have same : node.stripAccessor a = node := Node.stripAccessor_eq_self
    (fun e he => e.stripAccessor_eq_self fun uses => unused (.operand he uses))
    fun body hb => blocks body hb fun uses => unused (.block hb uses)
  exact congrArg₂ _ (congrArg (Statement.mk · span) same)
    (later fun uses => unused (.later uses))

/-! ## Spans and nested definitions -/

/-- What stands somewhere in a body: a span, or a definition with all that is in it. -/
inductive Landmark where
  | span (span : Span)
  | function (declaration : FunctionDecl)
  | classDef (declaration : ClassDecl)

/-- The spans of an expression and its parts. -/
def Expr.spans (e : Expr) : List Span := e.span :: e.term.parts.attach.flatMap fun p => p.1.spans
termination_by sizeOf e
decreasing_by exact Expr.sizeOf_part_lt p.2

theorem Expr.spans_eq (e : Expr) : e.spans = e.span :: e.term.parts.flatMap Expr.spans := by
  rw [Expr.spans, List.flatMap_subtype]
  · rw [List.unattach_attach]
  · exact fun _ _ => rfl

/-- The definition that a statement is. -/
def Node.definition : Node → List Landmark
  | .function d => [.function d]
  | .classDef d => [.classDef d]
  | _ => []

/-- The spans of the statements and expressions of a body, and the definitions nested in it, in
order. -/
def landmarks : List Statement → List Landmark
  | [] => []
  | s :: rest =>
      .span s.span :: s.node.definition ++ (s.node.operands.flatMap Expr.spans).map .span ++
        s.node.blocks.attach.flatMap (fun body => landmarks body.1) ++ landmarks rest
termination_by body => sizeOf body
decreasing_by
  · exact sizeOf_block_lt body.2
  · rw [List.cons.sizeOf_spec]
    omega

theorem landmarks_cons (s : Statement) (rest : List Statement) : landmarks (s :: rest) =
    .span s.span :: s.node.definition ++ (s.node.operands.flatMap Expr.spans).map .span ++
      s.node.blocks.flatMap landmarks ++ landmarks rest := by
  rw [landmarks, List.flatMap_subtype]
  · rw [List.unattach_attach]
  · exact fun _ _ => rfl

theorem Expr.spans_stripAccessor (e : Expr) : (e.stripAccessor a).spans = e.spans := by
  refine Expr.induction (P := fun e => (e.stripAccessor a).spans = e.spans) (fun e ih => ?_) e
  rw [Expr.spans_eq, Expr.spans_eq, e.stripAccessor_span, e.stripAccessor_term,
    e.term.parts_stripAccessor, List.flatMap_map]
  exact congrArg _ (List.flatMap_congr ih)

theorem Node.definition_stripAccessor (node : Node) :
    (node.stripAccessor a).definition = node.definition := by
  cases node with
  | cond branches otherwise => cases otherwise <;> rfl
  | «return» value => cases value <;> rfl
  | _ => rfl

/-- Spans and nested definitions stay where they are. -/
theorem landmarks_stripBlock (body : List Statement) :
    landmarks (stripBlock a body) = landmarks body := by
  refine block_induction (P := fun body => landmarks (stripBlock a body) = landmarks body) rfl
    (fun s rest blocks later => ?_) body
  show landmarks (s.stripAccessor a :: stripBlock a rest) = _
  have operands : (s.node.operands.map (·.stripAccessor a)).flatMap Expr.spans =
      s.node.operands.flatMap Expr.spans := by
    rw [List.flatMap_map]
    exact List.flatMap_congr fun e _ => e.spans_stripAccessor
  have inner : (s.node.blocks.map (stripBlock a)).flatMap landmarks =
      s.node.blocks.flatMap landmarks := by
    rw [List.flatMap_map]
    exact List.flatMap_congr blocks
  rw [landmarks_cons, landmarks_cons, s.stripAccessor_span, s.stripAccessor_node,
    s.node.definition_stripAccessor, s.node.operands_stripAccessor, s.node.blocks_stripAccessor,
    operands, inner, later]

/-! ## Free names -/

/-- The variable that a term itself refers to. -/
def Term.named? : Term → Option String
  | .variable name => some name
  | .call callee _ => some callee
  | .chain .scope (head :: _) => some head.name
  | _ => none

theorem mem_references_arguments {as : List Argument} :
    n ∈ argumentReferences as ↔ ∃ p ∈ as.map Argument.value, n ∈ p.references := by
  simp only [mem_argumentReferences, List.mem_map, exists_exists_and_eq_and]

theorem Element.mem_references {e : Element} :
    n ∈ e.references ↔ ∃ p ∈ e.parts, n ∈ p.references := by
  cases e with
  | read name => simp [Element.references, Element.parts]
  | assign name value => simp [Element.references, Element.parts]
  | declare d =>
    rw [Element.references, d.references_eq, Element.parts]
    cases d.initial <;> simp
  | call name as => exact mem_references_arguments

/-- A term refers to its own variable and to those of its parts. -/
theorem Term.mem_references {t : Term} :
    n ∈ t.references ↔ t.named? = some n ∨ ∃ p ∈ t.parts, n ∈ p.references := by
  cases t with
  | literal _ | receiver => simp [Term.references, Term.named?, Term.parts]
  | «variable» name => simp [Term.references, Term.named?, Term.parts, eq_comm]
  | sequence kind items => simp [Term.references, Term.named?, Term.parts, mem_exprReferences]
  | dict entries =>
    simp only [Term.references, mem_entryReferences, Term.named?, Term.parts, List.mem_flatMap,
      List.mem_pair]
    constructor
    · rintro ⟨e, he, h | h⟩
      · exact .inr ⟨e.key, ⟨e, he, .inl rfl⟩, h⟩
      · exact .inr ⟨e.value, ⟨e, he, .inr rfl⟩, h⟩
    · rintro (h | ⟨p, ⟨e, he, rfl | rfl⟩, h⟩)
      · cases h
      · exact ⟨e, he, .inl h⟩
      · exact ⟨e, he, .inr h⟩
  | unary op operand => simp [Term.references, Term.named?, Term.parts]
  | binary op left right => simp [Term.references, Term.named?, Term.parts]
  | logical op left right => simp [Term.references, Term.named?, Term.parts]
  | call callee as =>
    rw [Term.references, List.mem_cons, mem_references_arguments]
    simp [Term.named?, Term.parts, eq_comm]
  | callValue callee as =>
    rw [Term.references, List.mem_append, mem_references_arguments]
    simp [Term.named?, Term.parts]
  | chain origin elements =>
    have head : n ∈ chainHead origin elements ↔ (Term.chain origin elements).named? = some n := by
      cases origin <;> cases elements <;> simp [chainHead, Term.named?, eq_comm]
    have inside : (∃ e ∈ elements, n ∈ e.references) ↔
        ∃ p ∈ elements.flatMap Element.parts, n ∈ p.references := by
      simp only [Element.mem_references, List.mem_flatMap]
      exact ⟨fun ⟨e, he, p, hp, h⟩ => ⟨p, ⟨e, he, hp⟩, h⟩,
        fun ⟨p, ⟨e, he, hp⟩, h⟩ => ⟨e, he, p, hp, h⟩⟩
    rw [Term.references, List.mem_append, head, mem_elementReferences, inside, Term.parts]

/-- Which variable a term itself refers to changes only where it is the accessor. -/
theorem Term.named?_stripAccessor (other : n ≠ a) (t : Term) :
    (t.stripAccessor a).named? = some n ↔ t.named? = some n := by
  have accessor : some a ≠ some n := fun same => other (Option.some.inj same).symm
  cases t with
  | «variable» name =>
    show (resolveVariable a name).named? = _ ↔ _
    unfold resolveVariable
    split
    · rename_i same
      exact iff_of_false nofun (same ▸ accessor)
    · rfl
  | chain origin elements =>
    cases origin with
    | receiver => rfl
    | scope =>
      rcases elements with _ | ⟨name | _ | ⟨_, _, _ | _, _⟩ | _, rest⟩
      case cons.read =>
        show (resolveChain a .scope (.read name :: stripElements a rest)).named? = _ ↔ _
        simp only [resolveChain]
        split
        · rename_i same
          refine iff_of_false ?_ (same ▸ accessor)
          split <;> exact nofun
        · rfl
      all_goals rfl
  | _ => rfl

/-- Resolving the accessor keeps all other variables that an expression refers to. -/
theorem Expr.mem_references_stripAccessor (other : n ≠ a) (e : Expr) :
    n ∈ (e.stripAccessor a).references ↔ n ∈ e.references := by
  refine Expr.induction (P := fun e => n ∈ (e.stripAccessor a).references ↔ n ∈ e.references)
    (fun e ih => ?_) e
  obtain ⟨t, span⟩ := e
  show n ∈ (t.stripAccessor a).references ↔ n ∈ t.references
  rw [Term.mem_references, Term.mem_references, t.named?_stripAccessor other,
    t.parts_stripAccessor]
  simp only [List.mem_map, exists_exists_and_eq_and]
  exact or_congr_right (exists_congr fun p => and_congr_right (ih p))

/-- What the definition that a statement is takes from its surroundings. -/
def Node.taken : Node → List String
  | .function d => d.references
  | .classDef d => d.references
  | _ => []

theorem Node.mem_references {node : Node} : n ∈ node.references ↔
    node.assigned? = some n ∨ n ∈ node.taken ∨ (∃ e ∈ node.operands, n ∈ e.references) ∨
      ∃ body ∈ node.blocks, n ∈ blockReferences body := by
  cases node with
  | declare d =>
    rw [Node.references, d.references_eq]
    cases initial : d.initial <;>
      simp [Node.assigned?, Node.taken, Node.operands, Node.blocks, initial]
  | «return» value =>
    cases value <;> simp [Node.references, Node.assigned?, Node.taken, Node.operands, Node.blocks]
  | cond branches otherwise =>
    cases otherwise <;>
      simp [Node.references, Node.assigned?, Node.taken, Node.operands, Node.blocks,
        mem_branchReferences, or_and_right, and_or_left, exists_or, or_assoc]
  | _ => simp [Node.references, Node.assigned?, Node.taken, Node.operands, Node.blocks, eq_comm]

theorem Node.stripAccessor_own (node : Node) :
    (node.stripAccessor a).assigned? = node.assigned? ∧ (node.stripAccessor a).taken = node.taken ∧
      (node.stripAccessor a).declared? = node.declared? := by
  cases node with
  | cond branches otherwise => cases otherwise <;> exact ⟨rfl, rfl, rfl⟩
  | «return» value => cases value <;> exact ⟨rfl, rfl, rfl⟩
  | declare d =>
    obtain ⟨_, _, initial, _⟩ := d
    cases initial <;> exact ⟨rfl, rfl, rfl⟩
  | _ => exact ⟨rfl, rfl, rfl⟩

theorem Statement.references_eq (s : Statement) : s.references = s.node.references := by
  cases s
  rfl

theorem mem_references_stripBlock (other : n ≠ a) (body : List Statement) :
    n ∈ blockReferences (stripBlock a body) ↔ n ∈ blockReferences body := by
  refine block_induction
    (P := fun body => n ∈ blockReferences (stripBlock a body) ↔ n ∈ blockReferences body) .rfl
    (fun s rest blocks later => ?_) body
  obtain ⟨assigned, taken, -⟩ := s.node.stripAccessor_own (a := a)
  have operands : (∃ e ∈ s.node.operands.map (·.stripAccessor a), n ∈ e.references) ↔
      ∃ e ∈ s.node.operands, n ∈ e.references := by
    simp only [List.mem_map, exists_exists_and_eq_and, Expr.mem_references_stripAccessor other]
  have inner : (∃ body ∈ s.node.blocks.map (stripBlock a), n ∈ blockReferences body) ↔
      ∃ body ∈ s.node.blocks, n ∈ blockReferences body := by
    simp only [List.mem_map, exists_exists_and_eq_and]
    exact exists_congr fun body => and_congr_right (blocks body)
  rw [stripBlock, blockReferences, blockReferences, List.mem_append, List.mem_append,
    Statement.references_eq, Statement.references_eq, s.stripAccessor_node, Node.mem_references,
    Node.mem_references, assigned, taken, s.node.operands_stripAccessor,
    s.node.blocks_stripAccessor, operands, inner, later]

theorem mem_binds_stripBlock (body : List Statement) :
    n ∈ blockBinds (stripBlock a body) ↔ n ∈ blockBinds body := by
  refine block_induction
    (P := fun body => n ∈ blockBinds (stripBlock a body) ↔ n ∈ blockBinds body) .rfl
    (fun s rest blocks later => ?_) body
  obtain ⟨-, -, declared⟩ := s.node.stripAccessor_own (a := a)
  have inner : (∃ body ∈ s.node.blocks.map (stripBlock a), n ∈ blockBinds body) ↔
      ∃ body ∈ s.node.blocks, n ∈ blockBinds body := by
    simp only [List.mem_map, exists_exists_and_eq_and]
    exact exists_congr fun body => and_congr_right (blocks body)
  rw [stripBlock, blockBinds, blockBinds, List.mem_append, List.mem_append, Statement.binds_eq,
    Statement.binds_eq, s.stripAccessor_node, Node.mem_binds, Node.mem_binds, declared,
    s.node.blocks_stripAccessor, inner, later]

/-! ## The normal form -/

/-- Resolving the accessor leads to a normal form: nothing in the body uses the accessor any more,
and resolving it again changes nothing.  Spans and nested definitions are left as they are, a
body without uses is left as it is, and the free names are the same but for the accessor. -/
theorem stripBlock_normal (a : String) (body : List Statement) :
    ¬ UsesIn a (stripBlock a body) ∧
      stripBlock a (stripBlock a body) = stripBlock a body ∧
      landmarks (stripBlock a body) = landmarks body ∧
      (¬ UsesIn a body → stripBlock a body = body) ∧
      ∀ n, n ≠ a → (n ∈ blockFreeNames (stripBlock a body) ↔ n ∈ blockFreeNames body) := by
  have normal := not_usesIn_stripBlock (a := a) body
  refine ⟨normal, stripBlock_eq_self _ normal, landmarks_stripBlock body, stripBlock_eq_self body,
    fun n other => ?_⟩
  rw [blockFreeNames, blockFreeNames, mem_nameSet, mem_nameSet, mem_without, mem_without,
    mem_references_stripBlock other, mem_binds_stripBlock]

/-- A closure that returns `self`. -/
def returnsSelf : FunctionDecl :=
  ⟨"f", .closure, [], none, [⟨.return (some (.ofTerm (.variable "self"))), Span.none⟩]⟩

/-- A body that reads `self.size.sum`, and returns `self` from a block with the closure. -/
def readsSelf : List Statement :=
  [⟨.expression (.ofTerm (.chain .scope [.read "self", .read "size", .read "sum"])), Span.none⟩,
    ⟨.block [⟨.function returnsSelf, Span.none⟩,
      ⟨.return (some (.ofTerm (.variable "self"))), Span.none⟩], Span.none⟩]

/-- The chain starts at the receiver, which the block returns; the closure keeps its text. -/
theorem stripBlock_normal_readsSelf :
    UsesIn "self" readsSelf ∧ ¬ UsesIn "self" (stripBlock "self" readsSelf) ∧
      landmarks (stripBlock "self" readsSelf) = landmarks readsSelf ∧
      stripBlock "self" readsSelf =
        [⟨.expression (.ofTerm (.chain .receiver [.read "size", .read "sum"])), Span.none⟩,
          ⟨.block [⟨.function returnsSelf, Span.none⟩,
            ⟨.return (some (.ofTerm .receiver)), Span.none⟩], Span.none⟩] := by
  obtain ⟨normal, -, landmarks, -⟩ := stripBlock_normal "self" readsSelf
  exact ⟨.operand (List.mem_singleton_self _) (.here rfl), normal, landmarks, rfl⟩

end ScopeLang
