/-
# Where statements and programs lead

The lemmas for statements, and the induction that ties the knot.  Its depth only
bounds how many evaluations stand inside each other, so the induction is on the
depth, and both halves of `Knot.Sound` are proved at once: the evaluator of
depth `n + 1` is the one of depth `n` after a step.

The last theorem is the one that other files start from: what is left when a
program is stopped anywhere, by an error or for want of fuel, is a moment that
code at the root reaches.
-/
import ScopeLang.Proofs.Expressions
import ScopeLang.Session

namespace ScopeLang

variable {D : Dialect}

namespace Knot

variable {k : Knot} {f : Frame} {m : Machine}

/-! ## Blocks, branches and loops -/

/-- A block runs in a scope of its own under the one it stands in. -/
theorem leads_blockStatement (sound : k.Sound D) {body : List Statement}
    (marks : D.Admits (blockMarks body)) :
    Leads D f (k.blockStatement body f) (OkOutcome D) m := by
  refine leads_look_then fun _ => ?_
  refine Leads.enter (.scope _ rfl) (steps_addChild _ _) fun s fuel e => ?_
  obtain rfl := Except.ok.inj e
  have there : (m.world.createChild f.scope .block (m.world.scope f.scope).label).1.In
      (m.world.createChild f.scope .block (m.world.scope f.scope).label).2.count := by
    simp only [World.createChild, World.count_addChild]
    exact World.derive_in _ _ _ _ _
  refine .followedBy (.holding (fun c hc => List.mem_singleton.mp hc ▸ there)
    (leads_block sound marks) fun _ _ _ h => h) (fun w => steps_removeChild _ _) fun o w oko => ?_
  rw [OkOutcome, OkValue, World.count_removeChild]
  exact oko

theorem leads_branches (sound : k.Sound D) (otherwise : Option (List Statement))
    (last : ∀ body, otherwise = some body → D.Admits (blockMarks body)) :
    ∀ {bs : List Branch} {m : Machine}, D.Admits (branchMarks bs) →
      Leads D f (k.branches f otherwise bs) (OkOutcome D) m
  | [], m, _ => by
    cases otherwise with
    | none => exact .pure fun _ => Value.ok_null
    | some body => exact leads_block sound (last body rfl)
  | ⟨condition, body⟩ :: rest, m, marks => by
    rw [branchMarks, Branch.marks, Dialect.admits_append, Dialect.admits_append] at marks
    refine .bind (sound.evaluate condition f m marks.1.1) ?_
    intro v m₁ _ _ _ _
    refine leads_look_then fun _ => ?_
    split
    · exact leads_block sound marks.1.2
    · exact leads_branches sound otherwise last marks.2

/-- A loop either ends within its rounds or runs out of them like out of fuel. -/
theorem leads_loop (sound : k.Sound D) {condition : Expr} {body : List Statement}
    (marks : D.Admits condition.marks) (inner : D.Admits (blockMarks body)) :
    ∀ {n : Nat} {m : Machine}, Leads D f (k.loop condition body f n) (OkOutcome D) m
  | 0, _ => .stop
  | n + 1, m => by
    refine .bind (sound.evaluate condition f m marks) ?_
    intro v m₁ _ _ _ _
    refine leads_look_then fun _ => ?_
    split
    · refine .bind (leads_block sound inner) ?_
      intro o m₂ _ _ _ oko
      cases o with
      | settled v => exact leads_loop sound marks inner
      | continued => exact leads_loop sound marks inner
      | broke => exact .pure fun _ => Value.ok_null
      | returned v => exact .pure fun _ => oko
      | thrown v => exact .pure fun _ => oko
    · exact .pure fun _ => Value.ok_null

/-! ## Classes -/

/-- The functions of a class body become methods, anything else runs in the scope of the
class. -/
theorem leads_classStatement (sound : k.Sound D) {c : ClassId} {home : ScopeId} {s : Statement}
    (marks : D.Admits s.marks) (there : c.In m.world.count)
    (class_ : (m.world.classOf c).captured.isSome = true)
    (here : (m.world.classOf c).scope = home) :
    Leads D ⟨home, none⟩ (k.classStatement c s) (fun _ _ => True) m := by
  obtain ⟨node, span⟩ := s
  subst here
  simp only [Knot.classStatement]
  split
  · exact .act (.modify (fun before _ => steps_defineMethod before there class_ marks)
      fun _ _ => trivial)
  · refine leads_look_then fun _ => ?_
    refine .bind (sound.interpret _ _ m marks) ?_
    intro o m₁ _ _ _ _
    split
    · exact .pure fun _ => trivial
    · exact .throw

theorem leads_classBody (sound : k.Sound D) {c : ClassId} {home : ScopeId} :
    ∀ {body : List Statement} {m : Machine}, D.Admits (blockMarks body) → c.In m.world.count →
      (m.world.classOf c).captured.isSome = true → (m.world.classOf c).scope = home →
        Leads D ⟨home, none⟩ (k.classBody c body) (fun _ _ => True) m
  | [], _, _, _, _, _ => .pure fun _ => trivial
  | s :: rest, m, marks, there, class_, here => by
    rw [blockMarks, Dialect.admits_append] at marks
    refine .bind (leads_classStatement sound marks.1 there class_ here) ?_
    intro _ m₁ _ _ g _
    have same := g.classOf there
    exact leads_classBody sound marks.2 (there.mono g.count) (same.symm ▸ class_)
      ((congrArg Class.scope same).trans here)

/-- The body of a class runs in a scope that is made for it; the class is registered where it is
declared. -/
theorem leads_defineClass (sound : k.Sound D) {d : ClassDecl} (marks : D.Admits d.marks) :
    Leads D f (k.defineClass d f) (fun _ _ => True) m := by
  refine .assume fun ready => ?_
  obtain ⟨name, accessor, body⟩ := d
  obtain ⟨there, hides⟩ := ready.sound.classDefScope_in ready.frame.scope ⟨name, accessor, body⟩
  have opened := ready.sound.openClass_eq ready.frame.scope ⟨name, accessor, body⟩
    (accessor.getD k.config.accessor)
  have before : Steps D f.scope m.world (m.world.classDefScope f.scope ⟨name, accessor, body⟩).2 :=
    .one (.detach _ _ rfl)
  generalize m.world.classDefScope f.scope ⟨name, accessor, body⟩ = seen
    at there hides opened before
  obtain ⟨home, w₁⟩ := seen
  have made := w₁.addClass_in home name (accessor.getD k.config.accessor) (some home)
  have captured := w₁.captured_addClass home name (accessor.getD k.config.accessor) (some home)
  have here := w₁.home_addClass home name (accessor.getD k.config.accessor) (some home)
  have entered : Enter f m.calls w₁ _ m.calls _ :=
    .classBody name (accessor.getD k.config.accessor) there hides
  generalize w₁.addClass home name (accessor.getD k.config.accessor) (some home) = new
    at opened made captured here entered
  refine .opening (P := fun _ _ => True) opened before entered
    (fun c hc => List.mem_singleton.mp hc ▸ made)
    (fun fuel => leads_classBody sound marks made (captured ▸ rfl) here)
    (fun _ m₂ g _ => ?_) fun _ _ _ _ => trivial
  refine leads_look_then fun _ => leads_look_then fun _ => ?_
  split
  · exact .act (acts_registerClass (made.mono g.count))
  · exact .fail

/-! ## Statements -/

theorem steps_bindAlias {w : World} (s : ScopeId) (name : String) (t : TypeExpr) :
    Steps D s w (w.bindAlias s name t).2 :=
  (steps_bindType s (some t)).tail (.addAlias name _)

theorem leads_node (sound : k.Sound D) {n : Node} (marks : D.Admits n.marks) :
    Leads D f (k.node n f) (OkOutcome D) m := by
  match n with
  | .expression e =>
    exact .bind (sound.evaluate e f m marks) fun v _ _ _ _ ok => .pure fun _ => ok
  | .declare d =>
    exact .bind (leads_declareVariable sound marks fun _ _ => .inl rfl)
      fun v _ _ _ _ ok => .pure fun _ => ok
  | .assign name value =>
    exact .bind (leads_assignVariable sound marks) fun v _ _ _ _ ok => .pure fun _ => ok
  | .block body => exact leads_blockStatement sound marks
  | .cond bs none => exact leads_branches sound none nofun marks
  | .cond bs (some body) =>
    rw [Node.marks, Dialect.admits_append] at marks
    exact leads_branches sound (some body) (fun _ h => Option.some.inj h ▸ marks.2) marks.1
  | .loop condition body =>
    rw [Node.marks, Dialect.admits_append] at marks
    exact leads_loop sound marks.1 marks.2
  | .return none => exact .pure fun _ => Value.ok_null
  | .return (some e) =>
    exact .bind (sound.evaluate e f m marks) fun v _ _ _ _ ok => .pure fun _ => ok
  | .break => exact .pure fun _ => Value.ok_null
  | .continue => exact .pure fun _ => Value.ok_null
  | .throw e =>
    exact .bind (sound.evaluate e f m marks) fun v _ _ _ _ ok => .pure fun _ => ok
  | .function d =>
    refine .bind (Q := fun _ _ => True) (.act (.modify
      (fun before hs => steps_defineFunction before hs marks) fun _ _ => trivial)) ?_
    intro _ _ _ _ _ _
    exact .pure fun _ => Value.ok_null
  | .classDef d =>
    refine .bind (leads_defineClass sound marks) ?_
    intro _ _ _ _ _ _
    exact .pure fun _ => Value.ok_null
  | .typeAlias name t =>
    refine .bind (Q := fun _ _ => True) (.act (.change
      (fun _ _ => steps_bindAlias f.scope name t) fun _ _ => trivial)) ?_
    intro _ _ _ _ _ _
    exact .pure fun _ => Value.ok_null

theorem leads_statement (sound : k.Sound D) {s : Statement} (marks : D.Admits s.marks) :
    Leads D f (k.statement s f) (OkOutcome D) m := by
  obtain ⟨node, span⟩ := s
  exact leads_look_then fun _ => .mapError (leads_node sound marks)

end Knot

/-! ## Tying the knot -/

theorem leads_tick_then {α : Type} {f : Frame} {m : Machine} {r : Run α} {Q : α → World → Prop}
    (h : ∀ m, Leads D f r Q m) : Leads D f (Run.tick >>= fun _ => r) Q m :=
  .bind (Q := fun _ _ => True) (.act (.modify (fun _ _ => .refl) fun _ _ => trivial))
    fun _ m' _ _ _ _ => h m'

/-- The evaluator of every depth leads where it should. -/
theorem knot_sound {config : Config} {host : Host} (obeys : host.Obeys D) :
    ∀ n, (knot config host n).Sound D
  | 0 =>
    { host := obeys
      evaluate := fun _ _ _ _ => .stop
      interpret := fun _ _ _ _ => .stop }
  | n + 1 =>
    { host := obeys
      evaluate := fun _ _ _ marks =>
        leads_tick_then fun _ => Knot.leads_expression (knot_sound obeys n) marks
      interpret := fun _ _ _ marks =>
        leads_tick_then fun _ => Knot.leads_statement (knot_sound obeys n) marks }

namespace Knot

variable {k : Knot}

/-- A program runs at the root, statement by statement. -/
theorem leads_programFrom (sound : k.Sound D) {root : ScopeId} : ∀ {program : List Statement}
    {last : Value} {m : Machine}, D.Admits (blockMarks program) → last.Ok D m.world.count →
      Leads D ⟨root, none⟩ (k.programFrom root last program) (OkValue D) m
  | [], _, _, _, ok => .pure fun _ => ok
  | s :: rest, last, m, marks, ok => by
    rw [blockMarks, Dialect.admits_append] at marks
    refine .bind (.holding ok.cells (sound.interpret s _ _ marks.1) fun _ _ _ h => h) ?_
    intro o m₁ _ _ _ oko
    cases o with
    | settled v => exact leads_programFrom sound marks.2 oko
    | returned v => exact .pure fun _ => oko
    | thrown v => exact .throw
    | broke => exact .throw
    | continued => exact .throw

end Knot

end ScopeLang
