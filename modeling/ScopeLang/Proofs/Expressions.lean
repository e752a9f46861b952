/-
# Where expressions lead

One lemma for each function that evaluates a part of an expression, down to
`leads_expression`.  What the parts share is the result, a sound value; where a
part needs more, such as the scope that a member is declared in, its lemma asks
for it and the caller finds it in the world at hand.
-/
import ScopeLang.Proofs.Invocations

namespace ScopeLang

variable {D : Dialect}

namespace Knot

variable {k : Knot} {f : Frame} {m : Machine}

/-! ## Items and arguments -/

theorem leads_items (sound : k.Sound D) : ∀ {es : List Expr} {m : Machine},
    D.Admits (exprMarks es) → Leads D f (k.items f es) (OkValues D) m
  | [], _, _ => .pure fun _ v hv => absurd hv List.not_mem_nil
  | e :: rest, m, marks => by
    rw [exprMarks, Dialect.admits_append] at marks
    refine .bind (sound.evaluate e f m marks.1) ?_
    intro v m₁ _ _ _ okv
    refine .bind (.act (acts_duplicate okv)) ?_
    intro v m₂ _ _ _ okv
    refine .bind (.holding okv.cells (leads_items sound marks.2) fun _ _ _ h => h) ?_
    intro vs m₃ _ _ g okvs
    refine .pure fun _ x hx => ?_
    rcases List.mem_cons.mp hx with rfl | hx
    · exact okv.mono g.count
    · exact okvs x hx

theorem leads_entries (sound : k.Sound D) : ∀ {es : List Entry} {m : Machine},
    D.Admits (entryMarks es) →
      Leads D f (k.entries f es) (fun es => OkValues D (entryValues es)) m
  | [], _, _ => .pure fun _ v hv => absurd hv List.not_mem_nil
  | ⟨key, value⟩ :: rest, m, marks => by
    rw [entryMarks, Entry.marks, Dialect.admits_append, Dialect.admits_append] at marks
    refine .bind (sound.evaluate key f m marks.1.1) ?_
    intro x m₁ _ _ _ okx
    refine .bind (.act (acts_duplicate okx)) ?_
    intro x m₂ _ _ _ okx
    refine .holding okx.cells ?_ fun _ _ _ h => h
    refine .bind (sound.evaluate value f _ marks.1.2) ?_
    intro y m₃ _ _ g₃ oky
    refine .bind (.act (acts_duplicate oky)) ?_
    intro y m₄ _ _ g₄ oky
    refine .bind (.holding oky.cells (leads_entries sound marks.2) fun _ _ _ h => h) ?_
    intro es m₅ _ _ g₅ okes
    refine .pure fun _ v hv => ?_
    simp only [entryValues, List.flatMap_cons, List.mem_append, List.mem_cons, List.not_mem_nil,
      or_false] at hv
    rcases hv with (rfl | rfl) | hv
    · exact ((okx.mono g₃.count).mono g₄.count).mono g₅.count
    · exact oky.mono g₅.count
    · exact okes v hv

theorem CallArguments.Ok.add {n : Census} {done : CallArguments} (ok : done.Ok D n)
    (name : Option String) {v : Value} (okv : v.Ok D n) : (done.add name v).Ok D n := by
  cases name with
  | none =>
    refine ⟨fun x hx => ?_, ok.named⟩
    rcases List.mem_append.mp hx with hx | hx
    · exact ok.positional x hx
    · exact List.mem_singleton.mp hx ▸ okv
  | some name =>
    refine ⟨ok.positional, fun e he => ?_⟩
    rcases List.mem_append.mp he with he | he
    · exact ok.named e he
    · exact List.mem_singleton.mp he ▸ okv

theorem leads_argumentsFrom (sound : k.Sound D) : ∀ {as : List Argument} {done : CallArguments}
    {m : Machine}, D.Admits (argumentMarks as) → done.Ok D m.world.count →
      Leads D f (k.argumentsFrom f done as) (fun a w => a.Ok D w.count) m
  | [], _, _, _, ok => .pure fun _ => ok
  | ⟨name, value⟩ :: rest, done, m, marks, ok => by
    rw [argumentMarks, Argument.marks, Dialect.admits_append] at marks
    refine .bind (.holding ok.cells (sound.evaluate value f _ marks.1) fun _ _ _ h => h) ?_
    intro v m₁ _ _ g okv
    exact leads_argumentsFrom sound marks.2
      (CallArguments.Ok.add (ok.mono g.count) name okv)

theorem leads_arguments (sound : k.Sound D) {as : List Argument}
    (marks : D.Admits (argumentMarks as)) :
    Leads D f (k.arguments as f) (fun a w => a.Ok D w.count) m :=
  leads_argumentsFrom sound marks
    ⟨fun _ h => absurd h List.not_mem_nil, fun _ h => absurd h List.not_mem_nil⟩

/-! ## Names -/

theorem ok_getVariable {w : World} (sound : ScopeLang.Sound D w) {s : ScopeId} {name : String}
    {v : Value} (h : w.getVariable s name = .ok v) : v.Ok D w.count := by
  simp only [World.getVariable] at h
  split at h
  · rename_i b e
    obtain ⟨t, -, here⟩ := World.localBinding?_of_binding? e
    exact Except.ok.inj h ▸ sound.binding (World.mem_values_of_localBinding? here)
  · exact absurd h nofun

/-- A name is read off a variable, else the functions of the name are put together. -/
theorem acts_readName {w : World} {name : String} {s t : ScopeId} :
    Acts D s (readName name t) (OkValue D) w := by
  refine .assume fun ready _ => acts_look_then (f := id) ?_
  split
  · rename_i v e
    exact .pure (ok_getVariable ready e)
  · split
    · rename_i overloads e
      refine .bind (Q := fun h w' => h.In w'.count)
        (.change (fun _ _ => .one (.overloads (ready.found e))) fun _ _ => w.newOverloads_in _) ?_
      intro h w' _ _ there
      exact .pure (Value.ok_cell rfl there)
    · rename_i c _ e
      exact .pure (Value.ok_cell rfl (ready.classFound e))
    · exact .throw

theorem leads_receiver : Leads D f (k.receiver f) (fun i w => i.In w.count) m := by
  refine .assume fun ready => ?_
  cases e : f.receiver with
  | some i =>
    simp only [receiver, e]
    exact .pure fun _ => ready.frame.receiver i e
  | none =>
    simp only [receiver, e]
    exact .fail

/-! ## Variables -/

/-- An initial value is checked before its type is inferred, which accepts no less. -/
theorem leads_declareVariable (sound : k.Sound D) {d : VariableDecl} {target : ScopeId}
    (marks : D.Admits d.marks)
    (may : ∀ w', m.world.Grows w' → w'.MayDeclare f.scope target) :
    Leads D f (k.declareVariable d f target) (OkValue D) m := by
  obtain ⟨name, type, initial, flags⟩ := d
  have admitted : (flags.isMutable = true → D.sharing) ∧
      ∀ e, initial = some e → D.Admits e.marks := by
    cases initial with
    | none => exact ⟨(Dialect.admits_cons.mp marks).1, fun _ h => absurd h nofun⟩
    | some e =>
      obtain ⟨flags, rest⟩ := Dialect.admits_cons.mp marks
      exact ⟨flags, fun _ h => Option.some.inj h ▸ rest⟩
  refine .bind (Q := fun _ _ => True)
    (.act (.change (fun _ _ => steps_bindType _ _) fun _ _ => trivial)) ?_
  intro declared m₁ _ _ g₁ _
  -- what is done with a value, once it has been checked
  have finish : ∀ (v : Value) (m₂ : Machine), m.world.Grows m₂.world → v.Ok D m₂.world.count →
      m₂.world.Accepts target declared v →
      Leads D f (do
        let inferred ← Run.change fun w => w.inferType f.scope v
        let v := { v with attrs := { v.attrs with inferred, displayName := some name } }
        Action.declareVariable target name ⟨v, flags, declared⟩
        return v) (OkValue D) m₂ := by
    intro v m₂ g₂ ok fits
    refine .bind (Q := fun _ w => v.Ok D w.count ∧ w.Accepts target declared v)
      (.act (.assume fun before hs => .change (fun _ _ => steps_inferType _ _) fun _ _ => ?_)) ?_
    · obtain ⟨after, g⟩ := (steps_inferType (s := f.scope) (D := D) f.scope v).kept before hs
      exact ⟨ok.mono g.count, fits.later before after g ok⟩
    · rintro inferred m₃ _ _ g₃ ⟨ok, fits⟩
      generalize e : ({ v with attrs := { v.attrs with inferred, displayName := some name } } :
        Value) = named
      have ok' : named.Ok D m₃.world.count := by
        rw [← e]
        exact ⟨ok.cells, ok.shared⟩
      have fits' : m₃.world.Accepts target declared named :=
        (World.accepts_datum (by rw [← e])).mpr fits
      refine .bind (.act (acts_declareVariable (may _ (g₂.trans g₃)) admitted.1 ok' fits')) ?_
      intro _ m₄ _ _ g₄ _
      exact .pure fun _ => ok'.mono g₄.count
  cases initial with
  | none => exact finish .null m₁ g₁ Value.ok_null (.inl rfl)
  | some e =>
    refine .bind (sound.evaluate e f m₁ (admitted.2 e rfl)) ?_
    intro v m₂ _ _ g₂ ok
    refine .bind (Q := fun _ w => v.Ok D w.count ∧ w.Accepts target declared v)
      (.act (.consult fun _ _ checked => ⟨ok, World.accepts_of_checkType checked⟩)) ?_
    rintro - m₃ _ _ g₃ ⟨ok, fits⟩
    exact finish v m₃ ((g₁.trans g₂).trans g₃) ok fits

theorem leads_assignVariable (sound : k.Sound D) {name : String} {value : Expr}
    (marks : D.Admits value.marks) :
    Leads D f (k.assignVariable name value f) (OkValue D) m := by
  refine .bind (sound.evaluate value f m marks) ?_
  intro v m₁ _ _ _ ok
  refine .bind (.act (acts_updateVariable ok)) ?_
  intro _ m₂ _ _ g _
  exact .pure fun _ => ok.mono g.count

/-! ## Chains -/

theorem leads_chainHead (sound : k.Sound D) {e : Element} (marks : D.Admits e.marks) :
    Leads D f (k.chainHead e f) (OkValue D) m := by
  cases e with
  | read name => exact .act acts_readName
  | assign name value => exact leads_assignVariable sound marks
  | declare d => exact leads_declareVariable sound marks fun _ _ => .inl rfl
  | call name arguments =>
    refine .bind (leads_arguments sound marks) ?_
    intro a m₁ _ _ _ ok
    exact leads_callName sound ok

/-- The value of a member is one of a variable. -/
theorem ok_member {w : World} (sound : ScopeLang.Sound D w) {i : InstanceId} {name : String}
    {v : Value} (h : member? w i name = some v) : v.Ok D w.count := by
  obtain ⟨b, found, rfl⟩ := Option.map_eq_some_iff.mp h
  rcases Option.or_eq_some_iff.mp found with found | ⟨-, found⟩
  · exact sound.binding (World.mem_values_of_localBinding? found)
  · exact sound.binding (World.mem_values_of_localBinding? found)

/-- The scope of a member is the one of the instance or of its class. -/
theorem mayAssign_memberScope {w : World} {s t : ScopeId} {i : InstanceId} {name : String}
    (present : i.In w.count) (h : memberScope? w i name = some t) : w.MayAssign s t := by
  have mem := List.mem_of_find?_eq_some h
  rcases List.mem_cons.mp mem with rfl | mem
  · exact .inr ⟨i, present, .inl rfl⟩
  · exact .inr ⟨i, present, .inr (List.mem_singleton.mp mem)⟩

theorem acts_assignMember {w : World} {s : ScopeId} {i : InstanceId} {name : String} {v : Value}
    (present : i.In w.count) (ok : v.Ok D w.count) :
    Acts D s (assignMember i name v) (fun _ _ => True) w := by
  refine acts_look_then ?_
  split
  · rename_i t e
    exact acts_updateLocalVariable (mayAssign_memberScope present e) ok
  · exact .throw

theorem leads_member (sound : k.Sound D) {e : Element} {i : InstanceId}
    (marks : D.Admits e.marks) (present : i.In m.world.count) :
    Leads D f (k.member e i f) (OkValue D) m := by
  refine .holding (fun c hc => List.mem_singleton.mp hc ▸ present) ?_ fun _ _ _ h => h
  cases e with
  | read name =>
    refine leads_look_then fun ready => ?_
    split
    · rename_i v e
      exact .pure fun _ => ok_member ready.sound e
    · exact .fail
  | assign name value =>
    refine .bind (sound.evaluate value f _ marks) ?_
    intro v m₁ _ _ g ok
    refine .bind (.act (acts_assignMember (present.mono g.count) ok)) ?_
    intro _ m₂ _ _ g' _
    exact .pure fun _ => ok.mono g'.count
  | declare d =>
    refine leads_look_then fun _ => leads_declareVariable sound marks fun w' g => ?_
    exact .inr ⟨i, present.mono g.count, (g.home present).symm⟩
  | call name arguments =>
    refine leads_look_then fun ready => ?_
    split
    · rename_i has
      refine .bind (leads_arguments sound marks) ?_
      intro a m₁ ready₁ _ g ok
      refine leads_callMethod sound ready₁.frame.scope (.inl rfl) (present.mono g.count) ok ?_
      rw [g.home present]
      exact g.named (ready.sound.home present) has
    · exact .fail

theorem leads_applyIntrinsic {target : Value} {e : Element} {name : String} {vs : List Value}
    (ok : target.Ok D m.world.count) (oks : OkValues D vs m.world) :
    Leads D f (applyIntrinsic target e name vs) (OkValue D) m := by
  simp only [applyIntrinsic]
  split
  · rename_i run found
    exact .act (safe_intrinsic ok found vs oks)
  · exact leads_look_then fun _ => .fail

theorem leads_virtual (sound : k.Sound D) {e : Element} {target : Value}
    (marks : D.Admits e.marks) (ok : target.Ok D m.world.count) :
    Leads D f (k.virtual e target f) (OkValue D) m := by
  refine .holding ok.cells ?_ fun _ _ _ h => h
  cases e with
  | read name => exact leads_applyIntrinsic ok fun v hv => absurd hv List.not_mem_nil
  | assign name value => exact leads_look_then fun _ => .fail
  | declare d => exact leads_look_then fun _ => .fail
  | call name arguments =>
    refine .bind (leads_arguments sound marks) ?_
    intro a m₁ _ _ g oka
    split
    · exact .holding oka.cells (leads_applyIntrinsic (ok.mono g.count) oka.positional)
        fun _ _ _ h => h
    · exact leads_look_then fun _ => .fail

theorem leads_chainStep (sound : k.Sound D) {e : Element} {current : Value}
    (marks : D.Admits e.marks) (ok : current.Ok D m.world.count) :
    Leads D f (k.chainStep e current f) (OkValue D) m := by
  simp only [chainStep]
  split
  · rename_i i object
    refine leads_member sound marks (ok.cells i.cell ?_)
    obtain ⟨d, a⟩ := current
    cases d with
    | object j =>
      rw [← Option.some.inj object]
      exact List.mem_singleton_self _
    | _ => exact absurd object nofun
  · exact leads_virtual sound marks ok

theorem leads_chainSteps (sound : k.Sound D) : ∀ {es : List Element} {current : Value}
    {m : Machine}, D.Admits (elementMarks es) → current.Ok D m.world.count →
      Leads D f (k.chainSteps f current es) (OkValue D) m
  | [], _, _, _, ok => .pure fun _ => ok
  | e :: rest, current, m, marks, ok => by
    rw [elementMarks, Dialect.admits_append] at marks
    refine .bind (leads_chainStep sound marks.1 ok) ?_
    intro v m₁ _ _ _ okv
    exact leads_chainSteps sound marks.2 okv

theorem leads_chain (sound : k.Sound D) {origin : ChainOrigin} {es : List Element}
    (marks : D.Admits (elementMarks es)) : Leads D f (k.chain origin es f) (OkValue D) m := by
  cases es with
  | nil => exact .pure fun _ => Value.ok_null
  | cons head rest =>
    rw [elementMarks, Dialect.admits_append] at marks
    cases origin with
    | scope =>
      refine .bind (leads_chainHead sound marks.1) ?_
      intro v m₁ _ _ _ okv
      exact leads_chainSteps sound marks.2 okv
    | receiver =>
      refine .bind leads_receiver ?_
      intro i m₁ _ _ _ present
      refine .bind (leads_member sound marks.1 present) ?_
      intro v m₂ _ _ _ okv
      exact leads_chainSteps sound marks.2 okv

/-! ## Expressions -/

theorem acts_build {w : World} {s : ScopeId} {vs : List Value} (ok : OkValues D vs w) :
    ∀ kind : SequenceKind, Acts D s (kind.build vs) (OkValue D) w
  | .list => acts_newList ok
  | .array => acts_newArray ok
  | .set => acts_newSet ok

theorem leads_term (sound : k.Sound D) {t : Term} (marks : D.Admits t.marks) :
    Leads D f (k.term t f) (OkValue D) m := by
  match t with
  | .literal l => exact .pure fun _ => (plain_literal l).ok
  | .sequence kind es =>
    refine .bind (leads_items sound marks) ?_
    intro vs m₁ _ _ _ ok
    exact .act (acts_build ok kind)
  | .dict es =>
    refine .bind (leads_entries sound marks) ?_
    intro vs m₁ _ _ _ ok
    exact .act (acts_newDict ok)
  | .variable name => exact .act acts_readName
  | .receiver =>
    refine .bind leads_receiver ?_
    intro i m₁ _ _ _ present
    exact .pure fun _ => Value.ok_cell rfl present
  | .unary op operand =>
    refine .bind (sound.evaluate operand f m marks) ?_
    intro v m₁ _ _ _ _
    exact .act (.consult fun _ _ h => (plain_unary h).ok)
  | .binary op left right =>
    rw [Term.marks, Dialect.admits_append] at marks
    refine .bind (sound.evaluate left f m marks.1) ?_
    intro a m₁ _ _ _ ok
    refine .bind (.holding ok.cells (sound.evaluate right f _ marks.2) fun _ _ _ h => h) ?_
    intro b m₂ _ _ _ _
    exact .act acts_binary
  | .logical op left right =>
    rw [Term.marks, Dialect.admits_append] at marks
    refine .bind (sound.evaluate left f m marks.1) ?_
    intro a m₁ _ _ _ ok
    refine leads_look_then fun _ => ?_
    split
    · exact .pure fun _ => ok
    · exact .holding ok.cells (sound.evaluate right f _ marks.2) fun _ _ _ h => h
  | .call callee arguments =>
    refine .bind (leads_arguments sound marks) ?_
    intro a m₁ _ _ _ ok
    exact leads_callName sound ok
  | .callValue callee arguments =>
    rw [Term.marks, Dialect.admits_append] at marks
    refine .bind (sound.evaluate callee f m marks.1) ?_
    intro v m₁ _ _ _ okv
    refine .bind (.holding okv.cells (leads_arguments sound marks.2) fun _ _ _ h => h) ?_
    intro a m₂ _ _ g ok
    exact leads_callValue sound (okv.mono g.count) ok
  | .chain origin es => exact leads_chain sound marks

theorem leads_expression (sound : k.Sound D) {e : Expr} (marks : D.Admits e.marks) :
    Leads D f (k.expression e f) (OkValue D) m := by
  obtain ⟨t, span⟩ := e
  exact .mapError (leads_term sound marks)

end Knot

end ScopeLang
