/-
# Intrinsics in matching worlds

Applied to matching values in matching worlds, an intrinsic does the same in both.
What it copies, shows or compares has to be finite (`World.Bounded`); what it only
moves about may be anything.
-/
import ScopeLang.Intrinsics
import ScopeLang.Proofs.Parallel

namespace ScopeLang

open List (Forall₂)

variable {β β₁ : Pairing} {P : ScopeId → Prop} {lost : Cell → Prop} {w₀ w w' w₁ w₁' : World}

/-! ## Lists of related items -/

section Lists

variable {α γ : Type} {R : α → γ → Prop} {xs : List α} {ys : List γ} {a : α} {b : γ}

theorem forall₂_getD (h : Forall₂ R xs ys) (r : R a b) : ∀ i, R (xs.getD i a) (ys.getD i b) := by
  induction h with
  | nil => exact fun _ => r
  | cons first _ ih =>
    intro i
    cases i with
    | zero => exact first
    | succ i => exact ih i

theorem forall₂_set (h : Forall₂ R xs ys) (r : R a b) :
    ∀ i, Forall₂ R (xs.set i a) (ys.set i b) := by
  induction h with
  | nil => exact fun _ => .nil
  | cons first others ih =>
    intro i
    cases i with
    | zero => exact .cons r others
    | succ i => exact .cons first (ih i)

theorem forall₂_insertIdx (h : Forall₂ R xs ys) (r : R a b) :
    ∀ i, Forall₂ R (xs.insertIdx i a) (ys.insertIdx i b) := by
  induction h with
  | nil =>
    intro i
    cases i with
    | zero => exact .cons r .nil
    | succ i => exact .nil
  | cons first others ih =>
    intro i
    cases i with
    | zero => exact .cons r (.cons first others)
    | succ i => exact .cons first (ih i)

theorem forall₂_eraseIdx (h : Forall₂ R xs ys) :
    ∀ i, Forall₂ R (xs.eraseIdx i) (ys.eraseIdx i) := by
  induction h with
  | nil => exact fun _ => .nil
  | cons first others ih =>
    intro i
    cases i with
    | zero => exact others
    | succ i => exact .cons first (ih i)

theorem forall₂_dropLast (h : Forall₂ R xs ys) : Forall₂ R xs.dropLast ys.dropLast := by
  rw [List.dropLast_eq_take, List.dropLast_eq_take, h.length_eq]
  exact List.forall₂_take _ h

theorem forall₂_getLast? (h : Forall₂ R xs ys) : Option.Rel R xs.getLast? ys.getLast? := by
  rw [List.getLast?_eq_head?_reverse, List.getLast?_eq_head?_reverse]
  have reversed := List.forall₂_reverse_iff.mpr h
  generalize xs.reverse = us at reversed ⊢
  generalize ys.reverse = vs at reversed ⊢
  cases reversed with
  | nil => exact .none
  | cons first _ => exact .some first

theorem forall₂_eraseP {p : α → Bool} {q : γ → Bool} (h : Forall₂ R xs ys)
    (each : ∀ a b, R a b → p a = q b) : Forall₂ R (xs.eraseP p) (ys.eraseP q) := by
  induction h with
  | nil => exact .nil
  | @cons a b _ _ first others ih =>
    rw [List.eraseP_cons, List.eraseP_cons, each a b first]
    cases q b with
    | true => exact others
    | false => exact .cons first ih

theorem forall₂_slice {xs ys : List α} {R : α → α → Prop} (h : Forall₂ R xs ys)
    (bounds : Nat × Nat) : Forall₂ R (slice xs bounds) (slice ys bounds) :=
  List.forall₂_take _ (List.forall₂_drop _ h)

end Lists

/-! ## Finding and putting elements -/

namespace World.Matches

variable (m : w.Matches P lost β w') {v v' : Value} (h : v.Matches β v') (finite : v.Finite w)

include m h finite

theorem hasElement_eq {es es' : List Value} (elements : Forall₂ (Value.Matches β) es es') :
    hasElement w.looseEq es v = hasElement w'.looseEq es' v' :=
  any_eq_of_forall₂ elements fun _ _ _ _ e => m.looseEq_eq e h (.inr finite)

theorem insertElement {es es' : List Value} (elements : Forall₂ (Value.Matches β) es es') :
    Forall₂ (Value.Matches β) (insertElement w.looseEq es v) (insertElement w'.looseEq es' v') := by
  rw [ScopeLang.insertElement, ScopeLang.insertElement, m.hasElement_eq h finite elements]
  split
  · exact elements
  · exact List.rel_append elements (.cons h .nil)

theorem eraseElement {es es' : List Value} (elements : Forall₂ (Value.Matches β) es es') :
    Forall₂ (Value.Matches β) (es.eraseP fun e => w.looseEq e v)
      (es'.eraseP fun e => w'.looseEq e v') :=
  forall₂_eraseP elements fun _ _ e => m.looseEq_eq e h (.inr finite)

theorem lookupEntry {es es' : List (Value × Value)} (entries : Forall₂ (EntriesMatch β) es es') :
    Option.Rel (Value.Matches β) (lookupEntry w.looseEq es v) (lookupEntry w'.looseEq es' v') := by
  have found := lookupEntry_related entries fun e _ e' me => m.looseEq_eq me h (.inr finite)
  generalize ScopeLang.lookupEntry w.looseEq es v = o at found ⊢
  generalize ScopeLang.lookupEntry w'.looseEq es' v' = o' at found ⊢
  cases found with
  | none => exact .none
  | some e => exact .some e.2

theorem insertEntry {x x' : Value} (hx : x.Matches β x') {es es' : List (Value × Value)}
    (entries : Forall₂ (EntriesMatch β) es es') :
    Forall₂ (EntriesMatch β) (insertEntry w.looseEq v x es) (insertEntry w'.looseEq v' x' es') := by
  induction entries with
  | nil => exact .cons ⟨h, hx⟩ .nil
  | @cons e e' _ _ first others ih =>
    obtain ⟨key, value⟩ := e
    obtain ⟨key', value'⟩ := e'
    rw [ScopeLang.insertEntry, ScopeLang.insertEntry, m.looseEq_eq first.1 h (.inr finite)]
    split
    · exact .cons ⟨first.1, hx⟩ others
    · exact .cons first ih

theorem eraseEntry {es es' : List (Value × Value)} (entries : Forall₂ (EntriesMatch β) es es') :
    Forall₂ (EntriesMatch β) (es.eraseP fun e => w.looseEq e.1 v)
      (es'.eraseP fun e => w'.looseEq e.1 v') :=
  forall₂_eraseP entries fun _ _ e => m.looseEq_eq e.1 h (.inr finite)

end World.Matches

/-- A value found, or null. -/
theorem matches_getD {o o' : Option Value} (h : Option.Rel (Value.Matches β) o o') :
    (o.getD .null).Matches β (o'.getD .null) := by
  cases h with
  | none => exact .scalar rfl
  | some match_ => exact match_

/-- The display text of a finite value. -/
theorem Twins.text_eq (t : Twins w₀ P β w w') {v v' : Value} (h : v.Matches β v')
    (finite : v.Finite w) : w.text v = w'.text v' :=
  t.alike.text_eq (t.sameClasses (t.alike.present h).1 (t.alike.present h).2) h finite

/-! ## New containers -/

section New

variable {vs vs' : List Value}

theorem concur_newList (h : Forall₂ (Value.Matches β) vs vs') :
    Concur w₀ P (Action.newList vs) (Action.newList vs') Value.Matches β w w' := by
  intro t
  obtain ⟨β₁, onward, match_⟩ := t.alike.make (World.newItems_new w vs) (World.newItems_new w' vs')
    rfl rfl (World.fills_newItems _ _) (World.fills_newItems _ _) h (.list (.inr ⟨rfl, rfl⟩)) rfl
  exact ⟨β₁, onward, .ok match_⟩

theorem concur_newArray (h : Forall₂ (Value.Matches β) vs vs') :
    Concur w₀ P (Action.newArray vs) (Action.newArray vs') Value.Matches β w w' := by
  intro t
  obtain ⟨β₁, onward, match_⟩ := t.alike.make (World.newItems_new w vs) (World.newItems_new w' vs')
    rfl rfl (World.fills_newItems _ _) (World.fills_newItems _ _) h (.array (.inr ⟨rfl, rfl⟩)) rfl
  exact ⟨β₁, onward, .ok match_⟩

theorem concur_newSet (h : Forall₂ (Value.Matches β) vs vs') (finite : ∀ v ∈ vs, v.Finite w) :
    Concur w₀ P (Action.newSet vs) (Action.newSet vs') Value.Matches β w w' := by
  intro t
  have distinct : ∀ {es es'}, Forall₂ (Value.Matches β) es es' → Forall₂ (Value.Matches β)
      (vs.foldl (insertElement w.looseEq) es) (vs'.foldl (insertElement w'.looseEq) es') := by
    induction h with
    | nil => exact id
    | cons first _ ih =>
      intro es es' elements
      refine ih (fun v hv => finite v (List.mem_cons_of_mem _ hv)) ?_
      exact t.alike.insertElement first (finite _ List.mem_cons_self) elements
  obtain ⟨β₁, onward, match_⟩ := t.alike.make (World.newElements_new w _)
    (World.newElements_new w' _) rfl rfl (World.fills_newElements _ _) (World.fills_newElements _ _)
    (distinct .nil) (.set (.inr ⟨rfl, rfl⟩)) rfl
  exact ⟨β₁, onward, .ok match_⟩

theorem concur_newDict {es es' : List (Value × Value)} (h : Forall₂ (EntriesMatch β) es es')
    (finite : ∀ e ∈ es, e.1.Finite w) :
    Concur w₀ P (Action.newDict es) (Action.newDict es') Value.Matches β w w' := by
  intro t
  have distinct : ∀ {done done'}, Forall₂ (EntriesMatch β) done done' →
      Forall₂ (EntriesMatch β) (es.foldl (fun done e => insertEntry w.looseEq e.1 e.2 done) done)
        (es'.foldl (fun done e => insertEntry w'.looseEq e.1 e.2 done) done') := by
    induction h with
    | nil => exact id
    | cons first _ ih =>
      intro done done' entries
      refine ih (fun e he => finite e (List.mem_cons_of_mem _ he)) ?_
      exact t.alike.insertEntry first.1 (finite _ List.mem_cons_self) first.2 entries
  obtain ⟨β₁, onward, match_⟩ := t.alike.make (World.newEntries_new w _)
    (World.newEntries_new w' _) rfl rfl (World.fills_newEntries _ _) (World.fills_newEntries _ _)
    (forall₂_entries.mpr (distinct .nil)) (.dict (.inr ⟨rfl, rfl⟩)) rfl
  exact ⟨β₁, onward, .ok match_⟩

end New

/-! ## Changing containers -/

/-- Paired containers are given matching contents. -/
theorem World.Matches.refill (m : w.Matches P lost β w') {c c' : Cell} {vs vs' : List Value}
    {r r' : Value} (p : β c c') (kind : c.kind.isContainer = true) (f : w.Fills c vs w₁)
    (f' : w'.Fills c' vs' w₁') (values : Forall₂ (Value.Matches β) vs vs') (result : r.Matches β r') :
    Replicates P lost β w w' Value.Matches (r, w₁) (r', w₁') :=
  ⟨_, m.fill (.inl p) kind (m.kind p).1 f f' values, result.mono .inl⟩

section Changes

variable {r q : World → Value}

theorem concur_setItems {h h' : Handle .list} (p : β h.cell h'.cell) {vs vs' : World → List Value}
    (made : Twins w₀ P β w w' →
      (r w).Matches β (q w') ∧ Forall₂ (Value.Matches β) (vs w) (vs' w')) :
    Concur w₀ P (Action.change fun w => (r w, w.setItems h (vs w)))
      (Action.change fun w => (q w, w.setItems h' (vs' w))) Value.Matches β w w' :=
  .change fun t => t.alike.refill p rfl (World.fills_setItems (t.alike.there p).1 _)
    (World.fills_setItems (t.alike.there p).2 _) (made t).2 (made t).1

theorem concur_setElements {h h' : Handle .set} (p : β h.cell h'.cell)
    {vs vs' : World → List Value} (made : Twins w₀ P β w w' →
      (r w).Matches β (q w') ∧ Forall₂ (Value.Matches β) (vs w) (vs' w')) :
    Concur w₀ P (Action.change fun w => (r w, w.setElements h (vs w)))
      (Action.change fun w => (q w, w.setElements h' (vs' w))) Value.Matches β w w' :=
  .change fun t => t.alike.refill p rfl (World.fills_setElements (t.alike.there p).1 _)
    (World.fills_setElements (t.alike.there p).2 _) (made t).2 (made t).1

theorem concur_setEntries {h h' : Handle .dict} (p : β h.cell h'.cell)
    {es es' : World → List (Value × Value)} (made : Twins w₀ P β w w' →
      (r w).Matches β (q w') ∧ Forall₂ (EntriesMatch β) (es w) (es' w')) :
    Concur w₀ P (Action.change fun w => (r w, w.setEntries h (es w)))
      (Action.change fun w => (q w, w.setEntries h' (es' w))) Value.Matches β w w' :=
  .change fun t => t.alike.refill p rfl (World.fills_setEntries (t.alike.there p).1 _)
    (World.fills_setEntries (t.alike.there p).2 _) (forall₂_entries.mpr (made t).2) (made t).1

end Changes

/-! ## Numbers of arguments -/

/-- Two operations that concur on matching arguments of which `ends` holds. -/
def Intrinsic.Concurs (w₀ : World) (P : ScopeId → Prop) (β : Pairing) (w w' : World)
    (ends : List Value → Prop) (run run' : Intrinsic) : Prop :=
  ∀ args args', Forall₂ (Value.Matches β) args args' → ends args →
    Concur w₀ P (run args) (run' args') Value.Matches β w w'

namespace Intrinsic.Concurs

variable {operation : String} {ends : List Value → Prop}

theorem nullary {run run' : Action Value}
    (h : ends [] → Concur w₀ P run run' Value.Matches β w w') :
    (Intrinsic.nullary operation run).Concurs w₀ P β w w' ends (Intrinsic.nullary operation run') := by
  intro args args' m finite
  have same := m.length_eq
  cases m with
  | nil => exact h finite
  | cons _ _ =>
    simp only [Intrinsic.nullary, same]
    exact .throw

theorem unary {run run' : Value → Action Value} (h : ∀ {v v'}, v.Matches β v' → ends [v] →
      Concur w₀ P (run v) (run' v') Value.Matches β w w') :
    (Intrinsic.unary operation run).Concurs w₀ P β w w' ends (Intrinsic.unary operation run') := by
  intro args args' m finite
  have same := m.length_eq
  cases m with
  | nil => exact .throw
  | cons first others =>
    cases others with
    | nil => exact h first finite
    | cons _ _ =>
      simp only [Intrinsic.unary, same]
      exact .throw

theorem binary {run run' : Value → Value → Action Value}
    (h : ∀ {v v' x x'}, v.Matches β v' → x.Matches β x' → ends [v, x] →
      Concur w₀ P (run v x) (run' v' x') Value.Matches β w w') :
    (Intrinsic.binary operation run).Concurs w₀ P β w w' ends (Intrinsic.binary operation run') := by
  intro args args' m finite
  have same := m.length_eq
  cases m with
  | nil => exact .throw
  | cons first others =>
    cases others with
    | nil => exact .throw
    | cons second others =>
      cases others with
      | nil => exact h first second finite
      | cons _ _ =>
        simp only [Intrinsic.binary, same]
        exact .throw

theorem ranged {run run' : Value → Option Value → Action Value}
    (h : ∀ {v v' o o'}, v.Matches β v' → Option.Rel (Value.Matches β) o o' →
      Concur w₀ P (run v o) (run' v' o') Value.Matches β w w') :
    (Intrinsic.ranged operation run).Concurs w₀ P β w w' ends (Intrinsic.ranged operation run') := by
  intro args args' m _
  have same := m.length_eq
  cases m with
  | nil => exact .throw
  | cons first others =>
    cases others with
    | nil => exact h first .none
    | cons second others =>
      cases others with
      | nil => exact h first (.some second)
      | cons _ _ =>
        simp only [Intrinsic.ranged, same]
        exact .throw

end Intrinsic.Concurs

/-! ## Positions -/

theorem integer?_eq {v v' : Value} (h : v.Matches β v') : v.integer? = v'.integer? := by
  obtain ⟨d, a⟩ := v
  obtain ⟨d', a'⟩ := v'
  have datum := h.datum
  cases datum with
  | _ => rfl

/-- What follows when an argument has been read as a position. -/
theorem Concur.indexBelow_then {α : Type} {R : Pairing → α → α → Prop} {operation : String}
    {v v' : Value} {length limit : Nat} {k k' : Nat → Action α} (h : v.Matches β v')
    (next : ∀ i, Concur w₀ P (k i) (k' i) R β w w') :
    Concur w₀ P (indexBelow operation v length limit >>= k)
      (indexBelow operation v' length limit >>= k') R β w w' := by
  refine .assume fun t => ?_
  simp only [indexBelow, ← integer?_eq h]
  cases v.integer? with
  | none =>
    rw [bind_assoc, bind_assoc]
    refine .look_then ?_
    rw [← t.alike.typeName_eq h]
    exact .throw
  | some i =>
    simp only
    split
    · exact next _
    · exact .throw

theorem concur_sliceBounds {operation : String} {v v' : Value}
    {o o' : Option Value} (h : v.Matches β v') (second : Option.Rel (Value.Matches β) o o')
    (length : Nat) :
    Concur w₀ P (sliceBounds operation v o length) (sliceBounds operation v' o' length)
      (fun _ => Eq) β w w' := by
  refine .indexBelow_then h fun start => ?_
  have ordered : ∀ (stop : Nat) (e : ErrorKind),
      Concur w₀ P (if stop < start then throw e else pure (start, stop))
        (if stop < start then throw e else pure (start, stop)) (fun _ => Eq) β w w' := by
    intro stop e
    split
    · exact .throw
    · exact .pure rfl
  cases second with
  | none => exact ordered length _
  | some m => exact .indexBelow_then m fun stop => ordered stop _

/-! ## The intrinsics of each kind of value -/

/-- Operations that are both missing, or concur. -/
abbrev BothConcur (w₀ : World) (P : ScopeId → Prop) (β : Pairing) (w w' : World)
    (ends : List Value → Prop) : Option Intrinsic → Option Intrinsic → Prop :=
  Option.Rel (Intrinsic.Concurs w₀ P β w w' ends)

section Kinds

variable {operation : String} {ends : List Value → Prop}

theorem concurs_measure {length length' : World → Nat} (same : length w = length' w') :
    BothConcur w₀ P β w w' ends (measure? operation length) (measure? operation length') := by
  simp only [measure?]
  split
  · exact .some (.nullary fun _ => .look fun _ => same ▸ .scalar rfl)
  · exact .some (.nullary fun _ => .look fun _ => same ▸ .scalar rfl)
  · exact .some (.nullary fun _ => .look fun _ => same ▸ .scalar rfl)
  · exact .none

theorem concatenand?_eq {v v' : Value} (h : v.Matches β v') : concatenand? v = concatenand? v' := by
  obtain ⟨d, a⟩ := v
  obtain ⟨d', a'⟩ := v'
  have datum := h.datum
  cases datum with
  | _ => rfl

theorem concurs_stringIntrinsic (ground : w₀.Ground P) {text : String} :
    BothConcur w₀ P β w w' ends (stringIntrinsic? text operation)
      (stringIntrinsic? text operation) := by
  simp only [stringIntrinsic?]
  have part : ∀ {v v' o o'}, v.Matches β v' → Option.Rel (Value.Matches β) o o' →
      Concur w₀ P (do
        let bounds ← sliceBounds operation v o text.length
        return Value.string (String.ofList (slice text.toList bounds))) (do
        let bounds ← sliceBounds operation v' o' text.length
        return Value.string (String.ofList (slice text.toList bounds))) Value.Matches β w w' := by
    intro v v' o o' first second
    refine .bind ground (concur_sliceBounds first second _) ?_
    rintro β₁ w₁ w₁' bounds _ - rfl
    exact .pure (.scalar rfl)
  split
  · exact .some (.ranged part)
  · exact .some (.ranged part)
  · refine .some (.unary fun {v v'} h _ => ?_)
    rw [← concatenand?_eq h]
    split
    · exact .pure (.scalar rfl)
    · exact .throw
  · refine .some (.unary fun {v v'} h _ => .indexBelow_then h fun i => ?_)
    exact .pure (.scalar rfl)
  · exact concurs_measure rfl

/-- Storing a duplicate in a list. -/
theorem concur_storeItem (ground : w₀.Ground P) {h h' : Handle .list} (p : β h.cell h'.cell)
    {v v' : Value} (hv : v.Matches β v') (finite : v.attrs.isMutable = true ∨ v.Finite w)
    {place place' : World → Value → List Value}
    (placed : ∀ {β₁ w₁ w₁' x x'}, World.Onward P w₀.Gone β w w' β₁ w₁ w₁' → x.Matches β₁ x' →
      Forall₂ (Value.Matches β₁) (place w₁ x) (place' w₁' x')) :
    Concur w₀ P (do
      let v ← Action.duplicate v
      Action.change fun w => (Value.null, w.setItems h (place w v))) (do
      let v ← Action.duplicate v'
      Action.change fun w => (Value.null, w.setItems h' (place' w v))) Value.Matches β w w' := by
  refine .duplicate_then ground hv finite fun onward _ match_ _ => ?_
  exact concur_setItems (r := fun _ => .null) (onward.sub p) fun _ =>
    ⟨.scalar rfl, placed onward match_⟩

/-- What lists and arrays compare and copy is finite. -/
abbrev SequenceEnds (w : World) (operation : String) (args : List Value) : Prop :=
  (operation = "contains" → ∀ v ∈ args, v.Finite w) ∧
    ∀ v ∈ args, v.attrs.isMutable = true ∨ v.Finite w

theorem concurs_sequenceIntrinsic (t : Twins w₀ P β w w') (ground : w₀.Ground P)
    {h h' : Handle .list} (p : β h.cell h'.cell) {rebuild rebuild' : List Value → Action Value}
    (rebuilds : ∀ {β₁ w₁ w₁' vs vs'}, Forall₂ (Value.Matches β₁) vs vs' →
      Concur w₀ P (rebuild vs) (rebuild' vs') Value.Matches β₁ w₁ w₁') :
    BothConcur w₀ P β w w' (SequenceEnds w operation) (sequenceIntrinsic? h rebuild operation)
      (sequenceIntrinsic? h' rebuild' operation) := by
  have items : Forall₂ (Value.Matches β) (w.items h) (w'.items h') := t.alike.values p
  have length := items.length_eq
  simp only [sequenceIntrinsic?]
  split
  · exact .some (.nullary fun _ => concur_setItems (r := fun _ => .null) p fun _ =>
      ⟨.scalar rfl, .nil⟩)
  · refine .some (.ranged fun first second => .look_then ?_)
    rw [length]
    refine .bind ground (concur_sliceBounds first second _) ?_
    rintro β₁ w₁ w₁' bounds _ onward rfl
    exact rebuilds (forall₂_slice (items.imp fun _ _ e => e.mono onward.sub) bounds)
  · refine .some (.unary fun hv ends => .look fun _ => ?_)
    rw [t.alike.hasElement_eq hv (ends.1 rfl _ List.mem_cons_self) items]
    exact .scalar rfl
  · refine .some (.unary fun hv _ => .look_then ?_)
    rw [length]
    exact .indexBelow_then hv fun i => .pure (forall₂_getD items (.scalar rfl) i)
  · refine .some (.binary fun first second ends => .look_then ?_)
    rw [length]
    refine .indexBelow_then first fun i => concur_storeItem ground p second
      (ends.2 _ (List.mem_cons_of_mem _ List.mem_cons_self)) fun onward match_ => ?_
    exact forall₂_set (items.imp fun _ _ e => e.mono onward.sub) match_ i
  · exact concurs_measure length

theorem concurs_listIntrinsic (t : Twins w₀ P β w w') (ground : w₀.Ground P)
    {h h' : Handle .list} (p : β h.cell h'.cell) :
    BothConcur w₀ P β w w' (SequenceEnds w operation) (listIntrinsic? h operation)
      (listIntrinsic? h' operation) := by
  have items : Forall₂ (Value.Matches β) (w.items h) (w'.items h') := t.alike.values p
  have length := items.length_eq
  simp only [listIntrinsic?]
  split
  · refine .some (.unary fun hv ends => ?_)
    refine concur_storeItem ground p hv (ends.2 _ List.mem_cons_self) fun onward match_ => ?_
    exact List.rel_append (onward.after.values (onward.sub p)) (.cons match_ .nil)
  · refine .some (.nullary fun _ => .look_then ?_)
    have last := forall₂_getLast? items
    generalize (w.items h).getLast? = o at last ⊢
    generalize (w'.items h').getLast? = o' at last ⊢
    cases last with
    | none => exact .throw
    | some match_ =>
      exact concur_setItems (r := fun _ => _) p fun _ => ⟨match_, forall₂_dropLast items⟩
  · refine .some (.binary fun first second ends => .look_then ?_)
    rw [length]
    refine .indexBelow_then first fun i => concur_storeItem ground p second
      (ends.2 _ (List.mem_cons_of_mem _ List.mem_cons_self)) fun onward match_ => ?_
    exact forall₂_insertIdx (items.imp fun _ _ e => e.mono onward.sub) match_ i
  · refine .some (.unary fun hv _ => .look_then ?_)
    rw [length]
    refine .indexBelow_then hv fun i => concur_setItems (r := fun _ => _) p fun _ => ?_
    exact ⟨forall₂_getD items (.scalar rfl) i, forall₂_eraseIdx items i⟩
  · exact concurs_sequenceIntrinsic t ground p concur_newList

theorem concurs_setIntrinsic (t : Twins w₀ P β w w') (ground : w₀.Ground P) {h h' : Handle .set}
    (p : β h.cell h'.cell) :
    BothConcur w₀ P β w w' (fun args => ∀ v ∈ args, v.Finite w) (setIntrinsic? h operation)
      (setIntrinsic? h' operation) := by
  have elements : Forall₂ (Value.Matches β) (w.elements h) (w'.elements h') := t.alike.values p
  simp only [setIntrinsic?]
  split
  · exact .some (.nullary fun _ => concur_setElements (r := fun _ => .null) p fun _ =>
      ⟨.scalar rfl, .nil⟩)
  · refine .some (.unary fun hv ends => .look fun _ => ?_)
    rw [t.alike.hasElement_eq hv (ends _ List.mem_cons_self) elements]
    exact .scalar rfl
  · refine .some (.unary fun hv ends => ?_)
    have finite := ends _ List.mem_cons_self
    refine .duplicate_then ground hv (.inr finite) fun {β₁ w₁ w₁' x x'} onward _ match_ ends => ?_
    have there : Forall₂ (Value.Matches β₁) (w₁.elements h) (w₁'.elements h') :=
      onward.after.values (onward.sub p)
    refine concur_setElements (r := fun w => .bool (!hasElement w.looseEq (w.elements h) x))
      (q := fun w => .bool (!hasElement w.looseEq (w.elements h') x')) (onward.sub p) fun t => ?_
    rw [t.alike.hasElement_eq match_ (ends finite) there]
    exact ⟨.scalar rfl, t.alike.insertElement match_ (ends finite) there⟩
  · refine .some (.unary fun {v v'} hv ends => ?_)
    have finite := ends _ List.mem_cons_self
    refine concur_setElements (r := fun w => .bool (hasElement w.looseEq (w.elements h) v))
      (q := fun w => .bool (hasElement w.looseEq (w.elements h') v')) p fun t => ?_
    rw [t.alike.hasElement_eq hv finite elements]
    exact ⟨.scalar rfl, t.alike.eraseElement hv finite elements⟩
  · exact concurs_measure elements.length_eq

/-- Keys, which dictionaries compare, are finite, and so is what is copied. -/
abbrev DictEnds (w : World) (args : List Value) : Prop :=
  (∀ v ∈ args.take 1, v.Finite w) ∧ ∀ v ∈ args, v.attrs.isMutable = true ∨ v.Finite w

/-- A dictionary is given a duplicated entry, and the value that is replaced is the result. -/
theorem concur_putEntry (ground : w₀.Ground P) {h h' : Handle .dict} (p : β h.cell h'.cell)
    {key key' v v' : Value} (hk : key.Matches β key') (hv : v.Matches β v')
    (ends : DictEnds w [key, v]) :
    Concur w₀ P (putEntry h key v) (putEntry h' key' v') Value.Matches β w w' := by
  have finite : key.Finite w := ends.1 _ List.mem_cons_self
  have copied := ends.2 v (List.mem_cons_of_mem _ List.mem_cons_self)
  refine .assume fun t => ?_
  refine .duplicate_then ground hk (.inr finite) fun {β₁ w₁ w₁' k k'} onward amends mk later => ?_
  refine .assume fun t₁ => ?_
  -- what was finite is finite after the key has been copied
  have copied : v.attrs.isMutable = true ∨ v.Finite w₁ := by
    refine copied.imp_right fun ⟨n, nested⟩ => ⟨n, ?_⟩
    exact nested.later t.alike.sealed (t.alike.present hv).1 amends
  refine .duplicate_then ground (hv.mono onward.sub) copied
    fun {β₂ w₂ w₂' x x'} onward' amends' mx _ => ?_
  have finite : k.Finite w₂ := by
    obtain ⟨n, nested⟩ := later finite
    exact ⟨n, nested.later t₁.alike.sealed (t₁.alike.present mk).1 amends'⟩
  have mk := mk.mono onward'.sub
  have p := onward'.sub (onward.sub p)
  have entries := onward'.after.entries p
  refine concur_setEntries
    (r := fun w => (lookupEntry w.looseEq (w.entries h) k).getD .null)
    (q := fun w => (lookupEntry w.looseEq (w.entries h') k').getD .null) p fun t => ?_
  exact ⟨matches_getD (t.alike.lookupEntry mk finite entries),
    t.alike.insertEntry mk finite mx entries⟩

theorem concurs_dictIntrinsic (t : Twins w₀ P β w w') (ground : w₀.Ground P) {h h' : Handle .dict}
    (p : β h.cell h'.cell) :
    BothConcur w₀ P β w w' (DictEnds w) (dictIntrinsic? h operation)
      (dictIntrinsic? h' operation) := by
  have entries := t.alike.entries p
  simp only [dictIntrinsic?]
  split
  · exact .some (.nullary fun _ => concur_setEntries (r := fun _ => .null) p fun _ =>
      ⟨.scalar rfl, .nil⟩)
  · refine .some (.unary fun {v v'} hv ends => .look fun _ => ?_)
    have found := t.alike.lookupEntry hv (ends.1 _ List.mem_cons_self) entries
    generalize lookupEntry w.looseEq (w.entries h) v = o at found ⊢
    generalize lookupEntry w'.looseEq (w'.entries h') v' = o' at found ⊢
    cases found with
    | none => exact .scalar rfl
    | some _ => exact .scalar rfl
  · refine .some (.unary fun {v v'} hv ends => .look_then ?_)
    have finite := ends.1 _ List.mem_cons_self
    have found := t.alike.lookupEntry hv finite entries
    generalize lookupEntry w.looseEq (w.entries h) v = o at found ⊢
    generalize lookupEntry w'.looseEq (w'.entries h') v' = o' at found ⊢
    cases found with
    | none =>
      refine .look_then ?_
      rw [t.text_eq hv finite]
      exact .throw
    | some match_ => exact .pure match_
  · exact .some (.binary fun first second ends => concur_putEntry ground p first second ends)
  · exact .some (.binary fun first second ends => concur_putEntry ground p first second ends)
  · refine .some (.unary fun {v v'} hv ends => ?_)
    have finite := ends.1 _ List.mem_cons_self
    refine concur_setEntries
      (r := fun w => (lookupEntry w.looseEq (w.entries h) v).getD .null)
      (q := fun w => (lookupEntry w.looseEq (w.entries h') v').getD .null) p fun t => ?_
    exact ⟨matches_getD (t.alike.lookupEntry hv finite entries),
      t.alike.eraseEntry hv finite entries⟩
  · refine .some (.nullary fun _ => .look_then (concur_newList ?_))
    exact List.rel_map (fun _ _ e => e.1) entries
  · refine .some (.nullary fun _ => .look_then (concur_newList ?_))
    exact List.rel_map (fun _ _ e => e.2) entries
  · exact concurs_measure entries.length_eq

theorem concurs_commonIntrinsic (t : Twins w₀ P β w w') {target target' : Value}
    (h : target.Matches β target') (operation : String) :
    BothConcur w₀ P β w w'
      (fun _ => operation = "clone" ∨ operation = "to_string" → target.Finite w)
      (commonIntrinsic? target operation) (commonIntrinsic? target' operation) := by
  simp only [commonIntrinsic?]
  split
  · exact .some (.nullary fun ends => .change fun t => t.alike.deepCopy h (ends (.inl rfl)))
  · refine .some (.nullary fun ends => .look fun _ => ?_)
    rw [t.text_eq h (ends (.inr rfl))]
    exact .scalar rfl
  · exact .none

end Kinds

/-! ## All intrinsics -/

/-- The arguments that an intrinsic compares with what is in its target. -/
def compared (target : Value) (operation : String) (arguments : List Value) : List Value :=
  match target.datum with
  | .list _ | .array _ => if operation = "contains" then arguments else []
  | .dict _ => arguments.take 1
  | .set _ => arguments
  | _ => []

/-- What an intrinsic shows, compares or copies is finite. -/
structure World.Bounded (w : World) (target : Value) (operation : String) (arguments : List Value) :
    Prop where
  shown : operation = "clone" ∨ operation = "to_string" → target.Finite w
  compared : ∀ v ∈ compared target operation arguments, v.Finite w
  copied : ∀ v ∈ arguments, v.attrs.isMutable = true ∨ v.Finite w

/-- Operations that concur on some arguments concur on fewer. -/
theorem BothConcur.mono {ends ends' : List Value → Prop} {o o' : Option Intrinsic}
    (h : BothConcur w₀ P β w w' ends o o') (imp : ∀ args, ends' args → ends args) :
    BothConcur w₀ P β w w' ends' o o' := by
  cases h with
  | none => exact .none
  | some concurs => exact .some fun args args' m e => concurs args args' m (imp args e)

theorem concurs_kindIntrinsic (t : Twins w₀ P β w w') (ground : w₀.Ground P)
    {target target' : Value} (h : target.Matches β target') (operation : String) :
    BothConcur w₀ P β w w' (w.Bounded target operation) (kindIntrinsic? target operation)
      (kindIntrinsic? target' operation) := by
  obtain ⟨d, a⟩ := target
  obtain ⟨d', a'⟩ := target'
  have datum := h.datum
  cases datum with
  | scalar none =>
    cases d with
    | string text => exact concurs_stringIntrinsic ground
    | null | bool _ | number _ | char _ => exact .none
    | _ => cases none
  | list p =>
    refine (concurs_listIntrinsic t ground p).mono fun args ends => ⟨?_, ends.copied⟩
    rintro rfl
    exact ends.compared
  | array p =>
    refine (concurs_sequenceIntrinsic t ground p concur_newArray).mono fun args ends =>
      ⟨?_, ends.copied⟩
    rintro rfl
    exact ends.compared
  | set p => exact (concurs_setIntrinsic t ground p).mono fun args ends => ends.compared
  | dict p =>
    exact (concurs_dictIntrinsic t ground p).mono fun args ends => ⟨ends.compared, ends.copied⟩
  | _ => exact .none

theorem concurs_intrinsic (t : Twins w₀ P β w w') (ground : w₀.Ground P) {target target' : Value}
    (h : target.Matches β target') (operation : String) :
    BothConcur w₀ P β w w' (w.Bounded target operation) (intrinsic? target operation)
      (intrinsic? target' operation) := by
  have common := (concurs_commonIntrinsic t h operation).mono
    fun args (ends : w.Bounded target operation args) => ends.shown
  rw [intrinsic?, intrinsic?]
  generalize commonIntrinsic? target operation = o at common ⊢
  generalize commonIntrinsic? target' operation = o' at common ⊢
  cases common with
  | none => exact concurs_kindIntrinsic t ground h operation
  | some concurs => exact .some concurs

end ScopeLang
