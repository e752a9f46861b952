/-
# Operators and intrinsics

What a program does to containers, it does through the operations of this file.
An operation that stores a value stores a duplicate of it, in the same step in
which the duplicate is made; one that reads a value leaves the container as it
is or takes the value out.  In either case the result is a sound value.
-/
import ScopeLang.Proofs.Actions
import ScopeLang.Intrinsics

namespace ScopeLang

variable {D : Dialect} {w : World} {s : ScopeId}

/-! ## Operators -/

/-- A value that stands for no cell and has no attributes. -/
structure Value.Plain (v : Value) : Prop where
  cells : v.cells = []
  attrs : v.attrs = {}

theorem Value.Plain.ok {v : Value} (h : v.Plain) {n : Census} : v.Ok D n :=
  Value.ok_scalar h.cells h.attrs

theorem plain_string (x : String) : (Value.string x).Plain := ⟨rfl, rfl⟩

theorem plain_bool (x : Bool) : (Value.bool x).Plain := ⟨rfl, rfl⟩

theorem plain_number (x : Number) : (Value.number x).Plain := ⟨rfl, rfl⟩

theorem plain_literal : ∀ l : Literal, l.value.Plain
  | .null | .bool _ | .int _ | .long _ | .float _ | .double _ | .char _ | .string _ => ⟨rfl, rfl⟩

theorem plain_repeatText {text : String} {count : Int} {v : Value}
    (h : repeatText text count = .ok v) : v.Plain := by
  simp only [repeatText] at h
  split at h
  · exact Except.ok.inj h ▸ plain_string _
  · exact absurd h nofun

theorem plain_arithmetic {op : Arithmetic} {symbol : String} {a b v : Value}
    (h : w.arithmetic op symbol a b = .ok v) : v.Plain := by
  simp only [World.arithmetic] at h
  split at h
  · exact Except.ok.inj h ▸ plain_number _
  · exact absurd h nofun

theorem plain_division {op : Arithmetic} {symbol : String} {a b v : Value}
    (h : w.division op symbol a b = .ok v) : v.Plain := by
  simp only [World.division] at h
  split at h
  · split at h
    · exact absurd h nofun
    · exact Except.ok.inj h ▸ plain_number _
  · exact absurd h nofun

theorem plain_supported {symbol : String} {operands : List Value} {o : Option Value} {v : Value}
    (plain : ∀ x, o = some x → x.Plain) (h : w.supported symbol operands o = .ok v) :
    v.Plain := by
  cases o with
  | none => exact absurd h nofun
  | some x => exact Except.ok.inj h ▸ plain x rfl

theorem plain_bitwise {int : Int32 → Int32 → Int32} {long : Int64 → Int64 → Int64} {a b v : Value}
    (h : bitwise int long a b = some v) : v.Plain := by
  simp only [bitwise] at h
  split at h
  · split at h
    · exact Option.some.inj h ▸ ⟨rfl, rfl⟩
    · exact Option.some.inj h ▸ ⟨rfl, rfl⟩
    · exact absurd h nofun
  · exact absurd h nofun

theorem plain_shift {int : Int32 → Int32 → Int32} {long : Int64 → Int64 → Int64} {a b v : Value}
    (h : shift int long a b = some v) : v.Plain := by
  simp only [shift] at h
  split at h
  · exact Option.some.inj h ▸ ⟨rfl, rfl⟩
  · exact Option.some.inj h ▸ ⟨rfl, rfl⟩
  · exact absurd h nofun

theorem plain_comparison {symbol : String} {holds : Ordering → Bool} {a b v : Value}
    (h : w.comparison symbol holds a b = .ok v) : v.Plain := by
  simp only [World.comparison] at h
  cases e : w.supported symbol [a, b] (order? a b) with
  | error k =>
    rw [e] at h
    exact absurd h nofun
  | ok o =>
    rw [e] at h
    exact Except.ok.inj h ▸ plain_bool _

theorem plain_scalarBinary {op : BinaryOperator} {a b v : Value}
    (h : w.scalarBinary op a b = .ok v) : v.Plain := by
  cases op with
  | add =>
    simp only [World.scalarBinary] at h
    split at h
    · exact Except.ok.inj h ▸ plain_string _
    · exact plain_arithmetic h
  | subtract => exact plain_arithmetic h
  | multiply =>
    simp only [World.scalarBinary, World.product] at h
    split at h
    · exact plain_repeatText h
    · exact plain_arithmetic h
  | divide => exact plain_division h
  | remainder => exact plain_division h
  | bitAnd => exact plain_supported (fun _ => plain_bitwise) h
  | bitOr => exact plain_supported (fun _ => plain_bitwise) h
  | bitXor => exact plain_supported (fun _ => plain_bitwise) h
  | shiftLeft => exact plain_supported (fun _ => plain_shift) h
  | shiftRight => exact plain_supported (fun _ => plain_shift) h
  | less => exact plain_comparison h
  | lessEqual => exact plain_comparison h
  | greater => exact plain_comparison h
  | greaterEqual => exact plain_comparison h
  | equal => exact Except.ok.inj h ▸ plain_bool _
  | notEqual => exact Except.ok.inj h ▸ plain_bool _

theorem plain_unary {op : UnaryOperator} {a v : Value} (h : w.unary op a = .ok v) : v.Plain := by
  simp only [World.unary] at h
  split at h
  · exact Except.ok.inj h ▸ plain_bool _
  · exact Except.ok.inj h ▸ plain_number _
  · exact Except.ok.inj h ▸ ⟨rfl, rfl⟩
  · exact Except.ok.inj h ▸ ⟨rfl, rfl⟩
  · exact absurd h nofun

theorem acts_binary {op : BinaryOperator} {a b : Value} :
    Acts D s (Action.binary op a b) (OkValue D) w := by
  simp only [Action.binary]
  split
  · rename_i x y _ _
    refine .bind (Q := fun xs w' => xs = w.items x ++ w.items y ∧ w' = w)
      (.look fun _ => ⟨rfl, rfl⟩) ?_
    rintro _ w sound _ ⟨rfl, rfl⟩
    refine acts_newList fun v hv => ?_
    rcases List.mem_append.mp hv with hv | hv
    · exact sound.item hv
    · exact sound.item hv
  · exact .consult fun _ x h => (plain_scalarBinary h).ok

/-! ## Intrinsics -/

/-- An operation that takes steps and has a sound result, for sound arguments. -/
def Intrinsic.Safe (D : Dialect) (s : ScopeId) (w : World) (run : Intrinsic) : Prop :=
  ∀ arguments, (∀ v ∈ arguments, v.Ok D w.count) → Acts D s (run arguments) (OkValue D) w

namespace Intrinsic.Safe

variable {operation : String}

theorem nullary {run : Action Value} (h : Acts D s run (OkValue D) w) :
    (Intrinsic.nullary operation run).Safe D s w
  | [], _ => h
  | _ :: _, _ => .throw

theorem unary {run : Value → Action Value}
    (h : ∀ v, v.Ok D w.count → Acts D s (run v) (OkValue D) w) :
    (Intrinsic.unary operation run).Safe D s w
  | [], _ => .throw
  | [v], ok => h v (ok v List.mem_cons_self)
  | _ :: _ :: _, _ => .throw

theorem binary {run : Value → Value → Action Value}
    (h : ∀ v v', v.Ok D w.count → v'.Ok D w.count → Acts D s (run v v') (OkValue D) w) :
    (Intrinsic.binary operation run).Safe D s w
  | [], _ => .throw
  | [_], _ => .throw
  | [v, v'], ok => h v v' (ok v (by simp)) (ok v' (by simp))
  | _ :: _ :: _ :: _, _ => .throw

theorem ranged {run : Value → Option Value → Action Value}
    (h : ∀ v o, Acts D s (run v o) (OkValue D) w) : (Intrinsic.ranged operation run).Safe D s w
  | [], _ => .throw
  | [v], _ => h v none
  | [v, v'], _ => h v (some v')
  | _ :: _ :: _ :: _, _ => .throw

end Intrinsic.Safe

/-- A value that is read off the world. -/
theorem acts_look_plain {f : World → Value} (plain : ∀ w, (f w).Plain) :
    Acts D s (Action.look f) (OkValue D) w :=
  .look fun _ => (plain w).ok

theorem safe_measure {operation : String} {length : World → Nat} {run : Intrinsic}
    (h : measure? operation length = some run) : run.Safe D s w := by
  simp only [measure?] at h
  split at h
  · exact Option.some.inj h ▸ .nullary (acts_look_plain fun _ => ⟨rfl, rfl⟩)
  · exact Option.some.inj h ▸ .nullary (acts_look_plain fun _ => ⟨rfl, rfl⟩)
  · exact Option.some.inj h ▸ .nullary (acts_look_plain fun _ => ⟨rfl, rfl⟩)
  · exact absurd h nofun

/-! ### Positions -/

theorem acts_indexBelow {operation : String} {v : Value} {length limit : Nat} :
    Acts D s (indexBelow operation v length limit) (fun _ w' => w' = w) w := by
  simp only [indexBelow]
  split
  · exact .bind (Q := fun _ w' => w' = w) (.look fun _ => rfl) fun _ _ _ _ _ => .throw
  · split
    · exact .pure rfl
    · exact .throw

theorem acts_sliceBounds {operation : String} {first : Value} {second : Option Value}
    {length : Nat} :
    Acts D s (sliceBounds operation first second length) (fun _ w' => w' = w) w := by
  refine .bind acts_indexBelow ?_
  rintro start w _ _ rfl
  have ordered : ∀ (stop : Nat) (e : ErrorKind) (w : World),
      Acts D s (if stop < start then throw e else pure (start, stop)) (fun _ w' => w' = w) w := by
    intro stop e w
    split
    · exact .throw
    · exact .pure rfl
  cases second with
  | none => exact ordered length _ w
  | some v =>
    refine .bind acts_indexBelow ?_
    rintro stop w _ _ rfl
    exact ordered stop _ w

theorem slice_sublist {α : Type} (items : List α) (bounds : Nat × Nat) :
    (slice items bounds).Sublist items :=
  (List.take_sublist _ _).trans (List.drop_sublist _ _)

/-! ### Texts -/

theorem safe_stringIntrinsic {text operation : String} {run : Intrinsic}
    (h : stringIntrinsic? text operation = some run) : run.Safe D s w := by
  simp only [stringIntrinsic?] at h
  split at h
  · refine Option.some.inj h ▸ .ranged fun first second => ?_
    exact .bind acts_sliceBounds fun _ _ _ _ _ => .pure (plain_string _).ok
  · refine Option.some.inj h ▸ .ranged fun first second => ?_
    exact .bind acts_sliceBounds fun _ _ _ _ _ => .pure (plain_string _).ok
  · refine Option.some.inj h ▸ .unary fun v _ => ?_
    split
    · exact .pure (plain_bool _).ok
    · exact .throw
  · refine Option.some.inj h ▸ .unary fun v _ => ?_
    exact .bind acts_indexBelow fun _ _ _ _ _ => .pure (Value.ok_scalar rfl rfl)
  · exact safe_measure h

theorem safe_commonIntrinsic {target : Value} {operation : String} {run : Intrinsic}
    (ok : target.Ok D w.count) (h : commonIntrinsic? target operation = some run) :
    run.Safe D s w := by
  simp only [commonIntrinsic?] at h
  split at h
  · refine Option.some.inj h ▸ .nullary (.change (fun _ _ => .one (.contents (.copy ok))) ?_)
    exact fun sound _ => (copyWithin_copies _ target w sound ok).2.ok
  · exact Option.some.inj h ▸ .nullary (acts_look_plain fun _ => plain_string _)
  · exact absurd h nofun

/-! ### Storing duplicates -/

/-- What a list is given is stored in the step in which it is duplicated. -/
theorem acts_storeItem {h : Handle .list} {v : Value} (there : h.In w.count)
    (ok : v.Ok D w.count) {place : World → Value → List Value}
    (items : ∀ w' x, w'.items h = w.items h → (place w' x).Subperm (x :: w.items h)) :
    Acts D s (do
      let v ← Action.duplicate v
      Action.change fun w => (Value.null, w.setItems h (place w v))) (OkValue D) w := by
  intro _ _
  have same : (w.duplicate v).2.items h = w.items h := (w.spares_duplicate v).items there
  exact ⟨.one (.contents (.storeItem there ok (items _ _ same))),
    fun _ e => Except.ok.inj e ▸ Value.ok_null⟩

/-- What a set is given. -/
theorem acts_storeElement {h : Handle .set} {v : Value} (there : h.In w.count)
    (ok : v.Ok D w.count) {f : World → Value → Bool} :
    Acts D s (do
      let v ← Action.duplicate v
      Action.change fun w =>
        (.bool (f w v), w.setElements h (insertElement w.looseEq (w.elements h) v)))
      (OkValue D) w := by
  intro _ _
  exact ⟨.one (.contents (.storeElement there ok)), fun _ e => Except.ok.inj e ▸ (plain_bool _).ok⟩

theorem mem_lookupEntry {equal : Value → Value → Bool} {es : List (Value × Value)}
    {key v : Value} (h : lookupEntry equal es key = some v) : ∃ e ∈ es, v = e.2 := by
  obtain ⟨e, found, rfl⟩ := Option.map_eq_some_iff.mp h
  exact ⟨e, List.mem_of_find?_eq_some found, rfl⟩

/-- The value of a key, or null. -/
theorem ok_lookupEntry (sound : Sound D w) (h : Handle .dict) (key : Value) :
    ((lookupEntry w.looseEq (w.entries h) key).getD .null).Ok D w.count := by
  cases found : lookupEntry w.looseEq (w.entries h) key with
  | none => exact Value.ok_null
  | some v =>
    obtain ⟨e, he, rfl⟩ := mem_lookupEntry found
    exact (sound.entry he).2

/-- A dictionary is given duplicates of a key and of its value, and yields the value replaced. -/
theorem acts_putEntry {h : Handle .dict} {key value : Value} (there : h.In w.count)
    (okKey : key.Ok D w.count) (okValue : value.Ok D w.count) : Acts D s (putEntry h key value) (OkValue D) w := by
  intro sound _
  obtain ⟨keyed, -⟩ := duplicate_copies key w sound okKey
  obtain ⟨valued, -⟩ := duplicate_copies value _ keyed.sound (okValue.mono keyed.quiet.count)
  refine ⟨.one (.contents (.storeEntry there okKey okValue rfl rfl)), fun _ e => ?_⟩
  rw [← Except.ok.inj e]
  have replaced := ok_lookupEntry valued.sound h (w.duplicate key).1
  exact replaced.mono fun k => Nat.le_of_eq (congrFun (World.count_setEntries _ _ _).symm k)

/-! ### Containers -/

/-- What follows when a container has been looked up. -/
theorem acts_look_then {α β : Type} {f : World → α} {k : α → Action β} {Q : β → World → Prop}
    (h : Acts D s (k (f w)) Q w) : Acts D s (Action.look f >>= k) Q w := by
  refine .bind (Q := fun x w' => x = f w ∧ w' = w) (.look fun _ => ⟨rfl, rfl⟩) ?_
  rintro _ _ _ _ ⟨rfl, rfl⟩
  exact h

/-- Items are dropped, and the result was sound before. -/
theorem acts_dropItems {h : Handle .list} {v : World → Value} {xs : List Value}
    (ok : Sound D w → (v w).Ok D w.count) (fewer : xs.Sublist (w.items h)) :
    Acts D s (Action.change fun w => (v w, w.setItems h xs)) (OkValue D) w := by
  refine .change (fun _ _ => .one (.contents (.dropItems h fewer))) fun sound _ => ?_
  rw [OkValue, World.count_setItems]
  exact ok sound

theorem ok_getD (sound : Sound D w) {h : Handle .list} {i : Nat} :
    ((w.items h).getD i .null).Ok D w.count := by
  rw [List.getD_eq_getElem?_getD]
  cases found : (w.items h)[i]? with
  | none => exact Value.ok_null
  | some v => exact sound.item (List.mem_of_getElem? found)

/-- Where an item is put in the place of another one, that one is dropped. -/
theorem set_subperm {α : Type} (xs : List α) (i : Nat) (x : α) : (xs.set i x).Subperm (x :: xs) := by
  rcases Nat.lt_or_ge i xs.length with h | h
  · exact (List.set_perm_cons_eraseIdx h x).subperm.trans
      ((List.eraseIdx_sublist xs i).cons_cons x).subperm
  · rw [List.set_eq_of_length_le h]
    exact (List.sublist_cons_self x xs).subperm

theorem insertIdx_subperm {α : Type} (xs : List α) (i : Nat) (x : α) :
    (xs.insertIdx i x).Subperm (x :: xs) := by
  rcases Nat.lt_or_ge xs.length i with h | h
  · rw [List.insertIdx_of_length_lt h]
    exact (List.sublist_cons_self x xs).subperm
  · exact (List.perm_insertIdx x xs h).subperm

theorem safe_sequenceIntrinsic {h : Handle .list} (there : h.In w.count)
    {rebuild : List Value → Action Value}
    (rebuilds : ∀ (w : World) xs, (∀ v ∈ xs, v.Ok D w.count) →
      Acts D s (rebuild xs) (OkValue D) w)
    {operation : String} {run : Intrinsic}
    (found : sequenceIntrinsic? h rebuild operation = some run) : run.Safe D s w := by
  simp only [sequenceIntrinsic?] at found
  split at found
  · refine Option.some.inj found ▸ .nullary ?_
    exact acts_dropItems (v := fun _ => .null) (fun _ => Value.ok_null) (List.nil_sublist _)
  · refine Option.some.inj found ▸ .ranged fun first second => acts_look_then ?_
    refine .bind acts_sliceBounds ?_
    rintro bounds w sound _ rfl
    exact rebuilds w _ fun v hv => sound.item ((slice_sublist _ bounds).subset hv)
  · exact Option.some.inj found ▸ .unary fun v _ => acts_look_plain fun _ => plain_bool _
  · refine Option.some.inj found ▸ .unary fun v _ => acts_look_then ?_
    refine .bind acts_indexBelow ?_
    rintro i w sound _ rfl
    exact .pure (ok_getD sound)
  · refine Option.some.inj found ▸ .binary fun first v _ ok => acts_look_then ?_
    refine .bind acts_indexBelow ?_
    rintro i w _ _ rfl
    refine acts_storeItem there ok fun w' x _ => ?_
    exact set_subperm _ i x
  · exact safe_measure found

theorem safe_listIntrinsic {h : Handle .list} (there : h.In w.count) {operation : String}
    {run : Intrinsic} (found : listIntrinsic? h operation = some run) : run.Safe D s w := by
  simp only [listIntrinsic?] at found
  split at found
  · refine Option.some.inj found ▸ .unary fun v ok => ?_
    refine acts_storeItem there ok fun w' x same => ?_
    rw [same]
    exact (List.perm_append_singleton x _).subperm
  · refine Option.some.inj found ▸ .nullary (acts_look_then ?_)
    split
    · rename_i last e
      exact acts_dropItems (v := fun _ => last)
        (fun sound => sound.item (List.mem_of_getLast? e)) (List.dropLast_sublist _)
    · exact .throw
  · refine Option.some.inj found ▸ .binary fun first v _ ok => acts_look_then ?_
    refine .bind acts_indexBelow ?_
    rintro i w _ _ rfl
    exact acts_storeItem there ok fun w' x _ => insertIdx_subperm _ i x
  · refine Option.some.inj found ▸ .unary fun first _ => acts_look_then ?_
    refine .bind acts_indexBelow ?_
    rintro i w _ _ rfl
    exact acts_dropItems (v := fun _ => (w.items h).getD i .null) (fun sound => ok_getD sound)
      (List.eraseIdx_sublist _ i)
  · exact safe_sequenceIntrinsic there (fun _ _ => acts_newList) found

theorem safe_setIntrinsic {h : Handle .set} (there : h.In w.count) {operation : String}
    {run : Intrinsic} (found : setIntrinsic? h operation = some run) : run.Safe D s w := by
  simp only [setIntrinsic?] at found
  split at found
  · refine Option.some.inj found ▸ .nullary (.change (fun _ _ => ?_) fun _ _ => Value.ok_null)
    exact .one (.contents (.dropElements h (List.nil_sublist _)))
  · exact Option.some.inj found ▸ .unary fun v _ => acts_look_plain fun _ => plain_bool _
  · exact Option.some.inj found ▸ .unary fun v ok => acts_storeElement there ok
  · refine Option.some.inj found ▸ .unary fun v _ =>
      .change (fun _ _ => ?_) fun _ _ => (plain_bool _).ok
    exact .one (.contents (.dropElements h List.eraseP_sublist))
  · exact safe_measure found

theorem safe_dictIntrinsic {h : Handle .dict} (there : h.In w.count) {operation : String}
    {run : Intrinsic} (found : dictIntrinsic? h operation = some run) : run.Safe D s w := by
  simp only [dictIntrinsic?] at found
  split at found
  · refine Option.some.inj found ▸ .nullary (.change (fun _ _ => ?_) fun _ _ => Value.ok_null)
    exact .one (.contents (.dropEntries h (List.nil_sublist _)))
  · exact Option.some.inj found ▸ .unary fun v _ => acts_look_plain fun _ => plain_bool _
  · refine Option.some.inj found ▸ .unary fun key _ => acts_look_then ?_
    split
    · rename_i v e
      obtain ⟨entry, mem, rfl⟩ := mem_lookupEntry e
      exact fun sound hs => Acts.pure (sound.entry mem).2 sound hs
    · exact acts_look_then .throw
  · exact Option.some.inj found ▸ .binary fun key v okKey ok => acts_putEntry there okKey ok
  · exact Option.some.inj found ▸ .binary fun key v okKey ok => acts_putEntry there okKey ok
  · refine Option.some.inj found ▸ .unary fun key _ => .change (fun _ _ => ?_) fun sound _ => ?_
    · exact .one (.contents (.dropEntries h List.eraseP_sublist))
    · rw [OkValue, World.count_setEntries]
      exact ok_lookupEntry sound _ _
  · refine Option.some.inj found ▸ .nullary (acts_look_then fun sound hs => ?_)
    refine acts_newList (fun v hv => ?_) sound hs
    obtain ⟨e, he, rfl⟩ := List.mem_map.mp hv
    exact (sound.entry he).1
  · refine Option.some.inj found ▸ .nullary (acts_look_then fun sound hs => ?_)
    refine acts_newList (fun v hv => ?_) sound hs
    obtain ⟨e, he, rfl⟩ := List.mem_map.mp hv
    exact (sound.entry he).2
  · exact safe_measure found

/-- Every operation that is defined for a sound value is safe. -/
theorem safe_intrinsic {target : Value} {operation : String} {run : Intrinsic}
    (ok : target.Ok D w.count) (found : intrinsic? target operation = some run) :
    run.Safe D s w := by
  rw [intrinsic?] at found
  cases common : commonIntrinsic? target operation with
  | some f =>
    rw [common] at found
    exact Option.some.inj found ▸ safe_commonIntrinsic ok common
  | none =>
    rw [common] at found
    obtain ⟨d, a⟩ := target
    have there : ∀ {c : Cell}, d.cell? = some c → c.In w.count := fun e =>
      ok.cells _ (by rw [Value.cells, e]; exact List.mem_singleton_self _)
    cases d with
    | string text => exact safe_stringIntrinsic found
    | list h => exact safe_listIntrinsic (there rfl) found
    | array h => exact safe_sequenceIntrinsic (there rfl) (fun _ _ => acts_newArray) found
    | set h => exact safe_setIntrinsic (there rfl) found
    | dict h => exact safe_dictIntrinsic (there rfl) found
    | _ => cases found

end ScopeLang
