/-
# Dictionaries and sets are ordered maps

A dictionary searches its entries from the front with loose equality.  If its keys are
fit to be keys, this is an ordered map whose identities are the classes of keys
(`OrderedMap`, `KeyClass`), over every sequence of calls (`Session` is not needed here:
anything may happen to the world between two calls, as long as nobody touches the
dictionary or a container in one of its keys).  It is the same with sets.

A call first makes copies of what it puts in.  The key that a row has is such a copy;
its class is the one of the key that was passed, in the world in which it was.

Keys that are not fit break this.  A dictionary with two equal keys, which is what a shared
key that is changed behind its back leads to, equals another one that does not equal it, and
no classes of keys account for that (`not_map_doubling`).
-/
import ScopeLang.Host.Kit
import ScopeLang.Proofs.LastingKeys
import ScopeLang.Proofs.OrderedMaps
import ScopeLang.Proofs.Replicas

namespace ScopeLang

open List (Forall₂)

variable {w w' w₁ w₂ : World} {mine mine' : Cell → Prop} {ν : Type}

/-! ## Rows in a world -/

/-- The keys of the rows are keys, of the classes that the rows say. -/
def Keyed (mine : Cell → Prop) (w : World) (rows : List (Row KeyClass ν)) : Prop :=
  ∀ r ∈ rows, Discerned mine w r.key ∧ w.keyClass r.key = r.id

namespace Keyed

variable {rows : List (Row KeyClass ν)} {m : OrderedMap KeyClass ν} {key : Value}

theorem later (h : Keyed mine w rows) (shields : w.Shields mine w') : Keyed mine w' rows := by
  intro r hr
  obtain ⟨discerned, same⟩ := h r hr
  have restates := discerned.later shields
  exact ⟨restates.1, (Restates.keyClass_eq discerned restates).trans same⟩

theorem mono (h : Keyed mine w rows) (sub : ∀ {c}, c.In w.count → mine c → mine' c) :
    Keyed mine' w rows := fun r hr => ⟨(h r hr).1.mono sub, (h r hr).2⟩

/-- Loose equality finds the row of a class. -/
theorem finds (h : Keyed mine w rows) (discerned : Discerned mine' w key) :
    Finds w.looseEq key (w.keyClass key) rows := by
  intro r hr
  rw [(h r hr).1.looseEq_iff discerned, (h r hr).2]

theorem put (h : Keyed mine w m.rows) (discerned : Discerned mine w key) (value : ν) :
    Keyed mine w (m.put (w.keyClass key) key value).rows := by
  rw [OrderedMap.put]
  split
  · intro r hr
    obtain ⟨r', hr', rfl⟩ := List.mem_map.mp hr
    split <;> exact h r' hr'
  · intro r hr
    rcases List.mem_append.mp hr with hr | hr
    · exact h r hr
    · rw [List.mem_singleton.mp hr]
      exact ⟨discerned, rfl⟩

theorem erase (h : Keyed mine w m.rows) (c : KeyClass) : Keyed mine w (m.erase c).rows :=
  fun r hr => h r (List.mem_of_mem_filter hr)

/-- The rows stay what they are if the containers in their keys keep their values. -/
theorem still (h : Keyed mine w rows)
    (shields : w.Shields (fun c => ∃ k ∈ rows.map Row.key, k.Reaches w c) w') :
    Keyed mine w' rows := by
  intro r hr
  obtain ⟨discerned, same⟩ := h r hr
  have restates := Discerned.later discerned.reaches
    (shields.mono fun _ both => ⟨r.key, List.mem_map_of_mem hr, both.2⟩)
  refine ⟨restates.1.mono fun _ both => both.1, ?_⟩
  exact (Restates.keyClass_eq discerned restates).trans same

end Keyed

/-- A dictionary has the rows of a map as its entries. -/
structure World.HoldsMap (w : World) (h : Handle .dict) (m : OrderedMap KeyClass Value) : Prop where
  there : h.In w.count
  entries : w.entries h = m.rows.map Row.entry
  keyed : Keyed (· ≠ h.cell) w m.rows

/-- A set has the keys of a map as its elements. -/
structure World.HoldsSet (w : World) (h : Handle .set) (m : OrderedMap KeyClass Unit) : Prop where
  there : h.In w.count
  elements : w.elements h = m.rows.map Row.key
  keyed : Keyed (· ≠ h.cell) w m.rows

/-! ## What the calls do -/

/-- What a call on a dictionary yields, and the world after it. -/
def MapCall.outcome (h : Handle .dict) (w : World) :
    MapCall Value → Except ErrorKind Value × World
  | .put key value =>
      let k := w.duplicate key
      let v := k.2.duplicate value
      (.ok ((lookupEntry v.2.looseEq (v.2.entries h) k.1).getD .null),
        v.2.setEntries h (insertEntry v.2.looseEq k.1 v.1 (v.2.entries h)))
  | .remove key =>
      (.ok ((lookupEntry w.looseEq (w.entries h) key).getD .null),
        w.setEntries h ((w.entries h).eraseP fun e => w.looseEq e.1 key))
  | .get key =>
      (((lookupEntry w.looseEq (w.entries h) key).map Except.ok).getD
        (.error (invalidArgument "get" ("missing key " ++ w.text key))), w)
  | .contains key => (.ok (.bool (lookupEntry w.looseEq (w.entries h) key).isSome), w)
  | .keys =>
      let made := w.newItems ((w.entries h).map (·.1))
      (.ok (.ofDatum (.list made.1)), made.2)
  | .values =>
      let made := w.newItems ((w.entries h).map (·.2))
      (.ok (.ofDatum (.list made.1)), made.2)
  | .length => (.ok (.long (Int64.ofNat (w.entries h).length)), w)
  | .isEmpty => (.ok (.bool ((w.entries h).length == 0)), w)
  | .clear => (.ok .null, w.setEntries h [])

/-- What a call on a set yields, and the world after it. -/
def SetCall.outcome (h : Handle .set) (w : World) : SetCall Value → Except ErrorKind Value × World
  | .insert item =>
      let v := w.duplicate item
      (.ok (.bool !hasElement v.2.looseEq (v.2.elements h) v.1),
        v.2.setElements h (insertElement v.2.looseEq (v.2.elements h) v.1))
  | .remove item =>
      (.ok (.bool (hasElement w.looseEq (w.elements h) item)),
        w.setElements h ((w.elements h).eraseP fun e => w.looseEq e item))
  | .contains item => (.ok (.bool (hasElement w.looseEq (w.elements h) item)), w)
  | .length => (.ok (.long (Int64.ofNat (w.elements h).length)), w)
  | .isEmpty => (.ok (.bool ((w.elements h).length == 0)), w)
  | .clear => (.ok .null, w.setElements h [])

/-- The operations of a dictionary are there under their names, and do what `outcome` says. -/
theorem MapCall.runs (h : Handle .dict) (s : Attributes) (call : MapCall Value) {operation : String}
    (named : operation ∈ call.operations) :
    ∃ f, intrinsic? ⟨.dict h, s⟩ operation = some f ∧
      ∀ w, (f call.arguments).runIn w = call.outcome h w := by
  cases call with
  | put key value =>
    rcases List.mem_cons.mp named with rfl | named
    · exact ⟨_, rfl, fun _ => rfl⟩
    · obtain rfl := List.mem_singleton.mp named
      exact ⟨_, rfl, fun _ => rfl⟩
  | length =>
    rcases List.mem_cons.mp named with rfl | named
    · exact ⟨_, rfl, fun _ => rfl⟩
    · obtain rfl := List.mem_singleton.mp named
      exact ⟨_, rfl, fun _ => rfl⟩
  | get key =>
    obtain rfl := List.mem_singleton.mp named
    refine ⟨_, rfl, fun w => ?_⟩
    change (Action.look (fun w => lookupEntry w.looseEq (w.entries h) key) >>= _).runIn w = _
    rw [runIn_look_bind, MapCall.outcome]
    generalize lookupEntry w.looseEq (w.entries h) key = found
    cases found with
    | none => rfl
    | some v => rfl
  | _ =>
    obtain rfl := List.mem_singleton.mp named
    exact ⟨_, rfl, fun _ => rfl⟩

theorem SetCall.runs (h : Handle .set) (s : Attributes) (call : SetCall Value) {operation : String}
    (named : operation ∈ call.operations) :
    ∃ f, intrinsic? ⟨.set h, s⟩ operation = some f ∧
      ∀ w, (f call.arguments).runIn w = call.outcome h w := by
  cases call with
  | length =>
    rcases List.mem_cons.mp named with rfl | named
    · exact ⟨_, rfl, fun _ => rfl⟩
    · obtain rfl := List.mem_singleton.mp named
      exact ⟨_, rfl, fun _ => rfl⟩
  | _ =>
    obtain rfl := List.mem_singleton.mp named
    exact ⟨_, rfl, fun _ => rfl⟩

/-! ## What they mean -/

/-- What a call on a dictionary means: keys stand for their classes, and what is put in is a copy. -/
def MapCall.meaning (w : World) : MapCall Value → MapCall (KeyClass × Value)
  | .put key value =>
      .put (w.keyClass key, (w.duplicate key).1) ((w.duplicate key).2.duplicate value).1
  | .remove key => .remove (w.keyClass key, key)
  | .get key => .get (w.keyClass key, key)
  | .contains key => .contains (w.keyClass key, key)
  | .keys => .keys
  | .values => .values
  | .length => .length
  | .isEmpty => .isEmpty
  | .clear => .clear

def SetCall.meaning (w : World) : SetCall Value → SetCall (KeyClass × Value)
  | .insert item => .insert (w.keyClass item, (w.duplicate item).1)
  | .remove item => .remove (w.keyClass item, item)
  | .contains item => .contains (w.keyClass item, item)
  | .length => .length
  | .isEmpty => .isEmpty
  | .clear => .clear

/-- A deep copy of the value is made from what is in a cell: in the value itself, in a container on
the way down, or in a variable of an instance.  Mutable variables of instances are shared, so that
nothing behind them is read. -/
inductive World.CopyReads (w : World) (c : Cell) : Value → Prop
  | here {v : Value} (mem : c ∈ v.containers) : CopyReads w c v
  | part {v u : Value} {d : Cell} (mem : d ∈ v.containers) (inside : u ∈ w.values d)
      (reads : CopyReads w c u) : CopyReads w c v
  | member {v : Value} {i : InstanceId} {b : Binding} (object : v.object? = some i)
      (inside : b ∈ (w.scope (w.inst i).scope).bindings.values)
      (copied : b.value.attrs.isMutable = false) (reads : CopyReads w c b.value) : CopyReads w c v

/-- What is put in is copied, and the copy is made from what is in the cell. -/
def World.StoreReads (w : World) (c : Cell) (v : Value) : Prop :=
  v.attrs.isMutable = false ∧ w.CopyReads c v

/-- The key of a call is fit to be one.  A call that changes the dictionary has it for itself
meanwhile: neither its key nor what its value is copied from is in the dictionary itself. -/
def MapCall.Fit (h : Handle .dict) (w : World) : MapCall Value → Prop
  | .put key value => IsKey (· ≠ h.cell) w key ∧ ¬ w.StoreReads h.cell value
  | .remove key => IsKey (· ≠ h.cell) w key
  | .get key | .contains key => IsKey (fun _ => True) w key
  | .keys | .values | .length | .isEmpty | .clear => True

def SetCall.Fit (h : Handle .set) (w : World) : SetCall Value → Prop
  | .insert item | .remove item => IsKey (· ≠ h.cell) w item
  | .contains item => IsKey (fun _ => True) w item
  | .length | .isEmpty | .clear => True

/-- A call that was made in a world, and what came of it. -/
structure Exchange (C : Type) where
  before : World
  call : C
  result : Except ErrorKind Value
  after : World

/-- What came of a call is a reply.  A list that is replied is new. -/
def Exchange.Answers {C : Type} (x : Exchange C) : Reply → Prop
  | .value v => x.result = .ok v
  | .list items => ∃ l : Handle .list, x.result = .ok (.ofDatum (.list l)) ∧
      ¬ l.In x.before.count ∧ l.In x.after.count ∧ x.after.items l = items
  | .missing key =>
      x.result = .error (invalidArgument "get" ("missing key " ++ x.before.text key))

/-- The exchange of a call on a dictionary. -/
def MapCall.exchange (h : Handle .dict) (w : World) (call : MapCall Value) : Exchange (MapCall Value) :=
  ⟨w, call, (call.outcome h w).1, (call.outcome h w).2⟩

def SetCall.exchange (h : Handle .set) (w : World) (call : SetCall Value) : Exchange (SetCall Value) :=
  ⟨w, call, (call.outcome h w).1, (call.outcome h w).2⟩

namespace World.HoldsMap

variable {h : Handle .dict} {m m' : OrderedMap KeyClass Value}

theorem fresh (holds : w.HoldsMap h m) : Fresh (· ≠ h.cell) w := fun _ new same =>
  new (same ▸ holds.there)

theorem later (holds : w.HoldsMap h m) (amends : w.Amends Nowhere Nowhere w') : w'.HoldsMap h m where
  there := holds.there.mono amends.count
  entries := by
    have shields : w.Shields (fun _ => True) w' := amends.shields
    rw [← holds.entries]
    exact shields.entries ⟨trivial, holds.there⟩
  keyed := holds.keyed.later amends.shields

theorem setEntries {es : List (Value × Value)} (there : h.In w.count)
    (keyed : Keyed (· ≠ h.cell) w m.rows) (same : es = m.rows.map Row.entry) :
    (w.setEntries h es).HoldsMap h m where
  there := by rwa [World.count_setEntries]
  entries := by rw [World.entries_setEntries, if_pos ⟨rfl, there⟩, same]
  keyed := keyed.later ((World.fills_setEntries there _).shields fun ne => ne rfl)

/-- A new list does nothing to a dictionary. -/
theorem listed (holds : w.HoldsMap h m) (call : MapCall Value) {vs us : List Value}
    (same : vs = us) :
    Exchange.Answers ⟨w, call, .ok (.ofDatum (.list (w.newItems vs).1)), (w.newItems vs).2⟩
      (.list us) ∧ (w.newItems vs).2.HoldsMap h m := by
  have fills := w.fills_newItems vs
  exact ⟨⟨_, rfl, w.newItems_new vs, w.newItems_in vs, fills.values.trans same⟩,
    holds.later (fills.amends (.inr (w.newItems_new vs)))⟩

/-- Every call is answered as the map replies, and leaves the dictionary with the rows that the map
has then. -/
theorem call (holds : w.HoldsMap h m) {call : MapCall Value} (fit : call.Fit h w) :
    (call.exchange h w).Answers (m.reply (call.meaning w)) ∧
      (call.outcome h w).2.HoldsMap h (m.after (call.meaning w)) := by
  have known : ∀ {mine : Cell → Prop} {key : Value}, IsKey mine w key →
      lookupEntry w.looseEq (w.entries h) key = m.find? (w.keyClass key) := fun {_ _} fit => by
    rw [holds.entries, lookupEntry_rows (holds.keyed.finds (isKey_iff.mp fit))]
  have length : (w.entries h).length = m.rows.length := by rw [holds.entries, List.length_map]
  cases call with
  | put key value =>
    have discerned : Discerned (· ≠ h.cell) w key := isKey_iff.mp fit.1
    have second := World.amends_duplicate value (w.duplicate key).2
    have onward := holds.later ((World.amends_duplicate key w).also second)
    have restates := (discerned.duplicate holds.fresh).later discerned second.shields
    have finds := onward.keyed.finds restates.1
    have keyed := onward.keyed.put restates.1 ((w.duplicate key).2.duplicate value).1
    rw [Restates.keyClass_eq discerned restates] at finds keyed
    have found := lookupEntry_rows finds
    have entries := insertEntry_rows finds ((w.duplicate key).2.duplicate value).1
    rw [← onward.entries] at found entries
    exact ⟨congrArg (fun o : Option Value => Except.ok (o.getD .null)) found,
      setEntries onward.there keyed entries⟩
  | remove key =>
    have rows := eraseP_rows (holds.keyed.finds (isKey_iff.mp fit))
    have entries : (w.entries h).eraseP (fun e => w.looseEq e.1 key) =
        (m.erase (w.keyClass key)).rows.map Row.entry := by
      rw [holds.entries, List.eraseP_map, ← rows]
      rfl
    exact ⟨congrArg (fun o : Option Value => Except.ok (o.getD .null)) (known fit),
      setEntries holds.there (holds.keyed.erase _) entries⟩
  | get key =>
    have found := known fit
    refine ⟨?_, holds⟩
    simp only [MapCall.exchange, MapCall.outcome, MapCall.meaning, OrderedMap.reply, found]
    cases m.find? (w.keyClass key) with
    | none => rfl
    | some v => rfl
  | contains key =>
    refine ⟨?_, holds⟩
    have found := congrArg Option.isSome (known fit)
    rw [OrderedMap.isSome_find?] at found
    exact congrArg (fun b => Except.ok (Value.bool b)) found
  | keys => exact holds.listed .keys (by rw [holds.entries, List.map_map]; rfl)
  | values => exact holds.listed .values (by rw [holds.entries, List.map_map]; rfl)
  | length =>
    exact ⟨congrArg (fun n => Except.ok (Value.long (Int64.ofNat n))) length, holds⟩
  | isEmpty => exact ⟨congrArg (fun n : Nat => Except.ok (Value.bool (n == 0))) length, holds⟩
  | clear =>
    exact ⟨rfl, setEntries holds.there (fun _ hr => absurd hr List.not_mem_nil) rfl⟩

end World.HoldsMap

namespace World.HoldsSet

variable {h : Handle .set} {m : OrderedMap KeyClass Unit}

theorem fresh (holds : w.HoldsSet h m) : Fresh (· ≠ h.cell) w := fun _ new same =>
  new (same ▸ holds.there)

theorem later (holds : w.HoldsSet h m) (amends : w.Amends Nowhere Nowhere w') : w'.HoldsSet h m where
  there := holds.there.mono amends.count
  elements := by
    have shields : w.Shields (fun _ => True) w' := amends.shields
    rw [← holds.elements]
    exact shields.elements ⟨trivial, holds.there⟩
  keyed := holds.keyed.later amends.shields

theorem setElements {vs : List Value} (there : h.In w.count)
    (keyed : Keyed (· ≠ h.cell) w m.rows) (same : vs = m.rows.map Row.key) :
    (w.setElements h vs).HoldsSet h m where
  there := by rwa [World.count_setElements]
  elements := by rw [World.elements_setElements, if_pos ⟨rfl, there⟩, same]
  keyed := keyed.later ((World.fills_setElements there _).shields fun ne => ne rfl)

theorem call (holds : w.HoldsSet h m) {call : SetCall Value} (fit : call.Fit h w) :
    (call.exchange h w).Answers (m.replySet (call.meaning w)) ∧
      (call.outcome h w).2.HoldsSet h (m.afterSet (call.meaning w)) := by
  have known : ∀ {mine : Cell → Prop} {item : Value}, IsKey mine w item →
      hasElement w.looseEq (w.elements h) item = m.has (w.keyClass item) := fun {_ _} fit => by
    rw [holds.elements, hasElement_rows (holds.keyed.finds (isKey_iff.mp fit))]
  have length : (w.elements h).length = m.rows.length := by rw [holds.elements, List.length_map]
  cases call with
  | insert item =>
    have discerned : Discerned (· ≠ h.cell) w item := isKey_iff.mp fit
    have onward := holds.later (World.amends_duplicate item w)
    have restates := discerned.duplicate holds.fresh
    have finds := onward.keyed.finds restates.1
    have keyed := onward.keyed.put restates.1 ()
    rw [Restates.keyClass_eq discerned restates] at finds keyed
    have found := hasElement_rows finds
    have elements := insertElement_rows finds
    rw [← onward.elements] at found elements
    exact ⟨congrArg (fun b => Except.ok (Value.bool !b)) found,
      setElements onward.there keyed elements⟩
  | remove item =>
    have rows := eraseP_rows (holds.keyed.finds (isKey_iff.mp fit))
    have elements : (w.elements h).eraseP (fun e => w.looseEq e item) =
        (m.erase (w.keyClass item)).rows.map Row.key := by
      rw [holds.elements, List.eraseP_map, ← rows]
      rfl
    exact ⟨congrArg (fun b => Except.ok (Value.bool b)) (known fit),
      setElements holds.there (holds.keyed.erase _) elements⟩
  | contains item => exact ⟨congrArg (fun b => Except.ok (Value.bool b)) (known fit), holds⟩
  | length => exact ⟨congrArg (fun n => Except.ok (Value.long (Int64.ofNat n))) length, holds⟩
  | isEmpty => exact ⟨congrArg (fun n : Nat => Except.ok (Value.bool (n == 0))) length, holds⟩
  | clear => exact ⟨rfl, setElements holds.there (fun _ hr => absurd hr List.not_mem_nil) rfl⟩

end World.HoldsSet

/-! ## Sequences of calls -/

/-- Nothing is done to a container, nor to the containers in its keys. -/
structure World.LeavesKeys (w : World) (c : Cell) (keys : List Value) (w' : World) : Prop where
  there : c.In w'.count
  values : w'.values c = w.values c
  keys : w.Shields (fun d => ∃ k ∈ keys, k.Reaches w d) w'

/-- Some calls in turn; between them there are changes that leave something alone. -/
inductive Talk {C : Type} (leaves : World → World → Prop) (made : Exchange C → Prop) :
    World → List (Exchange C) → World → Prop
  | done (w : World) : Talk leaves made w [] w
  | meanwhile {w w₁ w₂ : World} {xs : List (Exchange C)} : leaves w w₁ →
      Talk leaves made w₁ xs w₂ → Talk leaves made w xs w₂
  | call {x : Exchange C} {w₂ : World} {xs : List (Exchange C)} : made x →
      Talk leaves made x.after xs w₂ → Talk leaves made x.before (x :: xs) w₂

/-- A specification with states of its own: what leaves the container alone keeps a state, and a call
is answered as the state replies and goes on to the next state. -/
structure Simulates {C M S : Type} (leaves : World → World → Prop) (made : Exchange C → Prop)
    (Holds : World → M → Prop) (meaning : World → C → S) (reply : M → S → Reply)
    (after : M → S → M) : Prop where
  still : ∀ {w w' m}, Holds w m → leaves w w' → Holds w' m
  call : ∀ {x m}, Holds x.before m → made x →
    x.Answers (reply m (meaning x.before x.call)) ∧
      Holds x.after (after m (meaning x.before x.call))

/-- If each call does what a specification says, all calls in turn do. -/
theorem Simulates.talk {C M S : Type} {leaves : World → World → Prop} {made : Exchange C → Prop}
    {Holds : World → M → Prop} {meaning : World → C → S} {reply : M → S → Reply}
    {after : M → S → M} (sim : Simulates leaves made Holds meaning reply after)
    {xs : List (Exchange C)} (talk : Talk leaves made w xs w') : ∀ {m}, Holds w m →
      let run := mapState (fun s m => (reply m s, after m s))
        (xs.map fun x => meaning x.before x.call) m
      Forall₂ Exchange.Answers xs run.1 ∧ Holds w' run.2 := by
  induction talk with
  | done w => exact fun holds => ⟨.nil, holds⟩
  | meanwhile calm _ ih => exact fun holds => ih (sim.still holds calm)
  | call made _ ih =>
    intro m holds
    obtain ⟨answers, onward⟩ := sim.call holds made
    obtain ⟨others, last⟩ := ih onward
    exact ⟨.cons answers others, last⟩

/-! ## Dictionaries -/

section Dictionaries

variable {h : Handle .dict} {m : OrderedMap KeyClass Value}

/-- A call under one of its names, with a key that is fit, on a value that is the dictionary. -/
def MapCall.Made (h : Handle .dict) (x : Exchange (MapCall Value)) : Prop :=
  x.call.Fit h x.before ∧ ∃ operation ∈ x.call.operations, ∃ s f,
    intrinsic? ⟨.dict h, s⟩ operation = some f ∧
      (f x.call.arguments).runIn x.before = (x.result, x.after)

theorem MapCall.Made.exchange {x : Exchange (MapCall Value)} (made : MapCall.Made h x) :
    x = x.call.exchange h x.before := by
  obtain ⟨-, operation, named, s, f, found, ran⟩ := made
  obtain ⟨g, found', runs⟩ := x.call.runs h s named
  obtain rfl := Option.some.inj (found.symm.trans found')
  rw [runs] at ran
  rw [MapCall.exchange, ran]

/-- Calls on a dictionary in turn.  Between them nobody touches it or its keys. -/
abbrev DictTalk (h : Handle .dict) : World → List (Exchange (MapCall Value)) → World → Prop :=
  Talk (fun w w' => w.LeavesKeys h.cell ((w.entries h).map (·.1)) w') (MapCall.Made h)

theorem simulates_map (h : Handle .dict) :
    Simulates (fun w w' => w.LeavesKeys h.cell ((w.entries h).map (·.1)) w') (MapCall.Made h)
      (fun w m => w.HoldsMap h m) MapCall.meaning OrderedMap.reply OrderedMap.after where
  still {w w' m} holds leaves := by
    have keys : (w.entries h).map (·.1) = m.rows.map Row.key := by
      rw [holds.entries, List.map_map]
      rfl
    exact ⟨leaves.there, (entryValues_inj leaves.values).trans holds.entries,
      holds.keyed.still (keys ▸ leaves.keys)⟩
  call {x m} holds made := by
    have answered := holds.call made.1
    have after : (x.call.outcome h x.before).2 = x.after :=
      (congrArg Exchange.after made.exchange).symm
    rw [← made.exchange, after] at answered
    exact answered

/-- A dictionary is as good as a map: the operations are there, calls in turn are answered as the
map replies to what they mean, and leave the dictionary with the rows of the map. -/
structure World.RefinesMap (w : World) (h : Handle .dict) (m : OrderedMap KeyClass Value) : Prop where
  defined : ∀ (call : MapCall Value) s, ∀ operation ∈ call.operations,
    (intrinsic? ⟨.dict h, s⟩ operation).isSome = true
  answers : ∀ {xs w'}, DictTalk h w xs w' →
    Forall₂ Exchange.Answers xs (m.run (xs.map fun x => x.call.meaning x.before)).1
  holds : ∀ {xs w'}, DictTalk h w xs w' →
    w'.HoldsMap h (m.run (xs.map fun x => x.call.meaning x.before)).2

theorem World.HoldsMap.refines (holds : w.HoldsMap h m) : w.RefinesMap h m where
  defined call s operation named := by
    obtain ⟨f, found, -⟩ := call.runs h s named
    rw [found]
    rfl
  answers talk := ((simulates_map h).talk talk holds).1
  holds talk := ((simulates_map h).talk talk holds).2

/-- The map of some entries, of which a later one replaces an earlier one. -/
noncomputable def World.mapOf (w : World) (es : List (Value × Value)) : OrderedMap KeyClass Value :=
  es.foldl (fun m e => m.put (w.keyClass e.1) e.1 e.2) .empty

theorem entries_foldl {es : List (Value × Value)} (keys : ∀ e ∈ es, Discerned mine w e.1) :
    ∀ {m : OrderedMap KeyClass Value}, Keyed mine w m.rows →
      let last := es.foldl (fun m e => m.put (w.keyClass e.1) e.1 e.2) m
      es.foldl (fun done e => insertEntry w.looseEq e.1 e.2 done) (m.rows.map Row.entry) =
        last.rows.map Row.entry ∧ Keyed mine w last.rows := by
  induction es with
  | nil => exact fun keyed => ⟨rfl, keyed⟩
  | cons e es ih =>
    intro m keyed
    have first := keys e List.mem_cons_self
    rw [List.foldl_cons, List.foldl_cons, insertEntry_rows (keyed.finds first)]
    exact ih (fun e he => keys e (List.mem_cons_of_mem _ he)) (keyed.put first e.2)

theorem World.HoldsMap.new (keyed : Keyed mine w m.rows) :
    (w.newEntries (m.rows.map Row.entry)).2.HoldsMap (w.newEntries (m.rows.map Row.entry)).1 m := by
  have new := w.newEntries_new (m.rows.map Row.entry)
  have fills := w.fills_newEntries (m.rows.map Row.entry)
  have away : Keyed (· ≠ (w.newEntries (m.rows.map Row.entry)).1.cell) w m.rows :=
    keyed.mono fun old _ same => new (same ▸ old)
  exact ⟨w.newEntries_in _, entryValues_inj fills.values,
    away.later (fills.amends (.inr new)).shields⟩

theorem newDict_refines {es : List (Value × Value)} (keys : ∀ e ∈ es, IsKey mine w e.1) :
    ∃ h w₁, (Action.newDict es).runIn w = (.ok (.ofDatum (.dict h)), w₁) ∧
      w₁.RefinesMap h (w.mapOf es) := by
  obtain ⟨same, keyed⟩ := entries_foldl (m := .empty) (fun e he => isKey_iff.mp (keys e he))
    fun _ hr => absurd hr List.not_mem_nil
  have made := World.HoldsMap.new keyed
  rw [← same] at made
  exact ⟨_, _, rfl, made.refines⟩

end Dictionaries

/-! ## Sets -/

section Sets

variable {h : Handle .set} {m : OrderedMap KeyClass Unit}

/-- A call under one of its names, with an item that is fit, on a value that is the set. -/
def SetCall.Made (h : Handle .set) (x : Exchange (SetCall Value)) : Prop :=
  x.call.Fit h x.before ∧ ∃ operation ∈ x.call.operations, ∃ s f,
    intrinsic? ⟨.set h, s⟩ operation = some f ∧
      (f x.call.arguments).runIn x.before = (x.result, x.after)

theorem SetCall.Made.exchange {x : Exchange (SetCall Value)} (made : SetCall.Made h x) :
    x = x.call.exchange h x.before := by
  obtain ⟨-, operation, named, s, f, found, ran⟩ := made
  obtain ⟨g, found', runs⟩ := x.call.runs h s named
  obtain rfl := Option.some.inj (found.symm.trans found')
  rw [runs] at ran
  rw [SetCall.exchange, ran]

/-- Calls on a set in turn.  Between them nobody touches it or its elements. -/
abbrev SetTalk (h : Handle .set) : World → List (Exchange (SetCall Value)) → World → Prop :=
  Talk (fun w w' => w.LeavesKeys h.cell (w.elements h) w') (SetCall.Made h)

theorem simulates_set (h : Handle .set) :
    Simulates (fun w w' => w.LeavesKeys h.cell (w.elements h) w') (SetCall.Made h)
      (fun w m => w.HoldsSet h m) SetCall.meaning OrderedMap.replySet OrderedMap.afterSet where
  still {w w' m} holds leaves :=
    ⟨leaves.there, leaves.values.trans holds.elements,
      holds.keyed.still (holds.elements ▸ leaves.keys)⟩
  call {x m} holds made := by
    have answered := holds.call made.1
    have after : (x.call.outcome h x.before).2 = x.after :=
      (congrArg Exchange.after made.exchange).symm
    rw [← made.exchange, after] at answered
    exact answered

/-- A set is as good as a map without values. -/
structure World.RefinesSet (w : World) (h : Handle .set) (m : OrderedMap KeyClass Unit) : Prop where
  defined : ∀ (call : SetCall Value) s, ∀ operation ∈ call.operations,
    (intrinsic? ⟨.set h, s⟩ operation).isSome = true
  answers : ∀ {xs w'}, SetTalk h w xs w' →
    Forall₂ Exchange.Answers xs (m.runSet (xs.map fun x => x.call.meaning x.before)).1
  holds : ∀ {xs w'}, SetTalk h w xs w' →
    w'.HoldsSet h (m.runSet (xs.map fun x => x.call.meaning x.before)).2

theorem World.HoldsSet.refines (holds : w.HoldsSet h m) : w.RefinesSet h m where
  defined call s operation named := by
    obtain ⟨f, found, -⟩ := call.runs h s named
    rw [found]
    rfl
  answers talk := ((simulates_set h).talk talk holds).1
  holds talk := ((simulates_set h).talk talk holds).2

/-- The rows of some items, of which the first of each class is kept. -/
noncomputable def World.rowsOf (w : World) (items : List Value) : OrderedMap KeyClass Unit :=
  items.foldl (fun m v => m.put (w.keyClass v) v ()) .empty

theorem elements_foldl {items : List Value} (keys : ∀ v ∈ items, Discerned mine w v) :
    ∀ {m : OrderedMap KeyClass Unit}, Keyed mine w m.rows →
      let last := items.foldl (fun m v => m.put (w.keyClass v) v ()) m
      items.foldl (insertElement w.looseEq) (m.rows.map Row.key) = last.rows.map Row.key ∧
        Keyed mine w last.rows := by
  induction items with
  | nil => exact fun keyed => ⟨rfl, keyed⟩
  | cons v items ih =>
    intro m keyed
    have first := keys v List.mem_cons_self
    rw [List.foldl_cons, List.foldl_cons, insertElement_rows (keyed.finds first)]
    exact ih (fun v hv => keys v (List.mem_cons_of_mem _ hv)) (keyed.put first ())

theorem World.HoldsSet.new (keyed : Keyed mine w m.rows) :
    (w.newElements (m.rows.map Row.key)).2.HoldsSet (w.newElements (m.rows.map Row.key)).1 m := by
  have new := w.newElements_new (m.rows.map Row.key)
  have fills := w.fills_newElements (m.rows.map Row.key)
  have away : Keyed (· ≠ (w.newElements (m.rows.map Row.key)).1.cell) w m.rows :=
    keyed.mono fun old _ same => new (same ▸ old)
  exact ⟨w.newElements_in _, fills.values, away.later (fills.amends (.inr new)).shields⟩

theorem newSet_refines {items : List Value} (keys : ∀ v ∈ items, IsKey mine w v) :
    ∃ h w₁, (Action.newSet items).runIn w = (.ok (.ofDatum (.set h)), w₁) ∧
      w₁.RefinesSet h (w.rowsOf items) := by
  obtain ⟨same, keyed⟩ := elements_foldl (m := .empty) (fun v hv => isKey_iff.mp (keys v hv))
    fun _ hr => absurd hr List.not_mem_nil
  have made := World.HoldsSet.new keyed
  rw [← same] at made
  exact ⟨_, _, rfl, made.refines⟩

end Sets

/-! ## Keys in a world at hand -/

/-- Whether a value that is nested at most `n` deep and does not hold `c` is a key. -/
def World.isKeyWithin (w : World) (equal : Value → Value → Bool) (c : Cell) : Nat → Value → Bool
  | 0, _ => false
  | n + 1, v =>
      match v.datum with
      | .list x | .array x =>
          decide (x.cell ≠ c ∧ x.In w.count) && (w.items x).all (w.isKeyWithin equal c n)
      | .dict x =>
          decide (x.cell ≠ c ∧ x.In w.count) &&
            (w.entries x).all (fun e => w.isKeyWithin equal c n e.1 && w.isKeyWithin equal c n e.2) &&
            decide ((w.entries x).Pairwise fun e f => ¬ equal e.1 f.1 = true)
      | .set x =>
          decide (x.cell ≠ c ∧ x.In w.count) && (w.elements x).all (w.isKeyWithin equal c n) &&
            decide ((w.elements x).Pairwise fun u v => ¬ equal u v = true)
      | d => d.atom?.isSome

theorem World.isKeyWithin_keylike {equal : Value → Value → Bool} {c : Cell} :
    ∀ {n : Nat} {v : Value}, w.isKeyWithin equal c n v = true →
      Keylike (fun a b => equal a b = true) (· ≠ c) w v
  | 0, _, h => absurd h Bool.false_ne_true
  | n + 1, ⟨d, s⟩, h => by
    have atomic : d.atom?.isSome = true → Keylike (fun a b => equal a b = true) (· ≠ c) w ⟨d, s⟩ :=
      fun some => by
        obtain ⟨l, reads⟩ := Option.isSome_iff_exists.mp some
        exact .atom reads
    cases d with
    | list x =>
      simp only [isKeyWithin, Bool.and_eq_true, decide_eq_true_eq, List.all_eq_true] at h
      exact .list h.1 fun v hv => isKeyWithin_keylike (h.2 v hv)
    | array x =>
      simp only [isKeyWithin, Bool.and_eq_true, decide_eq_true_eq, List.all_eq_true] at h
      exact .array h.1 fun v hv => isKeyWithin_keylike (h.2 v hv)
    | dict x =>
      simp only [isKeyWithin, Bool.and_eq_true, decide_eq_true_eq, List.all_eq_true] at h
      exact .dict h.1.1 (fun e he => isKeyWithin_keylike (h.1.2 e he).1)
        (fun e he => isKeyWithin_keylike (h.1.2 e he).2) h.2
    | set x =>
      simp only [isKeyWithin, Bool.and_eq_true, decide_eq_true_eq, List.all_eq_true] at h
      exact .set h.1.1 (fun v hv => isKeyWithin_keylike (h.1.2 v hv)) h.2
    | _ => exact atomic h

/-- A program that makes two dictionaries which are to be keys.  The first of them has a list as a
key that is changed after it was put in, so that both of its keys are `[1, 2]`. -/
def doubling : List Statement :=
  let int (n : Int32) : Expr := .ofTerm (.literal (.int n))
  let list (items : List Expr) : Expr := .ofTerm (.sequence .list items)
  let shared : Flags := { isMutable := true }
  [⟨.declare ⟨"one", none, some (list [int 1]), shared⟩, .none⟩,
    ⟨.declare ⟨"doubled", none, some (.ofTerm (.dict
      [⟨.ofTerm (.variable "one"), int 0⟩, ⟨list [int 1, int 2], int 0⟩])), shared⟩, .none⟩,
    ⟨.expression (.ofTerm (.chain .scope [.read "one", .call "push" [⟨none, int 2⟩]])), .none⟩,
    ⟨.declare ⟨"varied", none, some (.ofTerm (.dict
      [⟨list [int 1, int 2], int 0⟩, ⟨list [int 3], int 0⟩])), {}⟩, .none⟩,
    ⟨.declare ⟨"d", none, some (.ofTerm (.dict [])), {}⟩, .none⟩]

/-- The world after it. -/
def afterDoubling : World := ((Session.start {} Kit.host).reached 100 doubling).world

/-- What a variable holds in it. -/
def doublingValue (name : String) : Value :=
  ((afterDoubling.localBinding? ⟨0⟩ name).map Binding.value).getD .null

/-! ## Both -/

/-- Dictionaries and sets with fit keys are ordered maps from their construction on, over every
sequence of calls with fit keys; loosely equal keys are those of one class, and a call about one
class leaves the others. -/
theorem containers_refine_maps (w : World) :
    (∀ {es : List (Value × Value)}, (∀ e ∈ es, IsKey (fun _ => True) w e.1) →
      ∃ h w₁, (Action.newDict es).runIn w = (.ok (.ofDatum (.dict h)), w₁) ∧
        w₁.RefinesMap h (w.mapOf es)) ∧
    (∀ {items : List Value}, (∀ v ∈ items, IsKey (fun _ => True) w v) →
      ∃ h w₁, (Action.newSet items).runIn w = (.ok (.ofDatum (.set h)), w₁) ∧
        w₁.RefinesSet h (w.rowsOf items)) ∧
    (∀ {a b : Value}, IsKey (fun _ => True) w a → IsKey (fun _ => True) w b →
      (w.looseEq a b = true ↔ w.keyClass a = w.keyClass b)) ∧
    ∀ {m : OrderedMap KeyClass Value} {call : MapCall (KeyClass × Value)} {key : KeyClass × Value}
      {c : KeyClass}, call.key? = some key → c ≠ key.1 → (m.after call).find? c = m.find? c := by
  refine ⟨newDict_refines, newSet_refines, fun {a b} ha hb => ?_, OrderedMap.find?_after⟩
  exact (isKey_iff.mp ha).looseEq_iff (isKey_iff.mp hb)

/-- With the keys `{[1, 2]: 0, [3]: 0}`, `1` and the long `1`, the last of which is equal to the
second, a dictionary is as good as the map of these entries. -/
theorem containers_refine_maps_varied :
    let es := [(doublingValue "varied", .int 5), (.int 1, .int 6), (.long 1, .int 7)]
    (∀ e ∈ es, IsKey (fun _ => True) afterDoubling e.1) ∧
      afterDoubling.looseEq (.int 1) (.long 1) = true ∧
      ∃ h w₁, (Action.newDict es).runIn afterDoubling = (.ok (.ofDatum (.dict h)), w₁) ∧
        w₁.RefinesMap h (afterDoubling.mapOf es) := by
  intro es
  have keys : ∀ e ∈ es, IsKey (fun _ => True) afterDoubling e.1 := by
    have checked : (es.all fun e =>
        afterDoubling.isKeyWithin afterDoubling.looseEq ⟨.scope, 0⟩ 3 e.1) = true := by
      decide +kernel
    intro e he
    exact (World.isKeyWithin_keylike (List.all_eq_true.mp checked e he)).mono fun _ _ => trivial
  exact ⟨keys, by decide +kernel, (containers_refine_maps afterDoubling).1 keys⟩

/-- The world after both have been put into `d`, and the second one has been removed. -/
def afterRemoval : World :=
  let puts := [.put (doublingValue "varied") .null, .put (doublingValue "doubled") .null,
    .remove (doublingValue "varied")]
  puts.foldl (fun w call => (MapCall.outcome ⟨4⟩ w call).2) afterDoubling

/-- Of these two keys the first is equal to the second, but not the second to the first.  No map
has a key that has just been removed, whatever the identities of keys are, but here it is found. -/
theorem not_map_doubling :
    let varied := doublingValue "varied"
    (doublingValue "d").cells = [(⟨4⟩ : Handle .dict).cell] ∧
    afterDoubling.HoldsMap ⟨4⟩ .empty ∧
    (∀ key ∈ [varied, doublingValue "doubled"],
      Keylike (fun _ _ => False) (· ≠ (⟨4⟩ : Handle .dict).cell) afterDoubling key) ∧
    ((MapCall.contains varied).outcome ⟨4⟩ afterRemoval).1 = .ok (.bool true) ∧
    ∀ {κ : Type} [DecidableEq κ] (m : OrderedMap κ Value) (key : κ × Value),
      (m.after (.remove key)).reply (.contains key) = .value (.bool false) := by
  refine ⟨by decide +kernel, ⟨by decide +kernel, ?_, fun _ hr => absurd hr List.not_mem_nil⟩, ?_, ?_, ?_⟩
  · exact List.eq_nil_of_length_eq_zero (by decide +kernel)
  · have checked : ([doublingValue "varied", doublingValue "doubled"].all
        (afterDoubling.isKeyWithin (fun _ _ => false) (⟨4⟩ : Handle .dict).cell 3)) = true := by
      decide +kernel
    intro key mem
    have key := World.isKeyWithin_keylike (List.all_eq_true.mp checked key mem)
    exact key.imp fun _ _ _ _ never => never.elim
  · have found : (lookupEntry afterRemoval.looseEq (afterRemoval.entries ⟨4⟩)
        (doublingValue "varied")).isSome = true := by decide +kernel
    exact congrArg (fun b => Except.ok (Value.bool b)) found
  · intro κ _ m key
    have gone := (m.erase key.1).isSome_find? key.1
    rw [OrderedMap.find?_erase, if_pos rfl] at gone
    exact congrArg (fun b => Reply.value (.bool b)) gone.symm

end ScopeLang
