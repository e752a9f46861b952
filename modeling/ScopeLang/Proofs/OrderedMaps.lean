/-
# Ordered maps

What dictionaries and sets are supposed to be: maps that know the order in which their
keys came in.  A row has the identity of a key, the key that was put in first, and a
value; an identity has one row at most (`OrderedMap.distinct`).  Putting replaces the
value in a row that is there or adds a row at the end, and erasing takes one row out.  A
set is such a map whose values say nothing.

Nothing here knows of worlds or of the equality of values.  Of a list of entries that is
searched with some equality, the last section says that it does the same as the rows,
if the equality finds the identities.
-/
import ScopeLang.Intrinsics
import Mathlib.Data.List.Find
import Mathlib.Data.List.Nodup

namespace ScopeLang

/-- The identity of a key, the key that came in first, and what it stands for. -/
structure Row (κ ν : Type) where
  id : κ
  key : Value
  value : ν

/-- The rows of a map in the order in which they came in. -/
structure OrderedMap (κ ν : Type) where
  rows : List (Row κ ν)
  distinct : (rows.map Row.id).Nodup

variable {κ ν : Type} [DecidableEq κ]

/-- The rows with another value for an identity. -/
def Row.replace (c : κ) (value : ν) (rows : List (Row κ ν)) : List (Row κ ν) :=
  rows.map fun r => if r.id = c then { r with value } else r

theorem Row.map_id_replace (c : κ) (value : ν) (rows : List (Row κ ν)) :
    (Row.replace c value rows).map Row.id = rows.map Row.id := by
  rw [Row.replace, List.map_map]
  refine List.map_congr_left fun r _ => ?_
  simp only [Function.comp_apply]
  split <;> rfl

theorem Row.map_key_replace (c : κ) (value : ν) (rows : List (Row κ ν)) :
    (Row.replace c value rows).map Row.key = rows.map Row.key := by
  rw [Row.replace, List.map_map]
  refine List.map_congr_left fun r _ => ?_
  simp only [Function.comp_apply]
  split <;> rfl

namespace OrderedMap

/-- The map without rows. -/
def empty : OrderedMap κ ν := ⟨[], .nil⟩

/-- What an identity stands for. -/
def find? (m : OrderedMap κ ν) (c : κ) : Option ν :=
  (m.rows.find? fun r => r.id = c).map Row.value

/-- Whether there is a row for an identity. -/
def has (m : OrderedMap κ ν) (c : κ) : Bool := m.rows.any fun r => r.id = c

theorem has_eq_false {m : OrderedMap κ ν} {c : κ} (absent : ¬ m.has c = true) :
    c ∉ m.rows.map Row.id := by
  intro mem
  obtain ⟨r, hr, same⟩ := List.mem_map.mp mem
  exact absent (List.any_eq_true.mpr ⟨r, hr, decide_eq_true same⟩)

/-- Replaces the value in a row, or adds one at the end. -/
def put (m : OrderedMap κ ν) (c : κ) (key : Value) (value : ν) : OrderedMap κ ν :=
  if h : m.has c then ⟨Row.replace c value m.rows, by rw [Row.map_id_replace]; exact m.distinct⟩
  else ⟨m.rows ++ [⟨c, key, value⟩], by
    rw [List.map_append]
    refine m.distinct.append (List.nodup_singleton c) fun d hd same => has_eq_false h ?_
    obtain rfl := List.mem_singleton.mp same
    exact hd⟩

/-- Takes out the row of an identity. -/
def erase (m : OrderedMap κ ν) (c : κ) : OrderedMap κ ν :=
  ⟨m.rows.filter fun r => r.id ≠ c, m.distinct.sublist (List.filter_sublist.map Row.id)⟩

/-! ## Laws -/

section Laws

variable (m : OrderedMap κ ν) (c d : κ) (key : Value) (value : ν)

theorem isSome_find? : (m.find? c).isSome = m.has c := by
  rw [find?, Option.isSome_map, has, List.isSome_find?]

theorem find?_replace (rows : List (Row κ ν)) :
    ((Row.replace c value rows).find? fun r => r.id = d).map Row.value =
      ((rows.find? fun r => r.id = d).map Row.value).map
        fun old => if d = c then value else old := by
  induction rows with
  | nil => rfl
  | cons r rows ih =>
    rw [Row.replace, List.map_cons, List.find?_cons, List.find?_cons]
    have kept : (if r.id = c then { r with value } else r).id = r.id := by split <;> rfl
    rw [kept]
    by_cases here : r.id = d
    · rw [decide_eq_true here, ← here]
      by_cases same : r.id = c
      · rw [if_pos same]
        exact congrArg some (if_pos same).symm
      · rw [if_neg same]
        exact congrArg some (if_neg same).symm
    · rw [decide_eq_false here]
      exact ih

/-- Putting matters to its own key only. -/
theorem find?_put : (m.put c key value).find? d = if d = c then some value else m.find? d := by
  rw [put]
  split
  · rename_i found
    obtain ⟨old, eq⟩ := Option.isSome_iff_exists.mp ((m.isSome_find? c).trans found)
    rw [find?] at eq
    rw [find?, find?_replace]
    split
    · rename_i same
      rw [same, eq]
      rfl
    · exact Option.map_id'
  · rename_i absent
    have unknown : m.find? c = none := by
      rw [← isSome_find?] at absent
      simpa using absent
    rw [find?, List.find?_append, List.find?_singleton, Option.map_or]
    by_cases same : d = c
    · rw [if_pos same, if_pos (decide_eq_true same.symm), ← find?, same, unknown]
      rfl
    · have other : ¬ decide (c = d) = true := by simpa using Ne.symm same
      rw [if_neg same, if_neg other, Option.map_none, Option.or_none]
      rfl

/-- And so does erasing. -/
theorem find?_erase : (m.erase c).find? d = if d = c then none else m.find? d := by
  rw [find?, erase, List.find?_filter]
  split
  · rename_i same
    have gone : ∀ r ∈ m.rows, ¬ (r.id ≠ c ∧ r.id = d) := fun r _ both => both.1 (both.2.trans same)
    rw [List.find?_eq_none.mpr (by simpa using gone)]
    rfl
  · rename_i other
    rw [find?]
    congr 2
    funext r
    have same : (r.id ≠ c ∧ r.id = d) ↔ r.id = d :=
      ⟨And.right, fun here => ⟨fun e => other (here.symm.trans e), here⟩⟩
    simpa using same

end Laws

end OrderedMap

/-! ## Calls -/

/-- A call on a dictionary, with keys given as `ι`. -/
inductive MapCall (ι : Type) where
  | put (key : ι) (value : Value)
  | remove (key : ι)
  | get (key : ι)
  | contains (key : ι)
  | keys
  | values
  | length
  | isEmpty
  | clear

/-- A call on a set. -/
inductive SetCall (ι : Type) where
  | insert (item : ι)
  | remove (item : ι)
  | contains (item : ι)
  | length
  | isEmpty
  | clear

/-- What a call yields. -/
inductive Reply where
  | value (v : Value)
  /-- A new list. -/
  | list (items : List Value)
  /-- A key that was not found. -/
  | missing (key : Value)

namespace MapCall

variable {ι : Type}

/-- The names of the operation. -/
def operations : MapCall ι → List String
  | put _ _ => ["insert", "set"]
  | remove _ => ["remove"]
  | get _ => ["get"]
  | contains _ => ["contains"]
  | keys => ["keys"]
  | values => ["values"]
  | length => ["length", "size"]
  | isEmpty => ["is_empty"]
  | clear => ["clear"]

def arguments : MapCall Value → List Value
  | put key value => [key, value]
  | remove key | get key | contains key => [key]
  | keys | values | length | isEmpty | clear => []

/-- The key that a call is about. -/
def key? : MapCall ι → Option ι
  | put key _ | remove key | get key | contains key => some key
  | keys | values | length | isEmpty | clear => none

end MapCall

namespace SetCall

variable {ι : Type}

def operations : SetCall ι → List String
  | insert _ => ["insert"]
  | remove _ => ["remove"]
  | contains _ => ["contains"]
  | length => ["length", "size"]
  | isEmpty => ["is_empty"]
  | clear => ["clear"]

def arguments : SetCall Value → List Value
  | insert item | remove item | contains item => [item]
  | length | isEmpty | clear => []

end SetCall

namespace OrderedMap

/-- What a map yields: the value that was there before it was replaced or removed, or else null,
and the number of its rows as its length. -/
def reply (m : OrderedMap κ Value) : MapCall (κ × Value) → Reply
  | .put key _ | .remove key => .value ((m.find? key.1).getD .null)
  | .get key => ((m.find? key.1).map Reply.value).getD (.missing key.2)
  | .contains key => .value (.bool (m.has key.1))
  | .keys => .list (m.rows.map Row.key)
  | .values => .list (m.rows.map Row.value)
  | .length => .value (.long (Int64.ofNat m.rows.length))
  | .isEmpty => .value (.bool (m.rows.length == 0))
  | .clear => .value .null

/-- The map after a call. -/
def after (m : OrderedMap κ Value) : MapCall (κ × Value) → OrderedMap κ Value
  | .put key value => m.put key.1 key.2 value
  | .remove key => m.erase key.1
  | .get _ | .contains _ | .keys | .values | .length | .isEmpty => m
  | .clear => empty

/-- What a set yields; inserting and removing tell whether it changes. -/
def replySet (m : OrderedMap κ Unit) : SetCall (κ × Value) → Reply
  | .insert item => .value (.bool !m.has item.1)
  | .remove item | .contains item => .value (.bool (m.has item.1))
  | .length => .value (.long (Int64.ofNat m.rows.length))
  | .isEmpty => .value (.bool (m.rows.length == 0))
  | .clear => .value .null

/-- The set after a call. -/
def afterSet (m : OrderedMap κ Unit) : SetCall (κ × Value) → OrderedMap κ Unit
  | .insert item => m.put item.1 item.2 ()
  | .remove item => m.erase item.1
  | .contains _ | .length | .isEmpty => m
  | .clear => empty

/-- What a map replies to some calls in turn, and the map after them. -/
def run (m : OrderedMap κ Value) (calls : List (MapCall (κ × Value))) :
    List Reply × OrderedMap κ Value :=
  mapState (fun call m => (m.reply call, m.after call)) calls m

def runSet (m : OrderedMap κ Unit) (calls : List (SetCall (κ × Value))) :
    List Reply × OrderedMap κ Unit :=
  mapState (fun call m => (m.replySet call, m.afterSet call)) calls m

/-- A call about one key leaves what other keys stand for. -/
theorem find?_after {m : OrderedMap κ Value} {call : MapCall (κ × Value)} {key : κ × Value} {c : κ}
    (about : call.key? = some key) (other : c ≠ key.1) : (m.after call).find? c = m.find? c := by
  cases call with
  | put =>
    cases about
    rw [after, find?_put, if_neg other]
  | remove =>
    cases about
    rw [after, find?_erase, if_neg other]
  | clear => cases about
  | _ => rfl

end OrderedMap

/-! ## Searched lists -/

section Searched

variable {equal : Value → Value → Bool} {key : Value} {c : κ}

/-- A key and what it stands for. -/
def Row.entry (r : Row κ Value) : Value × Value := (r.key, r.value)

/-- The equality finds the rows of an identity. -/
def Finds (equal : Value → Value → Bool) (key : Value) (c : κ) (rows : List (Row κ ν)) : Prop :=
  ∀ r ∈ rows, equal r.key key = true ↔ r.id = c

theorem Finds.eq {rows : List (Row κ ν)} (finds : Finds equal key c rows) :
    ∀ r ∈ rows, equal r.key key = decide (r.id = c) := fun r hr =>
  Bool.eq_iff_iff.mpr ((finds r hr).trans decide_eq_true_iff.symm)

omit [DecidableEq κ] in
theorem Finds.tail {r : Row κ ν} {rows : List (Row κ ν)} (finds : Finds equal key c (r :: rows)) :
    Finds equal key c rows := fun r' hr' => finds r' (List.mem_cons_of_mem r hr')

theorem hasElement_rows {m : OrderedMap κ ν} (finds : Finds equal key c m.rows) :
    hasElement equal (m.rows.map Row.key) key = m.has c := by
  rw [hasElement, List.any_map, OrderedMap.has, Bool.eq_iff_iff, List.any_eq_true, List.any_eq_true]
  exact exists_congr fun r => and_congr_right fun hr => (finds r hr).trans decide_eq_true_iff.symm

theorem lookupEntry_rows {m : OrderedMap κ Value} (finds : Finds equal key c m.rows) :
    lookupEntry equal (m.rows.map Row.entry) key = m.find? c := by
  rw [lookupEntry, List.find?_map, Option.map_map, OrderedMap.find?, ← List.find?_congr finds.eq]
  rfl

theorem replace_of_absent {rows : List (Row κ ν)} (absent : c ∉ rows.map Row.id) (value : ν) :
    Row.replace c value rows = rows := by
  refine (List.map_congr_left fun r hr => ?_).trans (List.map_id rows)
  exact if_neg fun same => absent (List.mem_map.mpr ⟨r, hr, same⟩)

theorem insertEntry_rows {m : OrderedMap κ Value} (finds : Finds equal key c m.rows)
    (value : Value) :
    insertEntry equal key value (m.rows.map Row.entry) =
      (m.put c key value).rows.map Row.entry := by
  have replaced : ∀ rows : List (Row κ Value), Finds equal key c rows → (rows.map Row.id).Nodup →
      insertEntry equal key value (rows.map Row.entry) =
        (if rows.any fun r => r.id = c then Row.replace c value rows
          else rows ++ [⟨c, key, value⟩]).map Row.entry := by
    intro rows finds distinct
    induction rows with
    | nil => rfl
    | cons r rows ih =>
      obtain ⟨new, distinct⟩ := List.nodup_cons.mp distinct
      rw [List.map_cons, Row.entry, insertEntry, List.any_cons, finds.eq r List.mem_cons_self]
      by_cases same : r.id = c
      · rw [if_pos (decide_eq_true same), decide_eq_true same, Bool.true_or, if_pos rfl]
        rw [Row.replace, List.map_cons, if_pos same, List.map_cons, ← Row.replace,
          replace_of_absent (same ▸ new)]
        rfl
      · rw [if_neg (by simpa using same), decide_eq_false same, Bool.false_or, ih finds.tail distinct]
        split
        · have kept : Row.replace c value (r :: rows) = r :: Row.replace c value rows :=
            congrArg (· :: Row.replace c value rows) (if_neg same)
          rw [kept]
          rfl
        · rfl
  rw [replaced m.rows finds m.distinct, OrderedMap.put]
  by_cases found : m.has c = true
  · rw [dif_pos found]
    exact congrArg (List.map Row.entry) (if_pos found)
  · rw [dif_neg found]
    exact congrArg (List.map Row.entry) (if_neg found)

theorem insertElement_rows {m : OrderedMap κ Unit} (finds : Finds equal key c m.rows) :
    insertElement equal (m.rows.map Row.key) key = (m.put c key ()).rows.map Row.key := by
  rw [insertElement, hasElement_rows finds, OrderedMap.put]
  by_cases found : m.has c = true
  · rw [dif_pos found, if_pos found, Row.map_key_replace]
  · rw [dif_neg found, if_neg found, List.map_append]
    rfl

/-- Of the rows of an identity there is one only, so that the first is all of them. -/
theorem eraseP_rows {m : OrderedMap κ ν} (finds : Finds equal key c m.rows) :
    m.rows.eraseP (fun r => equal r.key key) = (m.erase c).rows := by
  have filtered : ∀ rows : List (Row κ ν), Finds equal key c rows → (rows.map Row.id).Nodup →
      rows.eraseP (fun r => equal r.key key) = rows.filter fun r => r.id ≠ c := by
    intro rows finds distinct
    induction rows with
    | nil => rfl
    | cons r rows ih =>
      obtain ⟨new, distinct⟩ := List.nodup_cons.mp distinct
      rw [List.eraseP_cons, finds.eq r List.mem_cons_self, List.filter_cons]
      by_cases same : r.id = c
      · have others : ∀ r' ∈ rows, decide (r'.id ≠ c) = true := fun r' hr' =>
          decide_eq_true fun same' => new (List.mem_map.mpr ⟨r', hr', same'.trans same.symm⟩)
        simp only [same, decide_true, ne_eq, not_true_eq_false, decide_false]
        exact (List.filter_eq_self.mpr others).symm
      · simp only [same, decide_false, ne_eq, not_false_eq_true, decide_true]
        exact congrArg (r :: ·) (ih finds.tail distinct)
  exact filtered m.rows finds m.distinct

end Searched

end ScopeLang
