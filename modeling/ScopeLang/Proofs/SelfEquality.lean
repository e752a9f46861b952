/-
# Values that equal themselves

A floating point number that is no number differs from itself in both equalities, and no
other datum does: strictly, a container or an instance is the same as itself by its
handle, whatever it holds.  So a new list equals another one with the very same items,
as long as none of the items is such a number.
-/
import ScopeLang.Proofs.KeyEquality

namespace ScopeLang

/-- Whether a number is none. -/
def Number.isNaN : Number → Bool
  | .float x => x.isNaN
  | .double x => x.isNaN
  | .int _ | .long _ => false

/-- Whether a value is a number that is none. -/
def Value.isNaN (v : Value) : Bool := v.number?.elim false Number.isNaN

theorem unpackedFloat_beq_self {x : Float.Model.UnpackedFloat} (h : x.isNaN = false) :
    x.beq x = true := by
  cases x with
  | notANumber => cases h
  | infinity s => cases s <;> rfl
  | zero s => cases s <;> rfl
  | finite s m e pos =>
    have same : (compare e e).then (compare m m) = .eq := by simp
    cases s with
    | negative => exact beq_iff_eq.mpr (congrArg (fun o : Ordering => some o.swap) same)
    | positive => exact beq_iff_eq.mpr (congrArg some same)

namespace Number

variable {x : Number}

theorem same_self (h : x.isNaN = false) : x.same x = true := by
  cases x with
  | int n => exact beq_self_eq_true n
  | long n => exact beq_self_eq_true n
  | float n => exact unpackedFloat_beq_self h
  | double n => exact unpackedFloat_beq_self h

theorem looselyEqual_self (h : x.isNaN = false) : x.looselyEqual x = true := by
  cases x with
  | int n => exact beq_self_eq_true n
  | long n => exact beq_self_eq_true n
  | float n => exact unpackedFloat_beq_self h
  | double n => exact unpackedFloat_beq_self h

end Number

/-- Data of the kind of a text or of a container are texts or containers of that kind. -/
theorem Datum.like_of_kind {d e : Datum} (same : e.kind = d.kind) :
    match d with
    | .string _ => ∃ text, e = .string text
    | .list _ => ∃ h, e = .list h
    | .array _ => ∃ h, e = .array h
    | .dict _ => ∃ h, e = .dict h
    | .set _ => ∃ h, e = .set h
    | _ => True := by
  cases d with
  | string | list | array | dict | set =>
    cases e with
    | string x | list x | array x | dict x | set x => first | exact ⟨x, rfl⟩ | cases same
    | number n => cases n <;> cases same
    | _ => cases same
  | _ => trivial

theorem allPairs_self {α : Type} {related : α → α → Bool} {xs : List α}
    (each : ∀ x ∈ xs, related x x = true) : allPairs related xs xs = true :=
  allPairs_iff.mpr (List.forall₂_same.mpr each)

namespace World

theorem strictEqWithin_self (w : World) (n : Nat) {v : Value} (h : v.isNaN = false) :
    w.strictEqWithin (n + 1) v v = true := by
  obtain ⟨d, attrs⟩ := v
  cases d with
  | null => rfl
  | number x => exact Number.same_self h
  | bool x => exact beq_self_eq_true x
  | char x => exact beq_self_eq_true x
  | string x => exact beq_self_eq_true x
  | callable x => exact beq_self_eq_true x
  | object x => exact beq_self_eq_true x
  | overloads x => exact beq_self_eq_true x
  | list x => simp only [strictEqWithin, beq_self_eq_true, Bool.true_or]
  | array x => simp only [strictEqWithin, beq_self_eq_true, Bool.true_or]
  | dict x => simp only [strictEqWithin, beq_self_eq_true, Bool.true_or]
  | set x => simp only [strictEqWithin, beq_self_eq_true, Bool.true_or]

end World

end ScopeLang
