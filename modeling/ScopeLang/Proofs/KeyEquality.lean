/-
# Equality of keys

Loose equality is computed: it goes down two values of one world to a depth that
depends on the number of cells, looks for the first equal key, and of two sets goes
through the first only.  `Agree` is what it means.  It is a relation between values
of two worlds, so that it also says that a value reads as before in a later world, or
that a copy reads like the original.

On the keys that insertion makes the two are the same (`looseEq_iff`), and there loose
equality is an equivalence.  Such a key (`Keylike`) has no floating point numbers and no
instances in it, does not hold itself, and its own keys and elements are apart.  The last
is needed.  The sets `{[1, 2], [1, 2]}`, which a program can make by changing one of the
lists after it was put in, and `{[1, 2], [3]}` are equal in one direction only: equality
asks for as many elements and for a partner to each, and partners may be shared.  Where
elements are apart there are enough partners for all (`Covers.onto`), and this is where
symmetry and transitivity need each other.
-/
import Mathlib.Data.List.Forall2
import ScopeLang.Proofs.Amendments
import ScopeLang.Proofs.Keys

namespace ScopeLang

open List (Forall₂)

variable {w w' w₁ w₂ w₃ : World} {mine mine' : Cell → Prop} {a b c v : Value}

/-! ## Lists of partners -/

section Partners

variable {α β γ : Type} {R : α → β → Prop} {S : β → γ → Prop} {xs : List α} {ys : List β}
  {zs : List γ}

theorem forall₂_imp_mem {T : α → β → Prop} (h : Forall₂ R xs ys)
    (each : ∀ x ∈ xs, ∀ y ∈ ys, R x y → T x y) : Forall₂ T xs ys := by
  induction h with
  | nil => exact .nil
  | cons first _ ih =>
    exact .cons (each _ List.mem_cons_self _ List.mem_cons_self first)
      (ih fun x hx y hy => each x (List.mem_cons_of_mem _ hx) y (List.mem_cons_of_mem _ hy))

theorem forall₂_congr_mem {T : α → β → Prop} (each : ∀ x ∈ xs, ∀ y ∈ ys, R x y ↔ T x y) :
    Forall₂ R xs ys ↔ Forall₂ T xs ys :=
  ⟨fun h => forall₂_imp_mem h fun x hx y hy => (each x hx y hy).mp,
    fun h => forall₂_imp_mem h fun x hx y hy => (each x hx y hy).mpr⟩

theorem forall₂_trans_mem {T : α → γ → Prop} (h : Forall₂ R xs ys) (i : Forall₂ S ys zs)
    (each : ∀ x ∈ xs, ∀ y z, R x y → S y z → T x z) : Forall₂ T xs zs := by
  induction h generalizing zs with
  | nil =>
    cases i
    exact .nil
  | cons first _ ih =>
    cases i with
    | cons second others =>
      exact .cons (each _ List.mem_cons_self _ _ first second)
        (ih others fun x hx => each x (List.mem_cons_of_mem _ hx))

theorem allPairs_iff {p : α → α → Bool} {xs ys : List α} :
    allPairs p xs ys = true ↔ Forall₂ (fun x y => p x y = true) xs ys := by
  induction xs generalizing ys with
  | nil => cases ys <;> simp [allPairs]
  | cons x xs ih =>
    cases ys with
    | nil => simp [allPairs]
    | cons y ys =>
      rw [List.forall₂_cons, ← ih]
      simp only [allPairs, List.length_cons, List.zip_cons_cons, List.all_cons, Bool.and_eq_true,
        beq_iff_eq, Nat.add_right_cancel_iff]
      exact and_left_comm

/-- As many items, and each has a partner. -/
structure Covers (R : α → β → Prop) (xs : List α) (ys : List β) : Prop where
  length : xs.length = ys.length
  partner : ∀ x ∈ xs, ∃ y ∈ ys, R x y

/-- Comparing the lengths and looking for partners. -/
theorem covers_iff {p : α → Bool} (each : ∀ x ∈ xs, p x = true ↔ ∃ y ∈ ys, R x y) :
    (xs.length == ys.length && xs.all p) = true ↔ Covers R xs ys := by
  rw [Bool.and_eq_true, beq_iff_eq, List.all_eq_true]
  exact ⟨fun h => ⟨h.1, fun x hx => (each x hx).mp (h.2 x hx)⟩,
    fun h => ⟨h.length, fun x hx => (each x hx).mpr (h.partner x hx)⟩⟩

theorem Covers.of_forall₂ (h : Forall₂ R xs ys) : Covers R xs ys := by
  refine ⟨h.length_eq, fun x hx => ?_⟩
  obtain ⟨i, lt, rfl⟩ := List.getElem_of_mem hx
  have lt' : i < ys.length := h.length_eq ▸ lt
  exact ⟨ys[i], List.getElem_mem _, h.get _ _⟩

theorem Covers.refl {T : α → α → Prop} (each : ∀ x ∈ xs, T x x) : Covers T xs xs :=
  ⟨rfl, fun x hx => ⟨x, hx, each x hx⟩⟩

theorem Covers.trans {T : α → γ → Prop} (h : Covers R xs ys) (i : Covers S ys zs)
    (each : ∀ x ∈ xs, ∀ y z, R x y → S y z → T x z) : Covers T xs zs := by
  refine ⟨h.length.trans i.length, fun x hx => ?_⟩
  obtain ⟨y, hy, first⟩ := h.partner x hx
  obtain ⟨z, hz, second⟩ := i.partner y hy
  exact ⟨z, hz, each x hx y z first second⟩

/-- Where no partner is shared all are partners. -/
theorem Covers.onto (h : Covers R xs ys)
    (single : xs.Pairwise fun x x' => ∀ y ∈ ys, R x y → ¬ R x' y) :
    ∀ y ∈ ys, ∃ x ∈ xs, R x y := by
  induction xs generalizing ys with
  | nil =>
    intro y hy
    rw [List.eq_nil_of_length_eq_zero h.length.symm] at hy
    exact absurd hy List.not_mem_nil
  | cons x xs ih =>
    obtain ⟨first, others⟩ := List.pairwise_cons.mp single
    obtain ⟨y, hy, related⟩ := h.partner x List.mem_cons_self
    obtain ⟨us, vs, rfl⟩ := List.append_of_mem hy
    have sub : us ++ vs ⊆ us ++ y :: vs := by simp
    -- the partner of `x` is taken out, as nobody else has it
    have rest : Covers R xs (us ++ vs) := by
      have length := h.length
      refine ⟨by simp at length ⊢; omega, fun x' hx' => ?_⟩
      obtain ⟨y', hy', related'⟩ := h.partner x' (List.mem_cons_of_mem x hx')
      have other : y' ≠ y := fun same => first x' hx' y hy related (same ▸ related')
      exact ⟨y', by simpa [other] using hy', related'⟩
    have onto := ih rest (others.imp fun apart y hy => apart y (sub hy))
    intro u hu
    by_cases same : u = y
    · exact ⟨x, List.mem_cons_self, same ▸ related⟩
    · obtain ⟨x', hx', related'⟩ := onto u (by simpa [same] using hu)
      exact ⟨x', List.mem_cons_of_mem x hx', related'⟩

theorem Covers.flip {T : β → α → Prop} (h : Covers R xs ys)
    (single : xs.Pairwise fun x x' => ∀ y ∈ ys, R x y → ¬ R x' y)
    (each : ∀ x ∈ xs, ∀ y ∈ ys, R x y → T y x) : Covers T ys xs := by
  refine ⟨h.length.symm, fun y hy => ?_⟩
  obtain ⟨x, hx, related⟩ := h.onto single y hy
  exact ⟨x, hx, each x hx y hy related⟩

end Partners

/-! ## What values mean as keys -/

/-- What a datum without contents reads as.  Integers of either width are the numbers they are. -/
inductive Atom where
  | null
  | bool (b : Bool)
  | integer (n : Int)
  | char (c : Char)
  | string (s : String)
  | callable (c : Callable)
  | overloads (h : Handle .overloads)

/-- Floating point numbers, containers and instances are no atoms. -/
def Datum.atom? : Datum → Option Atom
  | .null => some .null
  | .bool b => some (.bool b)
  | .number (.int n) => some (.integer n.toInt)
  | .number (.long n) => some (.integer n.toInt)
  | .char c => some (.char c)
  | .string s => some (.string s)
  | .callable c => some (.callable c)
  | .overloads h => some (.overloads h)
  | _ => none

/-- A value of one world reads like a value of another one: atoms that are the same, sequences
with items that agree one by one, and dictionaries and sets of the same size in which each entry
or element of the first has a partner in the second. -/
inductive Agree (w w' : World) : Value → Value → Prop
  | atom {d e : Datum} {s t : Attributes} {l : Atom} (hd : d.atom? = some l)
      (he : e.atom? = some l) : Agree w w' ⟨d, s⟩ ⟨e, t⟩
  | list {x y : Handle .list} {s t : Attributes}
      (items : Forall₂ (Agree w w') (w.items x) (w'.items y)) : Agree w w' ⟨.list x, s⟩ ⟨.list y, t⟩
  | array {x y : Handle .list} {s t : Attributes}
      (items : Forall₂ (Agree w w') (w.items x) (w'.items y)) :
      Agree w w' ⟨.array x, s⟩ ⟨.array y, t⟩
  | dict {x y : Handle .dict} {s t : Attributes} (partner : Value × Value → Value × Value)
      (length : (w.entries x).length = (w'.entries y).length)
      (there : ∀ e ∈ w.entries x, partner e ∈ w'.entries y)
      (keys : ∀ e ∈ w.entries x, Agree w w' e.1 (partner e).1)
      (values : ∀ e ∈ w.entries x, Agree w w' e.2 (partner e).2) :
      Agree w w' ⟨.dict x, s⟩ ⟨.dict y, t⟩
  | set {x y : Handle .set} {s t : Attributes} (partner : Value → Value)
      (length : (w.elements x).length = (w'.elements y).length)
      (there : ∀ v ∈ w.elements x, partner v ∈ w'.elements y)
      (elements : ∀ v ∈ w.elements x, Agree w w' v (partner v)) :
      Agree w w' ⟨.set x, s⟩ ⟨.set y, t⟩

/-- Entries agree if their keys and their values do. -/
def EntriesAgree (w w' : World) (e f : Value × Value) : Prop :=
  Agree w w' e.1 f.1 ∧ Agree w w' e.2 f.2

namespace Agree

variable {x y : Handle .dict} {i j : Handle .set} {l m : Handle .list} {s t : Attributes}

theorem list_iff : Agree w w' ⟨.list l, s⟩ ⟨.list m, t⟩ ↔
    Forall₂ (Agree w w') (w.items l) (w'.items m) := by
  refine ⟨fun h => ?_, .list⟩
  cases h with
  | atom hd => cases hd
  | list items => exact items

theorem array_iff : Agree w w' ⟨.array l, s⟩ ⟨.array m, t⟩ ↔
    Forall₂ (Agree w w') (w.items l) (w'.items m) := by
  refine ⟨fun h => ?_, .array⟩
  cases h with
  | atom hd => cases hd
  | array items => exact items

theorem dict_iff : Agree w w' ⟨.dict x, s⟩ ⟨.dict y, t⟩ ↔
    Covers (EntriesAgree w w') (w.entries x) (w'.entries y) := by
  constructor
  · intro h
    cases h with
    | atom hd => cases hd
    | dict partner length there keys values =>
      exact ⟨length, fun e he => ⟨partner e, there e he, keys e he, values e he⟩⟩
  · intro h
    choose! partner there agree using h.partner
    exact .dict partner h.length there (fun e he => (agree e he).1) fun e he => (agree e he).2

theorem set_iff : Agree w w' ⟨.set i, s⟩ ⟨.set j, t⟩ ↔
    Covers (Agree w w') (w.elements i) (w'.elements j) := by
  constructor
  · intro h
    cases h with
    | atom hd => cases hd
    | set partner length there elements =>
      exact ⟨length, fun v hv => ⟨partner v, there v hv, elements v hv⟩⟩
  · intro h
    choose! partner there agree using h.partner
    exact .set partner h.length there agree

end Agree

/-- A value that can be told from others as a key.  Its containers are there and in `mine`, it
does not hold itself, and `equal` keeps the keys and elements in it apart. -/
inductive Keylike (equal : Value → Value → Prop) (mine : Cell → Prop) (w : World) : Value → Prop
  | atom {d : Datum} {s : Attributes} {l : Atom} (reads : d.atom? = some l) :
      Keylike equal mine w ⟨d, s⟩
  | list {x : Handle .list} {s : Attributes} (here : mine x.cell ∧ x.In w.count)
      (items : ∀ v ∈ w.items x, Keylike equal mine w v) : Keylike equal mine w ⟨.list x, s⟩
  | array {x : Handle .list} {s : Attributes} (here : mine x.cell ∧ x.In w.count)
      (items : ∀ v ∈ w.items x, Keylike equal mine w v) : Keylike equal mine w ⟨.array x, s⟩
  | dict {x : Handle .dict} {s : Attributes} (here : mine x.cell ∧ x.In w.count)
      (keys : ∀ e ∈ w.entries x, Keylike equal mine w e.1)
      (values : ∀ e ∈ w.entries x, Keylike equal mine w e.2)
      (apart : (w.entries x).Pairwise fun e f => ¬ equal e.1 f.1) :
      Keylike equal mine w ⟨.dict x, s⟩
  | set {x : Handle .set} {s : Attributes} (here : mine x.cell ∧ x.In w.count)
      (elements : ∀ v ∈ w.elements x, Keylike equal mine w v)
      (apart : (w.elements x).Pairwise fun u v => ¬ equal u v) : Keylike equal mine w ⟨.set x, s⟩

/-! ## An equivalence -/

theorem Keylike.imp {equal equal' : Value → Value → Prop}
    (weaker : ∀ a b, Keylike equal' mine w a → Keylike equal' mine w b → equal' a b → equal a b)
    (h : Keylike equal mine w v) : Keylike equal' mine w v := by
  induction h with
  | atom reads => exact .atom reads
  | list here _ items => exact .list here items
  | array here _ items => exact .array here items
  | dict here _ _ apart keys values =>
    exact .dict here keys values
      (apart.imp_of_mem fun he hf unequal => unequal ∘ weaker _ _ (keys _ he) (keys _ hf))
  | set here _ apart elements =>
    exact .set here elements
      (apart.imp_of_mem fun hu hv unequal => unequal ∘ weaker _ _ (elements _ hu) (elements _ hv))

/-- A key that is told from others by what values mean. -/
abbrev Discerned (mine : Cell → Prop) (w : World) (v : Value) : Prop := Keylike (Agree w w) mine w v

namespace Agree

variable {equal : Value → Value → Prop}

theorem refl (h : Keylike equal mine w a) : Agree w w a a := by
  induction h with
  | atom reads => exact .atom reads reads
  | list _ _ items => exact .list (List.forall₂_same.mpr items)
  | array _ _ items => exact .array (List.forall₂_same.mpr items)
  | dict _ _ _ _ keys values => exact dict_iff.mpr (.refl fun e he => ⟨keys e he, values e he⟩)
  | set _ _ _ elements => exact set_iff.mpr (.refl elements)

theorem trans (ha : Keylike equal mine w₁ a) (h : Agree w₁ w₂ a b) (i : Agree w₂ w₃ b c) :
    Agree w₁ w₃ a c := by
  induction ha generalizing b c with
  | atom reads =>
    cases h with
    | atom hd he =>
      cases i with
      | atom he' hf => exact .atom hd ((he.symm.trans he').symm ▸ hf)
      | _ => cases he
    | _ => cases reads
  | list _ _ ih =>
    cases h with
    | atom hd => cases hd
    | list first =>
      cases i with
      | atom hd => cases hd
      | list second => exact .list (forall₂_trans_mem first second fun v hv _ _ => ih v hv)
  | array _ _ ih =>
    cases h with
    | atom hd => cases hd
    | array first =>
      cases i with
      | atom hd => cases hd
      | array second => exact .array (forall₂_trans_mem first second fun v hv _ _ => ih v hv)
  | dict _ _ _ _ keys values =>
    have first := h
    cases h with
    | atom hd => cases hd
    | dict =>
      have second := i
      cases i with
      | atom hd => cases hd
      | dict =>
        refine dict_iff.mpr ((dict_iff.mp first).trans (dict_iff.mp second) ?_)
        exact fun e he f g r q => ⟨keys e he r.1 q.1, values e he r.2 q.2⟩
  | set _ _ _ elements =>
    have first := h
    cases h with
    | atom hd => cases hd
    | set =>
      have second := i
      cases i with
      | atom hd => cases hd
      | set =>
        refine set_iff.mpr ((set_iff.mp first).trans (set_iff.mp second) ?_)
        exact fun v hv _ _ => elements v hv

theorem symm (ha : Discerned mine w a) (hb : Discerned mine' w' b) (h : Agree w w' a b) :
    Agree w' w b a := by
  induction ha generalizing b with
  | atom reads =>
    cases h with
    | atom hd he => exact .atom he hd
    | _ => cases reads
  | list _ _ ih =>
    cases h with
    | atom hd => cases hd
    | list items =>
      cases hb with
      | atom reads => cases reads
      | list _ items' =>
        exact .list (forall₂_imp_mem items (T := fun v u => Agree w' w u v)
          fun v hv u hu => ih v hv (items' u hu)).flip
  | array _ _ ih =>
    cases h with
    | atom hd => cases hd
    | array items =>
      cases hb with
      | atom reads => cases reads
      | array _ items' =>
        exact .array (forall₂_imp_mem items (T := fun v u => Agree w' w u v)
          fun v hv u hu => ih v hv (items' u hu)).flip
  | dict _ mineKeys _ apart keys values =>
    have agree := h
    cases h with
    | atom hd => cases hd
    | dict =>
      cases hb with
      | atom reads => cases reads
      | dict _ keys' values' _ =>
        refine dict_iff.mpr ((dict_iff.mp agree).flip ?_ fun e he f hf r =>
          ⟨keys e he (keys' f hf) r.1, values e he (values' f hf) r.2⟩)
        -- keys with one partner agree with each other, since the partner agrees back
        refine apart.imp_of_mem fun he he' unequal f hf r r' => unequal ?_
        exact trans (mineKeys _ he) r.1 (keys _ he' (keys' f hf) r'.1)
  | set _ mineElements apart elements =>
    have agree := h
    cases h with
    | atom hd => cases hd
    | set =>
      cases hb with
      | atom reads => cases reads
      | set _ elements' _ =>
        refine set_iff.mpr ((set_iff.mp agree).flip ?_ fun u hu v hv =>
          elements u hu (elements' v hv))
        refine apart.imp_of_mem fun hu hu' unequal v hv r r' => unequal ?_
        exact trans (mineElements _ hu) r (elements _ hu' (elements' v hv) r')

end Agree

/-! ## How deep keys go -/

theorem containers_of_atom {d : Datum} {l : Atom} (reads : d.atom? = some l) (s : Attributes) :
    (⟨d, s⟩ : Value).containers = [] := by
  cases d with
  | callable c => cases c <;> rfl
  | list _ | array _ | dict _ | set _ | object _ => cases reads
  | _ => rfl

theorem Value.finite_of_values {d : Cell} (only : ∀ e ∈ v.containers, e = d)
    (each : ∀ u ∈ w.values d, u.Finite w) : v.Finite w := by
  have depth : ∀ {vs : List Value}, (∀ u ∈ vs, u.Finite w) → ∃ n, ∀ u ∈ vs, u.Nested w n := by
    intro vs each
    induction vs with
    | nil => exact ⟨0, fun _ hu => absurd hu List.not_mem_nil⟩
    | cons v vs ih =>
      obtain ⟨n, first⟩ := each v List.mem_cons_self
      obtain ⟨m, others⟩ := ih fun u hu => each u (List.mem_cons_of_mem v hu)
      refine ⟨max n m, fun u hu => ?_⟩
      rcases List.mem_cons.mp hu with rfl | hu
      · exact first.mono (Nat.le_max_left n m)
      · exact (others u hu).mono (Nat.le_max_right n m)
  obtain ⟨n, nested⟩ := depth each
  refine ⟨n + 1, fun e he f hf => ?_⟩
  obtain ⟨u, hu, mem⟩ := hf
  exact nested u (only e he ▸ hu) f mem

theorem forall_entryValues {p : Value → Prop} {es : List (Value × Value)}
    (keys : ∀ e ∈ es, p e.1) (values : ∀ e ∈ es, p e.2) :
    ∀ v ∈ es.flatMap fun e => [e.1, e.2], p v := by
  intro v hv
  obtain ⟨e, he, either⟩ := List.mem_flatMap.mp hv
  simp only [List.mem_cons, List.not_mem_nil, or_false] at either
  rcases either with rfl | rfl
  · exact keys e he
  · exact values e he

namespace Keylike

variable {equal : Value → Value → Prop} {d : Cell}

/-- The container of a key, with what is in it. -/
theorem container (h : Keylike equal mine w v) (hd : d ∈ v.containers) :
    (mine d ∧ d.In w.count) ∧ ∀ u ∈ w.values d, Keylike equal mine w u := by
  cases h with
  | atom reads =>
    rw [containers_of_atom reads] at hd
    cases hd
  | list here items =>
    obtain rfl := List.mem_singleton.mp hd
    exact ⟨here, items⟩
  | array here items =>
    obtain rfl := List.mem_singleton.mp hd
    exact ⟨here, items⟩
  | dict here keys values =>
    obtain rfl := List.mem_singleton.mp hd
    exact ⟨here, forall_entryValues keys values⟩
  | set here elements =>
    obtain rfl := List.mem_singleton.mp hd
    exact ⟨here, elements⟩

theorem finite (h : Keylike equal mine w v) : v.Finite w := by
  induction h with
  | atom reads => exact ⟨0, Value.nested_of_containers (containers_of_atom reads _)⟩
  | list _ _ items => exact Value.finite_of_values (fun _ => List.mem_singleton.mp) items
  | array _ _ items => exact Value.finite_of_values (fun _ => List.mem_singleton.mp) items
  | dict _ _ _ _ keys values =>
    exact Value.finite_of_values (fun _ => List.mem_singleton.mp) (forall_entryValues keys values)
  | set _ _ _ elements => exact Value.finite_of_values (fun _ => List.mem_singleton.mp) elements

/-- The depth that comparisons go to is enough. -/
theorem nested (h : Keylike equal mine w v) : v.Nested w w.size := by
  -- the containers of keys are closed downwards
  have region : w.Region fun d => d.In w.count ∧ ∀ u ∈ w.values d, Keylike equal mine w u :=
    ⟨fun here => here.1, fun here encloses => by
      obtain ⟨u, hu, hd⟩ := encloses
      have inner := (here.2 u hu).container hd
      exact ⟨inner.1.2, inner.2⟩⟩
  exact h.finite.nested region fun d hd => ⟨(h.container hd).1.2, (h.container hd).2⟩

end Keylike

/-! ## The computed equality -/

section Computed

variable {d e : Datum} {s t : Attributes} {l m : Atom} {n k : Nat}

/-- The integer that a number is. -/
theorem Number.looselyEqual_iff {x y : Number} {i j : Int}
    (hx : (Datum.number x).atom? = some (.integer i))
    (hy : (Datum.number y).atom? = some (.integer j)) : x.looselyEqual y = true ↔ i = j := by
  cases x with
  | int x =>
    cases hx
    cases y with
    | int y =>
      cases hy
      exact beq_iff_eq.trans Int32.toInt_inj.symm
    | long y =>
      cases hy
      rw [← Int32.toInt_toInt64, Int64.toInt_inj]
      exact beq_iff_eq
    | _ => cases hy
  | long x =>
    cases hx
    cases y with
    | int y =>
      cases hy
      rw [← Int32.toInt_toInt64, Int64.toInt_inj]
      exact beq_iff_eq
    | long y =>
      cases hy
      exact beq_iff_eq.trans Int64.toInt_inj.symm
    | _ => cases hy
  | _ => cases hx

/-- Atoms are compared as what they read as. -/
theorem looseEqWithin_atoms (hd : d.atom? = some l) (he : e.atom? = some m) :
    w.looseEqWithin (n + 1) ⟨d, s⟩ ⟨e, t⟩ = true ↔ l = m := by
  have numbers : ∀ {x y : Number} {i j : Int}, (Datum.number x).atom? = some (.integer i) →
      (Datum.number y).atom? = some (.integer j) →
        (w.looseEqWithin (n + 1) ⟨.number x, s⟩ ⟨.number y, t⟩ = true ↔
          Atom.integer i = Atom.integer j) := by
    intro x y i j hx hy
    rw [Atom.integer.injEq]
    exact Number.looselyEqual_iff hx hy
  rcases d with _ | _ | (_ | _ | _ | _) | _ | _ | _ | _ | _ | _ | _ | _ | _ <;> cases hd <;>
  rcases e with _ | _ | (_ | _ | _ | _) | _ | _ | _ | _ | _ | _ | _ | _ | _ <;> cases he <;>
  first
  | exact iff_of_false Bool.false_ne_true (fun same => by cases same)
  | exact numbers rfl rfl
  | exact iff_of_true rfl rfl
  | exact beq_iff_eq.trans ⟨fun same => same ▸ rfl, fun same => by cases same; rfl⟩

theorem isContainer_of_atom (hd : d.atom? = some l) : (⟨d, s⟩ : Value).isContainer = false := by
  cases d with
  | list _ | array _ | dict _ | set _ => cases hd
  | _ => rfl

theorem Agree.isContainer_eq (h : Agree w w' a b) : a.isContainer = b.isContainer := by
  cases h with
  | atom hd he => rw [isContainer_of_atom hd, isContainer_of_atom he]
  | _ => rfl

/-- A container is neither equal to something else nor agrees with it. -/
theorem looseEqWithin_mixed (mixed : a.isContainer ≠ b.isContainer) :
    w.looseEqWithin n a b = true ↔ Agree w w a b := by
  refine iff_of_false ?_ fun agree => mixed agree.isContainer_eq
  obtain ⟨d, _⟩ := a
  obtain ⟨e, _⟩ := b
  cases n with
  | zero => exact Bool.false_ne_true
  | succ n => cases d <;> cases e <;> first | exact Bool.false_ne_true | exact absurd rfl mixed

/-- What is found under a key is the value of the one entry that has it. -/
theorem any_lookupEntry_iff {equal : Value → Value → Bool} {p : Value → Bool} {key : Value}
    {es : List (Value × Value)}
    (single : es.Pairwise fun e f => equal e.1 key = true → ¬ equal f.1 key = true) :
    (lookupEntry equal es key).any p = true ↔ ∃ e ∈ es, equal e.1 key = true ∧ p e.2 = true := by
  induction es with
  | nil => simp [lookupEntry]
  | cons e es ih =>
    obtain ⟨first, others⟩ := List.pairwise_cons.mp single
    by_cases same : equal e.1 key = true
    · have none : ¬ ∃ f ∈ es, equal f.1 key = true ∧ p f.2 = true :=
        fun ⟨f, hf, equal, _⟩ => first f hf same equal
      simp [lookupEntry, same, none]
    · have ih := ih others
      simp only [lookupEntry] at ih
      simp [lookupEntry, same, ih]

theorem looseEqWithin_dict (x y : Handle .dict) :
    w.looseEqWithin (n + 1) ⟨.dict x, s⟩ ⟨.dict y, t⟩ =
      ((w.entries x).length == (w.entries y).length && (w.entries x).all fun e =>
        (lookupEntry (w.looseEqWithin n) (w.entries y) e.1).any (w.looseEqWithin n e.2)) := by
  refine congrArg₂ (· && ·) rfl (congrArg (List.all _) (funext fun e => ?_))
  generalize lookupEntry (w.looseEqWithin n) (w.entries y) e.1 = found
  cases found with
  | none => rfl
  | some other => rfl

/-- Keys are compared as what they mean. -/
theorem looseEqWithin_iff (ha : Discerned mine w a) (hb : Discerned mine' w b) (na : a.Nested w n)
    (nb : b.Nested w n) (lt : n < k) : w.looseEqWithin k a b = true ↔ Agree w w a b := by
  induction k generalizing n a b mine mine' with
  | zero => exact absurd lt (Nat.not_lt_zero n)
  | succ k ih =>
    -- values in containers are compared less deep
    have below : ∀ {c d}, c ∈ a.containers → d ∈ b.containers → ∀ u ∈ w.values c, ∀ v ∈ w.values d,
        Discerned mine w u → Discerned mine' w v → (w.looseEqWithin k u v = true ↔ Agree w w u v) ∧
          (w.looseEqWithin k v u = true ↔ Agree w w u v) := by
      intro c d hc hd u hu v hv apartU apartV
      cases n with
      | zero => exact (na c hc).elim
      | succ n =>
        have nestedU := Value.Nested.of_nests (na c hc) hu
        have nestedV := Value.Nested.of_nests (nb d hd) hv
        have lt := Nat.lt_of_succ_lt_succ lt
        refine ⟨ih apartU apartV nestedU nestedV lt, ?_⟩
        exact (ih apartV apartU nestedV nestedU lt).trans ⟨.symm apartV apartU, .symm apartU apartV⟩
    cases ha with
    | atom hd =>
      cases hb with
      | atom he =>
        refine (looseEqWithin_atoms hd he).trans ⟨fun same => .atom hd (same ▸ he), fun agree => ?_⟩
        cases agree with
        | atom hd' he' => exact Option.some.inj ((hd.symm.trans hd').trans (he'.symm.trans he))
        | _ => cases hd
      | _ => exact looseEqWithin_mixed (isContainer_of_atom hd ▸ Bool.false_ne_true)
    | list _ items =>
      cases hb with
      | atom he => exact looseEqWithin_mixed (isContainer_of_atom he ▸ Bool.noConfusion)
      | list _ items' =>
        have each := below (List.mem_singleton_self _) (List.mem_singleton_self _)
        refine (allPairs_iff.trans (forall₂_congr_mem ?_)).trans Agree.list_iff.symm
        exact fun u hu v hv => (each u hu v hv (items u hu) (items' v hv)).1
      | _ =>
        refine iff_of_false Bool.false_ne_true fun agree => ?_
        obtain ⟨hd, -⟩ := agree
        cases hd
    | array _ items =>
      cases hb with
      | atom he => exact looseEqWithin_mixed (isContainer_of_atom he ▸ Bool.noConfusion)
      | array _ items' =>
        have each := below (List.mem_singleton_self _) (List.mem_singleton_self _)
        refine (allPairs_iff.trans (forall₂_congr_mem ?_)).trans Agree.array_iff.symm
        exact fun u hu v hv => (each u hu v hv (items u hu) (items' v hv)).1
      | _ =>
        refine iff_of_false Bool.false_ne_true fun agree => ?_
        obtain ⟨hd, -⟩ := agree
        cases hd
    | dict _ keys values _ =>
      cases hb with
      | atom he => exact looseEqWithin_mixed (isContainer_of_atom he ▸ Bool.noConfusion)
      | @dict y _ _ keys' values' apart =>
        have each := below (List.mem_singleton_self _) (List.mem_singleton_self _)
        rw [looseEqWithin_dict, Agree.dict_iff]
        refine covers_iff fun e he => ?_
        have mine := World.mem_values_of_entry he
        have key := fun f hf =>
          each _ mine.1 _ (World.mem_values_of_entry hf).1 (keys e he) (keys' f hf)
        have value := fun f hf =>
          each _ mine.2 _ (World.mem_values_of_entry hf).2 (values e he) (values' f hf)
        -- two entries with the key would have agreeing keys
        have single : (w.entries y).Pairwise fun f g => w.looseEqWithin k f.1 e.1 = true →
            ¬ w.looseEqWithin k g.1 e.1 = true := by
          refine apart.imp_of_mem fun {f g} hf hg unequal first second => unequal ?_
          exact .trans (keys' f hf) (.symm (keys e he) (keys' f hf) ((key f hf).2.mp first))
            ((key g hg).2.mp second)
        rw [any_lookupEntry_iff single]
        exact exists_congr fun f => and_congr_right fun hf =>
          and_congr (key f hf).2 (value f hf).1
      | _ =>
        refine iff_of_false Bool.false_ne_true fun agree => ?_
        obtain ⟨hd, -⟩ := agree
        cases hd
    | set _ elements _ =>
      cases hb with
      | atom he => exact looseEqWithin_mixed (isContainer_of_atom he ▸ Bool.noConfusion)
      | set _ elements' _ =>
        have each := below (List.mem_singleton_self _) (List.mem_singleton_self _)
        refine (covers_iff fun u hu => ?_).trans Agree.set_iff.symm
        rw [hasElement, List.any_eq_true]
        exact exists_congr fun v => and_congr_right fun hv =>
          (each u hu v hv (elements u hu) (elements' v hv)).2
      | _ =>
        refine iff_of_false Bool.false_ne_true fun agree => ?_
        obtain ⟨hd, -⟩ := agree
        cases hd

/-- Loose equality of keys is what they mean. -/
theorem World.looseEq_iff (ha : Discerned mine w a) (hb : Discerned mine' w b) :
    w.looseEq a b = true ↔ Agree w w a b :=
  looseEqWithin_iff ha hb ha.nested hb.nested w.size.lt_succ_self

end Computed

/-- A key whose own keys and elements are apart by loose equality, as insertion keeps them. -/
abbrev IsKey (mine : Cell → Prop) (w : World) (v : Value) : Prop :=
  Keylike (fun a b => w.looseEq a b = true) mine w v

theorem isKey_iff : IsKey mine w v ↔ Discerned mine w v := by
  have discerned : ∀ {v}, IsKey mine w v → Discerned mine w v := fun h =>
    h.imp fun _ _ ha hb => (World.looseEq_iff ha hb).mpr
  refine ⟨discerned, fun h => h.imp fun _ _ ha hb => ?_⟩
  exact (World.looseEq_iff (discerned ha) (discerned hb)).mp

end ScopeLang
