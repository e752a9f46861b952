/-
# Keys that last

A dictionary stores a copy of a key, and compares it in later worlds.  For that to be
sound a key must read the same as long as nobody changes a container in it, and a copy
must read like the original.  Both are statements about two worlds, and `Agree` makes
them: `Discerned.later` says it of a world in which the cells of the key keep their
values, and `discerned_copyWithin` of a copy.

What a key means is then the class of all values, of any world, that agree with it
(`World.keyClass`).  Two keys have one class just if they are loosely equal.
-/
import ScopeLang.Proofs.KeyEquality

namespace ScopeLang

open List (Forall₂)
open Relation

variable {w w' w₁ w₂ : World} {mine mine' : Cell → Prop} {equal : Value → Value → Prop}
  {a b v : Value} {c d : Cell}

/-! ## Cells that keep their values -/

/-- The cells of `mine` that are there stay there and keep their values. -/
structure World.Shields (w : World) (mine : Cell → Prop) (w' : World) : Prop where
  there : ∀ {c}, mine c → c.In w.count → c.In w'.count
  values : ∀ {c}, mine c → c.In w.count → w'.values c = w.values c

theorem entryValues_inj {es fs : List (Value × Value)}
    (same : (es.flatMap fun e => [e.1, e.2]) = fs.flatMap fun e => [e.1, e.2]) : es = fs := by
  induction es generalizing fs with
  | nil =>
    cases fs with
    | nil => rfl
    | cons f fs => cases same
  | cons e es ih =>
    cases fs with
    | nil => cases same
    | cons f fs =>
      simp only [List.flatMap_cons, List.cons_append, List.nil_append, List.cons.injEq] at same
      rw [Prod.ext same.1 same.2.1, ih same.2.2]

namespace World.Shields

variable {x : Handle .list} {y : Handle .dict} {z : Handle .set}

theorem items (h : w.Shields mine w') (here : mine x.cell ∧ x.In w.count) :
    w'.items x = w.items x :=
  h.values here.1 here.2

theorem entries (h : w.Shields mine w') (here : mine y.cell ∧ y.In w.count) :
    w'.entries y = w.entries y :=
  entryValues_inj (h.values here.1 here.2)

theorem elements (h : w.Shields mine w') (here : mine z.cell ∧ z.In w.count) :
    w'.elements z = w.elements z :=
  h.values here.1 here.2

theorem mono (h : w.Shields mine w') (sub : ∀ {c}, c.In w.count → mine' c → mine c) :
    w.Shields mine' w' :=
  ⟨fun m old => h.there (sub old m) old, fun m old => h.values (sub old m) old⟩

end World.Shields

/-- Where nothing is amended every cell keeps its values. -/
theorem World.Amends.shields (h : w.Amends Nowhere Nowhere w') : w.Shields mine w' :=
  ⟨fun _ old => old.mono h.count, fun _ old => h.all_values old⟩

/-- A container that is filled is the only one that is given other values. -/
theorem World.Fills.shields {vs : List Value} (h : w.Fills c vs w') (other : ¬ mine c) :
    w.Shields mine w' :=
  ⟨fun _ old => old.mono h.count, fun m _ => h.other fun same => other (same ▸ m)⟩

/-! ## Which cells a key holds -/

/-- The containers on the way down from a value. -/
def Value.Reaches (w : World) (v : Value) (c : Cell) : Prop :=
  ∃ d ∈ v.containers, ReflTransGen w.Encloses d c

/-- What a value in a container reaches the container encloses. -/
theorem Value.Reaches.within (h : v.Reaches w c) (mem : v ∈ w.values d) :
    ReflTransGen w.Encloses d c := by
  obtain ⟨e, he, way⟩ := h
  exact .head ⟨v, mem, he⟩ way

namespace Keylike

theorem mono (h : Keylike equal mine w v) (sub : ∀ {c}, c.In w.count → mine c → mine' c) :
    Keylike equal mine' w v := by
  induction h with
  | atom reads => exact .atom reads
  | list here _ items => exact .list ⟨sub here.2 here.1, here.2⟩ items
  | array here _ items => exact .array ⟨sub here.2 here.1, here.2⟩ items
  | dict here _ _ apart keys values => exact .dict ⟨sub here.2 here.1, here.2⟩ keys values apart
  | set here _ apart elements => exact .set ⟨sub here.2 here.1, here.2⟩ elements apart

/-- A key holds no containers but those it reaches. -/
theorem reaches (h : Keylike equal mine w v) :
    Keylike equal (fun c => mine c ∧ v.Reaches w c) w v := by
  have self : ∀ {d : Cell}, d ∈ [d] := List.mem_singleton_self _
  have top : ∀ {v : Value} {d : Cell}, d ∈ v.containers → v.Reaches w d :=
    fun hd => ⟨_, hd, .refl⟩
  have below : ∀ {u v : Value} {d : Cell}, d ∈ v.containers → u ∈ w.values d →
      Keylike equal (fun c => mine c ∧ u.Reaches w c) w u →
        Keylike equal (fun c => mine c ∧ v.Reaches w c) w u :=
    fun hd hu h => h.mono fun _ both => ⟨both.1, _, hd, both.2.within hu⟩
  induction h with
  | atom reads => exact .atom reads
  | list here _ items =>
    exact .list ⟨⟨here.1, top self⟩, here.2⟩ fun u hu => below self hu (items u hu)
  | array here _ items =>
    exact .array ⟨⟨here.1, top self⟩, here.2⟩ fun u hu => below self hu (items u hu)
  | dict here _ _ apart keys values =>
    exact .dict ⟨⟨here.1, top self⟩, here.2⟩
      (fun e he => below self (World.mem_values_of_entry he).1 (keys e he))
      (fun e he => below self (World.mem_values_of_entry he).2 (values e he)) apart
  | set here _ apart elements =>
    exact .set ⟨⟨here.1, top self⟩, here.2⟩ (fun u hu => below self hu (elements u hu)) apart

end Keylike

/-! ## Later worlds -/

/-- A key of one world that agrees with a value of another one. -/
def Restates (mine : Cell → Prop) (w : World) (v : Value) (w' : World) (v' : Value) : Prop :=
  Discerned mine w' v' ∧ Agree w w' v v'

/-- Keys that are apart in one world are apart in the other. -/
theorem Agree.apart {a' b' : Value} (ha : Discerned mine w a) (hb : Discerned mine w b)
    (hb' : Discerned mine w' b') (same : Agree w w' a a') (same' : Agree w w' b b')
    (unequal : ¬ Agree w w a b) : ¬ Agree w' w' a' b' := fun agree =>
  unequal (.trans ha (.trans ha same agree) (.symm hb hb' same'))

/-- A key is as before in a world in which its cells keep their values. -/
theorem Discerned.later (h : Discerned mine w v) (shields : w.Shields mine w') :
    Restates mine w v w' v := by
  induction h with
  | atom reads => exact ⟨.atom reads, .atom reads reads⟩
  | list here _ items =>
    have same := shields.items here
    refine ⟨.list ⟨here.1, shields.there here.1 here.2⟩ fun u hu => (items u (same ▸ hu)).1,
      .list ?_⟩
    rw [same]
    exact List.forall₂_same.mpr fun u hu => (items u hu).2
  | array here _ items =>
    have same := shields.items here
    refine ⟨.array ⟨here.1, shields.there here.1 here.2⟩ fun u hu => (items u (same ▸ hu)).1,
      .array ?_⟩
    rw [same]
    exact List.forall₂_same.mpr fun u hu => (items u hu).2
  | dict here mineKeys _ apart keys values =>
    have same := shields.entries here
    refine ⟨.dict ⟨here.1, shields.there here.1 here.2⟩ (fun e he => (keys e (same ▸ he)).1)
      (fun e he => (values e (same ▸ he)).1) ?_, Agree.dict_iff.mpr ?_⟩
    · rw [same]
      exact apart.imp_of_mem fun he hf => Agree.apart (mineKeys _ he) (mineKeys _ hf) (keys _ hf).1
        (keys _ he).2 (keys _ hf).2
    · rw [same]
      exact .refl fun e he => ⟨(keys e he).2, (values e he).2⟩
  | set here mineElements apart elements =>
    have same := shields.elements here
    refine ⟨.set ⟨here.1, shields.there here.1 here.2⟩ (fun u hu => (elements u (same ▸ hu)).1) ?_,
      Agree.set_iff.mpr ?_⟩
    · rw [same]
      exact apart.imp_of_mem fun hu hv => Agree.apart (mineElements _ hu) (mineElements _ hv)
        (elements _ hv).1 (elements _ hu).2 (elements _ hv).2
    · rw [same]
      exact .refl fun u hu => (elements u hu).2

theorem Restates.later {v' : Value} (h : Restates mine w v w₁ v') (key : Keylike equal mine' w v)
    (shields : w₁.Shields mine w₂) : Restates mine w v w₂ v' :=
  have still := Discerned.later h.1 shields
  ⟨still.1, .trans key h.2 still.2⟩

/-! ## Copies -/

theorem pairwise_of_forall₂ {α β : Type} {R : α → β → Prop} {P : α → α → Prop} {Q : β → β → Prop}
    {xs : List α} {ys : List β} (h : Forall₂ R xs ys) (apart : xs.Pairwise P)
    (each : ∀ x ∈ xs, ∀ x' ∈ xs, ∀ y ∈ ys, ∀ y' ∈ ys, R x y → R x' y' → P x x' → Q y y') :
    ys.Pairwise Q := by
  induction h with
  | nil => exact .nil
  | @cons x y xs ys first others ih =>
    obtain ⟨head, tail⟩ := List.pairwise_cons.mp apart
    refine .cons (fun y' hy' => ?_) (ih tail fun a ha b hb c hc d hd =>
      each a (List.mem_cons_of_mem x ha) b (List.mem_cons_of_mem x hb) c
        (List.mem_cons_of_mem y hc) d (List.mem_cons_of_mem y hd))
    obtain ⟨x', hx', related⟩ :=
      (Covers.of_forall₂ (R := fun y x => R x y) others.flip).partner y' hy'
    exact each x List.mem_cons_self x' (List.mem_cons_of_mem x hx') y List.mem_cons_self y'
      (List.mem_cons_of_mem y hy') first related (head x' hx')

/-- All cells yet to be made are in `mine`. -/
def Fresh (mine : Cell → Prop) (w : World) : Prop := ∀ c, ¬ c.In w.count → mine c

theorem Fresh.later (h : Fresh mine w) (amends : w.Amends Nowhere Nowhere w') : Fresh mine w' :=
  fun c new => h c fun old => new (old.mono amends.count)

/-- Items copied one after the other: `K` says that an item is fit, and `E` that an item of one
world agrees with an item of another one. -/
theorem mapState_agree {α : Type} {f : α → World → α × World} {K : World → α → Prop}
    {E : World → World → α → α → Prop}
    (amends : ∀ a (w : World), w.Amends Nowhere Nowhere (f a w).2)
    (later : ∀ {w w' : World} {a}, w.Amends Nowhere Nowhere w' → K w a → K w' a ∧ E w w' a a)
    (trans : ∀ {w₁ w₂ w₃ a b c}, K w₁ a → E w₁ w₂ a b → E w₂ w₃ b c → E w₁ w₃ a c)
    (each : ∀ {a w}, Fresh mine w → K w a → K (f a w).2 (f a w).1 ∧ E w (f a w).2 a (f a w).1)
    (items : List α) : ∀ {w}, Fresh mine w → (∀ a ∈ items, K w a) →
      ∀ {w'}, (mapState f items w).2.Amends Nowhere Nowhere w' →
        (∀ b ∈ (mapState f items w).1, K w' b) ∧ Forall₂ (E w w') items (mapState f items w).1 := by
  induction items with
  | nil => exact fun _ _ _ _ => ⟨fun _ hb => absurd hb List.not_mem_nil, .nil⟩
  | cons a rest ih =>
    intro w fresh fit w' onward
    have fitA := fit a List.mem_cons_self
    have before := fun x hx => later (amends a w) (fit x (List.mem_cons_of_mem a hx))
    obtain ⟨fitB, agree⟩ := each fresh fitA
    obtain ⟨fitB', still⟩ := later ((World.Amends.mapState amends rest _).also onward) fitB
    obtain ⟨fits, agrees⟩ := ih (fresh.later (amends a w)) (fun x hx => (before x hx).1) onward
    constructor
    · intro b hb
      rcases List.mem_cons.mp hb with rfl | hb
      · exact fitB'
      · exact fits b hb
    · refine .cons (trans fitA agree still) (forall₂_imp_mem agrees fun x hx y _ => ?_)
      exact trans (fit x (List.mem_cons_of_mem a hx)) (before x hx).2

/-- Entries copied one after the other agree if keys and values do. -/
theorem mapState_agree_entries {copy : Value → World → Value × World} {K : World → Value → Prop}
    {E : World → World → Value → Value → Prop}
    (amends : ∀ v (w : World), w.Amends Nowhere Nowhere (copy v w).2)
    (later : ∀ {w w' : World} {v}, w.Amends Nowhere Nowhere w' → K w v → K w' v ∧ E w w' v v)
    (trans : ∀ {w₁ w₂ w₃ a b c}, K w₁ a → E w₁ w₂ a b → E w₂ w₃ b c → E w₁ w₃ a c)
    (each : ∀ {v w}, Fresh mine w → K w v → K (copy v w).2 (copy v w).1 ∧
      E w (copy v w).2 v (copy v w).1)
    (es : List (Value × Value)) (fresh : Fresh mine w) (fit : ∀ e ∈ es, K w e.1 ∧ K w e.2)
    (onward : (mapState (copyEntry copy) es w).2.Amends Nowhere Nowhere w') :
    (∀ e ∈ (mapState (copyEntry copy) es w).1, K w' e.1 ∧ K w' e.2) ∧
      Forall₂ (fun e f => E w w' e.1 f.1 ∧ E w w' e.2 f.2) es
        (mapState (copyEntry copy) es w).1 := by
  refine mapState_agree (f := copyEntry copy)
    (K := fun w (e : Value × Value) => K w e.1 ∧ K w e.2)
    (E := fun w w' e f => E w w' e.1 f.1 ∧ E w w' e.2 f.2)
    (fun e w => (amends e.1 w).also (amends e.2 _)) ?_ ?_ ?_ es fresh fit onward
  · intro w w' e onward fit
    obtain ⟨key, same⟩ := later onward fit.1
    obtain ⟨value, same'⟩ := later onward fit.2
    exact ⟨⟨key, value⟩, same, same'⟩
  · exact fun fit r q => ⟨trans fit.1 r.1 q.1, trans fit.2 r.2 q.2⟩
  · intro e w fresh fit
    have first := amends e.1 w
    have second := amends e.2 (copy e.1 w).2
    obtain ⟨key, agree⟩ := each fresh fit.1
    obtain ⟨before, same⟩ := later first fit.2
    obtain ⟨value, agree'⟩ := each (fresh.later first) before
    obtain ⟨key', still⟩ := later second key
    exact ⟨⟨key', value⟩, trans fit.1 agree still, trans fit.2 same agree'⟩

theorem copyWithin_atom {t : Datum} {s : Attributes} {l : Atom} (reads : t.atom? = some l)
    (n : Nat) : World.copyWithin n ⟨t, s⟩ w = (⟨t, s⟩, w) := by
  cases n with
  | zero => rfl
  | succ n =>
    cases t with
    | list _ | array _ | dict _ | set _ | object _ => cases reads
    | _ => rfl

/-- A way of copying that turns keys into keys that agree with them. -/
structure CopiesKeys (mine : Cell → Prop) (copy : Value → World → Value × World) : Prop where
  amends : ∀ v (w : World), w.Amends Nowhere Nowhere (copy v w).2
  restates : ∀ {v w}, Fresh mine w → Discerned mine w v →
    Restates mine w v (copy v w).2 (copy v w).1

namespace CopiesKeys

variable {copy : Value → World → Value × World} (h : CopiesKeys mine copy)

include h

theorem values {vs : List Value} (fresh : Fresh mine w) (keys : ∀ v ∈ vs, Discerned mine w v)
    (onward : (mapState copy vs w).2.Amends Nowhere Nowhere w') :
    (∀ v ∈ (mapState copy vs w).1, Discerned mine w' v) ∧
      Forall₂ (Agree w w') vs (mapState copy vs w).1 :=
  mapState_agree h.amends (fun onward key => key.later onward.shields) .trans h.restates vs fresh keys
    onward

theorem entries {es : List (Value × Value)} (fresh : Fresh mine w)
    (keys : ∀ e ∈ es, Discerned mine w e.1 ∧ Discerned mine w e.2)
    (onward : (mapState (copyEntry copy) es w).2.Amends Nowhere Nowhere w') :
    (∀ e ∈ (mapState (copyEntry copy) es w).1, Discerned mine w' e.1 ∧ Discerned mine w' e.2) ∧
      Forall₂ (EntriesAgree w w') es (mapState (copyEntry copy) es w).1 :=
  mapState_agree_entries h.amends (fun onward key => key.later onward.shields) .trans h.restates es
    fresh keys onward

end CopiesKeys

section Made

variable {s : Attributes} {x : Handle .list} {y : Handle .dict} {z : Handle .set}
  {vs : List Value} {es : List (Value × Value)} (fresh : Fresh mine w₁)

include fresh

theorem Restates.newItems
    (made : ∀ {w'}, w₁.Amends Nowhere Nowhere w' →
      (∀ v ∈ vs, Discerned mine w' v) ∧ Forall₂ (Agree w w') (w.items x) vs) :
    Restates mine w ⟨.list x, s⟩ (w₁.newItems vs).2 ⟨.list (w₁.newItems vs).1, s⟩ ∧
      Restates mine w ⟨.array x, s⟩ (w₁.newItems vs).2 ⟨.array (w₁.newItems vs).1, s⟩ := by
  have new := w₁.newItems_new vs
  have fills := w₁.fills_newItems vs
  have here := And.intro (fresh _ new) (w₁.newItems_in vs)
  have same : (w₁.newItems vs).2.items (w₁.newItems vs).1 = vs := fills.values
  obtain ⟨keys, agree⟩ := made (fills.amends (.inr new))
  have items : Forall₂ (Agree w (w₁.newItems vs).2) (w.items x)
      ((w₁.newItems vs).2.items (w₁.newItems vs).1) := by
    rw [same]
    exact agree
  have fit := fun v hv => keys v (same ▸ hv)
  exact ⟨⟨.list here fit, .list items⟩, .array here fit, .array items⟩

theorem Restates.newDict (h : Discerned mine w ⟨.dict y, s⟩)
    (made : ∀ {w'}, w₁.Amends Nowhere Nowhere w' →
      (∀ e ∈ es, Discerned mine w' e.1 ∧ Discerned mine w' e.2) ∧
        Forall₂ (EntriesAgree w w') (w.entries y) es) :
    Restates mine w ⟨.dict y, s⟩ (w₁.newEntries es).2 ⟨.dict (w₁.newEntries es).1, s⟩ := by
  have new := w₁.newEntries_new es
  have fills := w₁.fills_newEntries es
  have same : (w₁.newEntries es).2.entries (w₁.newEntries es).1 = es := entryValues_inj fills.values
  obtain ⟨fit, agree⟩ := made (fills.amends (.inr new))
  cases h with
  | atom reads => cases reads
  | dict _ keys _ apart =>
    refine ⟨.dict ⟨fresh _ new, w₁.newEntries_in es⟩ (fun e he => (fit e (same ▸ he)).1)
      (fun e he => (fit e (same ▸ he)).2) ?_, Agree.dict_iff.mpr ?_⟩
    · rw [same]
      exact pairwise_of_forall₂ agree apart fun e he f hf _ _ f' hf' r q =>
        Agree.apart (keys e he) (keys f hf) (fit f' hf').1 r.1 q.1
    · rw [same]
      exact .of_forall₂ agree

theorem Restates.newSet (h : Discerned mine w ⟨.set z, s⟩)
    (made : ∀ {w'}, w₁.Amends Nowhere Nowhere w' →
      (∀ v ∈ vs, Discerned mine w' v) ∧ Forall₂ (Agree w w') (w.elements z) vs) :
    Restates mine w ⟨.set z, s⟩ (w₁.newElements vs).2 ⟨.set (w₁.newElements vs).1, s⟩ := by
  have new := w₁.newElements_new vs
  have fills := w₁.fills_newElements vs
  have same : (w₁.newElements vs).2.elements (w₁.newElements vs).1 = vs := fills.values
  obtain ⟨fit, agree⟩ := made (fills.amends (.inr new))
  cases h with
  | atom reads => cases reads
  | set _ elements apart =>
    refine ⟨.set ⟨fresh _ new, w₁.newElements_in vs⟩ (fun v hv => fit v (same ▸ hv)) ?_,
      Agree.set_iff.mpr ?_⟩
    · rw [same]
      exact pairwise_of_forall₂ agree apart fun u hu v hv _ _ v' hv' =>
        Agree.apart (elements u hu) (elements v hv) (fit v' hv')
    · rw [same]
      exact .of_forall₂ agree

end Made

/-- A copy of a key is a key, and agrees with it. -/
theorem copyWithin_copiesKeys (mine : Cell → Prop) : ∀ n, CopiesKeys mine (World.copyWithin n)
  | 0 => ⟨World.amends_copyWithin 0, fun _ h => ⟨h, .refl h⟩⟩
  | n + 1 => by
    have ih := copyWithin_copiesKeys mine n
    refine ⟨World.amends_copyWithin (n + 1), ?_⟩
    intro v w fresh key
    have later := fun vs => fresh.later (World.Amends.mapState ih.amends vs w)
    cases id key with
    | atom reads =>
      rw [copyWithin_atom reads]
      exact ⟨.atom reads, .atom reads reads⟩
    | list _ items => exact (Restates.newItems (later _) (ih.values fresh items)).1
    | array _ items => exact (Restates.newItems (later _) (ih.values fresh items)).2
    | dict _ keys values =>
      have amends := World.Amends.mapState (f := copyEntry (World.copyWithin n))
        fun e w => (ih.amends e.1 w).also (ih.amends e.2 _)
      exact .newDict (fresh.later (amends _ w)) key
        (ih.entries fresh fun e he => ⟨keys e he, values e he⟩)
    | set _ elements => exact .newSet (later _) key (ih.values fresh elements)

theorem Discerned.duplicate (h : Discerned mine w v) (fresh : Fresh mine w) :
    Restates mine w v (w.duplicate v).2 (w.duplicate v).1 := by
  simp only [World.duplicate, duplicateBy]
  split
  · exact ⟨h, .refl h⟩
  · exact (copyWithin_copiesKeys mine _).restates fresh h

/-! ## Classes of keys -/

/-- What a key means in all worlds. -/
def KeyClass : Type := World → Value → Prop

noncomputable instance : DecidableEq KeyClass := Classical.decEq KeyClass

/-- The values of all worlds that agree with a key. -/
def World.keyClass (w : World) (v : Value) : KeyClass := fun w' v' => Agree w w' v v'

theorem Discerned.keyClass_eq_iff (ha : Discerned mine w a) (hb : Discerned mine' w' b) :
    w.keyClass a = w'.keyClass b ↔ Agree w w' a b := by
  constructor
  · intro same
    have self : w'.keyClass b w' b := .refl hb
    rwa [← same] at self
  · intro agree
    funext w₁ c
    exact propext ⟨.trans hb (.symm ha hb agree), .trans ha agree⟩

theorem Restates.keyClass_eq (h : Discerned mine w a) (restates : Restates mine' w a w' b) :
    w'.keyClass b = w.keyClass a :=
  ((h.keyClass_eq_iff restates.1).mpr restates.2).symm

/-- Keys have one class just if they are loosely equal. -/
theorem Discerned.looseEq_iff (ha : Discerned mine w a) (hb : Discerned mine' w b) :
    w.looseEq a b = true ↔ w.keyClass a = w.keyClass b :=
  (World.looseEq_iff ha hb).trans (ha.keyClass_eq_iff hb).symm

end ScopeLang
