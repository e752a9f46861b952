/-
# Spellings of a type

A written type keeps its id.  Binding it again later finds everything where it
was put before, and other spellings of it are bound to the same id: the members
of a union in another order, repeated or inside a further union, and the name of
a built-in container without its element types.

`Respelled` lists what may be changed, one place at a time.  The comparison is
made in a pool in which both spellings have been bound already.  Binding them
again there adds nothing, hence binds every part in this very pool too, and the
ids of the parts can be compared one by one; only the members of unions are
compared as sets of leaves.

A union of one member may be written as this member too, unless this is `Any`.
Whether the arguments for a parameter are checked is read off its spelling and
is a part of the function type, so it matters for a parameter whether it is
written as `Any` or as a union that comes to `Any`.
-/
import ScopeLang.Proofs.Rebinding
import ScopeLang.Proofs.Unions

namespace ScopeLang

namespace TypeExpr

/-- Two written types that differ in the spelling of unions and of bare containers only. -/
inductive Respelled (alias? : String → Option SigId) : TypeExpr → TypeExpr → Prop
  | refl (t : TypeExpr) : Respelled alias? t t
  | symm {t u : TypeExpr} (h : Respelled alias? t u) : Respelled alias? u t
  | trans {t u v : TypeExpr} (h : Respelled alias? t u) (i : Respelled alias? u v) :
      Respelled alias? t v
  /-- The members in another order, or another number of times. -/
  | members {ts us : List TypeExpr} (same : ∀ t, t ∈ ts ↔ t ∈ us) :
      Respelled alias? (union ts) (union us)
  /-- The members of a union in the place of this union. -/
  | nested (before inner after : List TypeExpr) :
      Respelled alias? (union (before ++ union inner :: after)) (union (before ++ inner ++ after))
  /-- The only member of a union in the place of this union. -/
  | single {t : TypeExpr} (other : t.isAny = false) : Respelled alias? (union [t]) t
  /-- The name of a container, unless it is an alias, for the container of anything. -/
  | bare {c : Primitive} {arguments : List TypeExpr} (unaliased : alias? c.name = none)
      (arity : c.arity? = some arguments.length) (unspecific : ∀ t ∈ arguments, t.isAny = true) :
      Respelled alias? (named c.name []) (named c.name arguments)
  | argument (name : String) (before after : List TypeExpr) {t u : TypeExpr}
      (h : Respelled alias? t u) :
      Respelled alias? (named name (before ++ t :: after)) (named name (before ++ u :: after))
  | member (before after : List TypeExpr) {t u : TypeExpr} (h : Respelled alias? t u) :
      Respelled alias? (union (before ++ t :: after)) (union (before ++ u :: after))
  | parameter (before after : List TypeExpr) {t u : TypeExpr} (returns : TypeExpr)
      (variadic : Bool) (h : Respelled alias? t u) :
      Respelled alias? (invocable (before ++ t :: after) returns variadic)
        (invocable (before ++ u :: after) returns variadic)
  | result (parameters : List TypeExpr) {t u : TypeExpr} (variadic : Bool)
      (h : Respelled alias? t u) :
      Respelled alias? (invocable parameters t variadic) (invocable parameters u variadic)

end TypeExpr

namespace TypePool

variable {p q r : TypePool} {s : SigId} {x : Signature} {ids : List SigId}

theorem Grows.antisymm (h : p.Grows q) (i : q.Grows p) : p = q := by
  obtain ⟨⟨names⟩, signatures⟩ := p
  obtain ⟨⟨names'⟩, signatures'⟩ := q
  have sameNames : names = names' :=
    h.names.eq_of_length (Nat.le_antisymm h.names.length_le i.names.length_le)
  have sameSignatures : signatures = signatures' :=
    h.signatures.eq_of_length (Nat.le_antisymm h.signatures.length_le i.signatures.length_le)
  rw [sameNames, sameSignatures]

/-- A built-in type has its id in every pool. -/
theorem declare_builtin (g : initial.Grows p) (c : Primitive) : p.declare c.name = (c.id, p) := by
  have first : initial.declare c.name = (c.id, initial) := by cases c <;> rfl
  have kept : (initial.declare c.name).2.Grows p := by rwa [first]
  rw [declare_again kept, first]

/-! ## Unions of ids -/

theorem Regular.union_any (h : p.Regular) (held : ∀ s ∈ ids, p.Holds s) (mem : .any ∈ ids) :
    (p.union ids).1 = .any := by
  have interns := h.intern (a := .union ids) ⟨held, nofun⟩
  obtain ⟨x, normal, found⟩ := interns.normal
  obtain ⟨t, leaf, any⟩ := h.absorbs_iff.mpr ⟨.any, mem, h.any⟩
  obtain rfl := normal.unique (.absorbed leaf any)
  exact interns.regular.get?_inj found interns.regular.any

theorem Regular.normal_single (h : p.Regular) (found : p.get? s = some x) :
    p.NormalForm (.union [s]) x := by
  have leaves : ∀ u, p.Leaves [s] u ↔ p.Leaf s u := fun u => by simp [Leaves]
  by_cases isUnion : x.IsUnion
  · obtain ⟨members, rfl⟩ := isUnion
    obtain ⟨order, several, proper⟩ := h.tidy found members rfl
    have inside : ∀ u, p.Leaves [s] u ↔ u ∈ members := fun u => by
      rw [leaves, h.leaf_iff, flatten, found]
    refine .sorted inside order several fun u mem any => ?_
    obtain ⟨y, found', known, -⟩ := proper u mem
    exact known (Option.some.inj (found'.symm.trans any))
  · have plain : ∀ members, p.get? s ≠ some (.union members) := fun members eq =>
      isUnion ⟨members, Option.some.inj (found.symm.trans eq)⟩
    have only : ∀ u, p.Leaves [s] u ↔ u = s := fun u => (leaves u).trans (leaf_of_plain plain)
    by_cases any : x = .any
    · subst any
      exact .absorbed ((only s).mpr rfl) found
    · exact .collapsed only found any

theorem Regular.union_single (h : p.Regular) (held : p.Holds s) : (p.union [s]).1 = s := by
  have interns := h.intern (a := .union [s]) ⟨List.forall_mem_singleton.mpr held, nofun⟩
  obtain ⟨x, found⟩ := held
  obtain ⟨y, normal, found'⟩ := interns.normal
  obtain rfl := normal.unique (h.normal_single found)
  exact interns.regular.get?_inj found' ((p.grows_intern _).get? found)

end TypePool

namespace TypeExpr

open TypePool

variable {alias? : String → Option SigId} {p r : TypePool} {t u : TypeExpr} {ts us : List TypeExpr}

/-! ## Pools in which a type has been bound -/

/-- The id that a written type is bound to. -/
def idIn (alias? : String → Option SigId) (r : TypePool) (t : TypeExpr) : SigId :=
  (t.bind alias? r).1

/-- Binding the type adds nothing to the pool. -/
def Settled (alias? : String → Option SigId) (r : TypePool) (t : TypeExpr) : Prop :=
  (t.bind alias? r).2 = r

theorem Settled.bind_eq (h : t.Settled alias? r) : t.bind alias? r = (t.idIn alias? r, r) :=
  Prod.ext rfl h

theorem settled_of_bind_eq {s : SigId} (h : t.bind alias? r = (s, r)) : t.Settled alias? r := by
  rw [Settled, h]

theorem idIn_of_bind_eq {s : SigId} (h : t.bind alias? r = (s, r)) : t.idIn alias? r = s := by
  rw [idIn, h]

/-- Where binding several types adds nothing, it binds each of them in this pool. -/
theorem bindAll_settled (h : (bindAll alias? ts r).2 = r) :
    (∀ t ∈ ts, t.Settled alias? r) ∧ (bindAll alias? ts r).1 = ts.map (idIn alias? r) := by
  induction ts with
  | nil => exact ⟨nofun, by simp [bindAll]⟩
  | cons t rest ih =>
    simp only [bindAll] at h ⊢
    have first : t.Settled alias? r := by
      have back := grows_bindAll alias? rest (t.bind alias? r).2
      rw [h] at back
      exact back.antisymm (t.grows_bind alias? r)
    rw [first.bind_eq] at h ⊢
    obtain ⟨settled, ids⟩ := ih h
    exact ⟨List.forall_mem_cons.mpr ⟨first, settled⟩, congrArg _ ids⟩

/-- Where binding a union adds nothing, it makes the union of its members' ids. -/
theorem Settled.union (h : (TypeExpr.union ts).Settled alias? r) :
    (∀ t ∈ ts, t.Settled alias? r) ∧
      (TypeExpr.union ts).bind alias? r = r.union (ts.map (idIn alias? r)) := by
  simp only [Settled, bind] at h ⊢
  have members : (bindAll alias? ts r).2 = r := by
    have back := grows_intern (bindAll alias? ts r).2 (.union (bindAll alias? ts r).1)
    rw [show ((bindAll alias? ts r).2.intern (.union (bindAll alias? ts r).1)).2 = r from h] at back
    exact back.antisymm (grows_bindAll alias? ts r)
  obtain ⟨settled, ids⟩ := bindAll_settled members
  exact ⟨settled, by rw [ids, members]⟩

/-- Where binding a type with arguments adds nothing, its arguments can be read off one by one. -/
theorem Settled.arguments {name : String} (isName : (name == "Any") = false) (some : ts ≠ [])
    (h : (named name ts).Settled alias? r) :
    (∀ t ∈ ts, t.Settled alias? r) ∧
      (named name ts).bind alias? r = r.container (r.declare name).1 (ts.map (idIn alias? r)) := by
  obtain ⟨t, rest, rfl⟩ := List.exists_cons_of_ne_nil some
  have unfolded : (named name (t :: rest)).bind alias? r =
      (bindAll alias? (t :: rest) (r.declare name).2).2.container (r.declare name).1
        (bindAll alias? (t :: rest) (r.declare name).2).1 := by
    rw [bind.eq_def]
    simp only [isName, Bool.false_eq_true, if_false]
  rw [Settled, unfolded] at h
  rw [unfolded]
  have bound : (bindAll alias? (t :: rest) (r.declare name).2).2.Grows r := by
    have back := grows_intern (bindAll alias? (t :: rest) (r.declare name).2).2
      (.container (r.declare name).1 (bindAll alias? (t :: rest) (r.declare name).2).1)
    exact (congrArg (TypePool.Grows _) h).mp back
  have declared : (r.declare name).2 = r :=
    ((grows_bindAll alias? (t :: rest) _).trans bound).antisymm (r.grows_declare name)
  rw [declared] at bound ⊢
  have all := bound.antisymm (grows_bindAll alias? (t :: rest) r)
  obtain ⟨settled, ids⟩ := bindAll_settled all
  exact ⟨settled, by rw [ids, all]⟩

/-- Where binding a function type adds nothing, so does binding its parameters and its result. -/
theorem Settled.invocable {variadic : Bool} (h : (TypeExpr.invocable ts t variadic).Settled alias? r) :
    (∀ t ∈ ts, t.Settled alias? r) ∧ t.Settled alias? r ∧
      (TypeExpr.invocable ts t variadic).bind alias? r =
        r.invocable ⟨ts.map (idIn alias? r), ts.map (!·.isAny), t.idIn alias? r, variadic⟩ := by
  simp only [Settled, bind] at h ⊢
  have result : (t.bind alias? (bindAll alias? ts r).2).2.Grows r := by
    have back := grows_intern (t.bind alias? (bindAll alias? ts r).2).2
      (.invocable ⟨(bindAll alias? ts r).1, ts.map (!·.isAny),
        (t.bind alias? (bindAll alias? ts r).2).1, variadic⟩)
    exact (congrArg (TypePool.Grows _) h).mp back
  have parameters : (bindAll alias? ts r).2 = r :=
    ((t.grows_bind alias? _).trans result).antisymm (grows_bindAll alias? ts r)
  rw [parameters] at result ⊢
  have returns : t.Settled alias? r := result.antisymm (t.grows_bind alias? r)
  obtain ⟨settled, ids⟩ := bindAll_settled parameters
  exact ⟨settled, returns, by rw [ids, returns.bind_eq]⟩

/-- What is written as `Any` is bound to it. -/
theorem bind_isAny (h : t.isAny = true) : t.bind alias? p = (.any, p) := by
  cases t with
  | any => rw [bind]
  | named name arguments =>
    simp only [isAny, Bool.and_eq_true] at h
    rw [bind.eq_def]
    simp only [h.1, if_true]
  | union | invocable => cases h

theorem bindAll_isAny (h : ∀ t ∈ ts, t.isAny = true) :
    bindAll alias? ts p = (List.replicate ts.length .any, p) := by
  induction ts with
  | nil => rw [bindAll]; rfl
  | cons t rest ih =>
    obtain ⟨first, others⟩ := List.forall_mem_cons.mp h
    rw [bindAll, bind_isAny first]
    simp only [ih others]
    rfl

/-! ## Respelling -/

theorem holds_idIn (h : r.Backs alias?) (settled : ∀ t ∈ ts, t.Settled alias? r) :
    ∀ s ∈ ts.map (idIn alias? r), r.Holds s := by
  intro s mem
  obtain ⟨t, part, rfl⟩ := List.mem_map.mp mem
  have held := (t.extends_bind h.regular h.held).2
  rw [settled t part] at held
  exact held

/-- Unions of the same leaves, both of which have been bound, have one id. -/
theorem union_idIn_eq (h : r.Backs alias?) (ofTs : (union ts).Settled alias? r)
    (ofUs : (union us).Settled alias? r)
    (same : ∀ s, r.Leaves (us.map (idIn alias? r)) s ↔ r.Leaves (ts.map (idIn alias? r)) s) :
    (union us).idIn alias? r = (union ts).idIn alias? r := by
  obtain ⟨settled, made⟩ := ofTs.union
  obtain ⟨settled', made'⟩ := ofUs.union
  rw [idIn, idIn, made, made']
  have stays : (r.union (ts.map (idIn alias? r))).2.Grows r := by
    rw [← made, ofTs]
    exact .refl r
  exact h.regular.union_again (holds_idIn h settled) h.regular stays (holds_idIn h settled') same

/-- Opening a union among the members changes nothing. -/
theorem nested_idIn_eq (h : r.Backs alias?) {before inner after : List TypeExpr}
    (outer : (union (before ++ union inner :: after)).Settled alias? r)
    (flat : (union (before ++ inner ++ after)).Settled alias? r) :
    (union (before ++ union inner :: after)).idIn alias? r =
      (union (before ++ inner ++ after)).idIn alias? r := by
  obtain ⟨settled, made⟩ := outer.union
  obtain ⟨settled', made'⟩ := flat.union
  have opened : (union inner).Settled alias? r := settled _ (by simp)
  obtain ⟨settledInner, madeInner⟩ := opened.union
  have held := holds_idIn h settledInner
  by_cases any : .any ∈ inner.map (idIn alias? r)
  · -- `Any` inside absorbs the inner union, and then the outer one
    have innerAny : (union inner).idIn alias? r = .any := by
      rw [idIn, madeInner]
      exact h.regular.union_any held any
    rw [idIn, idIn, made, made']
    rw [h.regular.union_any (holds_idIn h settled) (by simp [innerAny]),
      h.regular.union_any (holds_idIn h settled') (by simp only [List.map_append, List.mem_append]; tauto)]
  · have leaf : ∀ s, r.Leaf ((union inner).idIn alias? r) s ↔
        r.Leaves (inner.map (idIn alias? r)) s := fun s => by
      have leaf := h.regular.leaf_union (t := s) held any
      rw [← madeInner, opened] at leaf
      exact leaf
    refine (union_idIn_eq h outer flat fun s => ?_).symm
    simp only [Leaves, List.map_append, List.map_cons, List.mem_append, List.mem_cons, or_and_right,
      exists_or, exists_eq_left, leaf, or_assoc]

/-- A bare container is bound as the container of anything. -/
theorem bare_bind_eq (h : r.Backs alias?) {c : Primitive} {arguments : List TypeExpr}
    (unaliased : alias? c.name = none) (arity : c.arity? = some arguments.length)
    (unspecific : ∀ t ∈ arguments, t.isAny = true) :
    (named c.name []).bind alias? r = (named c.name arguments).bind alias? r := by
  have isName : (c.name == "Any") = false := by cases c <;> rfl
  have declared := declare_builtin h.builtin c
  obtain ⟨t, rest, rfl⟩ : ∃ t rest, arguments = t :: rest :=
    List.exists_cons_of_ne_nil fun none => by
      subst none
      cases c <;> cases arity
  have withArguments : (named c.name (t :: rest)).bind alias? r =
      r.container c.id (List.replicate (t :: rest).length .any) := by
    rw [bind.eq_def]
    simp only [isName, Bool.false_eq_true, if_false, declared, bindAll_isAny unspecific]
  have asName : (named c.name []).bind alias? r = r.bare c.id := by
    rw [bind.eq_def]
    simp only [isName, Bool.false_eq_true, if_false, unaliased, declared]
  rw [asName, withArguments, bare, Primitive.ofId?_id, Option.bind_some, arity]

/-- What is written as `Any` is not respelled. -/
theorem Respelled.isAny_eq (h : Respelled alias? t u) : t.isAny = u.isAny := by
  induction h with
  | refl => rfl
  | symm _ ih => exact ih.symm
  | trans _ _ ih ih' => exact ih.trans ih'
  | members | nested | member | parameter | result => rfl
  | single other => exact other.symm
  | @bare c =>
    have isName : (c.name == "Any") = false := by cases c <;> rfl
    simp only [isAny, isName, Bool.false_and]
  | argument name before after => cases before <;> rfl

/-- What is settled stays so, under its id, when another type is bound. -/
theorem Settled.after (h : t.Settled alias? r) (backs : r.Backs alias?) (u : TypeExpr) :
    t.Settled alias? (u.bind alias? r).2 ∧
      t.idIn alias? (u.bind alias? r).2 = t.idIn alias? r := by
  have again : t.bind alias? (u.bind alias? r).2 = (t.idIn alias? r, (u.bind alias? r).2) :=
    backs.bind_again (fun _ _ => rfl) (by rw [h]; exact u.grows_bind alias? r)
  exact ⟨settled_of_bind_eq again, idIn_of_bind_eq again⟩

/-- Spellings of one type have one id wherever both have been bound. -/
theorem Respelled.idIn_eq (h : Respelled alias? t u) : ∀ {r : TypePool}, r.Backs alias? →
    t.Settled alias? r → u.Settled alias? r → t.idIn alias? r = u.idIn alias? r := by
  induction h with
  | refl => exact fun _ _ _ => rfl
  | symm _ ih => exact fun backs ofT ofU => (ih backs ofU ofT).symm
  | @trans t u v _ _ ih ih' =>
    intro r backs ofT ofV
    -- the spelling in the middle may be new to the pool, so it is bound first
    have later := backs.bind u
    have middle : u.Settled alias? (u.bind alias? r).2 :=
      settled_of_bind_eq (backs.bind_again (fun _ _ => rfl) (.refl _))
    obtain ⟨ofT', sameT⟩ := ofT.after backs u
    obtain ⟨ofV', sameV⟩ := ofV.after backs u
    calc t.idIn alias? r = t.idIn alias? (u.bind alias? r).2 := sameT.symm
      _ = u.idIn alias? (u.bind alias? r).2 := ih later ofT' middle
      _ = v.idIn alias? (u.bind alias? r).2 := ih' later middle ofV'
      _ = v.idIn alias? r := sameV
  | members same =>
    intro r backs ofTs ofUs
    refine (union_idIn_eq backs ofTs ofUs fun s => ?_).symm
    simp only [Leaves, List.mem_map, ← same]
  | nested before inner after => exact fun backs outer flat => nested_idIn_eq backs outer flat
  | single =>
    intro r backs ofUnion ofT
    obtain ⟨-, made⟩ := ofUnion.union
    rw [idIn, made]
    exact backs.regular.union_single
      (holds_idIn backs (List.forall_mem_singleton.mpr ofT) _ List.mem_cons_self)
  | bare unaliased arity unspecific =>
    intro r backs _ _
    exact congrArg Prod.fst (bare_bind_eq backs unaliased arity unspecific)
  | argument name before after _ ih =>
    intro r backs ofT ofU
    cases isName : name == "Any" with
    | true =>
      rw [idIn, idIn, bind.eq_def, bind.eq_def]
      simp only [isName, if_true]
    | false =>
      obtain ⟨settled, made⟩ := ofT.arguments isName (by simp)
      obtain ⟨settled', made'⟩ := ofU.arguments isName (by simp)
      have same := ih backs (settled _ (by simp)) (settled' _ (by simp))
      rw [idIn, idIn, made, made', List.map_append, List.map_append, List.map_cons, List.map_cons,
        same]
  | member before after _ ih =>
    intro r backs ofT ofU
    obtain ⟨settled, made⟩ := ofT.union
    obtain ⟨settled', made'⟩ := ofU.union
    have same := ih backs (settled _ (by simp)) (settled' _ (by simp))
    rw [idIn, idIn, made, made', List.map_append, List.map_append, List.map_cons, List.map_cons,
      same]
  | parameter before after returns variadic respelled ih =>
    intro r backs ofT ofU
    obtain ⟨settled, -, made⟩ := ofT.invocable
    obtain ⟨settled', -, made'⟩ := ofU.invocable
    have same := ih backs (settled _ (by simp)) (settled' _ (by simp))
    rw [idIn, idIn, made, made']
    simp only [List.map_append, List.map_cons, same, respelled.isAny_eq]
  | result parameters variadic _ ih =>
    intro r backs ofT ofU
    obtain ⟨-, settled, made⟩ := ofT.invocable
    obtain ⟨-, settled', made'⟩ := ofU.invocable
    rw [idIn, idIn, made, made', ih backs settled settled']

/-- Once a written type has been bound, binding it again, however much later, gives the same id and
leaves the pool as it is, and other spellings of it are bound to this id too. -/
theorem bind_stable (history : initial.Reaches p)
    (held : ∀ name s, alias? name = some s → p.Holds s) (t : TypeExpr) :
    ∀ {r : TypePool}, (t.bind alias? p).2.Reaches r →
      t.bind alias? r = ((t.bind alias? p).1, r) ∧
      ∀ {u : TypeExpr}, Respelled alias? t u → (u.bind alias? r).1 = (t.bind alias? p).1 := by
  intro r later
  have backs := history.backs held
  have rest := later.extends (backs.bind t).regular
  have backsLater : r.Backs alias? := (backs.bind t).later rest
  refine ⟨backs.bind_again (fun _ _ => rfl) rest.grows, fun {u} respelled => ?_⟩
  -- both are compared in the pool that has bound `u` as well
  have ofT := backs.bind_again (fun _ _ => rfl) (rest.grows.trans (u.grows_bind alias? r))
  have ofU := backsLater.bind_again (fun _ _ => rfl) (.refl (u.bind alias? r).2)
  have same := respelled.idIn_eq (backsLater.bind u) (settled_of_bind_eq ofT)
    (settled_of_bind_eq ofU)
  rw [idIn_of_bind_eq ofT, idIn_of_bind_eq ofU] at same
  exact same.symm

/-- A function type with a union and a bare list in it, bound again after `Bool`, and spelled with a
repeated member, a union in the union and `List[Any]`. -/
theorem bind_stable_respelled :
    let alias? : String → Option SigId := fun name => if name = "Key" then some ⟨2⟩ else none
    let key := named "Key" []
    let string := named "String" []
    let t := invocable [union [key, string]] (named "List" []) false
    let u := invocable [union [string, union [key, string]]] (named "List" [any]) false
    let p := (initial.nominal Primitive.int.id).2
    let r := ((t.bind alias? p).2.nominal Primitive.bool.id).2
    (t.bind alias? p).1 = ⟨6⟩ ∧ t.bind alias? r = (⟨6⟩, r) ∧ (u.bind alias? r).1 = ⟨6⟩ := by
  intro alias? key string t u p r
  have history : initial.Reaches p := .returns .refl (.nominal ⟨"Int", rfl⟩)
  have held : ∀ name s, alias? name = some s → p.Holds s := by
    intro name s eq
    simp only [alias?, Option.ite_none_right_eq_some, Option.some.injEq] at eq
    exact eq.2 ▸ ⟨_, rfl⟩
  have later : (t.bind alias? p).2.Reaches r := .returns .refl (.nominal ⟨"Bool", rfl⟩)
  have parameter : Respelled alias? (union [key, string]) (union [string, union [key, string]]) :=
    .symm ((Respelled.nested [string] [key, string] []).trans (.members fun t => by simp; tauto))
  have result : Respelled alias? (named "List" []) (named "List" [any]) :=
    Respelled.bare (c := .list) rfl rfl (List.forall_mem_singleton.mpr rfl)
  have respelled : Respelled alias? t u :=
    (Respelled.parameter [] [] _ false parameter).trans (.result _ false result)
  have id : (t.bind alias? p).1 = ⟨6⟩ := by decide +kernel
  obtain ⟨again, same⟩ := bind_stable history held t later
  rw [id] at again same
  exact ⟨id, again, same respelled⟩

end TypeExpr

end ScopeLang
