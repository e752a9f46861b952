/-
# Lists of children

A scope keeps the scopes that it lists as children, so a ring of lists is never
released.  A scope remembers one owner, the one that listed it last, and an
append looks for a ring along these links only.  The links tell the truth about
the lists while no scope is listed twice: then the lists form a forest, every
ring would run through the links, and the append that would close it is refused.
A scope that is appended while another one still lists it breaks this.  Its link
forgets the first list, and a ring through that list goes unnoticed.
-/
import Mathlib.Data.List.Nodup
import Mathlib.Data.List.Perm.Subperm
import Mathlib.Logic.Relation
import ScopeLang.Proofs.Actions
import ScopeLang.Proofs.Alive

namespace ScopeLang

open Relation

variable {w w' : World} {s t c : ScopeId}

namespace World

/-- One scope lists the other as a child. -/
def Lists (w : World) (s c : ScopeId) : Prop := c ∈ (w.scope s).children

/-- The second scope is reached from the first one along lists of children. -/
def Above (w : World) : ScopeId → ScopeId → Prop := TransGen w.Lists

/-- A root that is held from outside, and nothing else. -/
def planted (options : MatchOptions) : World :=
  let (root, w) := World.empty.newRoot options
  w.hold [root.cell]

end World

theorem Action.runIn_appendChild (w : World) (s child : ScopeId) :
    (Action.appendChild s child).runIn w =
      if (w.ownerChain s).contains child then (.error (.scopeCycle (w.scope child).label), w)
      else (.ok (), w.addChild s child) := by
  rw [Action.appendChild, runIn_look_bind]
  split
  · rfl
  · rfl

/-! ## A ring -/

namespace Ring

/-- A root with two children, of which the first has a child of its own. -/
def family : World :=
  let w := ((World.planted {}).createChild ⟨0⟩ .block "first").2
  let w := (w.createChild ⟨0⟩ .block "second").2
  (w.createChild ⟨1⟩ .block "grandchild").2

/-- The family after the grandchild has been appended to the second child as well. -/
def shared : World := ((Action.appendChild ⟨2⟩ ⟨3⟩).runIn family).2

end Ring

/-- Three scopes below a root, one of them listed by two others: appending one of
the two to the shared one is accepted, and closes a ring. -/
theorem append_closes_ring :
    ((Action.appendChild ⟨2⟩ ⟨3⟩).runIn Ring.family).1.isOk = true ∧
      ((Action.appendChild ⟨3⟩ ⟨1⟩).runIn Ring.shared).1.isOk = true ∧
      ((Action.appendChild ⟨3⟩ ⟨1⟩).runIn Ring.shared).2.Above ⟨1⟩ ⟨1⟩ := by
  refine ⟨by decide +kernel, by decide +kernel, ?_⟩
  have down : ((Action.appendChild ⟨3⟩ ⟨1⟩).runIn Ring.shared).2.Lists ⟨1⟩ ⟨3⟩ := by
    unfold World.Lists
    decide +kernel
  have up : ((Action.appendChild ⟨3⟩ ⟨1⟩).runIn Ring.shared).2.Lists ⟨3⟩ ⟨1⟩ := by
    unfold World.Lists
    decide +kernel
  exact .tail (.single down) up

/-! ## Aliveness along lists -/

namespace World

theorem Lists.in_count (h : w.Lists s c) : s.In w.count := by
  by_contra new
  rw [Lists, scope_default new] at h
  exact absurd h List.not_mem_nil

/-- What a scope lists is alive if the scope is. -/
theorem Lists.alive (h : w.Lists s c) (up : w.alive s.cell = true) : w.alive c.cell = true := by
  have owned : c.cell ∈ w.owned s.cell := by
    simp only [owned, Handle.cell, Scope.cells, List.mem_append]
    exact .inl (.inl (.inl (.inl (List.mem_map_of_mem h))))
  have owner : s.cell ∈ w.owners := owner_of_owned h.in_count owned
  exact ((anchored_of_alive owner up).owned h.in_count owned).alive

end World

/-! ## Forests -/

/-- Scopes that are distinct are no more than their indices leave room for. -/
theorem length_le_of_index_lt {n : Nat} {l : List ScopeId} (distinct : l.Nodup)
    (inside : ∀ s ∈ l, s.index < n) : l.length ≤ n := by
  have indices : (l.map Handle.index).Nodup :=
    distinct.map fun a b eq => by
      cases a
      cases b
      exact congrArg Handle.mk eq
  have within : l.map Handle.index ⊆ List.range n := fun i mem => by
    obtain ⟨s, hs, rfl⟩ := List.mem_map.mp mem
    exact List.mem_range.mpr (inside s hs)
  simpa using (List.subperm_of_subset indices within).length_le

namespace World

/-- The lists of children form a forest, in which every scope knows the one that
lists it. -/
structure Forest (w : World) : Prop where
  owner : ∀ {s c}, w.Lists s c → (w.scope c).owner = some s
  there : ∀ {s c}, w.Lists s c → c.In w.count
  once : ∀ s, (w.scope s).children.Nodup
  acyclic : ∀ s, ¬ w.Above s s

/-- The scopes passed on the way up from `s` to `a`. -/
inductive Ascent (w : World) (a : ScopeId) : ScopeId → List ScopeId → Prop
  | here : Ascent w a a []
  | up {t s : ScopeId} {l : List ScopeId} (listed : w.Lists t s) (rest : Ascent w a t l) :
      Ascent w a s (s :: l)

namespace Ascent

variable {a : ScopeId} {l : List ScopeId}

theorem of_lists (h : ReflTransGen w.Lists a s) : ∃ l, w.Ascent a s l := by
  induction h with
  | refl => exact ⟨[], .here⟩
  | tail _ listed ih =>
    obtain ⟨l, rest⟩ := ih
    exact ⟨_, .up listed rest⟩

theorem alive (h : w.Ascent a s l) (top : w.alive a.cell = true) : w.alive s.cell = true := by
  induction h with
  | here => exact top
  | up listed _ ih => exact listed.alive ih

theorem above_or_eq (h : w.Ascent a s l) (mem : t ∈ l) : t = s ∨ w.Above t s := by
  induction h with
  | here => exact absurd mem List.not_mem_nil
  | up listed _ ih =>
    rcases List.mem_cons.mp mem with rfl | mem
    · exact .inl rfl
    · rcases ih mem with rfl | above
      · exact .inr (.single listed)
      · exact .inr (above.tail listed)

theorem nodup (forest : w.Forest) (h : w.Ascent a s l) : l.Nodup := by
  induction h with
  | here => exact List.nodup_nil
  | up listed rest ih =>
    refine List.nodup_cons.mpr ⟨fun mem => ?_, ih⟩
    rcases rest.above_or_eq mem with rfl | above
    · exact forest.acyclic _ (.single listed)
    · exact forest.acyclic _ (above.tail listed)

theorem there (forest : w.Forest) (h : w.Ascent a s l) : ∀ t ∈ l, t.In w.count := by
  induction h with
  | here => exact nofun
  | up listed _ ih => exact List.forall_mem_cons.mpr ⟨forest.there listed, ih⟩

theorem length_le (forest : w.Forest) (h : w.Ascent a s l) : l.length ≤ w.scopes.size :=
  length_le_of_index_lt (h.nodup forest) (h.there forest)

/-- The owners that a search passes are the scopes of the ascent. -/
theorem mem_follow (forest : w.Forest) (h : w.Ascent a s l) (top : w.alive a.cell = true) :
    ∀ {n : Nat}, l.length ≤ n → a ∈ follow w.owner? n s := by
  induction h with
  | here =>
    intro n _
    unfold follow
    split
    · exact List.mem_singleton_self a
    · split <;> exact List.mem_cons_self
  | @up t s l listed rest ih =>
    intro n le
    obtain ⟨n, rfl⟩ : ∃ m, n = m + 1 := ⟨n - 1, by simp at le; omega⟩
    have next : w.owner? s = some t := by
      rw [World.owner?, forest.owner listed, Option.bind_some, upgrade, if_pos (rest.alive top)]
    rw [follow, next]
    exact List.mem_cons_of_mem _ (ih (by simpa using le))

end Ascent

/-- In a forest an append along the way up is refused. -/
theorem Forest.ownerChain_contains (forest : w.Forest) {a : ScopeId}
    (top : w.alive a.cell = true) (way : ReflTransGen w.Lists a s) :
    (w.ownerChain s).contains a = true := by
  obtain ⟨l, ascent⟩ := Ascent.of_lists way
  exact List.contains_iff_mem.mpr (ascent.mem_follow forest top (ascent.length_le forest))

/-! ## What the calls do to a forest -/

theorem scope_addChild (w : World) (s child t : ScopeId) (ts : s.In w.count) :
    ((w.addChild s child).scope t).children =
      (if t = s then (w.scope s).children ++ [child] else (w.scope t).children) ∧
    ((w.addChild s child).scope t).owner =
      if t = child ∧ child.In w.count then some s else (w.scope t).owner := by
  simp only [addChild, scope_setScope, count_setScope]
  grind

theorem Forest.addChild (forest : w.Forest) {child : ScopeId} (ts : s.In w.count)
    (tc : child.In w.count) (unlisted : ∀ t, ¬ w.Lists t child)
    (noWayBack : ¬ ReflTransGen w.Lists child s) : (w.addChild s child).Forest := by
  have edge : ∀ a b, (w.addChild s child).Lists a b → w.Lists a b ∨ a = s ∧ b = child := by
    intro a b listed
    rw [Lists, (w.scope_addChild s child a ts).1] at listed
    split at listed
    · rename_i eq
      subst eq
      exact (List.mem_append.mp listed).imp_right fun last => ⟨rfl, List.mem_singleton.mp last⟩
    · exact .inl listed
  refine ⟨fun {a b} listed => ?_, fun {a b} listed => ?_, fun a => ?_,
    acyclic_of_edges (Y := (· = child)) edge forest.acyclic fun _ same => same ▸ noWayBack⟩
  · rw [(w.scope_addChild s child b ts).2]
    rcases edge a b listed with old | ⟨rfl, rfl⟩
    · have other : b ≠ child := fun same => unlisted a (same ▸ old)
      rw [if_neg fun both => other both.1]
      exact forest.owner old
    · exact if_pos ⟨rfl, tc⟩
  · rw [count_addChild]
    rcases edge a b listed with old | ⟨rfl, rfl⟩
    · exact forest.there old
    · exact tc
  · rw [(w.scope_addChild s child a ts).1]
    split
    · exact List.nodup_append.mpr ⟨forest.once s, List.nodup_singleton child, fun b old d last =>
        List.mem_singleton.mp last ▸ fun eq => unlisted s (eq ▸ old)⟩
    · exact forest.once a

/-- A new scope that lists nothing changes no list. -/
theorem lists_newScope {x : Scope} (empty : x.children = []) :
    (w.newScope x).2.Lists s c ↔ w.Lists s c := by
  rw [Lists, Lists, scope_newScope]
  split
  · rename_i new
    have old : w.scope s = default := scope_default fun h => Census.ne_next h new
    rw [empty, old]
    exact Iff.rfl
  · rfl

theorem Forest.newScope (forest : w.Forest) {x : Scope} (empty : x.children = []) :
    (w.newScope x).2.Forest := by
  have same : (w.newScope x).2.Lists = w.Lists :=
    funext fun a => funext fun b => propext (lists_newScope empty)
  refine ⟨fun {a b} listed => ?_, fun {a b} listed => ?_, fun a => ?_, fun a => ?_⟩
  · rw [same] at listed
    rw [scope_newScope, if_neg (Census.ne_next (forest.there listed))]
    exact forest.owner listed
  · rw [same] at listed
    rw [count_newScope]
    exact (forest.there listed).mono (Census.le_grow _ _)
  · rw [scope_newScope]
    split
    · exact empty ▸ List.nodup_nil
    · exact forest.once a
  · rw [Above, same]
    exact forest.acyclic a

theorem Forest.createChild (forest : w.Forest) (ts : s.In w.count) (kind : ScopeKind)
    (label : String) : (w.createChild s kind label).2.Forest := by
  have empty : ((w.scope s).derived s kind label (some s)).children = [] := rfl
  have grown := forest.newScope empty
  have new : ∀ t, ¬ w.Lists t ⟨w.count .scope⟩ := fun t listed =>
    Census.not_in_next _ _ (forest.there listed)
  refine grown.addChild (ts.mono (w.count_newScope _ ▸ Census.le_grow _ _)) (w.newScope_in _)
    (fun t listed => new t ((lists_newScope empty).mp listed)) fun way => ?_
  -- the new scope lists nothing, so that no way leads from it to an old one
  rcases way.cases_head with eq | ⟨t, listed, -⟩
  · exact Census.ne_next ts (congrArg Handle.index eq).symm
  · exact Census.not_in_next w.count .scope ((lists_newScope empty).mp listed).in_count

theorem scope_removeChild (w : World) {s child : ScopeId} (listed : w.Lists s child)
    (tc : child.In w.count) (t : ScopeId) :
    ((w.removeChild s child).scope t).children =
      (if t = s then (w.scope s).children.erase child else (w.scope t).children) ∧
    ((w.removeChild s child).scope t).owner =
      if t = child then none else (w.scope t).owner := by
  have ts := listed.in_count
  simp only [removeChild, List.contains_iff_mem.mpr listed, if_true, scope_setScope,
    count_setScope]
  grind

theorem Forest.removeChild (forest : w.Forest) (s child : ScopeId) :
    (w.removeChild s child).Forest := by
  by_cases listed : w.Lists s child
  · have after := w.scope_removeChild listed (forest.there listed)
    have fewer : ∀ {a b}, (w.removeChild s child).Lists a b → w.Lists a b ∧ b ≠ child := by
      intro a b remains
      rw [Lists, (after a).1] at remains
      split at remains
      · rename_i eq
        rw [(forest.once s).mem_erase_iff] at remains
        exact ⟨eq ▸ remains.2, remains.1⟩
      · -- the removed child was listed nowhere else, since it has one owner
        rename_i other
        refine ⟨remains, fun same => other ?_⟩
        have one := (forest.owner (same ▸ remains : w.Lists a child)).symm.trans
          (forest.owner listed)
        exact Option.some.inj one
    refine ⟨fun {a b} remains => ?_, fun {a b} remains => ?_, fun a => ?_, fun a ring => ?_⟩
    · rw [(after b).2, if_neg (fewer remains).2]
      exact forest.owner (fewer remains).1
    · rw [count_removeChild]
      exact forest.there (fewer remains).1
    · rw [(after a).1]
      split
      · exact (forest.once s).erase child
      · exact forest.once a
    · exact forest.acyclic a (TransGen.mono (fun _ _ remains => (fewer remains).1) a a ring)
  · rw [World.removeChild, if_neg fun contained => listed (List.contains_iff_mem.mp contained)]
    exact forest

theorem forest_planted (options : MatchOptions) : (planted options).Forest := by
  have none : ∀ s c, ¬ (planted options).Lists s c := by
    intro s c listed
    have empty : ((planted options).scope s).children = [] := by
      show ((World.empty.newRoot options).2.scope s).children = []
      simp only [newRoot, scope_newScope]
      split
      · rfl
      · have absent : ¬ s.In World.empty.count := Nat.not_lt_zero s.index
        exact congrArg Scope.children (scope_default absent)
    rw [Lists, empty] at listed
    exact absurd listed List.not_mem_nil
  refine ⟨fun listed => absurd listed (none _ _), fun listed => absurd listed (none _ _),
    fun s => ?_, fun s ring => ?_⟩
  · have empty : ((planted options).scope s).children = [] :=
      List.eq_nil_iff_forall_not_mem.mpr (none s)
    exact empty ▸ List.nodup_nil
  · obtain ⟨c, listed, -⟩ := TransGen.head'_iff.mp ring
    exact none s c listed

/-! ## Histories -/

/-- One call on scopes that are there.  A scope is appended only while no scope
lists it; what is held from outside may change at any time. -/
inductive Rearrange (w : World) : World → Prop
  | create {s : ScopeId} (there : s.In w.count) (kind : ScopeKind) (label : String) :
      Rearrange w (w.createChild s kind label).2
  | append {s child : ScopeId} (there : s.In w.count) (alive : w.alive child.cell = true)
      (present : child.In w.count) (unlisted : ∀ t, ¬ w.Lists t child) :
      Rearrange w ((Action.appendChild s child).runIn w).2
  | remove (s child : ScopeId) : Rearrange w (w.removeChild s child)
  | hold (cells : List Cell) : Rearrange w { w with held := cells }

theorem Rearrange.forest (h : w.Rearrange w') (forest : w.Forest) : w'.Forest := by
  cases h with
  | create there kind label => exact forest.createChild there kind label
  | @append s child there alive present unlisted =>
    rw [Action.runIn_appendChild]
    by_cases refused : (w.ownerChain s).contains child = true
    · rw [if_pos refused]
      exact forest
    · rw [if_neg refused]
      exact forest.addChild there present unlisted fun way =>
        refused (forest.ownerChain_contains alive way)
  | remove s child => exact forest.removeChild s child
  | hold cells => exact ⟨forest.owner, forest.there, forest.once, forest.acyclic⟩

/-- While scopes are appended only where no other scope lists them, no scope is
ever above itself, and an append that would put one there is refused and changes
nothing. -/
theorem children_acyclic {options : MatchOptions}
    (history : ReflTransGen Rearrange (planted options) w) :
    (∀ s, ¬ w.Above s s) ∧
      ∀ s child, w.alive child.cell = true → (child = s ∨ w.Above child s) →
        (Action.appendChild s child).runIn w = (.error (.scopeCycle (w.scope child).label), w) := by
  have forest : w.Forest := by
    induction history with
    | refl => exact forest_planted options
    | tail _ step ih => exact step.forest ih
  refine ⟨forest.acyclic, fun s child alive closes => ?_⟩
  have way : ReflTransGen w.Lists child s := by
    rcases closes with rfl | above
    · exact .refl
    · exact above.to_reflTransGen
  rw [Action.runIn_appendChild, if_pos (forest.ownerChain_contains alive way)]

/-- The root cannot be appended to its grandchild. -/
theorem root_not_below_grandchild :
    let w := (((planted {}).createChild ⟨0⟩ .block "child").2.createChild ⟨1⟩ .block "leaf").2
    (∀ s, ¬ w.Above s s) ∧
      (Action.appendChild ⟨2⟩ ⟨0⟩).runIn w = (.error (.scopeCycle "<root>"), w) := by
  intro w
  have history : ReflTransGen Rearrange (planted {}) w :=
    .tail (.single (.create (by decide +kernel) .block "child"))
      (.create (by decide +kernel) .block "leaf")
  obtain ⟨acyclic, refused⟩ := children_acyclic history
  have first : w.Lists ⟨0⟩ ⟨1⟩ := by
    unfold Lists
    decide +kernel
  have second : w.Lists ⟨1⟩ ⟨2⟩ := by
    unfold Lists
    decide +kernel
  exact ⟨acyclic, refused ⟨2⟩ ⟨0⟩ (by decide +kernel) (.inr (.tail (.single first) second))⟩

end World

end ScopeLang
