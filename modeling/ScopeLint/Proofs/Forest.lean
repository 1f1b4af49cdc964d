import Mathlib.Data.Finset.Card
import Mathlib.Logic.Relation
import ScopeLint.Arena

/-! # The scopes of an arena as a forest

`Inside` is read from the parent links alone. `descendants` follows the links to
the children with a stack and a bound on its steps. The two agree in every
forest: each step of the stack takes one scope for good off those the stack still
leads to, so as many steps as there are scopes suffice. -/
namespace ScopeLint.Arena

/-- Scope `child` lies directly in scope `parent`. -/
def Parent (a : Arena) (child parent : Nat) : Prop :=
  ∃ s, a.scopes[child]? = some s ∧ s.parent = some (parent : Int)

/-- A scope lies strictly inside another: parents lead from it to the other. -/
def Inside (a : Arena) : Nat → Nat → Prop := Relation.TransGen a.Parent

/-- A scope is another one or lies inside it. -/
def Within (a : Arena) : Nat → Nat → Prop := Relation.ReflTransGen a.Parent

/-- Parents exist, the lists of children are the parent links read backwards, and no scope lies
inside itself. -/
structure Forest (a : Arena) : Prop where
  parent_lt : ∀ {c p : Nat}, a.Parent c p → p < a.size
  mem_children : ∀ {p : Nat} {s : Scope}, a.scopes[p]? = some s →
    ∀ c, c ∈ s.children ↔ a.Parent c p
  nodup : ∀ {p : Nat} {s : Scope}, a.scopes[p]? = some s → s.children.Nodup
  acyclic : ∀ i, ¬ a.Inside i i

variable {a b : Arena}

theorem getElem?_lt {i : Nat} {s : Scope} (h : a.scopes[i]? = some s) : i < a.size :=
  (List.getElem?_eq_some_iff.mp h).1

theorem exists_scope {i : Nat} (h : i < a.size) : ∃ s, a.scopes[i]? = some s :=
  ⟨_, List.getElem?_eq_getElem h⟩

theorem Parent.lt_size {c p : Nat} (h : a.Parent c p) : c < a.size := by
  obtain ⟨s, hs, _⟩ := h
  exact getElem?_lt hs

theorem Parent.unique {c p q : Nat} (hp : a.Parent c p) (hq : a.Parent c q) : p = q := by
  obtain ⟨s, hs, hsp⟩ := hp
  obtain ⟨t, ht, htq⟩ := hq
  cases hs.symm.trans ht
  exact Int.ofNat.inj (Option.some.inj (hsp.symm.trans htq))

theorem Inside.within {d i : Nat} (h : a.Inside d i) : a.Within d i :=
  Relation.TransGen.to_reflTransGen h

theorem within_iff {d i : Nat} : a.Within d i ↔ d = i ∨ a.Inside d i := by
  rw [Within, Relation.reflTransGen_iff_eq_or_transGen, eq_comm]
  rfl

/-- A scope inside another has a parent, and that is the other or inside it. -/
theorem inside_iff_parent {d i : Nat} : a.Inside d i ↔ ∃ p, a.Parent d p ∧ a.Within p i :=
  Relation.TransGen.head'_iff

theorem inside_iff_child {d i : Nat} : a.Inside d i ↔ ∃ c, a.Within d c ∧ a.Parent c i :=
  Relation.TransGen.tail'_iff

theorem Inside.lt_size {d i : Nat} (h : a.Inside d i) : d < a.size := by
  obtain ⟨p, hp, _⟩ := inside_iff_parent.mp h
  exact hp.lt_size

/-- The scopes around a scope lie in each other. -/
theorem Within.total {d i j : Nat} (hi : a.Within d i) (hj : a.Within d j) :
    a.Within i j ∨ a.Within j i :=
  Relation.ReflTransGen.total_of_right_unique (fun _ _ _ h h' => h.unique h') hi hj

/-- Indices that grow from parent to child make every subtree start at its root. -/
theorem Inside.index_lt (ordered : ∀ {c p}, a.Parent c p → p < c) {d i : Nat}
    (h : a.Inside d i) : i < d := by
  induction h with
  | single hp => exact ordered hp
  | tail _ hp ih => exact lt_trans (ordered hp) ih

/-! ## What leaves the links alone -/

/-- What a scope is as a part of the forest. -/
def link (s : Scope) : Nat × Option Int × List Nat := (s.index, s.parent, s.children)

/-- The same scopes with the same links, whatever is bound and parked in them. -/
def SameLinks (a b : Arena) : Prop :=
  ∀ i : Nat, (a.scopes[i]?).map link = (b.scopes[i]?).map link

theorem SameLinks.refl (a : Arena) : SameLinks a a := fun _ => rfl

theorem SameLinks.symm (h : SameLinks a b) : SameLinks b a := fun i => (h i).symm

theorem SameLinks.scope (h : SameLinks a b) {i : Nat} {s : Scope} (hs : a.scopes[i]? = some s) :
    ∃ t, b.scopes[i]? = some t ∧ t.index = s.index ∧ t.parent = s.parent ∧
      t.children = s.children := by
  have hi := h i
  rw [hs, Option.map_some, eq_comm, Option.map_eq_some_iff] at hi
  obtain ⟨t, ht, hl⟩ := hi
  simp only [link, Prod.mk.injEq] at hl
  exact ⟨t, ht, hl⟩

theorem SameLinks.size (h : SameLinks a b) : a.size = b.size := by
  apply Nat.le_antisymm
  · by_contra hc
    obtain ⟨s, hs⟩ := exists_scope (a := a) (i := b.size) (by omega)
    obtain ⟨t, ht, _⟩ := h.scope hs
    exact absurd (getElem?_lt ht) (lt_irrefl _)
  · by_contra hc
    obtain ⟨s, hs⟩ := exists_scope (a := b) (i := a.size) (by omega)
    obtain ⟨t, ht, _⟩ := h.symm.scope hs
    exact absurd (getElem?_lt ht) (lt_irrefl _)

theorem SameLinks.parent_iff (h : SameLinks a b) {c p : Nat} : a.Parent c p ↔ b.Parent c p := by
  have aux : ∀ {x y : Arena}, SameLinks x y → x.Parent c p → y.Parent c p := by
    rintro x y hl ⟨s, hs, hp⟩
    obtain ⟨t, ht, _, htp, _⟩ := hl.scope hs
    exact ⟨t, ht, htp.trans hp⟩
  exact ⟨aux h, aux h.symm⟩

theorem SameLinks.parent_eq (h : SameLinks a b) : a.Parent = b.Parent := by
  funext c p
  exact propext h.parent_iff

theorem SameLinks.inside_iff (h : SameLinks a b) {d i : Nat} : a.Inside d i ↔ b.Inside d i := by
  rw [Inside, Inside, h.parent_eq]

theorem SameLinks.within_iff (h : SameLinks a b) {d i : Nat} : a.Within d i ↔ b.Within d i := by
  rw [Within, Within, h.parent_eq]

theorem SameLinks.forest (h : SameLinks a b) (ha : a.Forest) : b.Forest where
  parent_lt hp := h.size ▸ ha.parent_lt (h.parent_iff.mpr hp)
  mem_children hs c := by
    obtain ⟨t, ht, _, _, hc⟩ := h.symm.scope hs
    rw [← hc, ← h.parent_iff]
    exact ha.mem_children ht c
  nodup hs := by
    obtain ⟨t, ht, _, _, hc⟩ := h.symm.scope hs
    exact hc ▸ ha.nodup ht
  acyclic i hi := ha.acyclic i (h.inside_iff.mpr hi)

theorem getElem?_modify (a : Arena) (place : Nat) (f : Scope → Scope) (i : Nat) :
    (a.modify place f).scopes[i]? = (a.scopes[i]?).map fun s => if i = place then f s else s := by
  simp only [modify, List.getElem?_modify, eq_comm (a := place)]
  split <;> cases a.scopes[i]? <;> rfl

theorem sameLinks_modify (a : Arena) (place : Nat) (f : Scope → Scope)
    (hf : ∀ s, link (f s) = link s) : SameLinks (a.modify place f) a := by
  intro i
  rw [getElem?_modify, Option.map_map]
  congr 1
  funext s
  simp only [Function.comp_apply]
  split
  · exact hf s
  · rfl

/-! ## Scopes below a stack -/

/-- The scopes that a stack leads to. -/
def Leads (a : Arena) (stack : List Nat) (d : Nat) : Prop := ∃ r ∈ stack, a.Within d r

/-- No two scopes of a stack have a scope inside them in common. -/
def Apart (a : Arena) (stack : List Nat) : Prop :=
  stack.Pairwise fun x y => ¬ a.Within x y ∧ ¬ a.Within y x

theorem leads_cons (ha : a.Forest) {p : Nat} {s : Scope} (hs : a.scopes[p]? = some s)
    (stack : List Nat) (d : Nat) :
    a.Leads (p :: stack) d ↔ d = p ∨ a.Leads (s.children ++ stack) d := by
  have hp : a.Within d p ↔ d = p ∨ ∃ c ∈ s.children, a.Within d c := by
    rw [Arena.within_iff, inside_iff_child]
    simp only [ha.mem_children hs, and_comm]
  simp only [Leads, List.exists_mem_cons_iff, List.mem_append, or_and_right, exists_or, hp,
    or_assoc]

/-- The children of a scope and the scopes apart from it are apart. -/
theorem apart_children (ha : a.Forest) {p : Nat} {s : Scope} (hs : a.scopes[p]? = some s)
    {stack : List Nat} (h : a.Apart (p :: stack)) : a.Apart (s.children ++ stack) := by
  obtain ⟨hp, hr⟩ := List.pairwise_cons.mp h
  -- a child is not inside a scope that its parent is not inside, unless it is that scope
  have up : ∀ {c y}, a.Parent c p → a.Within c y → c = y ∨ a.Within p y := by
    intro c y hc hy
    rcases Arena.within_iff.mp hy with rfl | hy
    · exact Or.inl rfl
    · obtain ⟨q, hq, hw⟩ := inside_iff_parent.mp hy
      exact Or.inr (hc.unique hq ▸ hw)
  refine List.pairwise_append.mpr ⟨?_, hr, ?_⟩
  · refine (ha.nodup hs).imp_of_mem ?_
    have aux : ∀ {x y}, x ∈ s.children → y ∈ s.children → x ≠ y → ¬ a.Within x y := by
      intro x y hx hy hne hw
      rcases up ((ha.mem_children hs x).mp hx) hw with he | hw
      · exact hne he
      · exact ha.acyclic p (inside_iff_child.mpr ⟨y, hw, (ha.mem_children hs y).mp hy⟩)
    intro x y hx hy hne
    exact ⟨aux hx hy hne, aux hy hx hne.symm⟩
  · intro c hc r hr
    have hcp := (ha.mem_children hs c).mp hc
    have hin : a.Within c p := Relation.ReflTransGen.single hcp
    constructor
    · intro hw
      rcases up hcp hw with rfl | hw
      · exact (hp c hr).2 hin
      · exact (hp r hr).1 hw
    · intro hw
      exact (hp r hr).2 (hw.trans hin)

/-- A scope taken off a stack is not reached again. -/
theorem not_leads_self (ha : a.Forest) {p : Nat} {s : Scope} (hs : a.scopes[p]? = some s)
    {stack : List Nat} (h : a.Apart (p :: stack)) : ¬ a.Leads (s.children ++ stack) p := by
  rintro ⟨r, hr, hw⟩
  rcases List.mem_append.mp hr with hr | hr
  · exact ha.acyclic p (inside_iff_child.mpr ⟨r, hw, (ha.mem_children hs r).mp hr⟩)
  · exact ((List.pairwise_cons.mp h).1 r hr).1 hw

section Counting
open scoped Classical

/-- How many scopes a stack leads to. -/
noncomputable def reached (a : Arena) (stack : List Nat) : Finset Nat :=
  (Finset.range a.size).filter (a.Leads stack)

theorem reached_children_lt (ha : a.Forest) {p : Nat} {s : Scope} (hs : a.scopes[p]? = some s)
    {stack : List Nat} (h : a.Apart (p :: stack)) :
    (a.reached (s.children ++ stack)).card < (a.reached (p :: stack)).card := by
  apply Finset.card_lt_card
  refine Finset.ssubset_iff_subset_ne.mpr ⟨?_, ?_⟩
  · intro d hd
    obtain ⟨hd, hl⟩ := Finset.mem_filter.mp hd
    exact Finset.mem_filter.mpr ⟨hd, (leads_cons ha hs stack d).mpr (Or.inr hl)⟩
  · intro he
    have hp : p ∈ a.reached (p :: stack) :=
      Finset.mem_filter.mpr ⟨Finset.mem_range.mpr (getElem?_lt hs),
        (leads_cons ha hs stack p).mpr (Or.inl rfl)⟩
    rw [← he] at hp
    exact not_leads_self ha hs h (Finset.mem_filter.mp hp).2

/-- With as many steps as there are scopes to reach, a stack is worked off completely. -/
theorem mem_descend (ha : a.Forest) (fuel : Nat) (stack : List Nat)
    (hlt : ∀ r ∈ stack, r < a.size) (hap : a.Apart stack)
    (hfuel : (a.reached stack).card ≤ fuel) (d : Nat) :
    d ∈ a.descend fuel stack ↔ a.Leads stack d := by
  induction fuel generalizing stack with
  | zero =>
    have hnil : stack = [] := by
      apply List.eq_nil_iff_forall_not_mem.mpr
      intro r hr
      have hm : r ∈ a.reached stack :=
        Finset.mem_filter.mpr ⟨Finset.mem_range.mpr (hlt r hr), r, hr, Relation.ReflTransGen.refl⟩
      rw [Finset.card_eq_zero.mp (Nat.le_zero.mp hfuel)] at hm
      simp at hm
    simp [descend, Leads, hnil]
  | succ fuel ih =>
    cases stack with
    | nil => simp [descend, Leads]
    | cons p stack =>
      obtain ⟨s, hs⟩ := exists_scope (hlt p (by simp))
      have hsmall := reached_children_lt ha hs hap
      have hlt' : ∀ r ∈ s.children ++ stack, r < a.size := by
        intro r hr
        rcases List.mem_append.mp hr with hr | hr
        · exact ((ha.mem_children hs r).mp hr).lt_size
        · exact hlt r (by simp [hr])
      have hrec := ih (s.children ++ stack) hlt' (apart_children ha hs hap) (by omega)
      simp only [descend, hs, List.mem_cons, hrec, leads_cons ha hs]

end Counting

/-- The stack finds exactly the scopes from which parents lead to `place`. -/
theorem mem_descendants (ha : a.Forest) (place d : Nat) :
    d ∈ a.descendants place ↔ a.Inside d place := by
  classical
  cases hs : a.scopes[place]? with
  | none =>
    simp only [descendants, hs, List.not_mem_nil, false_iff]
    intro hd
    obtain ⟨c, _, hc⟩ := inside_iff_child.mp hd
    obtain ⟨s, hs'⟩ := exists_scope (ha.parent_lt hc)
    simp [hs] at hs'
  | some s =>
    have hplace : a.Apart [place] := List.pairwise_singleton _ _
    have hap : a.Apart s.children := by simpa using apart_children ha hs hplace
    have hfuel : (a.reached s.children).card ≤ a.size := by
      have hle := Finset.card_filter_le (Finset.range a.size) (a.Leads s.children)
      rwa [Finset.card_range] at hle
    have hlt : ∀ r ∈ s.children, r < a.size :=
      fun r hr => ((ha.mem_children hs r).mp hr).lt_size
    simp only [descendants, hs]
    rw [mem_descend ha a.size s.children hlt hap hfuel, inside_iff_child]
    simp only [Leads, ha.mem_children hs, and_comm]

/-! ## Adding a scope -/

/-- What a scope is asked for with. -/
structure Request where
  parent : Option Int
  isToplevel : Bool := false
deriving DecidableEq, Repr

/-- The scope that the parent stands for when scope `index` is added: one up to `index` itself, and
below zero one counted back from `index`. -/
def Request.host (r : Request) (index : Nat) : Option Nat :=
  r.parent.bind fun parent =>
    if 0 ≤ parent ∧ parent ≤ index then some parent.toNat
    else if parent < 0 ∧ 0 ≤ parent + index + 1 then some (parent + index + 1).toNat
    else none

def grow (a : Arena) (r : Request) : Arena := (a.add r.parent r.isToplevel).1

theorem getElem?_append_last (a : Arena) (s : Scope) (i : Nat) :
    (a.scopes ++ [s])[i]? = if i = a.size then some s else a.scopes[i]? := by
  rw [List.getElem?_append]
  by_cases hlt : i < a.scopes.length
  · have hne : i ≠ a.size := Nat.ne_of_lt hlt
    rw [if_pos hlt, if_neg hne]
  · rw [if_neg hlt]
    by_cases hi : i = a.size
    · simp [hi, size]
    · have hnone : a.scopes[i]? = none := List.getElem?_eq_none (Nat.not_lt.mp hlt)
      have hgt : 1 ≤ i - a.scopes.length := by
        unfold size at hi
        omega
      rw [if_neg hi, hnone, List.getElem?_eq_none hgt]

theorem place?_append (a : Arena) (s : Scope) (parent : Int) (isToplevel : Bool) :
    place? ⟨a.scopes ++ [s]⟩ parent = Request.host ⟨some parent, isToplevel⟩ a.size := by
  have hsize : size ⟨a.scopes ++ [s]⟩ = a.size + 1 := by simp [size]
  simp only [place?, Request.host, Option.bind_some, hsize]
  split
  · next hparent =>
    split
    · next hlt => rw [if_pos ⟨hparent, by omega⟩]
    · next hlt => rw [if_neg (by omega), if_neg (by omega)]
  · next hparent =>
    have hback : parent + ((a.size + 1 : Nat) : Int) = parent + a.size + 1 := by omega
    have hfront : ¬ (0 ≤ parent ∧ parent ≤ (a.size : Int)) := fun h => hparent h.1
    rw [hback, if_neg hfront]
    exact if_congr ⟨fun h => ⟨Int.not_le.mp hparent, h⟩, And.right⟩ rfl rfl

/-- A request adds a scope and makes it the last child of the one meant. -/
theorem getElem?_grow (a : Arena) (r : Request) (i : Nat) :
    (a.grow r).scopes[i]? =
      (if i = a.size then
        some { index := a.size, isToplevel := r.isToplevel, parent := r.parent }
      else a.scopes[i]?).map fun s =>
        if r.host a.size = some i then { s with children := s.children ++ [a.size] } else s := by
  obtain ⟨parent, isToplevel⟩ := r
  cases parent with
  | none =>
    simp only [grow, add, getElem?_append_last, Request.host, Option.bind_none, reduceCtorEq,
      if_false, Option.map_id']
  | some parent =>
    simp only [grow, add]
    rw [place?_append a _ parent isToplevel]
    cases Request.host ⟨some parent, isToplevel⟩ a.size with
    | none =>
      simp only [getElem?_append_last, reduceCtorEq, if_false, Option.map_id']
    | some place =>
      simp only [getElem?_modify, getElem?_append_last, Option.some.injEq, eq_comm (a := place)]

theorem size_grow (a : Arena) (r : Request) : (a.grow r).size = a.size + 1 := by
  obtain ⟨parent, isToplevel⟩ := r
  cases parent with
  | none => simp [grow, add, size]
  | some parent =>
    simp only [grow, add]
    split <;> simp [modify, size]

/-- An earlier scope is meant by its index. -/
theorem host_of_lt {parent : Option Nat} {index : Nat} (hp : ∀ p ∈ parent, p < index) (top : Bool) :
    Request.host ⟨parent.map Int.ofNat, top⟩ index = parent := by
  cases parent with
  | none => rfl
  | some p =>
    have hrange : 0 ≤ Int.ofNat p ∧ Int.ofNat p ≤ (index : Int) :=
      ⟨Int.natCast_nonneg p, Int.ofNat_le.mpr (Nat.le_of_lt (hp p rfl))⟩
    exact if_pos hrange

/-- A scope that is added under an existing one, or under none, comes last, and its parent has it as
its last child. -/
theorem getElem?_add (a : Arena) (parent : Option Nat) (top : Bool)
    (hp : ∀ p ∈ parent, p < a.size) (i : Nat) :
    (a.add (parent.map Int.ofNat) top).1.scopes[i]? =
      if i = a.size then
        some { index := a.size, isToplevel := top, parent := parent.map Int.ofNat }
      else (a.scopes[i]?).map fun s =>
        if parent = some i then { s with children := s.children ++ [a.size] } else s := by
  have hgrow := getElem?_grow a ⟨parent.map Int.ofNat, top⟩ i
  rw [host_of_lt hp] at hgrow
  refine hgrow.trans ?_
  by_cases hi : i = a.size
  · have hother : parent ≠ some i := fun h => absurd (hp i h) (by omega)
    rw [if_pos hi, if_pos hi, Option.map_some, if_neg hother]
  · rw [if_neg hi, if_neg hi]

theorem size_add (a : Arena) (parent : Option Int) (top : Bool) :
    (a.add parent top).1.size = a.size + 1 :=
  a.size_grow ⟨parent, top⟩

section Adding

variable {parent : Option Nat} {top : Bool} (hp : ∀ p ∈ parent, p < a.size)
include hp

theorem parent_add {c p : Nat} :
    (a.add (parent.map Int.ofNat) top).1.Parent c p ↔
      a.Parent c p ∨ c = a.size ∧ parent = some p := by
  unfold Parent
  rw [getElem?_add a parent top hp]
  by_cases hc : c = a.size
  · have hnone : ¬ a.Parent c p := fun h => absurd h.lt_size (by omega)
    unfold Parent at hnone
    simp only [hc, if_true, Option.some.injEq, exists_eq_left', true_and]
    rw [or_iff_right (hc ▸ hnone)]
    cases parent with
    | none => simp
    | some q =>
      constructor
      · intro h
        exact congrArg some (Int.ofNat.inj (Option.some.inj h))
      · intro h
        exact congrArg (Option.map Int.ofNat) h
  · simp only [hc, if_false, false_and, or_false, Option.map_eq_some_iff]
    constructor
    · rintro ⟨s, ⟨t, ht, rfl⟩, hs⟩
      refine ⟨t, ht, ?_⟩
      split at hs <;> exact hs
    · rintro ⟨t, ht, hs⟩
      refine ⟨_, ⟨t, ht, rfl⟩, ?_⟩
      split <;> exact hs

theorem inside_add (ha : a.Forest) {d i : Nat} :
    (a.add (parent.map Int.ofNat) top).1.Inside d i ↔
      a.Inside d i ∨ d = a.size ∧ ∃ p ∈ parent, a.Within p i := by
  constructor
  · intro h
    -- from the inside out; the new scope is nobody's parent
    induction h using Relation.TransGen.head_induction_on with
    | single h =>
      rcases (parent_add hp).mp h with h | ⟨hd, hpar⟩
      · exact Or.inl (Relation.TransGen.single h)
      · exact Or.inr ⟨hd, _, hpar, Relation.ReflTransGen.refl⟩
    | @head d q h _ ih =>
      have hq : q < a.size := by
        rcases (parent_add hp).mp h with h | ⟨_, hpar⟩
        · exact ha.parent_lt h
        · exact hp q hpar
      rcases ih with ih | ⟨hq', _⟩
      · rcases (parent_add hp).mp h with h | ⟨hd, hpar⟩
        · exact Or.inl (Relation.TransGen.head h ih)
        · exact Or.inr ⟨hd, q, hpar, Inside.within ih⟩
      · omega
  · have hmono : ∀ c q, a.Parent c q → (a.add (parent.map Int.ofNat) top).1.Parent c q :=
      fun c q h => (parent_add hp).mpr (Or.inl h)
    rintro (h | ⟨rfl, p, hpar, hw⟩)
    · exact Relation.TransGen.mono hmono _ _ h
    · exact inside_iff_parent.mpr
        ⟨p, (parent_add hp).mpr (Or.inr ⟨rfl, hpar⟩), Relation.ReflTransGen.mono hmono _ _ hw⟩

theorem forest_add (ha : a.Forest) : (a.add (parent.map Int.ofNat) top).1.Forest where
  parent_lt h := by
    rw [size_add]
    rcases (parent_add hp).mp h with h | ⟨_, hpar⟩
    · exact Nat.lt_succ_of_lt (ha.parent_lt h)
    · exact Nat.lt_succ_of_lt (hp _ hpar)
  mem_children {q s} hs c := by
    rw [getElem?_add a parent top hp] at hs
    rw [parent_add hp]
    split at hs
    · next hq =>
      cases hs
      subst hq
      simp only [List.not_mem_nil, false_iff, not_or, not_and]
      exact ⟨fun h => absurd (ha.parent_lt h) (by omega), fun _ h => absurd (hp _ h) (by omega)⟩
    · obtain ⟨t, ht, rfl⟩ := Option.map_eq_some_iff.mp hs
      by_cases hpar : parent = some q <;> simp [hpar, ha.mem_children ht]
  nodup {q s} hs := by
    rw [getElem?_add a parent top hp] at hs
    split at hs
    · cases hs; exact List.nodup_nil
    · obtain ⟨t, ht, rfl⟩ := Option.map_eq_some_iff.mp hs
      split
      · refine List.nodup_append.mpr ⟨ha.nodup ht, List.nodup_singleton _, ?_⟩
        rintro x hx y hy rfl
        rw [List.mem_singleton.mp hy, ha.mem_children ht] at hx
        exact absurd hx.lt_size (by omega)
      · exact ha.nodup ht
  acyclic i hi := by
    rcases (inside_add hp ha).mp hi with hi | ⟨rfl, p, hpar, hw⟩
    · exact ha.acyclic i hi
    · rcases Arena.within_iff.mp hw with rfl | hin
      · exact absurd (hp _ hpar) (by omega)
      · obtain ⟨c, _, hc⟩ := inside_iff_child.mp hin
        exact absurd (ha.parent_lt hc) (by omega)

end Adding

end ScopeLint.Arena
