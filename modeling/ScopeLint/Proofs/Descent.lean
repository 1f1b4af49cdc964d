import ScopeLint.Proofs.Growth

/-! # Descending into scopes

`OuterFirst` is the order in which a recursion over the children comes to scopes:
a root, the scopes inside it, and then the other roots. A stack from which the top
is taken, with its children put in its place, comes to them in the same order, and
is empty after as many rounds (`OuterFirst.rounds`). -/
namespace ScopeLint.Arena

/-- The scopes that some roots lead to, each directly in front of the scopes inside it. -/
inductive OuterFirst (a : Arena) : (roots order : List Nat) → Prop where
  | nil : OuterFirst a [] []
  | cons {root : Nat} {s : Scope} {rest inner later : List Nat} (found : a.scopes[root]? = some s)
      (inside : OuterFirst a s.children inner) (after : OuterFirst a rest later) :
      OuterFirst a (root :: rest) (root :: (inner ++ later))

/-- One round of the loop over a stack: the scope on top is met, and its children take its place. -/
inductive Round (a : Arena) : (before after : List Nat × List Nat) → Prop where
  | meet {place : Nat} {s : Scope} {stack met : List Nat} (found : a.scopes[place]? = some s) :
      Round a (place :: stack, met) (s.children ++ stack, met ++ [place])

variable {a : Arena} {roots order : List Nat}

namespace OuterFirst

/-- The loop comes to the scopes of the roots in order, and then to what else is on the stack. -/
theorem rounds (h : a.OuterFirst roots order) (stack met : List Nat) :
    Relation.ReflTransGen a.Round (roots ++ stack, met) (stack, met ++ order) := by
  induction h generalizing stack met with
  | nil =>
    rw [List.nil_append, List.append_nil]
  | @cons root s rest inner later found _ _ ihInside ihAfter =>
    have hmeet : a.Round (root :: (rest ++ stack), met)
        (s.children ++ (rest ++ stack), met ++ [root]) := .meet found
    have hinside := ihInside (rest ++ stack) (met ++ [root])
    have hafter := ihAfter stack (met ++ [root] ++ inner)
    have hmet : met ++ root :: (inner ++ later) = met ++ [root] ++ inner ++ later := by simp
    rw [hmet]
    exact (Relation.ReflTransGen.single hmeet).trans (hinside.trans hafter)

theorem descend_eq (h : a.OuterFirst roots order) (fuel : Nat) (stack : List Nat) :
    a.descend (order.length + fuel) (roots ++ stack) = order ++ a.descend fuel stack := by
  induction h generalizing fuel stack with
  | nil => rw [List.length_nil, Nat.zero_add, List.nil_append, List.nil_append]
  | @cons root s rest inner later found _ _ ihInside ihAfter =>
    have hfuel : (root :: (inner ++ later)).length + fuel =
        inner.length + (later.length + fuel) + 1 := by
      simp only [List.length_cons, List.length_append]
      omega
    rw [hfuel, List.cons_append, descend, found]
    dsimp only
    rw [ihInside, ihAfter, List.cons_append, List.append_assoc]

theorem leads_append (xs ys : List Nat) (d : Nat) :
    a.Leads (xs ++ ys) d ↔ a.Leads xs d ∨ a.Leads ys d := by
  simp only [Leads, List.mem_append, or_and_right, exists_or]

theorem mem_iff (ha : a.Forest) (h : a.OuterFirst roots order) (d : Nat) :
    d ∈ order ↔ a.Leads roots d := by
  induction h with
  | nil => simp [Leads]
  | @cons root s rest inner later found _ _ ihInside ihAfter =>
    rw [leads_cons ha found, leads_append, ← ihInside, ← ihAfter, List.mem_cons, List.mem_append]

theorem nodup (ha : a.Forest) (h : a.OuterFirst roots order) (hapart : a.Apart roots) :
    order.Nodup := by
  induction h with
  | nil => exact List.nodup_nil
  | @cons root s rest inner later found inside after ihInside ihAfter =>
    have hbelow := apart_children ha found hapart
    obtain ⟨hchildren, hrest, hcross⟩ := List.pairwise_append.mp hbelow
    have hroot : root ∉ inner ++ later := by
      rw [List.mem_append, inside.mem_iff ha, after.mem_iff ha, ← leads_append]
      exact not_leads_self ha found hapart
    refine List.nodup_cons.mpr ⟨hroot, List.nodup_append.mpr
      ⟨ihInside hchildren, ihAfter hrest, fun x hx y hy hxy => ?_⟩⟩
    -- a scope below a child and below another root would put the two inside each other
    obtain ⟨child, hchild, hxchild⟩ := (inside.mem_iff ha x).mp hx
    obtain ⟨other, hother, hyother⟩ := (after.mem_iff ha y).mp hy
    rw [← hxy] at hyother
    rcases hxchild.total hyother with hin | hin
    · exact (hcross child hchild other hother).1 hin
    · exact (hcross child hchild other hother).2 hin

theorem length_le (ha : a.Forest) (h : a.OuterFirst roots order) (hapart : a.Apart roots)
    (hroots : ∀ root ∈ roots, root < a.size) : order.length ≤ a.size := by
  have hsub : order ⊆ List.range a.size := by
    intro d hd
    obtain ⟨root, hroot, hin⟩ := (h.mem_iff ha d).mp hd
    rw [List.mem_range]
    rcases Arena.within_iff.mp hin with rfl | hin
    · exact hroots d hroot
    · exact hin.lt_size
  have hle := ((h.nodup ha hapart).subperm hsub).length_le
  rwa [List.length_range] at hle

/-- Roots have an order if the scopes inside each of them have. -/
theorem exists_of_each (h : ∀ root ∈ roots, ∃ s inner, a.scopes[root]? = some s ∧
    a.OuterFirst s.children inner) : ∃ order, a.OuterFirst roots order := by
  induction roots with
  | nil => exact ⟨[], .nil⟩
  | cons root rest ih =>
    obtain ⟨s, inner, found, inside⟩ := h root List.mem_cons_self
    obtain ⟨later, after⟩ := ih fun other hother => h other (List.mem_cons_of_mem _ hother)
    exact ⟨_, .cons found inside after⟩

/-- Where children come later than their parents, the recursion over the children ends. -/
theorem exists_children (ha : a.Forest) (ordered : ∀ {c p}, a.Parent c p → p < c) {i : Nat}
    {s : Scope} (hs : a.scopes[i]? = some s) : ∃ order, a.OuterFirst s.children order := by
  -- by the number of scopes from `i` on
  induction hn : a.size - i using Nat.strong_induction_on generalizing i s with
  | _ n ih =>
    refine exists_of_each fun child hchild => ?_
    have hparent := (ha.mem_children hs child).mp hchild
    obtain ⟨t, ht⟩ := exists_scope hparent.lt_size
    have hlater := ordered hparent
    have hchildren := hparent.lt_size
    obtain ⟨inner, inside⟩ := ih (a.size - child) (by omega) ht rfl
    exact ⟨t, inner, ht, inside⟩

end OuterFirst

/-- In a forest whose children come later than their parents, the scopes inside a scope are found in
the order of the recursion. -/
theorem outerFirst_descendants (ha : a.Forest) (ordered : ∀ {c p}, a.Parent c p → p < c) {i : Nat}
    {s : Scope} (hs : a.scopes[i]? = some s) :
    a.OuterFirst s.children (a.descendants i) ∧ (a.descendants i).Nodup := by
  obtain ⟨order, h⟩ := OuterFirst.exists_children ha ordered hs
  have hone : a.Apart [i] := List.pairwise_singleton _ _
  have hapart : a.Apart s.children := by
    have hchildren := apart_children ha hs hone
    rwa [List.append_nil] at hchildren
  have hle := h.length_le ha hapart fun child hchild =>
    ((ha.mem_children hs child).mp hchild).lt_size
  have hdescend := h.descend_eq (a.size - order.length) []
  have horder : a.descendants i = order := by
    rw [List.append_nil, Nat.add_sub_cancel' hle] at hdescend
    simp only [descendants, hs, hdescend]
    cases a.size - order.length <;> simp [descend]
  rw [horder]
  exact ⟨h, h.nodup ha hapart⟩

/-! ## Arenas of requests for earlier scopes -/

/-- Every request gives no parent, or the index of a scope that is there already. -/
def Backward (requests : List Request) : Prop :=
  ∀ (i : Nat) (r : Request), requests[i]? = some r →
    r.parent = none ∨ ∃ p < i, r.parent = some (p : Int)

variable {requests : List Request}

/-- The scope meant is the one whose index is given. -/
theorem Backward.host_eq_some_iff (hback : Backward requests) {i p : Nat} {r : Request}
    (hr : requests[i]? = some r) : r.host i = some p ↔ r.parent = some (p : Int) := by
  obtain ⟨parent, isToplevel⟩ := r
  rcases hback i _ hr with hnone | ⟨q, hq, hsome⟩
  · cases hnone
    simp [Request.host]
  · cases hsome
    have hearlier : ∀ p ∈ some q, p < i := fun p hp => Option.some.inj hp ▸ hq
    have hhost : Request.host ⟨some (q : Int), isToplevel⟩ i = some q :=
      host_of_lt hearlier isToplevel
    rw [hhost, Option.some.injEq, Option.some.injEq, Int.natCast_inj]

namespace Linked

variable (h : Linked requests a) (hback : Backward requests)
include h hback

theorem parent_iff {child p : Nat} : a.Parent child p ↔ hostOf requests child = some p := by
  rw [hostOf, Option.bind_eq_some_iff]
  constructor
  · intro hparent
    obtain ⟨s, hs, hp⟩ := hparent
    have hasked := (h.asked hs).2
    exact ⟨_, hasked, (hback.host_eq_some_iff hasked).mpr hp⟩
  · intro hhost
    obtain ⟨r, hr, hhost⟩ := hhost
    obtain ⟨s, hs⟩ := exists_scope (a := a) (h.size ▸ (List.getElem?_eq_some_iff.mp hr).1)
    cases (h.asked hs).2.symm.trans hr
    exact ⟨s, hs, (hback.host_eq_some_iff hr).mp hhost⟩

theorem parent_lt {child p : Nat} (hparent : a.Parent child p) : p < child := by
  obtain ⟨s, hs, hp⟩ := hparent
  rcases hback child _ (h.asked hs).2 with hnone | ⟨q, hq, hsome⟩
  · cases hp.symm.trans hnone
  · cases hp.symm.trans hsome
    exact hq

theorem forest : a.Forest where
  parent_lt hparent := (h.parent_lt hback hparent).trans hparent.lt_size
  mem_children hs child := (h.mem_children_iff hs child).trans (h.parent_iff hback).symm
  nodup hs := (h.children_sorted hs).imp Nat.ne_of_lt
  acyclic i hin := Nat.lt_irrefl i (hin.index_lt (h.parent_lt hback))

end Linked

/-- The loop that finds the scopes inside a scope ends, and finds them in the order of the recursion
over the children, which are in the order of their requests: each scope once, and exactly those from
which parents lead to the scope. -/
theorem descendants_by_recursion (hback : Backward requests) {i : Nat} {s : Scope}
    (hs : (grown requests).scopes[i]? = some s) :
    let a := grown requests
    a.OuterFirst s.children (a.descendants i) ∧ s.children.Pairwise (· < ·) ∧
    Relation.ReflTransGen a.Round (s.children, []) ([], a.descendants i) ∧
    (a.descendants i).Nodup ∧ ∀ d, d ∈ a.descendants i ↔ a.Inside d i := by
  intro a
  have h : Linked requests a := linked_grown requests
  have ha := h.forest hback
  obtain ⟨horder, hnodup⟩ := outerFirst_descendants ha (h.parent_lt hback) hs
  have hrounds := horder.rounds [] []
  rw [List.append_nil, List.nil_append] at hrounds
  exact ⟨horder, h.children_sorted hs, hrounds, hnodup, mem_descendants ha i⟩

/-- The second scope has two in it, and the first of these another one. -/
theorem descendants_of_branching :
    let requests : List Request :=
      [⟨none, true⟩, ⟨some 0, false⟩, ⟨some 1, false⟩, ⟨some 1, false⟩, ⟨some 2, false⟩,
        ⟨some 0, false⟩]
    let a := grown requests
    Backward requests ∧ a.descendants 0 = [1, 2, 4, 3, 5] ∧ a.OuterFirst [2, 3] [2, 4, 3] ∧
    Relation.ReflTransGen a.Round ([2, 3], []) ([], [2, 4, 3]) ∧ a.Inside 4 1 := by
  intro requests a
  have hearlier : ∀ i < requests.length, ∀ r ∈ requests[i]?,
      r.parent = none ∨ ∃ p < i, r.parent = some (p : Int) := by decide
  have hback : Backward requests := fun i r hr =>
    hearlier i (List.getElem?_eq_some_iff.mp hr).1 r hr
  have hs : a.scopes[1]? = some
      { index := 1, isToplevel := false, parent := some 0, children := [2, 3] } := by decide
  have hfound : a.descendants 1 = [2, 4, 3] := by decide
  obtain ⟨horder, _, hrounds, _, hmem⟩ := descendants_by_recursion hback hs
  rw [hfound] at horder hrounds hmem
  exact ⟨hback, by decide, horder, hrounds, (hmem 4).mp (by decide)⟩

end ScopeLint.Arena
