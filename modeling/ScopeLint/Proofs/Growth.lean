import Mathlib.Data.List.Range
import ScopeLint.Proofs.Forest

/-! # Arenas grown from requests

A request adds a scope before it looks for the parent, so the new scope itself is
among those that a parent can stand for, and it stays if there is no such parent.
The links of an arena follow from its requests alone (`linked_grown`): a scope is a
child of the one that its request meant, which is an earlier one or itself. -/
namespace ScopeLint.Arena

/-- The arena after some requests, those that fail included. -/
def grown (requests : List Request) : Arena := requests.foldl grow {}

/-- The scope that a request among others means as the parent of the scope it adds. -/
def hostOf (requests : List Request) (child : Nat) : Option Nat :=
  (requests[child]?).bind (·.host child)

variable {a : Arena} {r : Request} {requests : List Request}

theorem Request.host_le {index host : Nat} (h : r.host index = some host) : host ≤ index := by
  obtain ⟨parent, _, hhost⟩ := Option.bind_eq_some_iff.mp h
  split at hhost
  · next hrange =>
    cases hhost
    omega
  · split at hhost
    · next hrange =>
      cases hhost
      omega
    · cases hhost

/-- The request gives the index of the scope that it adds, or counts back to it. -/
def Request.ForItself (r : Request) (index : Nat) : Prop :=
  r.parent = some (index : Int) ∨ r.parent = some (-1)

theorem Request.host_self_iff {index : Nat} : r.host index = some index ↔ r.ForItself index := by
  obtain ⟨parent, isToplevel⟩ := r
  cases parent with
  | none => simp [host, ForItself]
  | some parent =>
    simp only [host, ForItself, Option.bind_some, Option.some.injEq]
    split
    · simp only [Option.some.injEq]
      omega
    · split
      · simp only [Option.some.injEq]
        omega
      · simp only [reduceCtorEq, false_iff]
        omega

/-! ## One request -/

/-- A request fails if it gives a parent that stands for no scope. -/
theorem add_fails_iff (a : Arena) (r : Request) :
    (a.add r.parent r.isToplevel).2 = false ↔ r.parent ≠ none ∧ r.host a.size = none := by
  obtain ⟨parent, isToplevel⟩ := r
  cases parent with
  | none => simp [add]
  | some parent =>
    simp only [add]
    rw [place?_append a _ parent isToplevel]
    cases Request.host ⟨some parent, isToplevel⟩ a.size <;> simp

/-- Even if it fails, the scope it has added stays. -/
theorem scopes_grow_of_no_host (h : r.host a.size = none) :
    (a.grow r).scopes = a.scopes ++
      [{ index := a.size, isToplevel := r.isToplevel, parent := r.parent }] := by
  refine List.ext_getElem? fun i => ?_
  simp only [getElem?_grow, getElem?_append_last, h, reduceCtorEq, if_false, Option.map_id']

/-! ## All requests -/

/-- An arena whose links are those that the requests ask for. -/
structure Linked (requests : List Request) (a : Arena) : Prop where
  size : a.size = requests.length
  asked : ∀ {i : Nat} {s : Scope}, a.scopes[i]? = some s →
    s.index = i ∧ requests[i]? = some ⟨s.parent, s.isToplevel⟩
  children : ∀ {i : Nat} {s : Scope}, a.scopes[i]? = some s →
    s.children = (List.range requests.length).filter fun child => hostOf requests child = some i

theorem hostOf_append {child : Nat} (h : child < requests.length) :
    hostOf (requests ++ [r]) child = hostOf requests child := by
  rw [hostOf, hostOf, List.getElem?_append_left h]

theorem hostOf_last : hostOf (requests ++ [r]) requests.length = r.host requests.length := by
  simp [hostOf]

theorem hostOf_le {child host : Nat} (h : hostOf requests child = some host) : host ≤ child := by
  obtain ⟨r, _, hhost⟩ := Option.bind_eq_some_iff.mp h
  exact r.host_le hhost

/-- The children that a scope has after one more request. -/
theorem filter_hostOf_append (i : Nat) :
    (List.range (requests ++ [r]).length).filter
        (fun child => hostOf (requests ++ [r]) child = some i) =
      (List.range requests.length).filter (fun child => hostOf requests child = some i) ++
        if r.host requests.length = some i then [requests.length] else [] := by
  have hearlier : (List.range requests.length).filter
      (fun child => hostOf (requests ++ [r]) child = some i) =
      (List.range requests.length).filter (fun child => hostOf requests child = some i) := by
    refine List.filter_congr fun child hchild => ?_
    rw [hostOf_append (List.mem_range.mp hchild)]
  rw [List.length_append, List.length_singleton, List.range_succ, List.filter_append, hearlier,
    List.filter_singleton, hostOf_last]
  simp

theorem Linked.grow (h : Linked requests a) (r : Request) :
    Linked (requests ++ [r]) (a.grow r) where
  size := by rw [size_grow, h.size, List.length_append, List.length_singleton]
  asked {i s} hs := by
    rw [getElem?_grow] at hs
    obtain ⟨t, ht, rfl⟩ := Option.map_eq_some_iff.mp hs
    have hlinks : t.index = i ∧ (requests ++ [r])[i]? = some ⟨t.parent, t.isToplevel⟩ := by
      split at ht
      · next hi =>
        cases ht
        rw [hi, h.size]
        simp
      · have hlt : i < requests.length := h.size ▸ getElem?_lt ht
        rw [List.getElem?_append_left hlt]
        exact h.asked ht
    split <;> exact hlinks
  children {i s} hs := by
    rw [getElem?_grow] at hs
    obtain ⟨t, ht, rfl⟩ := Option.map_eq_some_iff.mp hs
    have hbefore : t.children =
        (List.range requests.length).filter fun child => hostOf requests child = some i := by
      split at ht
      · next hi =>
        -- no earlier request can have meant the new scope
        cases ht
        refine (List.filter_eq_nil_iff.mpr fun child hchild hhost => ?_).symm
        have hle := hostOf_le (of_decide_eq_true hhost)
        have hlt := List.mem_range.mp hchild
        rw [hi, h.size] at hle
        omega
      · exact h.children ht
    rw [filter_hostOf_append, ← hbefore, ← h.size]
    split
    · rfl
    · exact (List.append_nil _).symm

theorem linked_grown (requests : List Request) : Linked requests (grown requests) := by
  induction requests using List.reverseRecOn with
  | nil => exact ⟨rfl, by simp [grown], by simp [grown]⟩
  | append_singleton requests r ih =>
    rw [grown, List.foldl_append]
    exact ih.grow r

namespace Linked

variable (h : Linked requests a)
include h

theorem mem_children_iff {i : Nat} {s : Scope} (hs : a.scopes[i]? = some s) (child : Nat) :
    child ∈ s.children ↔ hostOf requests child = some i := by
  rw [h.children hs, List.mem_filter, List.mem_range, decide_eq_true_eq]
  refine and_iff_right_of_imp fun hhost => ?_
  obtain ⟨r, hr, _⟩ := Option.bind_eq_some_iff.mp hhost
  exact (List.getElem?_eq_some_iff.mp hr).1

theorem children_sorted {i : Nat} {s : Scope} (hs : a.scopes[i]? = some s) :
    s.children.Pairwise (· < ·) := by
  rw [h.children hs]
  exact List.pairwise_lt_range.filter _

end Linked

/-! ## Loops -/

/-- Scope `child` is entered among the children of scope `owner`. -/
def Child (a : Arena) (child owner : Nat) : Prop :=
  ∃ s, a.scopes[owner]? = some s ∧ child ∈ s.children

namespace Linked

variable (h : Linked requests a)
include h

theorem child_iff {child owner : Nat} :
    a.Child child owner ↔ hostOf requests child = some owner := by
  constructor
  · intro hchild
    obtain ⟨s, hs, hmem⟩ := hchild
    exact (h.mem_children_iff hs child).mp hmem
  · intro hhost
    obtain ⟨r, hr, _⟩ := Option.bind_eq_some_iff.mp hhost
    have hlt : child < a.size := h.size ▸ (List.getElem?_eq_some_iff.mp hr).1
    obtain ⟨s, hs⟩ := exists_scope (Nat.lt_of_le_of_lt (hostOf_le hhost) hlt)
    exact ⟨s, hs, (h.mem_children_iff hs child).mpr hhost⟩

/-- Children never come before their owners, and so do not the scopes that they lead to. -/
theorem le_of_chain {child owner : Nat} (hchain : Relation.TransGen a.Child child owner) :
    owner ≤ child := by
  induction hchain with
  | single hchild => exact hostOf_le (h.child_iff.mp hchild)
  | tail _ hchild ih => exact (hostOf_le (h.child_iff.mp hchild)).trans ih

/-- The only loops are scopes that are their own children. -/
theorem loop_iff {i : Nat} : Relation.TransGen a.Child i i ↔ hostOf requests i = some i := by
  refine ⟨fun hloop => ?_, fun hself => .single (h.child_iff.mpr hself)⟩
  obtain ⟨owner, hchild, hrest⟩ := Relation.TransGen.head'_iff.mp hloop
  have hhost := h.child_iff.mp hchild
  have hle : i ≤ owner := by
    rcases Relation.reflTransGen_iff_eq_or_transGen.mp hrest with heq | hchain
    · exact heq.le
    · exact h.le_of_chain hchain
  rwa [Nat.le_antisymm (hostOf_le hhost) hle] at hhost

end Linked

/-- The links of an arena, whatever its scopes were asked for with. A scope is in the list of the
scope that its request meant as parent, once, and in no other list. Children come later than their
owners, but for a scope that was asked for as a child of itself: these are its only loops. A request
that fails changes no scope, but the one that it has added stays, in no list. -/
theorem links_of_requests (requests : List Request) :
    let a := grown requests
    a.size = requests.length ∧
    (∀ (i : Nat) (s : Scope), a.scopes[i]? = some s → s.index = i ∧
      requests[i]? = some ⟨s.parent, s.isToplevel⟩ ∧ s.children.Pairwise (· < ·) ∧
      ∀ child ∈ s.children, i ≤ child) ∧
    (∀ child owner, a.Child child owner ↔ hostOf requests child = some owner) ∧
    (∀ i, Relation.TransGen a.Child i i ↔ ∃ r, requests[i]? = some r ∧ r.ForItself i) ∧
    ∀ r : Request,
      ((a.add r.parent r.isToplevel).2 = false ↔ r.parent ≠ none ∧ r.host a.size = none) ∧
      ((a.add r.parent r.isToplevel).2 = false → (a.add r.parent r.isToplevel).1.scopes =
        a.scopes ++ [{ index := a.size, isToplevel := r.isToplevel, parent := r.parent }]) := by
  intro a
  have h : Linked requests a := linked_grown requests
  refine ⟨h.size, fun i s hs => ?_, fun child owner => h.child_iff, fun i => ?_,
    fun r => ⟨a.add_fails_iff r, fun hfails => ?_⟩⟩
  · obtain ⟨hindex, hasked⟩ := h.asked hs
    refine ⟨hindex, hasked, h.children_sorted hs, fun child hchild => ?_⟩
    exact hostOf_le ((h.mem_children_iff hs child).mp hchild)
  · rw [h.loop_iff, hostOf, Option.bind_eq_some_iff]
    simp only [Request.host_self_iff]
  · exact scopes_grow_of_no_host ((a.add_fails_iff r).mp hfails).2

/-- A scope in another, one that counts back to that, and one whose parent does not exist. -/
theorem links_of_backward_request :
    let requests : List Request :=
      [⟨none, true⟩, ⟨some 0, false⟩, ⟨some (-2), false⟩, ⟨some 9, false⟩]
    let a := grown requests
    a.scopes.map Scope.children = [[1], [2], [], []] ∧ ¬ Relation.TransGen a.Child 2 2 ∧
    (a.add (some (-6)) false).1.scopes = a.scopes ++
      [{ index := 4, isToplevel := false, parent := some (-6) }] := by
  intro requests a
  obtain ⟨_, _, _, hloops, hfails⟩ := links_of_requests requests
  refine ⟨by decide, fun hloop => ?_, (hfails ⟨some (-6), false⟩).2 (by decide)⟩
  obtain ⟨r, hr, hself⟩ := (hloops 2).mp hloop
  cases hr
  exact absurd hself (by unfold Request.ForItself; decide)

/-- A scope can be its own child, and a request that fails leaves a scope behind. -/
theorem links_of_request_for_itself :
    (grown [⟨some 0, false⟩]).Child 0 0 ∧
    ((grown []).add (some 5) false).2 = false ∧ ((grown []).add (some 5) false).1 ≠ grown [] :=
  ⟨⟨_, rfl, by decide⟩, by decide, by decide⟩

end ScopeLint.Arena
