import Mathlib.Data.List.Range
import ScopeLint.Proofs.Forest

/-! # Scopes that open and close like brackets

`Nested` relates the links of an arena to the scopes that are open and to those
that were closed, in order. A scope that opens comes last and directly inside the
innermost open one; a scope that closes is the innermost open one. Nothing else
about a walk is needed for the order of scopes: that open scopes lie in each
other, that what lies inside a closed scope is closed, before it, and that every
subtree is an interval of indices. -/
namespace ScopeLint.Arena

variable {a b : Arena} {opened walked : List Nat}

/-- Every scope of the list lies directly in the next one, and the last in none. -/
def Path (a : Arena) : List Nat → Prop
  | [] => True
  | i :: rest =>
    (∃ s, a.scopes[i]? = some s ∧ s.parent = rest.head?.map Int.ofNat) ∧ a.Path rest

/-- The scopes around the innermost one of a path are the others. -/
theorem Path.inside_iff {i : Nat} {rest : List Nat} (h : a.Path (i :: rest)) (j : Nat) :
    a.Inside i j ↔ j ∈ rest := by
  induction rest generalizing i with
  | nil =>
    obtain ⟨⟨s, hs, hp⟩, _⟩ := h
    simp only [List.not_mem_nil, iff_false]
    intro hin
    obtain ⟨p, ⟨t, ht, htp⟩, _⟩ := inside_iff_parent.mp hin
    cases hs.symm.trans ht
    simp [hp] at htp
  | cons p rest ih =>
    obtain ⟨⟨s, hs, hp⟩, hrest⟩ := h
    have hparent : a.Parent i p := ⟨s, hs, hp⟩
    rw [inside_iff_parent, List.mem_cons, ← ih hrest, eq_comm (a := j), ← Arena.within_iff]
    constructor
    · rintro ⟨q, hq, hw⟩
      exact hparent.unique hq ▸ hw
    · intro hw
      exact ⟨p, hparent, hw⟩

theorem Path.congr {path : List Nat} (h : a.Path path)
    (hsame : ∀ i ∈ path, ∀ s, a.scopes[i]? = some s →
      ∃ t, b.scopes[i]? = some t ∧ t.parent = s.parent) : b.Path path := by
  induction path with
  | nil => trivial
  | cons i rest ih =>
    obtain ⟨⟨s, hs, hp⟩, hrest⟩ := h
    obtain ⟨t, ht, htp⟩ := hsame i (by simp) s hs
    exact ⟨⟨t, ht, htp.trans hp⟩, ih hrest fun j hj => hsame j (by simp [hj])⟩

/-- The scopes of an arena with those open, innermost first, and those closed, in that order. -/
structure Nested (a : Arena) (opened walked : List Nat) : Prop where
  forest : a.Forest
  indexed : ∀ {i : Nat} {s : Scope}, a.scopes[i]? = some s → s.index = i
  parented : ∀ {i : Nat} {s : Scope} {q : Int}, a.scopes[i]? = some s → s.parent = some q →
    ∃ p : Nat, q = p ∧ p < i
  path : a.Path opened
  cover : (walked ++ opened).Perm (List.range a.size)
  closed : ∀ {d i : Nat}, a.Inside d i → i ∈ walked → d ∈ walked
  leavesFirst : walked.Pairwise fun earlier later => ¬ a.Inside later earlier
  open_within : ∀ {i j : Nat}, i ∈ opened → i ≤ j → j < a.size → a.Within j i
  interval : ∀ {i : Nat}, i ∈ walked → ∃ stop, ∀ j, a.Within j i ↔ i ≤ j ∧ j < stop

namespace Nested

theorem ordered (h : a.Nested opened walked) {c p : Nat} (hp : a.Parent c p) : p < c := by
  obtain ⟨s, hs, hsp⟩ := hp
  obtain ⟨q, hq, hlt⟩ := h.parented hs hsp
  exact Int.ofNat.inj hq ▸ hlt

theorem index_lt (h : a.Nested opened walked) {d i : Nat} (hin : a.Inside d i) : i < d :=
  hin.index_lt h.ordered

theorem lt_size_iff (h : a.Nested opened walked) {i : Nat} :
    i < a.size ↔ i ∈ walked ∨ i ∈ opened := by
  rw [← List.mem_range, ← h.cover.mem_iff, List.mem_append]

theorem not_open (h : a.Nested opened walked) {i : Nat} (hi : i ∈ walked) : i ∉ opened := by
  have hn : (walked ++ opened).Nodup := h.cover.nodup_iff.mpr List.nodup_range
  exact fun ho => (List.nodup_append.mp hn).2.2 i hi i ho rfl

theorem not_walked (h : a.Nested opened walked) {i : Nat} (hi : i ∈ opened) : i ∉ walked :=
  fun hw => h.not_open hw hi

/-- No closed scope lies around an open one. -/
theorem not_within_walked (h : a.Nested opened walked) {i j : Nat} (hi : i ∈ opened)
    (hj : j ∈ walked) : ¬ a.Within i j := by
  intro hw
  rcases Arena.within_iff.mp hw with rfl | hin
  · exact h.not_open hj hi
  · exact h.not_walked hi (h.closed hin hj)

/-- All that lies inside the innermost open scope is closed. -/
theorem walked_of_inside_head {i : Nat} (h : a.Nested (i :: opened) walked) {d : Nat}
    (hin : a.Inside d i) : d ∈ walked := by
  rcases h.lt_size_iff.mp hin.lt_size with hd | hd
  · exact hd
  · exfalso
    rcases List.mem_cons.mp hd with rfl | hd
    · exact h.forest.acyclic d hin
    · exact h.forest.acyclic i (((h.path.inside_iff d).mpr hd).trans hin)

theorem links (h : a.Nested opened walked) (hl : SameLinks a b) : b.Nested opened walked where
  forest := hl.forest h.forest
  indexed hs := by
    obtain ⟨t, ht, hi, _⟩ := hl.symm.scope hs
    exact hi ▸ h.indexed ht
  parented hs hq := by
    obtain ⟨t, ht, _, hp, _⟩ := hl.symm.scope hs
    exact h.parented ht (hp.trans hq)
  path := h.path.congr fun i _ s hs => by
    obtain ⟨t, ht, _, hp, _⟩ := hl.scope hs
    exact ⟨t, ht, hp⟩
  cover := hl.size ▸ h.cover
  closed hin := h.closed (hl.inside_iff.mpr hin)
  leavesFirst := h.leavesFirst.imp fun hn hin => hn (hl.inside_iff.mpr hin)
  open_within hi hij hj := hl.within_iff.mp (h.open_within hi hij (hl.size ▸ hj))
  interval hi := by
    obtain ⟨stop, hstop⟩ := h.interval hi
    exact ⟨stop, fun j => hl.within_iff.symm.trans (hstop j)⟩

theorem leave {i : Nat} (h : a.Nested (i :: opened) walked) :
    a.Nested opened (walked ++ [i]) where
  forest := h.forest
  indexed := h.indexed
  parented := h.parented
  path := h.path.2
  cover := by
    rw [List.append_assoc, List.singleton_append]
    exact h.cover
  closed {d k} hin hk := by
    rcases List.mem_append.mp hk with hk | hk
    · exact List.mem_append_left _ (h.closed hin hk)
    · rw [List.mem_singleton.mp hk] at hin
      exact List.mem_append_left _ (h.walked_of_inside_head hin)
  leavesFirst := by
    refine List.pairwise_append.mpr ⟨h.leavesFirst, List.pairwise_singleton _ _, ?_⟩
    intro x hx y hy hin
    rw [List.mem_singleton.mp hy] at hin
    exact h.not_within_walked (by simp) hx hin.within
  open_within hk := h.open_within (List.mem_cons_of_mem _ hk)
  interval {k} hk := by
    rcases List.mem_append.mp hk with hk | hk
    · exact h.interval hk
    · -- while a scope is open its subtree reaches up to the last scope
      rw [List.mem_singleton.mp hk]
      refine ⟨a.size, fun j => ⟨fun hw => ?_, fun ⟨hij, hj⟩ => h.open_within (by simp) hij hj⟩⟩
      have hi : i < a.size := h.lt_size_iff.mpr (Or.inr (by simp))
      rcases Arena.within_iff.mp hw with rfl | hin
      · exact ⟨le_refl j, hi⟩
      · exact ⟨le_of_lt (h.index_lt hin), hin.lt_size⟩

/-- The parent of a new scope exists. -/
theorem head_lt (h : a.Nested opened walked) : ∀ p ∈ opened.head?, p < a.size :=
  fun _ hp => h.lt_size_iff.mpr (Or.inr (List.mem_of_mem_head? hp))

/-- A new scope is inside the open scopes. -/
theorem inside_enter (h : a.Nested opened walked) (top : Bool) {d i : Nat} :
    (a.add (opened.head?.map Int.ofNat) top).1.Inside d i ↔
      a.Inside d i ∨ d = a.size ∧ i ∈ opened := by
  rw [inside_add h.head_lt h.forest]
  refine or_congr Iff.rfl (and_congr_right fun _ => ?_)
  cases opened with
  | nil => simp
  | cons p rest =>
    simp only [List.head?_cons, Option.mem_some_iff, exists_eq_left', List.mem_cons]
    rw [Arena.within_iff, h.path.inside_iff, eq_comm]

theorem within_enter (h : a.Nested opened walked) (top : Bool) {d i : Nat} :
    (a.add (opened.head?.map Int.ofNat) top).1.Within d i ↔
      a.Within d i ∨ d = a.size ∧ i ∈ opened := by
  rw [Arena.within_iff, Arena.within_iff, h.inside_enter top, or_assoc]

theorem enter (h : a.Nested opened walked) (top : Bool) :
    (a.add (opened.head?.map Int.ofNat) top).1.Nested (a.size :: opened) walked where
  forest := forest_add h.head_lt h.forest
  indexed {i s} hs := by
    rw [getElem?_add a _ top h.head_lt] at hs
    split at hs
    · next hi => cases hs; exact hi.symm
    · obtain ⟨t, ht, rfl⟩ := Option.map_eq_some_iff.mp hs
      have hi := h.indexed ht
      split <;> exact hi
  parented {i s q} hs hq := by
    rw [getElem?_add a _ top h.head_lt] at hs
    split at hs
    · next hi =>
      cases hs
      obtain ⟨p, hp, rfl⟩ := Option.map_eq_some_iff.mp hq
      exact ⟨p, rfl, hi ▸ h.head_lt p hp⟩
    · obtain ⟨t, ht, rfl⟩ := Option.map_eq_some_iff.mp hs
      refine h.parented ht ?_
      split at hq <;> exact hq
  path := by
    have hnew := getElem?_add a _ top h.head_lt a.size
    rw [if_pos rfl] at hnew
    refine ⟨⟨_, hnew, rfl⟩, h.path.congr fun i hi s hs => ?_⟩
    have hne : i ≠ a.size := ne_of_lt (getElem?_lt hs)
    rw [getElem?_add a _ top h.head_lt, if_neg hne, hs]
    refine ⟨_, rfl, ?_⟩
    split <;> rfl
  cover := by
    rw [size_add, List.range_succ]
    exact List.perm_middle.trans ((h.cover.cons a.size).trans (List.perm_append_singleton _ _).symm)
  closed {d i} hin hi := by
    rcases (h.inside_enter top).mp hin with hin | ⟨_, ho⟩
    · exact h.closed hin hi
    · exact absurd ho (h.not_open hi)
  leavesFirst := by
    refine h.leavesFirst.imp_of_mem ?_
    intro x y hx _ hn hin
    rcases (h.inside_enter top).mp hin with hin | ⟨_, ho⟩
    · exact hn hin
    · exact h.not_open hx ho
  open_within {i j} hi hij hj := by
    rw [size_add] at hj
    rw [h.within_enter top]
    rcases List.mem_cons.mp hi with rfl | hi
    · exact Or.inl (Arena.within_iff.mpr (Or.inl (by omega)))
    · by_cases hlast : j = a.size
      · exact Or.inr ⟨hlast, hi⟩
      · exact Or.inl (h.open_within hi hij (by omega))
  interval {i} hi := by
    obtain ⟨stop, hstop⟩ := h.interval hi
    refine ⟨stop, fun j => ?_⟩
    rw [h.within_enter top, ← hstop, or_iff_left]
    exact fun ho => h.not_open hi ho.2

end Nested

theorem nested_empty : Nested {} [] [] where
  forest := ⟨by rintro c p ⟨s, hs, _⟩; simp at hs, by simp, by simp, by
    intro i hi
    exact absurd hi.lt_size (by simp [size])⟩
  indexed := by simp
  parented := by simp
  path := trivial
  cover := List.Perm.refl _
  closed := by simp
  leavesFirst := List.Pairwise.nil
  open_within := by simp
  interval := by simp

end ScopeLint.Arena
