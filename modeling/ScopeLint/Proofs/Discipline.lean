import ScopeLint.Proofs.Balance
import ScopeLint.Proofs.Order

/-! # A whole walk

What the runs of `Order` say when a run is over: scopes are numbered as they were
opened, every scope is closed once and after those inside it, and from then on
nothing is bound, used or opened in it. -/
namespace ScopeLint

namespace Walk

/-- How many scopes were opened at these moments. -/
def entries (moments : List (Walk × Event)) : Nat := moments.countP (·.2.isEntry)

/-- The scope that is closed at a moment. -/
def closedAt (m : Walk × Event) : Option Nat := if m.2 = .leave then m.1.opened.head? else none

/-- How a run went that is over: `moments` are its steps, and `w` is what it came to. -/
structure Completed (moments : List (Walk × Event)) (w : Walk) : Prop where
  opened : w.opened = []
  branches : w.branches = 0
  indexed : ∀ {i : Nat} {s : Scope}, w.arena.scopes[i]? = some s → s.index = i
  /-- Every scope was opened at a moment of the run. -/
  size : w.arena.size = entries moments
  /-- A scope gets the next index, and for its parent the innermost scope that is open. -/
  entered : ∀ {before after : List (Walk × Event)} {v : Walk} {top : Bool},
    moments = before ++ (v, .enter top) :: after →
      ∃ s, w.arena.scopes[entries before]? = some s ∧ s.parent = v.opened.head?.map Int.ofNat
  root_iff : ∀ {i : Nat} {s : Scope}, w.arena.scopes[i]? = some s → (s.parent = none ↔ i = 0)
  parent_lt : ∀ {i : Nat} {s : Scope} {q : Int}, w.arena.scopes[i]? = some s →
    s.parent = some q → ∃ p : Nat, q = p ∧ p < i
  interval : ∀ {i : Nat}, i < w.arena.size →
    ∃ stop, ∀ j, w.arena.Within j i ↔ i ≤ j ∧ j < stop
  /-- Every scope is walked once, -/
  walked : w.walked.Perm (List.range w.arena.size)
  /-- after those inside it. -/
  leavesFirst : ∀ {d i : Nat}, w.arena.Inside d i → w.walked.idxOf d < w.walked.idxOf i
  /-- Scopes are closed in the order in which they are walked, and only then. -/
  closings : w.closings.map Closing.scope = w.walked
  left : moments.filterMap closedAt = w.walked
  /-- When a scope closes, all inside it is closed; and later nothing happens inside it, but that
  parked uses are cleared. -/
  closed : ∀ {before after : List (Walk × Event)} {v : Walk},
    moments = before ++ (v, .leave) :: after →
      ∃ i rest, v.opened = i :: rest ∧ i ∉ v.walked ∧
        (∀ d, w.arena.Inside d i → d ∈ v.walked) ∧
        ∀ m ∈ after, (∀ j ∈ m.1.opened.head?, ¬ w.arena.Within j i) ∧
          ∀ d, w.arena.Within d i → ∃ s t, m.1.arena.scopes[d]? = some s ∧
            w.arena.scopes[d]? = some t ∧ Cleared s t

theorem size_replay {w : Walk} {events : List Event} {filename : String}
    (hr : replay { filename } events = .ok w) :
    w.arena.size = entries (moments { filename } events) := by
  refine (replay_induction (P := fun past v => v.Orderly ∧ v.arena.size = entries past) ?_
    ⟨orderly_start filename, rfl⟩ hr).2
  rintro past v e v' ⟨hv, hsize⟩ hstep
  refine ⟨hv.step hstep, ?_⟩
  rw [hv.size_step hstep, hsize]
  simp [entries, List.countP_append, List.countP_singleton]

theorem closedAt_step {w w' : Walk} {e : Event} (hstep : w.step e = .ok w') :
    w'.walked = w.walked ++ (closedAt (w, e)).toList := by
  cases effect_of_step hstep with
  | enter top => simp [closedAt]
  | leave hopen => simp [closedAt, hopen]
  | @act e i rest haction hopen =>
    have hne : e ≠ .leave := by rintro rfl; simp [Event.isAction] at haction
    simp [closedAt, hne]
  | quiet hquiet _ _ hwalked =>
    have hne : e ≠ .leave := by rintro rfl; simp [Event.isQuiet] at hquiet
    simp [closedAt, hne, hwalked]

theorem closedAt_replay {w : Walk} {events : List Event} {filename : String}
    (hr : replay { filename } events = .ok w) :
    (moments { filename } events).filterMap closedAt = w.walked := by
  refine replay_induction (P := fun past v => past.filterMap closedAt = v.walked) ?_ rfl hr
  intro past v e v' hpast hstep
  rw [closedAt_step hstep, List.filterMap_append, hpast]
  cases h : closedAt (v, e) <;> simp [h]

/-- Where a scope opens, it gets the index that comes next and the innermost open scope for its
parent. -/
theorem parent_of_enter {w v : Walk} {events : List Event} {filename : String}
    {before after : List (Walk × Event)} {top : Bool} (hr : replay { filename } events = .ok w)
    (hm : moments { filename } events = before ++ (v, .enter top) :: after) :
    ∃ s, w.arena.scopes[entries before]? = some s ∧ s.parent = v.opened.head?.map Int.ofNat := by
  obtain ⟨first, second, v', _, hfirst, hbefore, hstep, hsecond, _⟩ := moments_split hr hm
  have hv : v.Orderly := (orderly_start filename).replay hfirst
  have hsize : v.arena.size = entries before := hbefore ▸ size_replay hfirst
  have hnew : ∃ s, v'.arena.scopes[v.arena.size]? = some s ∧
      s.parent = v.opened.head?.map Int.ofNat := by
    cases hstep
    have hadd := Arena.getElem?_add v.arena _ top hv.nested.head_lt v.arena.size
    rw [if_pos rfl] at hadd
    exact ⟨_, hadd, rfl⟩
  obtain ⟨s, hs, hp⟩ := hnew
  obtain ⟨t, ht, htp⟩ := (hv.step hstep).parent_replay hsecond hs
  exact ⟨t, hsize ▸ ht, htp.trans hp⟩

theorem Orderly.within_replay {w w' : Walk} {events : List Event} (h : w.Orderly)
    (hr : w.replay events = .ok w') {i : Nat} (hi : i ∈ w.walked) (d : Nat) :
    w'.arena.Within d i ↔ w.arena.Within d i := by
  rw [Arena.within_iff, Arena.within_iff, (h.inside_replay hr hi).2 d]

/-- Once a scope is closed, nothing is bound, used or opened inside it, and of the scopes there
nothing changes but that parked uses are cleared. -/
theorem Orderly.still_after_close {w w' : Walk} {events : List Event} (h : w.Orderly)
    (hr : w.replay events = .ok w') {i : Nat} (hi : i ∈ w.walked) :
    (∀ j ∈ w.opened.head?, ¬ w'.arena.Within j i) ∧
      ∀ d, w'.arena.Within d i → ∃ s t, w.arena.scopes[d]? = some s ∧
        w'.arena.scopes[d]? = some t ∧ Cleared s t := by
  constructor
  · intro j hj
    rw [h.within_replay hr hi]
    exact h.nested.not_within_walked (List.mem_of_mem_head? hj) hi
  · intro d hd
    have hd : w.arena.Within d i := (h.within_replay hr hi d).mp hd
    have hwalked : d ∈ w.walked := by
      rcases Arena.within_iff.mp hd with rfl | hin
      · exact hi
      · exact h.nested.closed hin hi
    obtain ⟨s, hs⟩ := Arena.exists_scope (h.nested.lt_size_iff.mpr (Or.inl hwalked))
    obtain ⟨t, ht, hc⟩ := h.cleared_replay hr hwalked hs
    exact ⟨s, t, hs, ht, hc⟩

theorem closed_of_leave {w v : Walk} {events : List Event} {filename : String}
    {before after : List (Walk × Event)} (hr : replay { filename } events = .ok w)
    (hm : moments { filename } events = before ++ (v, .leave) :: after) :
    ∃ i rest, v.opened = i :: rest ∧ i ∉ v.walked ∧
      (∀ d, w.arena.Inside d i → d ∈ v.walked) ∧
      ∀ m ∈ after, (∀ j ∈ m.1.opened.head?, ¬ w.arena.Within j i) ∧
        ∀ d, w.arena.Within d i → ∃ s t, m.1.arena.scopes[d]? = some s ∧
          w.arena.scopes[d]? = some t ∧ Cleared s t := by
  obtain ⟨first, second, v', _, hfirst, _, hstep, hsecond, hafter⟩ := moments_split hr hm
  have hv : v.Orderly := (orderly_start filename).replay hfirst
  have hv' : v'.Orderly := hv.step hstep
  cases effect_of_step hstep with
  | quiet hquiet => simp [Event.isQuiet] at hquiet
  | act haction => simp [Event.isAction] at haction
  | @leave i rest hopen =>
    have hi : i ∈ v.walked ++ [i] := by simp
    refine ⟨i, rest, hopen, hv.nested.not_walked (by simp [hopen]), ?_, ?_⟩
    · intro d hd
      have hd := ((hv'.inside_replay hsecond hi).2 d).mp hd
      have hmem : d ∈ v.walked ++ [i] := hv'.nested.closed hd hi
      rcases List.mem_append.mp hmem with hmem | hmem
      · exact hmem
      · rw [List.mem_singleton.mp hmem] at hd
        exact absurd hd (hv'.nested.forest.acyclic i)
    · intro m hmem
      obtain ⟨f, g, u, hf, hu, hg⟩ := replay_of_mem_moments hsecond (hafter ▸ hmem)
      have him : i ∈ m.1.walked := (hv'.inside_replay hf hi).1
      exact (hv'.replay hf).still_after_close (replay_cons_iff.mpr ⟨u, hu, hg⟩) him

/-- When the last open scope is the first one, all scopes lie in it. -/
theorem Orderly.within_root {v w : Walk} (h : v.Orderly) (hopen : v.opened = [0])
    (hstep : v.step .leave = .ok w) {j : Nat} (hj : j < w.arena.size) : w.arena.Within j 0 := by
  cases effect_of_step hstep with
  | quiet hquiet => simp [Event.isQuiet] at hquiet
  | act haction => simp [Event.isAction] at haction
  | leave hleave =>
    have hlinks := h.links_close hleave
    refine hlinks.within_iff.mpr (h.nested.open_within (by simp [hopen]) (Nat.zero_le j) ?_)
    exact hlinks.size ▸ hj

theorem Orderly.parent_eq_none_iff {w : Walk} (h : w.Orderly)
    (hroot : ∀ {j : Nat}, j < w.arena.size → w.arena.Within j 0) {i : Nat} {s : Scope}
    (hs : w.arena.scopes[i]? = some s) : s.parent = none ↔ i = 0 := by
  constructor
  · intro hnone
    rcases Arena.within_iff.mp (hroot (Arena.getElem?_lt hs)) with hi | hin
    · exact hi
    · obtain ⟨p, ⟨t, ht, htp⟩, _⟩ := Arena.inside_iff_parent.mp hin
      cases hs.symm.trans ht
      simp [hnone] at htp
  · rintro rfl
    cases hp : s.parent with
    | none => rfl
    | some q =>
      obtain ⟨p, _, hlt⟩ := h.nested.parented hs hp
      omega

theorem Orderly.idxOf_lt {w : Walk} (h : w.Orderly) (hopen : w.opened = []) {d i : Nat}
    (hin : w.arena.Inside d i) : w.walked.idxOf d < w.walked.idxOf i := by
  have hi : i ∈ w.walked := h.mem_walked hopen (Nat.lt_trans (h.nested.index_lt hin) hin.lt_size)
  have hd : d ∈ w.walked := h.nested.closed hin hi
  have hne : w.walked.idxOf d ≠ w.walked.idxOf i := by
    intro heq
    rw [List.idxOf_inj hd] at heq
    exact h.nested.forest.acyclic i (heq ▸ hin)
  by_contra hnot
  have hlt : w.walked.idxOf i < w.walked.idxOf d := by omega
  have hpair := List.pairwise_iff_getElem.mp h.nested.leavesFirst _ _
    (List.idxOf_lt_length_of_mem hi) (List.idxOf_lt_length_of_mem hd) hlt
  rw [List.getElem_idxOf, List.getElem_idxOf] at hpair
  exact hpair hin

end Walk

/-- The walk of a module ends with nothing open. On the way it numbers the scopes as it opens them,
each in the innermost open one, and closes each of them once, after all inside it and for good. -/
theorem walk_opens_and_closes_in_order {root : Node} (hroot : root.form = .module)
    (hname : ∀ p ∈ root.preorder 0, p.2.form.namesImport = true) (filename : String) :
    ∃ w, walk root filename = .ok w ∧
      Walk.Completed (Walk.moments { filename } (root.trace .empty).1) w := by
  obtain ⟨inner, v, w, htrace, hv, hvo, hstep, hwo, hwb⟩ :=
    Node.replay_root hroot hname filename
  have hr : Walk.replay { filename } (root.trace .empty).1 = .ok w := by
    rw [htrace]
    exact Walk.replay_append_iff.mpr ⟨v, hv, Walk.replay_cons_iff.mpr ⟨w, hstep, rfl⟩⟩
  have hvord : v.Orderly := (Walk.orderly_start filename).replay hv
  have hword : w.Orderly := hvord.step hstep
  refine ⟨w, walk_ok_iff.mpr ⟨hr, hwo, hwb⟩, ?_⟩
  exact {
    opened := hwo
    branches := hwb
    indexed := hword.nested.indexed
    size := Walk.size_replay hr
    entered := Walk.parent_of_enter hr
    root_iff := hword.parent_eq_none_iff (hvord.within_root hvo hstep)
    parent_lt := hword.nested.parented
    interval := fun hi => hword.nested.interval (hword.mem_walked hwo hi)
    walked := hword.walked_perm hwo
    leavesFirst := hword.idxOf_lt hwo
    closings := hword.closings
    left := Walk.closedAt_replay hr
    closed := Walk.closed_of_leave hr }

/-- A module with a function in a branch, a module in the function, and a name that stands at two
places of the tree. -/
def nestedModules : Node :=
  let shared := Node.mk 5 .unknown (.name "x") []
  .mk 0 .unknown .module [[
    .mk 1 .unknown .ifBranch [[shared], [
      .mk 2 .unknown (.functionDef "f" .unknown) [[], [], [
        .mk 3 .unknown .module [[
          .mk 4 .unknown (.importModule ["x"] none none) [], shared]]]]], []]]]

theorem walk_nestedModules :
    nestedModules.form = .module ∧
      (∀ p ∈ nestedModules.preorder 0, p.2.form.namesImport = true) ∧
      ∃ w, walk nestedModules "nested" = .ok w ∧
        Walk.Completed (Walk.moments { filename := "nested" } (nestedModules.trace .empty).1) w :=
  ⟨rfl, by decide, walk_opens_and_closes_in_order rfl (by decide) "nested"⟩

end ScopeLint
