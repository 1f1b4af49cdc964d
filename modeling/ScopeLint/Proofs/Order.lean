import ScopeLint.Proofs.Actions
import ScopeLint.Proofs.Closing
import ScopeLint.Proofs.Nesting

/-! # The order of scopes along a run

Every walk that a run reaches is nested (`Orderly`), whatever its events are. On
top of it stand the facts about two moments of one run: links never change, a
closed scope gets nothing inside it any more, and of its content nothing changes
but that parked uses are cleared. -/
namespace ScopeLint

theorem Scope.Proper.of_eq {s t : Scope} (h : s.Proper) (hb : t.bindings = s.bindings)
    (hh : t.history = s.history) : t.Proper :=
  ⟨hb ▸ h.distinct, by rw [hb, hh]; exact h.placed⟩

theorem Arena.link_perform (s : Scope) (e : Event) : link (s.perform e) = link s := by
  have h := s.frame_perform e
  simp only [Scope.frame, Prod.mk.injEq] at h
  simp [link, h]

theorem Arena.bindings_resolved (a : Arena) (place i : Nat) (bound : List (String × Nat))
    (s : Scope) : (a.resolved place i bound s).bindings = s.bindings := by
  unfold resolved
  split
  · rfl
  · split <;> rfl

namespace Walk

/-- What holds of every walk on the way. -/
structure Orderly (w : Walk) : Prop where
  nested : w.arena.Nested w.opened w.walked
  proper : ∀ {i : Nat} {s : Scope}, w.arena.scopes[i]? = some s → s.Proper
  closings : w.closings.map Closing.scope = w.walked

theorem orderly_start (filename : String) : Orderly { filename } :=
  ⟨Arena.nested_empty, by simp, rfl⟩

theorem Orderly.head {w : Walk} (h : w.Orderly) {i : Nat} {rest : List Nat}
    (hopen : w.opened = i :: rest) : ∃ s, w.arena.scopes[i]? = some s :=
  Arena.exists_scope (h.nested.lt_size_iff.mpr (Or.inr (by simp [hopen])))

theorem Orderly.links_close {w : Walk} (h : w.Orderly) {i : Nat} {rest : List Nat}
    (hopen : w.opened = i :: rest) : Arena.SameLinks (w.arena.close i).1 w.arena := by
  obtain ⟨s, hs⟩ := h.head hopen
  exact Arena.sameLinks_close h.nested.forest hs (h.proper hs).distinct

/-- A step adds a scope, or it leaves the links as they are. -/
theorem Orderly.links_step {w w' : Walk} {e : Event} (h : w.Orderly)
    (hstep : w.step e = .ok w') :
    (∃ top, w'.arena = (w.arena.add (w.opened.head?.map Int.ofNat) top).1) ∨
      Arena.SameLinks w'.arena w.arena := by
  cases effect_of_step hstep with
  | enter top => exact Or.inl ⟨top, rfl⟩
  | leave hopen => exact Or.inr (h.links_close hopen)
  | act _ hopen => exact Or.inr (Arena.sameLinks_modify _ _ _ fun s => Arena.link_perform s _)
  | quiet _ harena => exact Or.inr (harena ▸ Arena.SameLinks.refl _)

theorem Orderly.step {w w' : Walk} {e : Event} (h : w.Orderly) (hstep : w.step e = .ok w') :
    w'.Orderly := by
  cases effect_of_step hstep with
  | enter top =>
    refine ⟨h.nested.enter top, ?_, h.closings⟩
    intro i s hs
    rw [Arena.getElem?_add _ _ top h.nested.head_lt] at hs
    split at hs
    · cases hs
      exact (Scope.tracks_nil _ _ _).proper
    · obtain ⟨t, ht, rfl⟩ := Option.map_eq_some_iff.mp hs
      have hp := h.proper ht
      split
      · exact hp.of_eq rfl rfl
      · exact hp
  | @leave i rest hopen =>
    obtain ⟨s, hs⟩ := h.head hopen
    have hn : w.arena.Nested (i :: rest) w.walked := hopen ▸ h.nested
    refine ⟨hn.leave.links (h.links_close hopen).symm, ?_, ?_⟩
    · intro j t ht
      rw [Arena.getElem?_close h.nested.forest hs (h.proper hs).distinct] at ht
      obtain ⟨u, hu, rfl⟩ := Option.map_eq_some_iff.mp ht
      exact (h.proper hu).of_eq (Arena.bindings_resolved ..) (Arena.history_resolved ..)
    · simp [h.closings, Arena.close_scope_eq]
  | @act e i rest hact hopen =>
    have hlinks := Arena.sameLinks_modify w.arena i (·.perform e) fun s => Arena.link_perform s e
    refine ⟨h.nested.links hlinks.symm, ?_, h.closings⟩
    intro j t ht
    rw [Arena.getElem?_modify] at ht
    obtain ⟨u, hu, rfl⟩ := Option.map_eq_some_iff.mp ht
    have hp := h.proper hu
    split
    · exact Scope.proper_perform hp e
    · exact hp
  | quiet _ harena hopen hwalked hclosings =>
    exact ⟨harena ▸ hopen ▸ hwalked ▸ h.nested, harena ▸ h.proper,
      by rw [hclosings, hwalked]; exact h.closings⟩

theorem Orderly.replay {w w' : Walk} {events : List Event} (h : w.Orderly)
    (hr : w.replay events = .ok w') : w'.Orderly :=
  replay_invariant Orderly.step h hr

/-! ## When all scopes are closed -/

theorem Orderly.walked_perm {w : Walk} (h : w.Orderly) (hopen : w.opened = []) :
    w.walked.Perm (List.range w.arena.size) := by
  have hcover := h.nested.cover
  rwa [hopen, List.append_nil] at hcover

theorem Orderly.mem_walked {w : Walk} (h : w.Orderly) (hopen : w.opened = []) {i : Nat}
    (hi : i < w.arena.size) : i ∈ w.walked :=
  (h.walked_perm hopen).mem_iff.mpr (List.mem_range.mpr hi)

/-! ## Two moments of a run -/

theorem Orderly.size_step {w w' : Walk} {e : Event} (h : w.Orderly) (hstep : w.step e = .ok w') :
    w'.arena.size = w.arena.size + if e.isEntry then 1 else 0 := by
  cases effect_of_step hstep with
  | enter top =>
    exact Arena.size_add _ _ top
  | leave hopen => exact (h.links_close hopen).size
  | @act e i rest haction hopen =>
    rw [Event.isEntry_of_isAction haction]
    exact (Arena.sameLinks_modify w.arena i (·.perform e) fun s => Arena.link_perform s e).size
  | quiet hquiet harena =>
    have hentry : e.isEntry = false := by cases e <;> simp_all [Event.isQuiet, Event.isEntry]
    rw [hentry, harena]
    rfl

theorem Orderly.parent_step {w w' : Walk} {e : Event} (h : w.Orderly)
    (hstep : w.step e = .ok w') {i : Nat} {s : Scope} (hs : w.arena.scopes[i]? = some s) :
    ∃ t, w'.arena.scopes[i]? = some t ∧ t.parent = s.parent := by
  rcases h.links_step hstep with ⟨top, harena⟩ | hlinks
  · have hne : i ≠ w.arena.size := ne_of_lt (Arena.getElem?_lt hs)
    rw [harena, Arena.getElem?_add _ _ top h.nested.head_lt, if_neg hne, hs]
    refine ⟨_, rfl, ?_⟩
    split <;> rfl
  · obtain ⟨t, ht, _, hp, _⟩ := hlinks.symm.scope hs
    exact ⟨t, ht, hp⟩

/-- A scope keeps its parent. -/
theorem Orderly.parent_replay {w w' : Walk} {events : List Event} (h : w.Orderly)
    (hr : w.replay events = .ok w') {i : Nat} {s : Scope} (hs : w.arena.scopes[i]? = some s) :
    ∃ t, w'.arena.scopes[i]? = some t ∧ t.parent = s.parent := by
  refine (replay_invariant (P := fun v => v.Orderly ∧
    ∃ t, v.arena.scopes[i]? = some t ∧ t.parent = s.parent) ?_ ⟨h, s, hs, rfl⟩ hr).2
  rintro v e v' ⟨hv, t, ht, hp⟩ hstep
  obtain ⟨u, hu, hup⟩ := hv.parent_step hstep ht
  exact ⟨hv.step hstep, u, hu, hup.trans hp⟩

theorem walked_step {w w' : Walk} {e : Event} (hstep : w.step e = .ok w') {i : Nat}
    (hi : i ∈ w.walked) : i ∈ w'.walked := by
  cases effect_of_step hstep with
  | enter | act => exact hi
  | leave => exact List.mem_append_left _ hi
  | quiet _ _ _ hwalked => exact hwalked ▸ hi

theorem Orderly.inside_step {w w' : Walk} {e : Event} (h : w.Orderly)
    (hstep : w.step e = .ok w') {i : Nat} (hi : i ∈ w.walked) (d : Nat) :
    w'.arena.Inside d i ↔ w.arena.Inside d i := by
  rcases h.links_step hstep with ⟨top, harena⟩ | hlinks
  · rw [harena, h.nested.inside_enter top, or_iff_left]
    exact fun ho => h.nested.not_open hi ho.2
  · exact hlinks.inside_iff

/-- A closed scope stays closed, and gets no more scopes inside it. -/
theorem Orderly.inside_replay {w w' : Walk} {events : List Event} (h : w.Orderly)
    (hr : w.replay events = .ok w') {i : Nat} (hi : i ∈ w.walked) :
    i ∈ w'.walked ∧ ∀ d, w'.arena.Inside d i ↔ w.arena.Inside d i := by
  refine (replay_invariant (P := fun v => v.Orderly ∧ i ∈ v.walked ∧
    ∀ d, v.arena.Inside d i ↔ w.arena.Inside d i) ?_ ⟨h, hi, fun _ => Iff.rfl⟩ hr).2
  rintro v e v' ⟨hv, hvi, hin⟩ hstep
  exact ⟨hv.step hstep, walked_step hstep hvi,
    fun d => (hv.inside_step hstep hvi d).trans (hin d)⟩

/-- The scope as it was, less some parked uses. -/
def Cleared (s t : Scope) : Prop :=
  t = { s with undefined := t.undefined } ∧ t.undefined.entries.Sublist s.undefined.entries

theorem Cleared.refl (s : Scope) : Cleared s s := ⟨rfl, List.Sublist.refl _⟩

theorem Cleared.trans {s t u : Scope} (h : Cleared s t) (h' : Cleared t u) : Cleared s u := by
  refine ⟨?_, h'.2.trans h.2⟩
  rw [h'.1, h.1]

theorem Orderly.cleared_step {w w' : Walk} {e : Event} (h : w.Orderly)
    (hstep : w.step e = .ok w') {j : Nat} (hj : j ∈ w.walked) {s : Scope}
    (hs : w.arena.scopes[j]? = some s) :
    ∃ t, w'.arena.scopes[j]? = some t ∧ Cleared s t := by
  -- an open scope is not the closed one, so what happens there is no concern of it
  have hopenne : ∀ {i rest}, w.opened = i :: rest → j ≠ i := by
    rintro i rest hopen rfl
    exact h.nested.not_open hj (by simp [hopen])
  cases effect_of_step hstep with
  | enter top =>
    have hne : j ≠ w.arena.size := ne_of_lt (Arena.getElem?_lt hs)
    have hhead : w.opened.head? ≠ some j := by
      intro hh
      exact h.nested.not_open hj (List.mem_of_mem_head? hh)
    refine ⟨s, ?_, Cleared.refl s⟩
    rw [Arena.getElem?_add _ _ top h.nested.head_lt, if_neg hne, hs]
    simp [hhead]
  | @leave i rest hopen =>
    obtain ⟨si, hsi⟩ := h.head hopen
    rw [Arena.getElem?_close h.nested.forest hsi (h.proper hsi).distinct, hs]
    refine ⟨_, rfl, ?_⟩
    unfold Arena.resolved
    split
    · exact ⟨rfl, List.filter_sublist⟩
    · rw [if_neg (hopenne hopen)]
      exact Cleared.refl s
  | act _ hopen =>
    refine ⟨s, ?_, Cleared.refl s⟩
    rw [Arena.getElem?_modify, hs]
    simp [hopenne hopen]
  | quiet _ harena => exact ⟨s, harena ▸ hs, Cleared.refl s⟩

/-- Of a closed scope nothing changes any more but that parked uses are cleared. -/
theorem Orderly.cleared_replay {w w' : Walk} {events : List Event} (h : w.Orderly)
    (hr : w.replay events = .ok w') {j : Nat} (hj : j ∈ w.walked) {s : Scope}
    (hs : w.arena.scopes[j]? = some s) :
    ∃ t, w'.arena.scopes[j]? = some t ∧ Cleared s t := by
  refine (replay_invariant (P := fun v => v.Orderly ∧ j ∈ v.walked ∧
    ∃ t, v.arena.scopes[j]? = some t ∧ Cleared s t) ?_ ⟨h, hj, s, hs, Cleared.refl s⟩ hr).2.2
  rintro v e v' ⟨hv, hvj, t, ht, hc⟩ hstep
  obtain ⟨u, hu, hcu⟩ := hv.cleared_step hstep hvj ht
  exact ⟨hv.step hstep, walked_step hstep hvj, u, hu, hc.trans hcu⟩

end Walk
end ScopeLint
