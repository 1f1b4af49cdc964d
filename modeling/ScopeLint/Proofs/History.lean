import ScopeLint.Proofs.Chronicle

/-! # The history of a scope

A scope remembers its bindings in the order in which they were made, each with
everything its event said. Later actions change nothing of this but whether a
binding was used. A shadowing names the place of the binding that took over. -/
namespace ScopeLint

/-- What a binding keeps: its name and place, how it was declared, and whether by a loop. -/
def Binding.record (b : Binding) : String × Span × Traits × Bool :=
  (b.name, b.span, b.traits, b.isLoop)

/-- The binding that an event makes in a scope, which is the top level or not. -/
def Event.record? (top : Bool) : Event → Option (String × Span × Traits × Bool)
  | .bind name span traits isLoop _ =>
    let fresh := Binding.declare name span { traits with isToplevel := top }
    some (name, span, fresh.traits, isLoop)
  | _ => none

theorem map_modify_of_eq {α β : Type} (l : List α) (i : Nat) {f : α → α} {g : α → β}
    (h : ∀ a, g (f a) = g a) : (l.modify i f).map g = l.map g := by
  refine List.ext_getElem? fun j => ?_
  rw [List.getElem?_map, List.getElem?_map, List.getElem?_modify]
  cases l[j]? with
  | none => rfl
  | some a =>
    simp only [Option.map_eq_map, Option.map_some]
    split
    · exact congrArg some (h a)
    · rfl

namespace Scope

/-- Marking a name changes its last binding, if that is the last one of all. -/
theorem history_mark_last {s : Scope} {name : String} {before : List Binding} {b : Binding}
    (hplace : s.bindings.find? name = some before.length) (hlast : s.history = before ++ [b])
    (f : Binding → Binding) : (s.mark name f).history = before ++ [f b] := by
  simp only [mark, hplace, hlast]
  clear hplace hlast
  induction before with
  | nil => rfl
  | cons first rest ih => exact congrArg (first :: ·) ih

theorem history_perform_bind (s : Scope) (name : String) (span : Span) (traits : Traits)
    (isLoop declared : Bool) :
    ∃ used, (s.perform (.bind name span traits isLoop declared)).history = s.history ++
      [{ Binding.declare name span { traits with isToplevel := s.isToplevel } with
        isLoop, used }] := by
  let bound := s.bind name span { traits with isToplevel := s.isToplevel }
  have hplace : bound.bindings.find? name = some s.history.length := by
    rw [bindings_bind, NameTable.find?_put, if_pos rfl]
  have hlast := s.history_bind name span { traits with isToplevel := s.isToplevel }
  have hplaced : ∀ f, (bound.mark name f).bindings.find? name = some s.history.length := by
    intro f
    rw [bindings_mark, hplace]
  cases isLoop <;> cases declared
  · exact ⟨_, hlast⟩
  · exact ⟨_, history_mark_last hplace hlast _⟩
  · exact ⟨_, history_mark_last hplace hlast _⟩
  · exact ⟨_, history_mark_last (hplaced _) (history_mark_last hplace hlast _) _⟩

theorem records_mark (s : Scope) (name : String) {f : Binding → Binding}
    (hf : ∀ b, (f b).record = b.record) :
    (s.mark name f).history.map Binding.record = s.history.map Binding.record := by
  unfold mark
  cases s.bindings.find? name with
  | none => rfl
  | some place => exact map_modify_of_eq s.history place hf

/-- A binding comes last in the history; nothing else enters there. -/
theorem records_perform (s : Scope) (e : Event) :
    (s.perform e).history.map Binding.record =
      s.history.map Binding.record ++ (e.record? s.isToplevel).toList := by
  cases e with
  | bind name span traits isLoop declared =>
    obtain ⟨used, h⟩ := s.history_perform_bind name span traits isLoop declared
    rw [h, List.map_append]
    rfl
  | use name span =>
    simp only [perform, use, Event.record?, Option.toList_none, List.append_nil]
    split
    · exact s.records_mark name fun _ => rfl
    · split <;> rfl
  | _ => simp [perform, Event.record?]

theorem shadowed_mark (s : Scope) (name : String) (f : Binding → Binding) :
    (s.mark name f).shadowed = s.shadowed := by
  unfold mark
  cases s.bindings.find? name <;> rfl

/-- Only a binding shadows, and with a place for itself at the end of the history. -/
theorem mem_shadowed_perform {s : Scope} {e : Event} {r : Shadowing}
    (h : r ∈ (s.perform e).shadowed) :
    r ∈ s.shadowed ∨ e.binds r.name = true ∧ r.current = s.history.length := by
  cases e with
  | bind name span traits isLoop declared =>
    have hbind : r ∈ (s.bind name span { traits with isToplevel := s.isToplevel }).shadowed := by
      cases isLoop <;> cases declared <;> simpa [perform, markLoop, markUsed, shadowed_mark] using h
    unfold bind at hbind
    cases hfind : s.bindings.find? name with
    | none =>
      rw [hfind] at hbind
      exact .inl hbind
    | some previous =>
      rw [hfind] at hbind
      rcases List.mem_append.mp hbind with h | h
      · exact .inl h
      · rw [List.mem_singleton.mp h]
        exact .inr ⟨decide_eq_true rfl, rfl⟩
  | use name span =>
    simp only [perform, use] at h
    split at h
    · exact .inl (shadowed_mark s name _ ▸ h)
    · split at h <;> exact .inl h
  | _ => exact .inl h

/-- The history holds what the actions bound, and every shadowing names a binding of its name. -/
structure Recalls (s : Scope) (actions : List Event) : Prop where
  history : s.history.map Binding.record = actions.filterMap (Event.record? s.isToplevel)
  shadowed : ∀ r ∈ s.shadowed, ∃ b, s.history[r.current]? = some b ∧ b.name = r.name

theorem Recalls.congr {s t : Scope} {actions : List Event} (h : s.Recalls actions)
    (hcore : t.core = s.core) : t.Recalls actions := by
  obtain ⟨htop, hhistory, _, hshadowed⟩ := core_eq_iff.mp hcore
  refine ⟨?_, ?_⟩
  · rw [hhistory, htop]
    exact h.history
  · rw [hhistory, hshadowed]
    exact h.shadowed

/-- The name of a binding is part of its record. -/
theorem name_of_records {history : List Binding} {name : String} {place : Nat}
    {records : List (String × Span × Traits × Bool)}
    (hrecords : history.map Binding.record = records)
    (hname : (records[place]?).map (·.1) = some name) :
    ∃ b, history[place]? = some b ∧ b.name = name := by
  rw [← hrecords, List.getElem?_map, Option.map_map] at hname
  obtain ⟨b, hb, hname⟩ := Option.map_eq_some_iff.mp hname
  exact ⟨b, hb, hname⟩

theorem Recalls.perform {s : Scope} {actions : List Event} (h : s.Recalls actions) (e : Event) :
    (s.perform e).Recalls (actions ++ [e]) := by
  have htop : (s.perform e).isToplevel = s.isToplevel := congrArg (·.2.1) (frame_perform s e)
  have hrecords := s.records_perform e
  refine ⟨?_, ?_⟩
  · rw [hrecords, htop, h.history, List.filterMap_append]
    cases hrecord : e.record? s.isToplevel <;> simp [hrecord]
  · intro r hr
    refine name_of_records hrecords ?_
    rcases mem_shadowed_perform hr with hr | ⟨hbinds, hcurrent⟩
    · obtain ⟨b, hb, hname⟩ := h.shadowed r hr
      have hlt : r.current < (s.history.map Binding.record).length := by
        rw [List.length_map]
        exact (List.getElem?_eq_some_iff.mp hb).1
      rw [List.getElem?_append_left hlt, List.getElem?_map, hb]
      exact congrArg some hname
    · cases e with
      | bind name span traits isLoop declared =>
        rw [hcurrent, ← s.history.length_map Binding.record]
        simp only [Event.record?, Option.toList_some, List.getElem?_concat_length, Option.map_some]
        exact congrArg some (of_decide_eq_true hbinds)
      | _ => cases hbinds

end Scope

namespace Walk

/-- All scopes of a walk recall what happened in them. -/
structure Recalls (past : List (Walk × Event)) (w : Walk) : Prop where
  resolves : w.Resolves past
  recalls : ∀ {i : Nat} {s : Scope}, w.arena.scopes[i]? = some s → s.Recalls (actionsIn past i)

theorem recalls_start (filename : String) : Recalls [] { filename } :=
  ⟨resolves_start filename, by simp⟩

theorem Recalls.step {past : List (Walk × Event)} {w w' : Walk} {e : Event}
    (h : Recalls past w) (hstep : w.step e = .ok w') : Recalls (past ++ [(w, e)]) w' := by
  refine ⟨h.resolves.step hstep, fun hs => ?_⟩
  refine scopes_step (P := fun actions s => s.Recalls actions) ?_ ?_ ?_ h.resolves h.recalls
    hstep hs
  · exact fun _ _ _ => ⟨rfl, by simp⟩
  · exact fun hrecalls hcore => hrecalls.congr hcore
  · exact fun _ hrecalls => hrecalls.perform _

theorem Recalls.replay {w : Walk} {events : List Event} {filename : String}
    (hr : Walk.replay { filename } events = .ok w) : Recalls (moments { filename } events) w :=
  replay_induction Recalls.step (recalls_start filename) hr

end Walk

/-- A binding in the history of a scope was made by an action there. -/
theorem Scope.Recalls.made {s : Scope} {actions : List Event} (h : s.Recalls actions) {b : Binding}
    (hb : b ∈ s.history) :
    ∃ traits declared, .bind b.name b.span traits b.isLoop declared ∈ actions ∧
      b.traits.isImport = traits.isImport := by
  have hrecord : b.record ∈ actions.filterMap (Event.record? s.isToplevel) := by
    rw [← h.history]
    exact List.mem_map_of_mem hb
  obtain ⟨e, he, hrecord⟩ := List.mem_filterMap.mp hrecord
  cases e with
  | bind name span traits isLoop declared =>
    simp only [Event.record?, Binding.record, Option.some.injEq, Prod.mk.injEq] at hrecord
    obtain ⟨rfl, rfl, htraits, rfl⟩ := hrecord
    exact ⟨traits, declared, he, htraits ▸ rfl⟩
  | _ => cases hrecord

/-! ## Shadowings -/

namespace Scope

/-- Every shadowing names two bindings of its name, the earlier one first. -/
def Shadows (s : Scope) : Prop :=
  ∀ r ∈ s.shadowed, r.previous < r.current ∧ ∃ previous current,
    s.history[r.previous]? = some previous ∧ s.history[r.current]? = some current ∧
    previous.name = r.name ∧ current.name = r.name

/-- A binding that shadows another one names it as the last binding of its name so far. -/
theorem mem_shadowed_bind {s : Scope} {name : String} {span : Span} {traits : Traits}
    {isLoop declared : Bool} {r : Shadowing}
    (h : r ∈ (s.perform (.bind name span traits isLoop declared)).shadowed) :
    r ∈ s.shadowed ∨ r.name = name ∧ s.bindings.find? name = some r.previous ∧
      r.current = s.history.length := by
  have hbind : r ∈ (s.bind name span { traits with isToplevel := s.isToplevel }).shadowed := by
    cases isLoop <;> cases declared <;> simpa [perform, markLoop, markUsed, shadowed_mark] using h
  unfold bind at hbind
  cases hfind : s.bindings.find? name with
  | none =>
    rw [hfind] at hbind
    exact .inl hbind
  | some previous =>
    rw [hfind] at hbind
    rcases List.mem_append.mp hbind with h | h
    · exact .inl h
    · rw [List.mem_singleton.mp h]
      exact .inr ⟨rfl, rfl, rfl⟩

theorem Shadows.perform {s : Scope} (h : s.Shadows) (hproper : s.Proper) (e : Event) :
    (s.perform e).Shadows := by
  intro r hr
  -- what was there stays, with its name
  have hkept : ∀ {place : Nat} {b : Binding}, s.history[place]? = some b →
      ∃ b', (s.perform e).history[place]? = some b' ∧ b'.name = b.name := by
    intro place b hb
    refine name_of_records (s.records_perform e) ?_
    have hlt : place < (s.history.map Binding.record).length := by
      rw [List.length_map]
      exact (List.getElem?_eq_some_iff.mp hb).1
    rw [List.getElem?_append_left hlt, List.getElem?_map, hb]
    rfl
  have hold : r ∈ s.shadowed → r.previous < r.current ∧ ∃ previous current,
      (s.perform e).history[r.previous]? = some previous ∧
      (s.perform e).history[r.current]? = some current ∧
      previous.name = r.name ∧ current.name = r.name := by
    intro hmem
    obtain ⟨hlt, previous, current, hprevious, hcurrent, hname, hname'⟩ := h r hmem
    obtain ⟨previous', hprevious', hsame⟩ := hkept hprevious
    obtain ⟨current', hcurrent', hsame'⟩ := hkept hcurrent
    exact ⟨hlt, previous', current', hprevious', hcurrent', hsame.trans hname,
      hsame'.trans hname'⟩
  cases e with
  | bind name span traits isLoop declared =>
    rcases mem_shadowed_bind hr with hmem | ⟨rfl, hfind, hcurrent⟩
    · exact hold hmem
    · obtain ⟨b, hb, hname⟩ := hproper.placed hfind
      obtain ⟨previous, hprevious, hsame⟩ := hkept hb
      obtain ⟨used, hhistory⟩ := s.history_perform_bind r.name span traits isLoop declared
      have hlast := congrArg (·[s.history.length]?) hhistory
      simp only [List.getElem?_concat_length] at hlast
      rw [hcurrent]
      exact ⟨(List.getElem?_eq_some_iff.mp hb).1, previous, _, hprevious, hlast,
        hsame.trans hname, rfl⟩
  | _ =>
    rcases mem_shadowed_perform hr with hmem | ⟨hbinds, _⟩
    · exact hold hmem
    · cases hbinds

theorem shadows_of_walk {root : Node} {filename : String} {w : Walk}
    (hw : walk root filename = .ok w) {i : Nat} {s : Scope} (hs : w.arena.scopes[i]? = some s) :
    s.Shadows := by
  refine Walk.scopes_replay (P := fun _ s => s.Shadows) ?_ ?_ ?_ (walk_ok_iff.mp hw).1 hs
  · intro index top parent r hr
    cases hr
  · intro actions s t h hcore
    obtain ⟨_, hhistory, _, hshadowed⟩ := core_eq_iff.mp hcore
    unfold Shadows
    rw [hhistory, hshadowed]
    exact h
  · exact fun htracks h => h.perform htracks.proper _

end Scope
end ScopeLint
