import ScopeLint.Walk

/-! # Runs of a walk

A replay seen from outside: every event with the walk it finds (`moments`), and
the four things that one event can do to the scopes of a walk (`Effect`). An
invariant is proved once for each of the four; `replay_induction` carries it
through a run, together with what the run has done so far. -/
namespace ScopeLint

/-- Whether an event binds or uses a name. -/
def Event.isAction : Event → Bool
  | .bind .. | .use .. => true
  | _ => false

/-- Whether an event opens a scope. -/
def Event.isEntry : Event → Bool
  | .enter _ => true
  | _ => false

theorem Event.isEntry_of_isAction {e : Event} (h : e.isAction = true) : e.isEntry = false := by
  cases e <;> simp_all [isAction, isEntry]

/-- Whether an event leaves the scopes alone. -/
def Event.isQuiet : Event → Bool
  | .branch | .join | .define .. | .semicolon _ => true
  | _ => false

/-- What a binding or a use does to the scope it happens in. -/
def Scope.perform (s : Scope) : Event → Scope
  | .bind name span traits isLoop declared =>
    let bound := s.bind name span { traits with isToplevel := s.isToplevel }
    let looped := if isLoop then bound.markLoop name true else bound
    if declared then looped.markUsed name true else looped
  | .use name span => s.use name span
  | _ => s

namespace Walk

/-- The steps of a replay: each event with the walk that it finds. -/
def moments (w : Walk) : List Event → List (Walk × Event)
  | [] => []
  | e :: events => (w, e) :: match w.step e with
    | .ok next => next.moments events
    | .error _ => []

/-- What one event can do to the scopes of a walk. -/
inductive Effect (w : Walk) : Event → Walk → Prop where
  | enter (top : Bool) : Effect w (.enter top) { w with
      arena := (w.arena.add (w.opened.head?.map Int.ofNat) top).1
      opened := w.arena.size :: w.opened }
  | leave {i : Nat} {rest : List Nat} (hopen : w.opened = i :: rest) : Effect w .leave { w with
      arena := (w.arena.close i).1
      opened := rest
      walked := w.walked ++ [i]
      closings := w.closings ++ [(w.arena.close i).2] }
  | act {e : Event} {i : Nat} {rest : List Nat} (haction : e.isAction = true)
      (hopen : w.opened = i :: rest) :
      Effect w e { w with arena := w.arena.modify i (·.perform e) }
  | quiet {e : Event} {w' : Walk} (hquiet : e.isQuiet = true) (harena : w'.arena = w.arena)
      (hopen : w'.opened = w.opened) (hwalked : w'.walked = w.walked)
      (hclosings : w'.closings = w.closings) : Effect w e w'

theorem effect_of_step {w w' : Walk} {e : Event} (h : w.step e = .ok w') : Effect w e w' := by
  cases e with
  | enter top =>
    cases h
    exact .enter top
  | leave =>
    cases hopen : w.opened with
    | nil => simp [step, hopen] at h
    | cons i rest =>
      simp only [step, hopen, Except.ok.injEq] at h
      subst h
      exact .leave hopen
  | bind name span traits isLoop declared =>
    cases hopen : w.opened with
    | nil => simp [step, hopen] at h
    | cons i rest =>
      simp only [step, hopen, Except.ok.injEq] at h
      subst h
      exact hopen ▸ .act rfl hopen
  | use name span =>
    cases hopen : w.opened with
    | nil => simp [step, hopen] at h
    | cons i rest =>
      simp only [step, hopen, Except.ok.injEq] at h
      subst h
      exact hopen ▸ .act rfl hopen
  | branch => cases h; exact .quiet rfl rfl rfl rfl rfl
  | join => cases h; exact .quiet rfl rfl rfl rfl rfl
  | define name span =>
    simp only [step, Except.ok.injEq] at h
    subst h
    split <;> exact .quiet rfl rfl rfl rfl rfl
  | semicolon span => cases h; exact .quiet rfl rfl rfl rfl rfl
  | emptyImport => simp [step] at h

theorem replay_cons_iff {w w' : Walk} {e : Event} {events : List Event} :
    w.replay (e :: events) = .ok w' ↔ ∃ v, w.step e = .ok v ∧ v.replay events = .ok w' := by
  simp only [replay, bind, Except.bind]
  cases w.step e <;> simp

theorem replay_append_iff {w w' : Walk} {first second : List Event} :
    w.replay (first ++ second) = .ok w' ↔
      ∃ v, w.replay first = .ok v ∧ v.replay second = .ok w' := by
  induction first generalizing w with
  | nil => simp [replay]
  | cons e first ih =>
    simp only [List.cons_append, replay_cons_iff, ih]
    constructor
    · rintro ⟨u, hu, v, hv, hw⟩
      exact ⟨v, ⟨u, hu, hv⟩, hw⟩
    · rintro ⟨v, ⟨u, hu, hv⟩, hw⟩
      exact ⟨u, hu, v, hv, hw⟩

theorem moments_cons {w v : Walk} {e : Event} (h : w.step e = .ok v) (events : List Event) :
    w.moments (e :: events) = (w, e) :: v.moments events := by
  simp [moments, h]

theorem replay_extends {P : List (Walk × Event) → Walk → Prop}
    (keep : ∀ {past w e w'}, P past w → w.step e = .ok w' → P (past ++ [(w, e)]) w')
    {past : List (Walk × Event)} {w w' : Walk} {events : List Event} (hstart : P past w)
    (h : w.replay events = .ok w') : P (past ++ w.moments events) w' := by
  induction events generalizing past w with
  | nil =>
    cases h
    simpa [moments] using hstart
  | cons e events ih =>
    obtain ⟨v, hstep, hrest⟩ := replay_cons_iff.mp h
    rw [moments_cons hstep, ← List.singleton_append, ← List.append_assoc]
    exact ih (keep hstart hstep) hrest

/-- What holds at the start and is kept by every step, as the past grows by it, holds at the end of
the moments of the run. -/
theorem replay_induction {P : List (Walk × Event) → Walk → Prop}
    (keep : ∀ {past w e w'}, P past w → w.step e = .ok w' → P (past ++ [(w, e)]) w')
    {w w' : Walk} {events : List Event} (hstart : P [] w)
    (h : w.replay events = .ok w') : P (w.moments events) w' :=
  replay_extends keep hstart h

/-- The same for what does not look at the past. -/
theorem replay_invariant {P : Walk → Prop}
    (keep : ∀ {w e w'}, P w → w.step e = .ok w' → P w')
    {w w' : Walk} {events : List Event} (hstart : P w) (h : w.replay events = .ok w') : P w' :=
  replay_induction (P := fun _ => P) keep hstart h

/-- A moment of a run cuts it in two. -/
theorem moments_split {w w' v : Walk} {e : Event} {events : List Event}
    {before after : List (Walk × Event)} (h : w.replay events = .ok w')
    (hm : w.moments events = before ++ (v, e) :: after) :
    ∃ first second v', events = first ++ e :: second ∧ w.replay first = .ok v ∧
      w.moments first = before ∧ v.step e = .ok v' ∧ v'.replay second = .ok w' ∧
      v'.moments second = after := by
  induction before generalizing w events with
  | nil =>
    cases events with
    | nil => simp [moments] at hm
    | cons e' events =>
      obtain ⟨u, hstep, hrest⟩ := replay_cons_iff.mp h
      rw [moments_cons hstep, List.nil_append, List.cons.injEq, Prod.mk.injEq] at hm
      obtain ⟨⟨rfl, rfl⟩, hafter⟩ := hm
      exact ⟨[], events, u, rfl, rfl, rfl, hstep, hrest, hafter⟩
  | cons m before ih =>
    cases events with
    | nil => simp [moments] at hm
    | cons e' events =>
      obtain ⟨u, hstep, hrest⟩ := replay_cons_iff.mp h
      rw [moments_cons hstep, List.cons_append, List.cons.injEq] at hm
      obtain ⟨rfl, hm⟩ := hm
      obtain ⟨first, second, v', rfl, hfirst, hbefore, hv, hsecond, hafter⟩ := ih hrest hm
      refine ⟨e' :: first, second, v', rfl, replay_cons_iff.mpr ⟨u, hstep, hfirst⟩, ?_, hv,
        hsecond, hafter⟩
      rw [moments_cons hstep, hbefore]

/-- Every moment of a run is reached by a part of it. -/
theorem replay_of_mem_moments {w w' : Walk} {m : Walk × Event} {events : List Event}
    (h : w.replay events = .ok w') (hm : m ∈ w.moments events) :
    ∃ first second v', w.replay first = .ok m.1 ∧ m.1.step m.2 = .ok v' ∧
      v'.replay second = .ok w' := by
  obtain ⟨before, after, hsplit⟩ := List.append_of_mem hm
  obtain ⟨first, second, v', _, hfirst, _, hstep, hsecond, _⟩ := moments_split h hsplit
  exact ⟨first, second, v', hfirst, hstep, hsecond⟩

end Walk

theorem walk_ok_iff {root : Node} {filename : String} {w : Walk} :
    walk root filename = .ok w ↔ Walk.replay { filename } (root.trace .empty).1 = .ok w ∧
      w.opened = [] ∧ w.branches = 0 := by
  unfold walk
  cases Walk.replay { filename } (root.trace .empty).1 with
  | error e => simp [bind, Except.bind]
  | ok v =>
    simp only [bind, Except.bind, pure, Except.pure, Except.ok.injEq]
    split
    · next ho =>
      refine ⟨fun h => by simp at h, ?_⟩
      rintro ⟨rfl, hw, _⟩
      exact absurd hw ho
    · next ho =>
      split
      · next hb =>
        refine ⟨fun h => by simp at h, ?_⟩
        rintro ⟨rfl, _, hw⟩
        exact absurd hw hb
      · next hb =>
        refine ⟨fun h => ?_, fun h => congrArg _ h.1⟩
        cases h
        exact ⟨rfl, Decidable.not_not.mp ho, Decidable.not_not.mp hb⟩

end ScopeLint
