import ScopeLint.Proofs.Resolution

/-! # Facts about scopes along a walk

What a scope holds of its bindings is made by the actions in it, one by one; what
closes around it, or opens inside it, does not touch that. So a fact that holds of
a fresh scope and is kept by every action holds of every scope of a walk, with the
actions that happened in it. -/
namespace ScopeLint

namespace Scope

/-- What a scope holds of its bindings. -/
def core (s : Scope) : Bool × List Binding × NameTable Nat × List Shadowing :=
  (s.isToplevel, s.history, s.bindings, s.shadowed)

theorem core_eq_iff {s t : Scope} : t.core = s.core ↔ t.isToplevel = s.isToplevel ∧
    t.history = s.history ∧ t.bindings = s.bindings ∧ t.shadowed = s.shadowed := by
  simp only [core, Prod.mk.injEq]

theorem core_resolved (a : Arena) (place i : Nat) (bound : List (String × Nat)) (s : Scope) :
    (a.resolved place i bound s).core = s.core := by
  unfold Arena.resolved
  split
  · rfl
  · split <;> rfl

section Core

variable {s t : Scope} (h : t.core = s.core)
include h

theorem core_bind (name : String) (span : Span) (traits : Traits) :
    (t.bind name span traits).core = (s.bind name span traits).core := by
  obtain ⟨htop, hhistory, hbindings, hshadowed⟩ := core_eq_iff.mp h
  unfold bind
  rw [hbindings, hhistory, hshadowed]
  cases s.bindings.find? name with
  | none => exact congrArg (·, _, _, _) htop
  | some previous => exact congrArg (·, _, _, _) htop

theorem core_mark (name : String) (f : Binding → Binding) :
    (t.mark name f).core = (s.mark name f).core := by
  obtain ⟨htop, hhistory, hbindings, hshadowed⟩ := core_eq_iff.mp h
  unfold mark
  rw [hbindings]
  cases s.bindings.find? name with
  | none => exact h
  | some place => simp only [core, htop, hhistory, hshadowed]

theorem core_use (name : String) (span : Span) :
    (t.use name span).core = (s.use name span).core := by
  have hbound : t.bindings.contains name = s.bindings.contains name :=
    congrArg (·.2.2.1.contains name) h
  have hpark : ∀ u : Scope, (if u.undefined.contains name then u else
      { u with undefined := u.undefined.put name span }).core = u.core := by
    intro u
    split <;> rfl
  unfold use
  rw [hbound]
  split
  · exact core_mark h name _
  · rw [hpark, hpark, h]

theorem core_perform (e : Event) : (t.perform e).core = (s.perform e).core := by
  have htop : t.isToplevel = s.isToplevel := congrArg (·.1) h
  cases e with
  | bind name span traits isLoop declared =>
    have hbind := core_bind h name span { traits with isToplevel := s.isToplevel }
    have hloop := core_mark hbind name fun b => { b with isLoop := true }
    rw [perform, perform, htop]
    cases isLoop <;> cases declared
    · exact hbind
    · exact core_mark hbind name _
    · exact hloop
    · exact core_mark hloop name _
  | use name span => exact core_use h name span
  | _ => exact h

end Core

/-- A scope in which the actions happened, and nothing else. -/
def made (top : Bool) (actions : List Event) : Scope :=
  actions.foldl perform { index := 0, isToplevel := top, parent := none }

end Scope

namespace Walk

variable {P : List Event → Scope → Prop}

/-- What one step does to a fact about all scopes. -/
theorem scopes_step
    (fresh : ∀ index top parent, P [] { index, isToplevel := top, parent })
    (same : ∀ {actions s t}, P actions s → t.core = s.core → P actions t)
    (perform : ∀ {actions s e}, s.Tracks actions → P actions s →
      P (actions ++ [e]) (s.perform e))
    {past : List (Walk × Event)} {w w' : Walk} {e : Event} (hresolves : Resolves past w)
    (h : ∀ {i s}, w.arena.scopes[i]? = some s → P (actionsIn past i) s)
    (hstep : w.step e = .ok w') {i : Nat} {s : Scope} (hs : w'.arena.scopes[i]? = some s) :
    P (actionsIn (past ++ [(w, e)]) i) s := by
  have horderly := hresolves.orderly
  cases effect_of_step hstep with
  | enter top =>
    rw [actionsIn_snoc_of_not_action rfl]
    rw [Arena.getElem?_add _ _ top horderly.nested.head_lt] at hs
    split at hs
    · next hi =>
      cases hs
      rw [hresolves.fresh (le_of_eq hi.symm)]
      exact fresh _ _ _
    · obtain ⟨t, ht, rfl⟩ := Option.map_eq_some_iff.mp hs
      refine same (h ht) ?_
      split <;> rfl
  | @leave k rest hopen =>
    rw [actionsIn_snoc_of_not_action rfl]
    obtain ⟨u, hu⟩ := horderly.head hopen
    rw [Arena.getElem?_close horderly.nested.forest hu (horderly.proper hu).distinct] at hs
    obtain ⟨t, ht, rfl⟩ := Option.map_eq_some_iff.mp hs
    exact same (h ht) (Scope.core_resolved _ _ _ _ _)
  | @act e k rest he hopen =>
    rw [Arena.getElem?_modify] at hs
    obtain ⟨t, ht, rfl⟩ := Option.map_eq_some_iff.mp hs
    rw [actionsIn_snoc, he, hopen]
    by_cases hk : i = k
    · subst hk
      simpa using perform (e := e) (hresolves.answers ht).tracks (h ht)
    · simpa [hk, Ne.symm hk] using h ht
  | quiet hquiet harena =>
    have he : e.isAction = false := by cases e <;> simp_all [Event.isQuiet, Event.isAction]
    rw [actionsIn_snoc_of_not_action he]
    exact h (harena ▸ hs)

theorem scopes_replay
    (fresh : ∀ index top parent, P [] { index, isToplevel := top, parent })
    (same : ∀ {actions s t}, P actions s → t.core = s.core → P actions t)
    (perform : ∀ {actions s e}, s.Tracks actions → P actions s →
      P (actions ++ [e]) (s.perform e))
    {filename : String} {events : List Event} {w : Walk}
    (hr : Walk.replay { filename } events = .ok w) {i : Nat} {s : Scope}
    (hs : w.arena.scopes[i]? = some s) : P (actionsIn (moments { filename } events) i) s := by
  have hrun := replay_induction (P := fun past v => Resolves past v ∧
    ∀ {i s}, v.arena.scopes[i]? = some s → P (actionsIn past i) s) ?_ ⟨resolves_start filename, ?_⟩
    hr
  · exact hrun.2 hs
  · intro past v e v' hpast hstep
    exact ⟨hpast.1.step hstep, scopes_step fresh same perform hpast.1 hpast.2 hstep⟩
  · simp

end Walk

/-- A scope holds what the actions in it make of a fresh one. -/
theorem Scope.core_of_replay {filename : String} {events : List Event} {w : Walk}
    (hr : Walk.replay { filename } events = .ok w) {i : Nat} {s : Scope}
    (hs : w.arena.scopes[i]? = some s) :
    s.core = (made s.isToplevel (actionsIn (Walk.moments { filename } events) i)).core := by
  refine Walk.scopes_replay (P := fun actions s => s.core = (made s.isToplevel actions).core)
    ?_ ?_ ?_ hr hs
  · exact fun _ _ _ => rfl
  · intro actions s t h hcore
    have htop : t.isToplevel = s.isToplevel := congrArg (·.1) hcore
    rw [hcore, htop, h]
  · intro actions s e _ h
    have htop : (s.perform e).isToplevel = s.isToplevel := congrArg (·.2.1) (frame_perform s e)
    rw [htop, made, List.foldl_append]
    exact core_perform h e

end ScopeLint
