import Mathlib.Data.List.Induction
import ScopeLint.Proofs.NameTable
import ScopeLint.Proofs.Run

/-! # What a scope knows about the actions in it

The bindings and uses that happened in a scope, as a list, determine what the
scope answers for a name: `Tracks`. The flag that says whether a binding was used
is handed from one binding of a name to the next, so it is a property of the name
and of all its actions: it was declared to be an outer name, or used after its
first binding. -/
namespace ScopeLint

/-- Whether an event binds the name. -/
def Event.binds (name : String) : Event → Bool
  | .bind bound _ _ _ _ => bound = name
  | _ => false

/-- Whether an event declares the name to be an outer one. -/
def Event.declares (name : String) : Event → Bool
  | .bind bound _ _ _ declared => bound = name && declared
  | _ => false

theorem Event.binds_of_declares {name : String} {e : Event} (h : e.declares name = true) :
    e.binds name = true := by
  cases e with
  | bind => exact (Bool.and_eq_true_iff.mp h).1
  | _ => cases h

/-- Whether an event uses the name. -/
def Event.uses (name : String) : Event → Bool
  | .use used _ => used = name
  | _ => false

/-- The name is bound by one of the actions. -/
def Bound (name : String) (actions : List Event) : Prop := ∃ e ∈ actions, e.binds name = true

/-- One of the actions declares the name to be an outer one. -/
def Declared (name : String) (actions : List Event) : Prop :=
  ∃ e ∈ actions, e.declares name = true

/-- The first use of the name is at `span`, and the name is not bound before it. -/
def UsedFirst (name : String) (span : Span) (actions : List Event) : Prop :=
  ∃ before after, actions = before ++ .use name span :: after ∧
    ∀ e ∈ before, e.uses name = false ∧ e.binds name = false

/-- The name is used after its first binding. -/
def UsedBound (name : String) (actions : List Event) : Prop :=
  ∃ before span after, actions = before ++ .use name span :: after ∧ Bound name before

/-- The last binding of the name. -/
def LastBinding (name : String) (span : Span) (traits : Traits) (actions : List Event) : Prop :=
  ∃ before isLoop declared after,
    actions = before ++ .bind name span traits isLoop declared :: after ∧ ¬ Bound name after

theorem bound_snoc {name : String} {actions : List Event} {e : Event} :
    Bound name (actions ++ [e]) ↔ Bound name actions ∨ e.binds name = true := by
  simp [Bound, or_and_right, exists_or]

theorem declared_snoc {name : String} {actions : List Event} {e : Event} :
    Declared name (actions ++ [e]) ↔ Declared name actions ∨ e.declares name = true := by
  simp [Declared, or_and_right, exists_or]

/-- What a list holds it holds before its last place or there. -/
theorem split_snoc {α : Type} {actions before after : List α} {e x : α}
    (h : actions ++ [e] = before ++ x :: after) :
    (∃ rest, actions = before ++ x :: rest) ∨ e = x ∧ actions = before := by
  rcases List.eq_nil_or_concat after with rfl | ⟨rest, y, rfl⟩
  · obtain ⟨hb, he⟩ := List.append_inj' h rfl
    exact Or.inr ⟨List.singleton_inj.mp he, hb⟩
  · have hassoc : before ++ x :: rest.concat y = (before ++ x :: rest) ++ [y] := by simp
    rw [hassoc] at h
    exact Or.inl ⟨rest, (List.append_inj' h rfl).1⟩

theorem usedBound_snoc {name : String} {actions : List Event} {e : Event} :
    UsedBound name (actions ++ [e]) ↔
      UsedBound name actions ∨ e.uses name = true ∧ Bound name actions := by
  constructor
  · rintro ⟨before, span, after, heq, hb⟩
    rcases split_snoc heq with ⟨rest, rfl⟩ | ⟨rfl, rfl⟩
    · exact Or.inl ⟨before, span, rest, rfl, hb⟩
    · exact Or.inr ⟨by simp [Event.uses], hb⟩
  · rintro (⟨before, span, after, rfl, hb⟩ | ⟨hu, hb⟩)
    · exact ⟨before, span, after ++ [e], by simp, hb⟩
    · cases e <;> simp [Event.uses] at hu
      subst hu
      exact ⟨actions, _, [], rfl, hb⟩

theorem usedFirst_snoc {name : String} {span : Span} {actions : List Event} {e : Event} :
    UsedFirst name span (actions ++ [e]) ↔
      UsedFirst name span actions ∨
        e = .use name span ∧ ∀ e ∈ actions, e.uses name = false ∧ e.binds name = false := by
  constructor
  · rintro ⟨before, after, heq, hb⟩
    rcases split_snoc heq with ⟨rest, rfl⟩ | ⟨rfl, rfl⟩
    · exact Or.inl ⟨before, rest, rfl, hb⟩
    · exact Or.inr ⟨rfl, hb⟩
  · rintro (⟨before, after, rfl, hb⟩ | ⟨rfl, hb⟩)
    · exact ⟨before, after ++ [e], by simp, hb⟩
    · exact ⟨actions, [], rfl, hb⟩

/-- A name with no action on it at all is neither used first nor bound. -/
theorem usedFirst_or_bound {name : String} {actions : List Event}
    (h : ¬ ∀ e ∈ actions, e.uses name = false ∧ e.binds name = false) :
    (∃ span, UsedFirst name span actions) ∨ Bound name actions := by
  induction actions using List.reverseRecOn with
  | nil => simp at h
  | append_singleton actions e ih =>
    by_cases hprev : ∀ e ∈ actions, e.uses name = false ∧ e.binds name = false
    · by_cases hb : e.binds name = true
      · exact Or.inr (bound_snoc.mpr (Or.inr hb))
      · have hu : e.uses name = true := by
          by_contra hu
          apply h
          intro e' he'
          rcases List.mem_append.mp he' with he' | he'
          · exact hprev e' he'
          · rw [List.mem_singleton.mp he']
            exact ⟨by simpa using hu, by simpa using hb⟩
        cases e <;> simp [Event.uses] at hu
        subst hu
        exact Or.inl ⟨_, usedFirst_snoc.mpr (Or.inr ⟨rfl, hprev⟩)⟩
    · rcases ih hprev with ⟨span, hf⟩ | hb
      · exact Or.inl ⟨span, usedFirst_snoc.mpr (Or.inl hf)⟩
      · exact Or.inr (bound_snoc.mpr (Or.inl hb))

theorem UsedFirst.mentioned {name : String} {span : Span} {actions : List Event}
    (h : UsedFirst name span actions) :
    ¬ ∀ e ∈ actions, e.uses name = false ∧ e.binds name = false := by
  obtain ⟨before, after, rfl, _⟩ := h
  intro hall
  have := (hall (.use name span) (by simp)).1
  simp [Event.uses] at this

theorem Bound.mentioned {name : String} {actions : List Event} (h : Bound name actions) :
    ¬ ∀ e ∈ actions, e.uses name = false ∧ e.binds name = false := by
  obtain ⟨e, he, hb⟩ := h
  intro hall
  simp [(hall e he).2] at hb

theorem Declared.bound {name : String} {actions : List Event} (h : Declared name actions) :
    Bound name actions := by
  obtain ⟨e, he, hd⟩ := h
  exact ⟨e, he, Event.binds_of_declares hd⟩

theorem UsedBound.bound {name : String} {actions : List Event} (h : UsedBound name actions) :
    Bound name actions := by
  obtain ⟨before, span, after, rfl, e, he, hb⟩ := h
  exact ⟨e, by simp [he], hb⟩

theorem lastBinding_snoc_of_not_binds {name : String} {span : Span} {traits : Traits}
    {actions : List Event} {e : Event} (he : e.binds name = false)
    (h : LastBinding name span traits actions) :
    LastBinding name span traits (actions ++ [e]) := by
  obtain ⟨before, isLoop, declared, after, rfl, hn⟩ := h
  refine ⟨before, isLoop, declared, after ++ [e], by simp, ?_⟩
  rw [bound_snoc]
  simp [hn, he]

theorem lastBinding_snoc_bind (name : String) (span : Span) (traits : Traits)
    (isLoop declared : Bool) (actions : List Event) :
    LastBinding name span traits (actions ++ [.bind name span traits isLoop declared]) :=
  ⟨actions, isLoop, declared, [], rfl, by simp [Bound]⟩

namespace Scope

/-! ## A scope answers for its names -/

/-- A name has one place in the history, and the binding there is a binding of that name. -/
structure Proper (s : Scope) : Prop where
  distinct : s.bindings.Distinct
  placed : ∀ {name : String} {p : Nat}, s.bindings.find? name = some p →
    ∃ b, s.history[p]? = some b ∧ b.name = name

theorem Proper.find?_isSome {s : Scope} (h : s.Proper) (name : String) :
    (s.find? name).isSome = s.bindings.contains name := by
  unfold find? NameTable.contains
  cases hp : s.bindings.find? name with
  | none => rfl
  | some p =>
    obtain ⟨b, hb, _⟩ := h.placed hp
    simp [hb]

theorem bindings_bind (s : Scope) (name : String) (span : Span) (traits : Traits) :
    (s.bind name span traits).bindings = s.bindings.put name s.history.length := by
  unfold bind
  cases s.bindings.find? name <;> rfl

theorem history_bind (s : Scope) (name : String) (span : Span) (traits : Traits) :
    (s.bind name span traits).history = s.history ++
      [{ Binding.declare name span traits with used := (s.find? name).any Binding.used }] := by
  unfold bind find?
  cases s.bindings.find? name <;> rfl

theorem proper_bind {s : Scope} (h : s.Proper) (name : String) (span : Span) (traits : Traits) :
    (s.bind name span traits).Proper where
  distinct := by
    rw [bindings_bind]
    exact h.distinct.put _ _
  placed {other p} hp := by
    rw [bindings_bind, NameTable.find?_put] at hp
    rw [history_bind]
    split at hp
    · next ho =>
      cases hp
      exact ⟨_, List.getElem?_concat_length, ho.symm⟩
    · obtain ⟨b, hb, hn⟩ := h.placed hp
      exact ⟨b, by rw [List.getElem?_append_left (List.getElem?_eq_some_iff.mp hb).1, hb], hn⟩

theorem find?_bind {s : Scope} (h : s.Proper) (name other : String) (span : Span)
    (traits : Traits) :
    (s.bind name span traits).find? other =
      if other = name then
        some { Binding.declare name span traits with used := (s.find? name).any Binding.used }
      else s.find? other := by
  conv_lhs => unfold find?
  rw [bindings_bind, NameTable.find?_put, history_bind]
  split
  · exact List.getElem?_concat_length
  · cases hp : s.bindings.find? other with
    | none => simp [find?, hp]
    | some p =>
      obtain ⟨b, hb, _⟩ := h.placed hp
      simp [find?, hp, List.getElem?_append_left (List.getElem?_eq_some_iff.mp hb).1]

theorem bindings_mark (s : Scope) (name : String) (f : Binding → Binding) :
    (s.mark name f).bindings = s.bindings := by
  unfold mark
  cases s.bindings.find? name <;> rfl

theorem proper_mark {s : Scope} (h : s.Proper) (name : String) {f : Binding → Binding}
    (hf : ∀ b, (f b).name = b.name) : (s.mark name f).Proper where
  distinct := by
    rw [bindings_mark]
    exact h.distinct
  placed {other p} hp := by
    rw [bindings_mark] at hp
    obtain ⟨b, hb, hn⟩ := h.placed hp
    unfold mark
    cases s.bindings.find? name with
    | none => exact ⟨b, hb, hn⟩
    | some q =>
      by_cases hq : q = p
      · exact ⟨f b, by simp [hq, hb], (hf b).trans hn⟩
      · exact ⟨b, by simp [hq, hb], hn⟩

theorem find?_mark {s : Scope} (h : s.Proper) (name other : String) (f : Binding → Binding) :
    (s.mark name f).find? other =
      if other = name then (s.find? name).map f else s.find? other := by
  unfold mark
  cases hq : s.bindings.find? name with
  | none =>
    by_cases ho : other = name
    · simp [find?, ho, hq]
    · simp [ho]
  | some q =>
    unfold find?
    by_cases ho : other = name
    · simp [ho, hq]
    · cases hp : s.bindings.find? other with
      | none => simp [ho]
      | some p =>
        have hne : q ≠ p := by
          rintro rfl
          obtain ⟨b, hb, hn⟩ := h.placed hq
          obtain ⟨b', hb', hn'⟩ := h.placed hp
          cases hb.symm.trans hb'
          exact ho (hn'.symm.trans hn)
        simp [ho, List.getElem?_modify, hne]

theorem proper_perform {s : Scope} (h : s.Proper) (e : Event) : (s.perform e).Proper := by
  cases e with
  | bind name span traits isLoop declared =>
    have hb := proper_bind h name span { traits with isToplevel := s.isToplevel }
    have hl := proper_mark hb name (f := fun b => { b with isLoop := true }) fun _ => rfl
    cases isLoop <;> cases declared
    · exact hb
    · exact proper_mark hb name fun _ => rfl
    · exact hl
    · exact proper_mark hl name fun _ => rfl
  | use name span =>
    simp only [perform, use]
    split
    · exact proper_mark h name fun _ => rfl
    · split
      · exact h
      · exact ⟨h.distinct, h.placed⟩
  | _ => exact h

/-- The new binding has the flags of its event, and is used if it is declared or the one before
it was used. -/
theorem find?_perform_bind {s : Scope} (h : s.Proper) (name other : String) (span : Span)
    (traits : Traits) (isLoop declared : Bool) :
    (s.perform (.bind name span traits isLoop declared)).find? other =
      if other = name then
        some { Binding.declare name span { traits with isToplevel := s.isToplevel } with
          isLoop, used := declared || (s.find? name).any Binding.used }
      else s.find? other := by
  have hb := proper_bind h name span { traits with isToplevel := s.isToplevel }
  have hl := proper_mark hb name (f := fun b => { b with isLoop := true }) fun _ => rfl
  cases isLoop <;> cases declared <;>
    simp only [perform, markLoop, markUsed, if_true, if_false, Bool.false_eq_true,
      find?_mark hb, find?_mark hl, find?_bind h] <;>
    split <;> simp [Binding.declare]

theorem find?_perform_use {s : Scope} (h : s.Proper) (name other : String) (span : Span) :
    (s.perform (.use name span)).find? other =
      if other = name then (s.find? name).map fun b => { b with used := true }
      else s.find? other := by
  simp only [perform, use]
  split
  · exact find?_mark h name other _
  · next hc =>
    have hnone : s.find? name = none := by
      simpa [← h.find?_isSome] using hc
    have hsame : s.find? other = if other = name then none else s.find? other := by
      split
      · next ho => rw [ho, hnone]
      · rfl
    rw [hnone, Option.map_none, ← hsame]
    split <;> rfl

theorem contains_perform {s : Scope} (h : s.Proper) (e : Event) (name : String) :
    (s.perform e).bindings.contains name = (s.bindings.contains name || e.binds name) := by
  rw [← (proper_perform h e).find?_isSome, ← h.find?_isSome]
  cases e with
  | bind bound span traits isLoop declared =>
    rw [find?_perform_bind h]
    by_cases hn : name = bound
    · simp [hn, Event.binds]
    · simp [hn, Event.binds, Ne.symm hn]
  | use used span =>
    rw [find?_perform_use h]
    by_cases hn : name = used <;> simp [hn, Event.binds]
  | _ => simp [perform, Event.binds]

/-- What no action touches: where a scope stands, and what it lists as unused. -/
def frame (s : Scope) : Nat × Bool × Option Int × List Nat × NameTable Nat :=
  (s.index, s.isToplevel, s.parent, s.children, s.unused)

theorem frame_bind (s : Scope) (name : String) (span : Span) (traits : Traits) :
    (s.bind name span traits).frame = s.frame := by
  unfold bind
  cases s.bindings.find? name <;> rfl

theorem frame_mark (s : Scope) (name : String) (f : Binding → Binding) :
    (s.mark name f).frame = s.frame := by
  unfold mark
  cases s.bindings.find? name <;> rfl

theorem frame_perform (s : Scope) (e : Event) : (s.perform e).frame = s.frame := by
  cases e with
  | bind name span traits isLoop declared =>
    cases isLoop <;> cases declared <;>
      simp [perform, markLoop, markUsed, frame_mark, frame_bind]
  | use name span =>
    simp only [perform, use]
    split
    · exact frame_mark s name _
    · split <;> rfl
  | _ => rfl

theorem undefined_bind (s : Scope) (name : String) (span : Span) (traits : Traits) :
    (s.bind name span traits).undefined = s.undefined := by
  unfold bind
  cases s.bindings.find? name <;> rfl

theorem undefined_mark (s : Scope) (name : String) (f : Binding → Binding) :
    (s.mark name f).undefined = s.undefined := by
  unfold mark
  cases s.bindings.find? name <;> rfl

/-- Only a use parks anything: of a name that is neither bound nor parked yet. -/
theorem undefined_perform (s : Scope) (e : Event) :
    (s.perform e).undefined = match e with
      | .use name span =>
        if s.bindings.contains name || s.undefined.contains name then s.undefined
        else s.undefined.put name span
      | _ => s.undefined := by
  cases e with
  | bind name span traits isLoop declared =>
    cases isLoop <;> cases declared <;>
      simp [perform, markLoop, markUsed, undefined_mark, undefined_bind]
  | use name span =>
    simp only [perform, use]
    by_cases hb : s.bindings.contains name = true
    · simp [hb, markUsed, undefined_mark]
    · by_cases hu : s.undefined.contains name = true <;> simp [hb, hu]
  | _ => rfl

/-- What a scope answers for its names is what its actions say. -/
structure Tracks (s : Scope) (actions : List Event) : Prop where
  proper : s.Proper
  bound : ∀ name, s.bindings.contains name = true ↔ Bound name actions
  last : ∀ {name b}, s.find? name = some b → ∃ traits, LastBinding name b.span traits actions ∧
    b.traits.isImport = traits.isImport ∧ b.traits.isFuncArg = traits.isFuncArg ∧
    b.traits.isToplevel = s.isToplevel
  used : ∀ {name b}, s.find? name = some b →
    (b.used = true ↔ Declared name actions ∨ UsedBound name actions)

theorem Tracks.any_used {s : Scope} {actions : List Event} (h : s.Tracks actions)
    (name : String) : (s.find? name).any Binding.used = true ↔
      Bound name actions ∧ (Declared name actions ∨ UsedBound name actions) := by
  rw [← h.bound, ← h.proper.find?_isSome]
  cases hf : s.find? name with
  | none => simp
  | some b => simp [h.used hf]

theorem Tracks.perform {s : Scope} {actions : List Event} (h : s.Tracks actions) {e : Event}
    (he : e.isAction = true) : (s.perform e).Tracks (actions ++ [e]) := by
  have htop : (s.perform e).isToplevel = s.isToplevel := congrArg (·.2.1) (frame_perform s e)
  refine ⟨proper_perform h.proper e, ?_, ?_, ?_⟩
  · intro name
    rw [contains_perform h.proper, bound_snoc, Bool.or_eq_true, h.bound]
  · intro name b hb
    rw [htop]
    cases e with
    | bind bound span traits isLoop declared =>
      rw [find?_perform_bind h.proper] at hb
      split at hb
      · next hn =>
        cases hb
        subst hn
        exact ⟨traits, lastBinding_snoc_bind name span traits isLoop declared actions,
          rfl, rfl, rfl⟩
      · next hn =>
        obtain ⟨traits', hl, hrest⟩ := h.last hb
        exact ⟨traits', lastBinding_snoc_of_not_binds (by simpa [Event.binds] using Ne.symm hn) hl,
          hrest⟩
    | use used span =>
      rw [find?_perform_use h.proper] at hb
      split at hb
      · next hn =>
        subst hn
        obtain ⟨b', hb', rfl⟩ := Option.map_eq_some_iff.mp hb
        obtain ⟨traits', hl, hrest⟩ := h.last hb'
        exact ⟨traits', lastBinding_snoc_of_not_binds rfl hl, hrest⟩
      · obtain ⟨traits', hl, hrest⟩ := h.last hb
        exact ⟨traits', lastBinding_snoc_of_not_binds rfl hl, hrest⟩
    | _ => simp [Event.isAction] at he
  · intro name b hb
    rw [declared_snoc, usedBound_snoc]
    cases e with
    | bind bound span traits isLoop declared =>
      rw [find?_perform_bind h.proper] at hb
      split at hb
      · next hn =>
        cases hb
        subst hn
        have hbound : Declared name actions ∨ UsedBound name actions → Bound name actions := by
          rintro (hd | hu)
          · exact hd.bound
          · exact hu.bound
        simp only [Bool.or_eq_true, h.any_used, Event.declares, Event.uses, decide_true,
          Bool.true_and, Bool.false_eq_true, false_and, or_false]
        constructor
        · rintro (hd | ⟨_, hd | hu⟩)
          · exact Or.inl (Or.inr hd)
          · exact Or.inl (Or.inl hd)
          · exact Or.inr hu
        · rintro ((hd | hd) | hu)
          · exact Or.inr ⟨hbound (Or.inl hd), Or.inl hd⟩
          · exact Or.inl hd
          · exact Or.inr ⟨hbound (Or.inr hu), Or.inr hu⟩
      · next hn => simp [h.used hb, Event.declares, Event.uses, Ne.symm hn]
    | use used span =>
      rw [find?_perform_use h.proper] at hb
      split at hb
      · next hn =>
        subst hn
        obtain ⟨b', hb', rfl⟩ := Option.map_eq_some_iff.mp hb
        have hbound : Bound name actions := by
          rw [← h.bound, ← h.proper.find?_isSome, hb']
          rfl
        simp [Event.uses, hbound]
      · next hn => simp [h.used hb, Event.declares, Event.uses, Ne.symm hn]
    | _ => simp [Event.isAction] at he

theorem tracks_nil (index : Nat) (isToplevel : Bool) (parent : Option Int) :
    Tracks { index, isToplevel, parent } [] where
  proper := ⟨NameTable.distinct_empty, by simp⟩
  bound := by simp [NameTable.contains, Bound]
  last := by simp [find?]
  used := by simp [find?]

end Scope
end ScopeLint
