import ScopeLint.Proofs.Lexical
import ScopeLint.Proofs.Occurrences

/-! # Where the events of a walk happen

The scope that an event happens in is the innermost one that is open then, and it
can be told from the events alone (`locate`). For the trace of a tree whose nodes
are all different it can be told from the tree: the scope of a node is that of the
nearest node around that opens one, and scopes are numbered in the order of the
nodes that open them. -/
namespace ScopeLint

namespace Walk

/-- The open scopes and the index that the next scope gets, after an event. -/
def advance (opened : List Nat) (next : Nat) : Event → List Nat × Nat
  | .enter _ => (next :: opened, next + 1)
  | .leave => (opened.tail, next)
  | _ => (opened, next)

/-- The entries and actions among events, each with the innermost open scope. -/
def locate (opened : List Nat) (next : Nat) : List Event → List (Option Nat × Event)
  | [] => []
  | e :: events =>
    Node.told opened.head? e ++ locate (advance opened next e).1 (advance opened next e).2 events

/-- No action gets lost. -/
theorem actions_locate (opened : List Nat) (next : Nat) (events : List Event) :
    ((locate opened next events).filter (·.2.isAction)).map Prod.snd =
      events.filter Event.isAction := by
  induction events generalizing opened next with
  | nil => rfl
  | cons e events ih =>
    have htold : ((Node.told opened.head? e).filter (·.2.isAction)).map Prod.snd =
        if e.isAction then [e] else [] := by cases e <;> rfl
    rw [locate, List.filter_append, List.map_append, ih, htold, List.filter_cons]
    cases e.isAction <;> rfl

theorem Orderly.advance_step {w v : Walk} {e : Event} (h : w.Orderly) (hstep : w.step e = .ok v) :
    advance w.opened w.arena.size e = (v.opened, v.arena.size) := by
  have hsize := h.size_step hstep
  cases effect_of_step hstep with
  | enter top => exact congrArg (w.arena.size :: w.opened, ·) hsize.symm
  | leave hopen =>
    rw [hsize]
    simp [advance, hopen, Event.isEntry]
  | act haction hopen =>
    rw [hsize]
    cases e <;> simp_all [advance, Event.isEntry, Event.isAction]
  | quiet hquiet _ hopen =>
    rw [hsize, hopen]
    cases e <;> simp_all [advance, Event.isEntry, Event.isQuiet]

/-- What a run does, told by its entries and actions: how many scopes it opens, inside which, and
what happens in each. -/
structure Locates (w w' : Walk) (past : List (Walk × Event))
    (items : List (Option Nat × Event)) : Prop where
  size : w'.arena.size = w.arena.size + (items.filter (·.2.isEntry)).length
  parent : ∀ {k : Nat} {home : Option Nat},
    ((items.filter (·.2.isEntry)).map Prod.fst)[k]? = some home →
      ∃ s, w'.arena.scopes[w.arena.size + k]? = some s ∧ s.parent = home.map Int.ofNat
  actions : ∀ i, actionsIn past i =
    (items.filter fun item => item.2.isAction && decide (item.1 = some i)).map Prod.snd

theorem entries_told (home : Option Nat) (e : Event) :
    (Node.told home e).filter (·.2.isEntry) = if e.isEntry then [(home, e)] else [] := by
  cases e <;> rfl

theorem actions_told (home : Option Nat) (e : Event) (i : Nat) :
    ((Node.told home e).filter fun item => item.2.isAction && decide (item.1 = some i)).map
      Prod.snd = if e.isAction && decide (home = some i) then [e] else [] := by
  unfold Node.told
  by_cases hi : home = some i <;> cases e <;> simp [Event.isEntry, Event.isAction, hi]

theorem actionsIn_cons (w : Walk) (e : Event) (past : List (Walk × Event)) (i : Nat) :
    actionsIn ((w, e) :: past) i =
      (if e.isAction && decide (w.opened.head? = some i) then [e] else []) ++ actionsIn past i := by
  unfold actionsIn
  rw [List.filter_cons]
  cases e.isAction && decide (w.opened.head? = some i) <;> rfl

/-- A scope that is entered stays where it is, inside the scope that was open. -/
theorem Orderly.parent_entered {w v w' : Walk} {top : Bool} {events : List Event} (h : w.Orderly)
    (hstep : w.step (.enter top) = .ok v) (hr : v.replay events = .ok w') :
    ∃ s, w'.arena.scopes[w.arena.size]? = some s ∧
      s.parent = w.opened.head?.map Int.ofNat := by
  have hv := h.step hstep
  cases hstep
  have hadded : ((w.arena.add (w.opened.head?.map Int.ofNat) top).1.scopes[w.arena.size]?).map
      Scope.parent = some (w.opened.head?.map Int.ofNat) := by
    rw [Arena.getElem?_add _ _ top h.nested.head_lt, if_pos rfl]
    rfl
  obtain ⟨s, hs, hparent⟩ := Option.map_eq_some_iff.mp hadded
  obtain ⟨t, ht, hsame⟩ := hv.parent_replay hr hs
  exact ⟨t, ht, hsame.trans hparent⟩

theorem replay_locate {w w' : Walk} {events : List Event} (h : w.Orderly)
    (hr : w.replay events = .ok w') :
    Locates w w' (w.moments events) (locate w.opened w.arena.size events) := by
  induction events generalizing w with
  | nil =>
    cases hr
    exact ⟨rfl, by simp [locate], fun _ => rfl⟩
  | cons e events ih =>
    obtain ⟨v, hstep, hrest⟩ := replay_cons_iff.mp hr
    have hlater := ih (h.step hstep) hrest
    have hsize := h.size_step hstep
    rw [moments_cons hstep, locate, h.advance_step hstep]
    refine ⟨?_, ?_, ?_⟩
    · rw [List.filter_append, entries_told, hlater.size, hsize, List.length_append]
      cases e.isEntry <;> simp [Nat.add_assoc]
    · intro k home hk
      rw [List.filter_append, entries_told] at hk
      cases hentry : e.isEntry with
      | false =>
        simp only [hentry, Bool.false_eq_true, if_false, List.nil_append, Nat.add_zero] at hk hsize
        rw [← hsize]
        exact hlater.parent hk
      | true =>
        simp only [hentry, if_true] at hk hsize
        cases k with
        | zero =>
          cases hk
          cases e with
          | enter top => exact h.parent_entered hstep hrest
          | _ => cases hentry
        | succ k =>
          obtain ⟨s, hs, hparent⟩ := hlater.parent hk
          refine ⟨s, ?_, hparent⟩
          rw [← hs, hsize, Nat.add_assoc, Nat.add_comm 1 k]
    · intro i
      rw [actionsIn_cons, hlater.actions, List.filter_append, List.map_append, actions_told]

end Walk

namespace Node

open Walk (locate advance)

/-! ## The events of one node -/

/-- Events that neither open nor close a scope. -/
def Level (events : List Event) : Prop := ∀ e ∈ events, e.isEntry = false ∧ e ≠ .leave

theorem level_of_actions {events : List Event} (h : ∀ e ∈ events, e.isAction = true) :
    Level events := by
  intro e he
  refine ⟨Event.isEntry_of_isAction (h e he), ?_⟩
  intro hleave
  cases hleave ▸ h e he

theorem advance_of_level {e : Event} (hentry : e.isEntry = false) (hleave : e ≠ .leave)
    (opened : List Nat) (next : Nat) : advance opened next e = (opened, next) := by
  cases e <;> simp_all [advance, Event.isEntry]

/-- A node enters its scope, if it opens one, and does nothing else to the open scopes. -/
theorem events_level_or_enter (n : Node) :
    (n.form.opensScope = false ∧ Level n.events) ∨
      n.form.opensScope = true ∧ ∃ before top after,
        n.events = before ++ .enter top :: after ∧ Level before ∧ Level after := by
  have hnil : Level [] := by simp [Level]
  cases hform : n.form with
  | module | lambda =>
    refine .inr ⟨rfl, ?_⟩
    simp only [events, hform]
    exact ⟨[], _, [], rfl, hnil, hnil⟩
  | functionDef name nameSpan | classDef name nameSpan =>
    refine .inr ⟨rfl, ?_⟩
    simp only [events, hform]
    exact ⟨[_, _], _, [], rfl, by simp [Level, Event.isEntry], hnil⟩
  | comprehension =>
    refine .inr ⟨rfl, ?_⟩
    simp only [events, hform]
    exact ⟨[], _, n.targetEvents, rfl, hnil, level_of_actions isAction_targetEvents⟩
  | assign | forIn =>
    refine .inl ⟨rfl, ?_⟩
    simp only [events, hform]
    exact level_of_actions isAction_targetEvents
  | importModule path asName asSpan =>
    refine .inl ⟨rfl, ?_⟩
    simp only [events, hform]
    split <;> simp [Level, Event.isEntry]
  | declaration keyword names =>
    exact .inl ⟨rfl, level_of_actions (isAction_events_declaration hform)⟩
  | empty marker =>
    refine .inl ⟨rfl, ?_⟩
    simp only [events, hform]
    split <;> simp [Level, Event.isEntry]
  | _ => exact .inl ⟨rfl, by simp [events, hform, Level, Event.isEntry]⟩

/-- An item with the identity of its scope replaced by the index. -/
def relabel (index : Nat → Nat) (item : Option Nat × Event) : Option Nat × Event :=
  (item.1.map index, item.2)

variable {index : Nat → Nat} {opened : List Nat} {next : Nat} {home inner : Option Nat}

theorem map_told (index : Nat → Nat) (home : Option Nat) (e : Event) :
    (told home e).map (relabel index) = told (home.map index) e := by
  unfold told
  split <;> rfl

theorem locate_level {events : List Event} (hlevel : Level events)
    (hopen : opened.head? = home.map index) (inner : Option Nat) (rest : List Event) :
    locate opened next (events ++ rest) =
      (tag home inner events).map (relabel index) ++ locate opened next rest := by
  induction events with
  | nil => rfl
  | cons e events ih =>
    obtain ⟨hentry, hleave⟩ := hlevel e List.mem_cons_self
    have hrest := ih fun e he => hlevel e (List.mem_cons_of_mem _ he)
    rw [List.cons_append, locate, advance_of_level hentry hleave, hrest, tag, hentry,
      if_neg Bool.false_ne_true, List.map_append, map_told, hopen, List.append_assoc]

theorem tag_append {before : List Event} (hlevel : Level before) (home inner : Option Nat)
    (events : List Event) :
    tag home inner (before ++ events) = tag home inner before ++ tag home inner events := by
  induction before with
  | nil => rfl
  | cons e before ih =>
    have hrest := ih fun e he => hlevel e (List.mem_cons_of_mem _ he)
    rw [List.cons_append, tag, tag, (hlevel e List.mem_cons_self).1, if_neg Bool.false_ne_true,
      hrest, List.append_assoc]

/-- What is open inside a node, and the index of the next scope there. -/
def within (n : Node) (opened : List Nat) (next : Nat) : List Nat × Nat :=
  if n.form.opensScope then (next :: opened, next + 1) else (opened, next)

theorem locate_events {n : Node} {around : Around}
    (hopen : opened.head? = (homeOf around).map index)
    (hindex : n.form.opensScope = true → index n.id = next) (rest : List Event) :
    locate opened next (n.events ++ rest) = (n.own around).map (relabel index) ++
      locate (n.within opened next).1 (n.within opened next).2 rest := by
  unfold own within
  rcases n.events_level_or_enter with ⟨hscope, hlevel⟩ | ⟨hscope, before, top, after, hevents,
    hbefore, hafter⟩
  · rw [hscope]
    exact locate_level hlevel hopen _ _
  · have hinside : (next :: opened).head? = (some n.id).map index :=
      congrArg some (hindex hscope).symm
    rw [hscope, hevents, tag_append hbefore, tag_entry, List.append_assoc,
      locate_level hbefore hopen (some n.id), List.cons_append, locate]
    simp only [advance, if_true, List.map_append, List.map_cons, List.append_assoc,
      List.cons_append]
    rw [locate_level hafter hinside (some n.id), hopen]
    rfl

theorem locate_after (n : Node) (opened : List Nat) (next : Nat) (after : Nat)
    (rest : List Event) :
    locate (n.within opened next).1 after (n.form.after ++ rest) = locate opened after rest := by
  unfold within Form.after
  cases n.form.opensScope with
  | true => rfl
  | false => cases n.form.isBranch <;> rfl

/-! ## The trace of a tree -/

def idsOf (os : List Occurrence) : List Nat := os.map (·.node.id)

/-- The identities of the nodes that open scopes. -/
def openersOf (os : List Occurrence) : List Nat := idsOf (os.filter (·.node.form.opensScope))

theorem idsOf_append (first second : List Occurrence) :
    idsOf (first ++ second) = idsOf first ++ idsOf second := List.map_append

theorem openersOf_append (first second : List Occurrence) :
    openersOf (first ++ second) = openersOf first ++ openersOf second := by
  rw [openersOf, List.filter_append, idsOf_append]
  rfl

/-- Nodes that a walk comes to: they are all different, those are seen before that are bound from
around, and those that open a scope are numbered from `next` on. -/
structure Ready (index : Nat → Nat) (seen : IdSet) (os : List Occurrence)
    (bound : List (String × Node × Bool)) (next : Nat) : Prop where
  distinct : (idsOf os).Nodup
  claimed : ∀ j ∈ idsOf os, seen.contains j = true ↔ j ∈ bound.map (·.2.1.id)
  numbered : (openersOf os).map index = List.range' next (openersOf os).length

variable {seen : IdSet}

/-- The first of the nodes are ready, and when they have been walked so are the others. -/
theorem Ready.split {first second : List Occurrence} {here later : List (String × Node × Bool)}
    (h : Ready index seen (first ++ second) (here ++ later) next)
    (hhere : ∀ b ∈ here, b.2.1.id ∈ idsOf first) (hlater : ∀ b ∈ later, b.2.1.id ∈ idsOf second) :
    Ready index seen first here next ∧
      ∀ seen' : IdSet, (∀ j, seen'.contains j = (seen.contains j || decide (j ∈ idsOf first))) →
        Ready index seen' second later (next + (openersOf first).length) := by
  obtain ⟨hdistinct, hclaimed, hnumbered⟩ := h
  rw [idsOf_append] at hdistinct hclaimed
  obtain ⟨hfirst, hsecond, hapart⟩ := List.nodup_append.mp hdistinct
  rw [openersOf_append, List.map_append, List.length_append, ← List.range'_append_1] at hnumbered
  obtain ⟨hnumbers, hnumbers'⟩ := List.append_inj hnumbered (by simp)
  refine ⟨⟨hfirst, ?_, hnumbers⟩, fun seen' hseen => ⟨hsecond, ?_, hnumbers'⟩⟩
  · intro j hj
    rw [hclaimed j (List.mem_append_left _ hj), List.map_append, List.mem_append]
    refine or_iff_left fun hj' => ?_
    obtain ⟨b, hb, rfl⟩ := List.mem_map.mp hj'
    exact hapart _ hj _ (hlater b hb) rfl
  · intro j hj
    have hnot : j ∉ idsOf first := fun hj' => hapart j hj' j hj rfl
    rw [hseen, decide_eq_false hnot, Bool.or_false, hclaimed j (List.mem_append_right _ hj),
      List.map_append, List.mem_append]
    refine or_iff_right fun hj' => ?_
    obtain ⟨b, hb, rfl⟩ := List.mem_map.mp hj'
    exact hnot (hhere b hb)

/-- What tracing nodes comes to: they are seen, and their entries and actions happen where the tree
says. -/
structure Traced (index : Nat → Nat) (seen : IdSet) (opened : List Nat) (next : Nat)
    (traced : List Event × IdSet) (os : List Occurrence)
    (items : List (Option Nat × Event)) : Prop where
  seen : ∀ j, traced.2.contains j = (seen.contains j || decide (j ∈ idsOf os))
  located : ∀ rest, locate opened next (traced.1 ++ rest) =
    items.map (relabel index) ++ locate opened (next + (openersOf os).length) rest

theorem traced_nil : Traced index seen opened next ([], seen) [] [] :=
  ⟨fun j => by simp [idsOf], fun _ => rfl⟩

theorem Traced.append {first second : List Occurrence} {events more : List Event}
    {seen' seen'' : IdSet} {items items' : List (Option Nat × Event)}
    (h : Traced index seen opened next (events, seen') first items)
    (h' : Traced index seen' opened (next + (openersOf first).length) (more, seen'') second
      items') :
    Traced index seen opened next (events ++ more, seen'') (first ++ second) (items ++ items') := by
  refine ⟨?_, ?_⟩
  · intro j
    have hseen := h.seen j
    have hseen' := h'.seen j
    dsimp only at hseen hseen' ⊢
    rw [hseen', hseen, idsOf_append]
    simp [Bool.or_assoc]
  · intro rest
    have hlocated := h.located (more ++ rest)
    have hlocated' := h'.located rest
    dsimp only at hlocated hlocated' ⊢
    rw [List.append_assoc, hlocated, hlocated', List.map_append, openersOf_append,
      List.length_append, List.append_assoc, Nat.add_assoc]

theorem mem_ids_occurrences (around : Around) (n : Node) : n.id ∈ idsOf (n.occurrences around) := by
  cases n
  exact List.mem_cons_self

theorem mem_ids_occurrencesPart {around : Around} {part : List Node} {c : Node} (hc : c ∈ part) :
    c.id ∈ idsOf (occurrencesPart around part) := by
  induction part with
  | nil => cases hc
  | cons n rest ih =>
    rw [occurrencesPart, idsOf_append]
    rcases List.mem_cons.mp hc with rfl | hc
    · exact List.mem_append_left _ (mem_ids_occurrences around c)
    · exact List.mem_append_right _ (ih hc)

theorem mem_ids_occurrencesParts {parent : Node} {around : Around} {k : Nat}
    {parts : List (List Node)} {c : Node} (hc : c ∈ parts.flatten) :
    c.id ∈ idsOf (occurrencesParts parent around k parts) := by
  induction parts generalizing k with
  | nil => cases hc
  | cons part parts ih =>
    rw [occurrencesParts, idsOf_append]
    rcases List.mem_append.mp hc with hc | hc
    · exact List.mem_append_left _ (mem_ids_occurrencesPart hc)
    · exact List.mem_append_right _ (ih hc)

/-- What is bound from around in a node is in the node. -/
theorem mem_ids_boundFrom {around : Around} {n : Node} {b : String × Node × Bool}
    (hb : b ∈ n.boundFrom around) : b.2.1.id ∈ idsOf (n.occurrences around) := by
  obtain ⟨id, span, form, parts⟩ := n
  unfold boundFrom at hb
  split at hb
  · obtain ⟨_, _, rfl⟩ := List.mem_map.mp hb
    exact mem_ids_occurrences around _
  · obtain ⟨_, _, hb⟩ := List.mem_flatMap.mp hb
    obtain ⟨c, hc, hb⟩ := List.mem_filterMap.mp hb
    obtain ⟨_, _, rfl⟩ := Option.map_eq_some_iff.mp hb
    exact List.mem_cons_of_mem _ (mem_ids_occurrencesParts hc)
  · cases hb

theorem mem_ids_boundFromPart {around : Around} {part : List Node} {b : String × Node × Bool}
    (hb : b ∈ part.flatMap (boundFrom around)) :
    b.2.1.id ∈ idsOf (occurrencesPart around part) := by
  induction part with
  | nil => cases hb
  | cons n rest ih =>
    rw [occurrencesPart, idsOf_append]
    rw [List.flatMap_cons] at hb
    rcases List.mem_append.mp hb with hb | hb
    · exact List.mem_append_left _ (mem_ids_boundFrom hb)
    · exact List.mem_append_right _ (ih hb)

theorem mem_ids_boundFromParts {parent : Node} {around : Around} {k : Nat}
    {parts : List (List Node)} {b : String × Node × Bool}
    (hb : b ∈ boundFromParts parent around k parts) :
    b.2.1.id ∈ idsOf (occurrencesParts parent around k parts) := by
  induction parts generalizing k with
  | nil => cases hb
  | cons part parts ih =>
    rw [occurrencesParts, idsOf_append]
    rcases List.mem_append.mp hb with hb | hb
    · exact List.mem_append_left _ (mem_ids_boundFromPart hb)
    · exact List.mem_append_right _ (ih hb)

theorem openersOf_cons (o : Occurrence) (os : List Occurrence) :
    openersOf (o :: os) = if o.node.form.opensScope then o.node.id :: openersOf os
      else openersOf os := by
  unfold openersOf
  rw [List.filter_cons]
  split <;> rfl

/-- A node that was bound from around was seen. -/
theorem Ready.contains_of_isClaimed {n : Node} {around : Around}
    (h : Ready index seen (n.occurrences around) (n.boundFrom around) next)
    (hclaimed : n.isClaimed around = true) : seen.contains n.id = true := by
  obtain ⟨name, isLoop, hform, hrole⟩ := form_of_isClaimed hclaimed
  rw [h.claimed n.id (mem_ids_occurrences around n)]
  simp [boundFrom, hform, hrole]

theorem Ready.distinct_children {n : Node} {around : Around}
    {bound : List (String × Node × Bool)}
    (h : Ready index seen (n.occurrences around) bound next) :
    n.id ∉ idsOf (occurrencesParts n around 0 n.parts) ∧
      (idsOf (occurrencesParts n around 0 n.parts)).Nodup := by
  have hdistinct := h.distinct
  rw [occurrences_eq] at hdistinct
  exact List.nodup_cons.mp hdistinct

/-- A node that opens a scope opens the next one. -/
theorem Ready.index_self {n : Node} {around : Around} {bound : List (String × Node × Bool)}
    (h : Ready index seen (n.occurrences around) bound next) (hscope : n.form.opensScope = true) :
    index n.id = next := by
  have hnumbered := h.numbered
  rw [occurrences_eq, openersOf_cons, if_pos hscope, List.map_cons, List.length_cons,
    List.range'_succ] at hnumbered
  exact (List.cons.inj hnumbered).1

section

variable {n : Node} {around : Around}
  (hcomplete : n.form.complete (n.parts.map List.length) = true)
  (hclaimed : n.isClaimed around = false)
include hcomplete hclaimed

theorem mem_bound_children {b : String × Node × Bool}
    (hb : b ∈ n.boundNames ∨ b ∈ n.boundFrom around) :
    b.2.1.id ∈ idsOf (occurrencesParts n around 0 n.parts) := by
  refine mem_ids_boundFromParts ?_
  rw [boundFromParts_eq hcomplete hclaimed]
  exact List.mem_append.mpr hb

/-- A node that was not bound from around was not seen either. -/
theorem Ready.not_contains
    (h : Ready index seen (n.occurrences around) (n.boundFrom around) next) :
    seen.contains n.id = false := by
  obtain ⟨hself, _⟩ := h.distinct_children
  rw [← Bool.not_eq_true, h.claimed n.id (mem_ids_occurrences around n)]
  intro hid
  obtain ⟨b, hb, hid⟩ := List.mem_map.mp hid
  exact hself (hid ▸ mem_bound_children hcomplete hclaimed (.inr hb))

/-- When a node has acted its children are ready. -/
theorem Ready.children (h : Ready index seen (n.occurrences around) (n.boundFrom around) next)
    (opened : List Nat) :
    Ready index ((seen.insert n.id).insertAll n.claims) (occurrencesParts n around 0 n.parts)
      (boundFromParts n around 0 n.parts) (n.within opened next).2 := by
  obtain ⟨hself, hdistinct⟩ := h.distinct_children
  obtain ⟨_, hseen, hnumbered⟩ := h
  rw [occurrences_eq] at hseen hnumbered
  refine ⟨hdistinct, ?_, ?_⟩
  -- seen are the node, which is no child of its own, and what it binds
  · intro j hj
    have hne : n.id ≠ j := fun heq => hself (heq ▸ hj)
    rw [boundFromParts_eq hcomplete hclaimed, List.map_append, List.mem_append,
      ← hseen j (List.mem_cons_of_mem _ hj), IdSet.contains_insertAll, IdSet.contains_insert,
      decide_eq_false hne, Bool.or_false, Bool.or_eq_true, decide_eq_true_eq, or_comm]
    rfl
  · rw [openersOf_cons] at hnumbered
    unfold within
    split
    · next hscope =>
      rw [if_pos hscope, List.map_cons, List.length_cons, List.range'_succ] at hnumbered
      exact (List.cons.inj hnumbered).2
    · next hscope =>
      rwa [if_neg hscope] at hnumbered

/-- What tracing a node comes to, if its children come to what the tree says. -/
theorem Traced.node {items : List (Option Nat × Event)}
    (h : Ready index seen (n.occurrences around) (n.boundFrom around) next)
    (hopen : opened.head? = (homeOf around).map index)
    (hparts : Traced index ((seen.insert n.id).insertAll n.claims) (n.within opened next).1
      (n.within opened next).2 (traceParts n.parts ((seen.insert n.id).insertAll n.claims))
      (occurrencesParts n around 0 n.parts) items) :
    Traced index seen opened next (n.trace seen) (n.occurrences around)
      (n.own around ++ items) := by
  have hself : seen.contains n.id = false := h.not_contains hcomplete hclaimed
  rw [trace_of_not_seen hself, occurrences_eq]
  refine ⟨?_, ?_⟩
  · intro j
    have hclaims : j ∈ n.claims → j ∈ idsOf (occurrencesParts n around 0 n.parts) := by
      intro hj
      obtain ⟨b, hb, rfl⟩ := List.mem_map.mp hj
      exact mem_bound_children hcomplete hclaimed (.inl hb)
    have hids : j ∈ idsOf (⟨n, around⟩ :: occurrencesParts n around 0 n.parts) ↔
        n.id = j ∨ j ∈ idsOf (occurrencesParts n around 0 n.parts) :=
      List.mem_cons.trans (or_congr_left eq_comm)
    rw [Bool.eq_iff_iff, hparts.seen]
    simp only [IdSet.contains_insertAll, IdSet.contains_insert, Bool.or_eq_true,
      decide_eq_true_eq, hids]
    tauto
  · intro rest
    have hcount : (n.within opened next).2 +
        (openersOf (occurrencesParts n around 0 n.parts)).length =
        next + (openersOf (⟨n, around⟩ :: occurrencesParts n around 0 n.parts)).length := by
      rw [openersOf_cons, within]
      split
      · rw [List.length_cons]
        omega
      · rfl
    rw [List.append_assoc, List.append_assoc, locate_events hopen h.index_self, hparts.located,
      locate_after, hcount, List.map_append, List.append_assoc]

end

mutual

/-- Tracing a tree comes to what the tree says. -/
theorem traced_trace (around : Around) (n : Node) (hn : n.Complete) {seen : IdSet}
    {opened : List Nat} {next : Nat}
    (h : Ready index seen (n.occurrences around) (n.boundFrom around) next)
    (hopen : opened.head? = (homeOf around).map index) :
    Traced index seen opened next (n.trace seen) (n.occurrences around) (located around n) := by
  match n, hn with
  | mk id span form parts, .mk hcomplete hinner =>
    rw [located]
    split
    · next hclaimed =>
      -- a name that was bound from around was seen then, and the walk passes it by
      have hseen : seen.contains id = true := h.contains_of_isClaimed hclaimed
      obtain ⟨name, isLoop, rfl, _⟩ := form_of_isClaimed hclaimed
      cases parts_of_name (n := mk id span (.name name) parts) rfl hcomplete
      rw [trace, if_pos hseen]
      refine ⟨?_, fun _ => rfl⟩
      intro j
      by_cases hj : j = id <;> simp [idsOf, occurrences, occurrencesParts, Node.id, hj, hseen]
    · next hclaimed =>
      have hclaimed : isClaimed around (mk id span form parts) = false := by simpa using hclaimed
      have hready := Ready.children (n := mk id span form parts) hcomplete hclaimed h opened
      have hinside : ((mk id span form parts).within opened next).1.head? =
          (homeOf ((mk id span form parts, 0) :: around)).map index := by
        rw [homeOf_cons, within]
        split
        · next hscope => exact congrArg some (h.index_self hscope).symm
        · exact hopen
      exact Traced.node (n := mk id span form parts) hcomplete hclaimed h hopen
        (traced_traceParts (mk id span form parts) around 0 parts hinner hready hinside)

theorem traced_traceParts (parent : Node) (around : Around) (k : Nat) (parts : List (List Node))
    (hparts : ∀ part ∈ parts, ∀ n ∈ part, n.Complete) {seen : IdSet} {opened : List Nat}
    {next : Nat}
    (h : Ready index seen (occurrencesParts parent around k parts)
      (boundFromParts parent around k parts) next)
    (hopen : opened.head? = (homeOf ((parent, 0) :: around)).map index) :
    Traced index seen opened next (traceParts parts seen) (occurrencesParts parent around k parts)
      (locatedParts parent around k parts) := by
  match parts with
  | [] => exact traced_nil
  | part :: parts =>
    obtain ⟨hfirst, hrest⟩ := h.split (fun _ => mem_ids_boundFromPart)
      (fun _ => mem_ids_boundFromParts)
    have hpart := traced_tracePart ((parent, k) :: around) part (hparts part (by simp)) hfirst
      (homeOf_part parent k around ▸ hopen)
    exact hpart.append (traced_traceParts parent around (k + 1) parts
      (fun part hp => hparts part (by simp [hp])) (hrest _ hpart.seen) hopen)

theorem traced_tracePart (around : Around) (part : List Node) (hpart : ∀ n ∈ part, n.Complete)
    {seen : IdSet} {opened : List Nat} {next : Nat}
    (h : Ready index seen (occurrencesPart around part) (part.flatMap (boundFrom around)) next)
    (hopen : opened.head? = (homeOf around).map index) :
    Traced index seen opened next (tracePart part seen) (occurrencesPart around part)
      (locatedPart around part) := by
  match part with
  | [] => exact traced_nil
  | n :: rest =>
    rw [List.flatMap_cons] at h
    obtain ⟨hfirst, hrest⟩ := h.split (fun _ => mem_ids_boundFrom) (fun _ => mem_ids_boundFromPart)
    have hn := traced_trace around n (hpart n (by simp)) hfirst hopen
    exact hn.append (traced_tracePart around rest (fun m hm => hpart m (by simp [hm]))
      (hrest _ hn.seen) hopen)

end

end Node
end ScopeLint
