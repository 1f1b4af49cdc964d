import ScopeLint.Proofs.Run

/-! # Traces leave the stacks as they found them

What a node opens before its children it closes after them: replaying the trace
of a node never fails inside a scope, and it ends with the scopes open and the
branches begun that it started with. A node that was seen before has an empty
trace, so this needs nothing about identities. Only an import that gives no name
at all stops a walk. -/
namespace ScopeLint

/-- An import binds another name or the first word of its path: one of them is there. -/
def Form.namesImport : Form → Bool
  | .importModule path asName _ => (Node.word? asName).isSome || !path.isEmpty
  | _ => true

namespace Walk

/-- The replay succeeds, and ends with these scopes open and so many branches begun. -/
def Reaches (w : Walk) (events : List Event) (opened : List Nat) (branches : Int) : Prop :=
  ∃ w', w.replay events = .ok w' ∧ w'.opened = opened ∧ w'.branches = branches

variable {w : Walk} {opened : List Nat} {branches : Int}

theorem reaches_nil (w : Walk) : w.Reaches [] w.opened w.branches := ⟨w, rfl, rfl, rfl⟩

theorem Reaches.append {first second : List Event} {opened' : List Nat} {branches' : Int}
    (h : w.Reaches first opened branches)
    (h' : ∀ v : Walk, v.opened = opened → v.branches = branches →
      v.Reaches second opened' branches') :
    w.Reaches (first ++ second) opened' branches' := by
  obtain ⟨v, hv, ho, hb⟩ := h
  obtain ⟨w', hw', ho', hb'⟩ := h' v ho hb
  exact ⟨w', replay_append_iff.mpr ⟨v, hv, hw'⟩, ho', hb'⟩

theorem reaches_cons {v : Walk} {e : Event} {events : List Event} (hstep : w.step e = .ok v)
    (h : v.Reaches events opened branches) : w.Reaches (e :: events) opened branches := by
  obtain ⟨w', hw', hends⟩ := h
  exact ⟨w', replay_cons_iff.mpr ⟨v, hstep, hw'⟩, hends⟩

/-- Inside a scope every binding and every use succeeds. -/
theorem step_action {e : Event} (hopen : w.opened ≠ []) (he : e.isAction = true) :
    ∃ v, w.step e = .ok v ∧ v.opened = w.opened ∧ v.branches = w.branches := by
  obtain ⟨place, rest, ho⟩ := List.exists_cons_of_ne_nil hopen
  cases e with
  | bind | use => simp only [step, ho, Except.ok.injEq, exists_eq_left', and_self]
  | _ => simp [Event.isAction] at he

theorem reaches_actions {events : List Event} (hopen : w.opened ≠ [])
    (hall : ∀ e ∈ events, e.isAction = true) : w.Reaches events w.opened w.branches := by
  induction events generalizing w with
  | nil => exact reaches_nil w
  | cons e events ih =>
    obtain ⟨v, hstep, ho, hb⟩ := step_action hopen (hall e (by simp))
    have hrest := ih (ho ▸ hopen) fun e' he' => hall e' (by simp [he'])
    exact reaches_cons hstep (ho ▸ hb ▸ hrest)

/-- A scope opens, and names are bound and used in it. -/
theorem reaches_enter (w : Walk) (top : Bool) {events : List Event}
    (hall : ∀ e ∈ events, e.isAction = true) :
    w.Reaches (.enter top :: events) (w.arena.size :: w.opened) w.branches := by
  refine reaches_cons rfl ?_
  exact reaches_actions (List.cons_ne_nil _ _) hall

end Walk

namespace Form

/-- The scopes open after a node of this form has acted, before its children do. -/
def Opens (form : Form) (before after : List Nat) : Prop :=
  if form.opensScope then ∃ i, after = i :: before else after = before

/-- How many branches a node of this form begins. -/
def begun (form : Form) : Int := if form.isBranch then 1 else 0

theorem add_begun {form : Form} (h : form.isBranch = false) (branches : Int) :
    branches + form.begun = branches := by
  simp [begun, h]

theorem Opens.ne_nil {form : Form} {before after : List Nat} (h : form.Opens before after)
    (hor : before ≠ [] ∨ form = .module) : after ≠ [] := by
  unfold Opens at h
  split at h
  · obtain ⟨i, rfl⟩ := h
    exact List.cons_ne_nil _ _
  · next hscope =>
    rcases hor with hne | rfl
    · exact h ▸ hne
    · exact absurd rfl hscope

end Form

namespace Node

open Walk

theorem isAction_targetEvents {n : Node} : ∀ e ∈ n.targetEvents, e.isAction = true := by
  intro e he
  obtain ⟨bound, _, rfl⟩ := List.mem_map.mp he
  rfl

theorem isAction_events_declaration {n : Node} {keyword : String}
    {names : List (String × Span)} (hform : n.form = .declaration keyword names) :
    ∀ e ∈ n.events, e.isAction = true := by
  intro e he
  simp only [events, hform] at he
  obtain ⟨declared, _, rfl⟩ := List.mem_map.mp he
  rfl

/-- A definition binds its name around the scope that it opens. -/
theorem reaches_definition {w : Walk} (hopen : w.opened ≠ []) (name : String)
    (span nameSpan : Span) (traits : Traits) :
    ∃ i, w.Reaches [.define name span, .bind name nameSpan traits false false, .enter false]
      (i :: w.opened) w.branches := by
  obtain ⟨u, hu, huo, hub⟩ : ∃ u, w.step (.define name span) = .ok u ∧ u.opened = w.opened ∧
      u.branches = w.branches := by
    refine ⟨_, rfl, ?_⟩
    split <;> exact ⟨rfl, rfl⟩
  obtain ⟨v, hv, hvo, hvb⟩ := step_action (w := u) (e := .bind name nameSpan traits false false)
    (huo ▸ hopen) rfl
  refine ⟨v.arena.size, reaches_cons hu (reaches_cons hv (reaches_cons rfl ?_))⟩
  exact ⟨_, rfl, by rw [hvo, huo], by rw [hvb, hub]⟩

/-- What a node does before its children succeeds: it opens at most its scope, and begins at most
its branch. -/
theorem reaches_events (n : Node) (hname : n.form.namesImport = true) {w : Walk}
    (hor : w.opened ≠ [] ∨ n.form = .module) :
    ∃ opened, n.form.Opens w.opened opened ∧
      w.Reaches n.events opened (w.branches + n.form.begun) := by
  obtain ⟨id, span, form, parts⟩ := n
  simp only [Node.form] at hname hor ⊢
  by_cases hmodule : form = .module
  · subst hmodule
    rw [Form.add_begun rfl]
    exact ⟨_, ⟨_, rfl⟩, reaches_enter w true (by simp)⟩
  have hopen : w.opened ≠ [] := hor.resolve_right hmodule
  -- most forms bind and use names and do nothing else
  have hactions : ∀ {events : List Event}, form.opensScope = false → form.isBranch = false →
      (∀ e ∈ events, e.isAction = true) → ∃ opened, form.Opens w.opened opened ∧
        w.Reaches events opened (w.branches + form.begun) := by
    intro events hscope hbranch hall
    rw [Form.add_begun hbranch]
    exact ⟨w.opened, by simp [Form.Opens, hscope], reaches_actions hopen hall⟩
  cases form with
  | module => exact absurd rfl hmodule
  | functionDef name nameSpan | classDef name nameSpan =>
    rw [Form.add_begun rfl]
    obtain ⟨i, h⟩ := reaches_definition hopen name span nameSpan _
    exact ⟨_, ⟨i, rfl⟩, h⟩
  | lambda =>
    rw [Form.add_begun rfl]
    exact ⟨_, ⟨_, rfl⟩, reaches_enter w false (by simp)⟩
  | comprehension =>
    rw [Form.add_begun rfl]
    exact ⟨_, ⟨_, rfl⟩, reaches_enter w false isAction_targetEvents⟩
  | ifBranch | tryBlock | handler => exact ⟨_, rfl, reaches_cons rfl ⟨_, rfl, rfl, rfl⟩⟩
  | importModule path asName asSpan =>
    refine hactions rfl rfl ?_
    cases hw : word? asName with
    | some other => simp [events, Node.form, hw, Event.isAction]
    | none =>
      cases path with
      | cons first rest => simp [events, Node.form, hw, Event.isAction]
      | nil => simp [Form.namesImport, hw] at hname
  | empty marker =>
    rw [Form.add_begun rfl]
    refine ⟨w.opened, rfl, ?_⟩
    by_cases hm : marker = ";"
    · simp only [events, Node.form, hm, if_true]
      exact reaches_cons rfl ⟨_, rfl, rfl, rfl⟩
    · simp only [events, Node.form, hm, if_false]
      exact reaches_nil w
  | assign | forIn => exact hactions rfl rfl isAction_targetEvents
  | declaration keyword names => exact hactions rfl rfl (isAction_events_declaration rfl)
  | _ => exact hactions rfl rfl (by simp [events, Node.form, Event.isAction])

/-- What a node does after its children undoes what it opened and began. -/
theorem reaches_after (form : Form) {w : Walk} {opened : List Nat} {branches : Int}
    (hopen : form.Opens opened w.opened) (hbranch : w.branches = branches + form.begun) :
    w.Reaches form.after opened branches := by
  unfold Form.Opens at hopen
  unfold Form.begun at hbranch
  unfold Form.after
  split
  · next hscope =>
    rw [if_pos hscope] at hopen
    obtain ⟨i, ho⟩ := hopen
    have hnot : form.isBranch = false := by cases form <;> simp_all [Form.opensScope, Form.isBranch]
    refine ⟨_, by simp only [replay, step, ho]; rfl, rfl, ?_⟩
    simpa [hnot] using hbranch
  · next hscope =>
    rw [if_neg hscope] at hopen
    split
    · next hb =>
      rw [if_pos hb] at hbranch
      refine ⟨_, rfl, hopen, ?_⟩
      show w.branches - 1 = branches
      omega
    · next hb =>
      rw [if_neg hb, Int.add_zero] at hbranch
      exact ⟨w, rfl, hopen, hbranch⟩

theorem trace_mk (id : Nat) (span : Span) (form : Form) (parts : List (List Node)) (seen : IdSet) :
    ((mk id span form parts).trace seen).1 = if seen.contains id then [] else
      (mk id span form parts).events ++ (traceParts parts
        ((seen.insert id).insertAll (mk id span form parts).claims)).1 ++ form.after := by
  rw [trace]
  split <;> rfl

theorem trace_of_seen {n : Node} {seen : IdSet} (h : seen.contains n.id = true) :
    n.trace seen = ([], seen) := by
  obtain ⟨id, span, form, parts⟩ := n
  change seen.contains id = true at h
  rw [trace, h, if_pos rfl]

theorem trace_of_not_seen {n : Node} {seen : IdSet} (h : seen.contains n.id = false) :
    n.trace seen =
      (n.events ++ (traceParts n.parts ((seen.insert n.id).insertAll n.claims)).1 ++ n.form.after,
        (traceParts n.parts ((seen.insert n.id).insertAll n.claims)).2) := by
  obtain ⟨id, span, form, parts⟩ := n
  change seen.contains id = false at h
  rw [trace, h, if_neg Bool.false_ne_true]
  rfl

mutual

/-- Inside a scope, or from a module on, the trace of a node succeeds and restores what it found. -/
theorem reaches_trace (n : Node) (depth : Nat) (seen : IdSet) {w : Walk}
    (hname : ∀ p ∈ n.preorder depth, p.2.form.namesImport = true)
    (hor : w.opened ≠ [] ∨ n.form = .module) :
    w.Reaches (n.trace seen).1 w.opened w.branches := by
  match n with
  | mk id span form parts =>
    rw [trace_mk]
    split
    · exact reaches_nil w
    · have hself := hname (depth, mk id span form parts) (by simp [preorder])
      obtain ⟨opened, hopens, hevents⟩ := reaches_events (mk id span form parts) hself hor
      refine (hevents.append fun v hv hb => ?_).append fun v hv hb =>
        reaches_after form (hv ▸ hopens) hb
      have hinner := fun p hp => hname p (List.mem_cons_of_mem _ hp)
      exact hv ▸ hb ▸ reaches_traceParts parts (depth + 1) _ hinner (hv ▸ hopens.ne_nil hor)

theorem reaches_traceParts (parts : List (List Node)) (depth : Nat) (seen : IdSet) {w : Walk}
    (hname : ∀ p ∈ preorderParts depth parts, p.2.form.namesImport = true)
    (hopen : w.opened ≠ []) : w.Reaches (traceParts parts seen).1 w.opened w.branches := by
  match parts with
  | [] => exact reaches_nil w
  | part :: parts =>
    have hfirst := fun p hp => hname p (List.mem_append_left _ hp)
    have hrest := fun p hp => hname p (List.mem_append_right _ hp)
    refine (reaches_tracePart part depth seen hfirst hopen).append fun v hv hb => ?_
    exact hv ▸ hb ▸ reaches_traceParts parts depth _ hrest (hv ▸ hopen)

theorem reaches_tracePart (part : List Node) (depth : Nat) (seen : IdSet) {w : Walk}
    (hname : ∀ p ∈ preorderPart depth part, p.2.form.namesImport = true)
    (hopen : w.opened ≠ []) : w.Reaches (tracePart part seen).1 w.opened w.branches := by
  match part with
  | [] => exact reaches_nil w
  | n :: rest =>
    have hfirst := fun p hp => hname p (List.mem_append_left _ hp)
    have hrest := fun p hp => hname p (List.mem_append_right _ hp)
    refine (reaches_trace n depth seen hfirst (Or.inl hopen)).append fun v hv hb => ?_
    exact hv ▸ hb ▸ reaches_tracePart rest depth _ hrest (hv ▸ hopen)

end

/-- The walk of a module opens its scope first, and closes it last with no other scope open. -/
theorem replay_root {root : Node} (hroot : root.form = .module)
    (hname : ∀ p ∈ root.preorder 0, p.2.form.namesImport = true) (filename : String) :
    ∃ inner v w, (root.trace .empty).1 = .enter true :: inner ++ [.leave] ∧
      Walk.replay { filename } (.enter true :: inner) = .ok v ∧ v.opened = [0] ∧
      v.step .leave = .ok w ∧ w.opened = [] ∧ w.branches = 0 := by
  obtain ⟨id, span, form, parts⟩ := root
  cases hroot
  have htrace := trace_mk id span .module parts .empty
  rw [IdSet.contains_empty, if_neg Bool.false_ne_true] at htrace
  have hinner := fun p hp => hname p (List.mem_cons_of_mem _ hp)
  have hbody : ∀ seen, Walk.Reaches { filename } (.enter true :: (traceParts parts seen).1) [0] 0 :=
    fun seen => reaches_cons rfl (reaches_traceParts parts 1 seen hinner (List.cons_ne_nil _ _))
  obtain ⟨v, hv, ho, hb⟩ :=
    hbody ((IdSet.empty.insert id).insertAll (mk id span .module parts).claims)
  have hleave : ∃ w, v.step .leave = .ok w ∧ w.opened = [] ∧ w.branches = v.branches := by
    simp only [step, ho, Except.ok.injEq, exists_eq_left', and_self]
  obtain ⟨w, hw, hwo, hwb⟩ := hleave
  exact ⟨_, v, w, htrace, hv, ho, hw, hwo, hwb.trans hb⟩

end Node

/-- A module whose imports all give a name can be walked. -/
theorem walk_module_ok {root : Node} (hroot : root.form = .module)
    (hname : ∀ p ∈ root.preorder 0, p.2.form.namesImport = true) (filename : String) :
    ∃ w, walk root filename = .ok w := by
  obtain ⟨w, hw, hends⟩ := Node.reaches_trace root 0 .empty (w := { filename }) hname (Or.inr hroot)
  exact ⟨w, walk_ok_iff.mpr ⟨hw, hends⟩⟩

end ScopeLint
