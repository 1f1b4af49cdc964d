import ScopeLint.Proofs.Augmented
import ScopeLint.Proofs.Replay
import ScopeLint.Proofs.Unshared

/-! # Remarks on the tree

On its way a walk remarks on definitions in branches and on semicolons that stand
alone. It counts the branches that have begun, so what it remarks at a definition
hangs on everything that came before. In a tree without shared nodes the count is
the number of branches around the definition: what a walk skips there are names,
and these begin no branch. -/
namespace ScopeLint

/-- Whether an event is about the tree, and not about names and scopes. -/
def Event.isNote : Event → Bool
  | .branch | .join | .define .. | .semicolon _ | .emptyImport => true
  | _ => false

theorem Event.isNote_of_isAction {e : Event} (h : e.isAction = true) : e.isNote = false := by
  cases e <;> simp_all [isAction, isNote]

theorem filter_isNote_of_actions {events : List Event} (h : ∀ e ∈ events, e.isAction = true) :
    events.filter Event.isNote = [] := by
  refine List.filter_eq_nil_iff.mpr fun e he => ?_
  rw [Event.isNote_of_isAction (h e he)]
  exact Bool.false_ne_true

namespace Node

/-! ## What a walk notes at a tree -/

mutual

/-- What a walk notes at a tree that it has seen nothing of. -/
def notes : Node → List Event
  | mk id span form parts =>
    (mk id span form parts).events.filter Event.isNote ++ notesParts parts ++
      form.after.filter Event.isNote

def notesParts : List (List Node) → List Event
  | [] => []
  | part :: parts => notesPart part ++ notesParts parts

def notesPart : List Node → List Event
  | [] => []
  | n :: rest => notes n ++ notesPart rest

end

theorem notesParts_of_empty {parts : List (List Node)} (h : parts.flatten = []) :
    notesParts parts = [] := by
  induction parts with
  | nil => rfl
  | cons part parts ih =>
    rw [List.flatten_cons, List.append_eq_nil_iff] at h
    rw [notesParts, ih h.2, h.1]
    rfl

theorem notes_of_name {n : Node} {name : String} (hform : n.form = .name name)
    (hleaf : n.children = []) : n.notes = [] := by
  obtain ⟨id, span, form, parts⟩ := n
  cases hform
  have hparts : notesParts parts = [] := notesParts_of_empty hleaf
  rw [notes, hparts]
  rfl

mutual

theorem idsOf_occurrences (around : Around) (n : Node) : idsOf (n.occurrences around) = n.ids := by
  match n with
  | mk id span form parts =>
    exact congrArg (id :: ·) (idsOf_occurrencesParts (mk id span form parts) around 0 parts)

theorem idsOf_occurrencesParts (parent : Node) (around : Around) (k : Nat)
    (parts : List (List Node)) :
    idsOf (occurrencesParts parent around k parts) = idsParts parts := by
  match parts with
  | [] => rfl
  | part :: parts =>
    rw [occurrencesParts, idsOf_append, idsOf_occurrencesPart _ part,
      idsOf_occurrencesParts parent around (k + 1) parts, idsParts]

theorem idsOf_occurrencesPart (around : Around) (part : List Node) :
    idsOf (occurrencesPart around part) = idsPart part := by
  match part with
  | [] => rfl
  | n :: rest =>
    rw [occurrencesPart, idsOf_append, idsOf_occurrences around n,
      idsOf_occurrencesPart around rest, idsPart]

end

/-- Nodes that a walk comes to: they are all different, names among them have no children, and at
those that were seen there is nothing to note. -/
structure Noted (seen : IdSet) (os : List Occurrence) : Prop where
  distinct : (idsOf os).Nodup
  leaf : ∀ o ∈ os, ∀ name, o.node.form = .name name → o.node.children = []
  skips : ∀ o ∈ os, seen.contains o.node.id = true → o.node.notes = []

/-- The first of the nodes can be walked, and then the others. -/
theorem Noted.split {seen : IdSet} {first second : List Occurrence}
    (h : Noted seen (first ++ second)) :
    Noted seen first ∧ ∀ seen' : IdSet,
      (∀ j, j ∉ idsOf first → seen'.contains j = seen.contains j) → Noted seen' second := by
  have hdistinct := h.distinct
  rw [idsOf_append] at hdistinct
  obtain ⟨hfirst, hsecond, hapart⟩ := List.nodup_append.mp hdistinct
  refine ⟨⟨hfirst, fun o ho => h.leaf o (List.mem_append_left _ ho),
    fun o ho => h.skips o (List.mem_append_left _ ho)⟩, ?_⟩
  intro seen' hseen
  refine ⟨hsecond, fun o ho => h.leaf o (List.mem_append_right _ ho), fun o ho hcontains => ?_⟩
  have hid : o.node.id ∈ idsOf second := List.mem_map_of_mem ho
  rw [hseen _ fun hmem => hapart _ hmem _ hid rfl] at hcontains
  exact h.skips o (List.mem_append_right _ ho) hcontains

/-- When a node has acted its children can be walked: what it claims are names. -/
theorem Noted.children {seen : IdSet} {n : Node} {around : Around}
    (h : Noted seen (n.occurrences around)) :
    Noted ((seen.insert n.id).insertAll n.claims) (occurrencesParts n around 0 n.parts) := by
  have hinner : ∀ o ∈ occurrencesParts n around 0 n.parts, o ∈ n.occurrences around := by
    intro o ho
    rw [occurrences_eq]
    exact List.mem_cons_of_mem _ ho
  have hdistinct := h.distinct
  rw [occurrences_eq] at hdistinct
  obtain ⟨hself, hparts⟩ := List.nodup_cons.mp hdistinct
  refine ⟨hparts, fun o ho => h.leaf o (hinner o ho), fun o ho hcontains => ?_⟩
  have hne : n.id ≠ o.node.id := fun heq => hself (List.mem_map.mpr ⟨o, ho, heq.symm⟩)
  rw [IdSet.contains_insertAll, IdSet.contains_insert, decide_eq_false hne, Bool.or_false,
    Bool.or_eq_true, decide_eq_true_eq] at hcontains
  rcases hcontains with hcontains | hclaimed
  · exact h.skips o (hinner o ho) hcontains
  · obtain ⟨⟨name, node, isLoop⟩, hbound, hid⟩ := List.mem_map.mp hclaimed
    obtain ⟨hform, hplace⟩ := mem_boundNames hbound
    have hnode : ∃ place, ⟨node, place⟩ ∈ n.occurrences around := by
      rcases hplace with hchild | ⟨target, htarget, _, hchild⟩
      · obtain ⟨k, hk⟩ := child_mem_occurrences around hchild
        exact ⟨_, hk⟩
      · obtain ⟨k, hsub⟩ := occurrences_subset_of_child around htarget
        obtain ⟨j, hj⟩ := child_mem_occurrences ((n, k) :: around) hchild
        exact ⟨_, hsub hj⟩
    obtain ⟨place, hmem⟩ := hnode
    have hsame : o = ⟨node, place⟩ :=
      List.inj_on_of_nodup_map h.distinct (hinner o ho) hmem hid.symm
    rw [hsame]
    exact notes_of_name hform (h.leaf _ hmem name hform)

mutual

/-- What a walk notes does not hang on what it has seen, as long as that are names. -/
theorem filter_trace (around : Around) (n : Node) (seen : IdSet)
    (h : Noted seen (n.occurrences around)) :
    (n.trace seen).1.filter Event.isNote = n.notes := by
  match n with
  | mk id span form parts =>
    rw [trace_mk]
    split
    · next hseen => exact (h.skips _ List.mem_cons_self hseen).symm
    · have hinner : (traceParts parts
          ((seen.insert id).insertAll (mk id span form parts).claims)).1.filter Event.isNote =
          notesParts parts :=
        filter_traceParts (mk id span form parts) around 0 parts _ h.children
      rw [List.filter_append, List.filter_append, hinner, notes]

theorem filter_traceParts (parent : Node) (around : Around) (k : Nat) (parts : List (List Node))
    (seen : IdSet) (h : Noted seen (occurrencesParts parent around k parts)) :
    (traceParts parts seen).1.filter Event.isNote = notesParts parts := by
  match parts with
  | [] => rfl
  | part :: parts =>
    obtain ⟨hfirst, hrest⟩ := h.split
    have hseen : ∀ j, j ∉ idsOf (occurrencesPart ((parent, k) :: around) part) →
        (tracePart part seen).2.contains j = seen.contains j := by
      intro j hj
      rw [idsOf_occurrencesPart] at hj
      exact contains_tracePart part seen hj
    rw [traceParts, notesParts, List.filter_append,
      filter_tracePart ((parent, k) :: around) part seen hfirst,
      filter_traceParts parent around (k + 1) parts _ (hrest _ hseen)]

theorem filter_tracePart (around : Around) (part : List Node) (seen : IdSet)
    (h : Noted seen (occurrencesPart around part)) :
    (tracePart part seen).1.filter Event.isNote = notesPart part := by
  match part with
  | [] => rfl
  | n :: rest =>
    obtain ⟨hfirst, hrest⟩ := h.split
    have hseen : ∀ j, j ∉ idsOf (n.occurrences around) →
        (n.trace seen).2.contains j = seen.contains j := by
      intro j hj
      rw [idsOf_occurrences] at hj
      exact contains_trace n seen hj
    rw [tracePart, notesPart, List.filter_append, filter_trace around n seen hfirst,
      filter_tracePart around rest _ (hrest _ hseen)]

end

end Node

/-! ## The branches around a place -/

/-- What is to be remarked at a node: a definition with a branch somewhere around it, or a semicolon
that stands alone. -/
def Occurrence.remark? (filename : String) (o : Occurrence) : Option Diagnostic :=
  match o.node.form with
  | .functionDef name _ | .classDef name _ =>
    if o.around.any fun p => p.1.form ∈ [.ifBranch, .tryBlock, .handler] then
      some (Diagnostic.make filename .functionInBranch name o.node.span .error none)
    else none
  | .empty marker =>
    if marker = ";" then
      some (Diagnostic.make filename .extraSemicolon ";" o.node.span .warning none)
    else none
  | _ => none

theorem Form.isBranch_iff (form : Form) :
    form.isBranch = decide (form ∈ [.ifBranch, .tryBlock, .handler]) := by
  cases form <;> simp [isBranch]

/-- How many branches there are around a place. -/
def Around.branches (around : Around) : Int := (around.countP (·.1.form.isBranch) : Nat)

theorem Around.branches_cons (parent : Node) (k : Nat) (around : Around) :
    Around.branches ((parent, k) :: around) = around.branches + parent.form.begun := by
  unfold branches Form.begun
  rw [List.countP_cons]
  split <;> simp

theorem Around.branches_eq_zero_iff (around : Around) :
    around.branches = 0 ↔
      (around.any fun p => p.1.form ∈ [.ifBranch, .tryBlock, .handler]) = false := by
  rw [branches, Int.natCast_eq_zero, List.countP_eq_zero, List.any_eq_false]
  simp only [Form.isBranch_iff]

/-- Only notes lead to remarks. -/
theorem Walk.remarks_filter (filename : String) (branches : Int) (events : List Event) :
    remarks filename branches (events.filter Event.isNote) = remarks filename branches events := by
  induction events generalizing branches with
  | nil => rfl
  | cons e events ih =>
    cases hnote : e.isNote with
    | true => rw [List.filter_cons_of_pos hnote, remarks, remarks, ih]
    | false =>
      have hquiet : e.begun = 0 ∧ e.remarks filename branches = [] := by
        cases e <;> simp_all [Event.isNote, Event.begun, Event.remarks]
      rw [List.filter_cons_of_neg (by simp [hnote]), remarks, hquiet.1, hquiet.2, Int.add_zero, ih]
      rfl

namespace Node

/-- What a node notes before its children. -/
theorem filter_events (n : Node) :
    n.events.filter Event.isNote = match n.form with
      | .functionDef name _ | .classDef name _ => [.define name n.span]
      | .empty marker => if marker = ";" then [.semicolon n.span] else []
      | .ifBranch | .tryBlock | .handler => [.branch]
      | .importModule path asName _ =>
        if (Form.importModule path asName none).namesImport then [] else [.emptyImport]
      | _ => [] := by
  obtain ⟨id, span, form, parts⟩ := n
  cases form with
  | assign | forIn => exact filter_isNote_of_actions isAction_targetEvents
  | comprehension =>
    have htarget : (mk id span .comprehension parts).targetEvents.filter Event.isNote = [] :=
      filter_isNote_of_actions isAction_targetEvents
    exact htarget
  | declaration keyword names => exact filter_isNote_of_actions (isAction_events_declaration rfl)
  | empty marker => by_cases h : marker = ";" <;> simp [events, Node.form, h, Event.isNote]
  | importModule path asName asSpan =>
    cases hword : word? asName with
    | some other => simp [events, Node.form, hword, Form.namesImport, Event.isNote]
    | none => cases path <;> simp [events, Node.form, hword, Form.namesImport, Event.isNote]
  | _ => rfl

theorem remarks_events (filename : String) (around : Around) (n : Node) :
    Walk.remarks filename around.branches (n.events.filter Event.isNote) =
        (Occurrence.remark? filename ⟨n, around⟩).toList ∧
      Walk.begun (n.events.filter Event.isNote) = n.form.begun := by
  rw [filter_events]
  cases hform : n.form with
  | functionDef name nameSpan | classDef name nameSpan =>
    refine ⟨?_, rfl⟩
    simp only [Walk.remarks, Event.remarks, Occurrence.remark?, hform, List.append_nil]
    by_cases hbranches : around.branches = 0
    · rw [if_pos hbranches, around.branches_eq_zero_iff.mp hbranches, if_neg Bool.false_ne_true]
      rfl
    · have hany := mt around.branches_eq_zero_iff.mpr hbranches
      rw [if_neg hbranches, if_pos (Bool.eq_true_of_not_eq_false hany)]
      rfl
  | empty marker =>
    by_cases h : marker = ";" <;>
      simp [Walk.remarks, Event.remarks, Occurrence.remark?, hform, h, Walk.begun, Event.begun,
        Form.begun, Form.isBranch]
  | importModule path asName asSpan =>
    simp only [Occurrence.remark?, hform]
    split <;> exact ⟨rfl, rfl⟩
  | _ => simp only [Occurrence.remark?, hform]; exact ⟨rfl, rfl⟩

theorem remarks_after (filename : String) (branches : Int) (form : Form) :
    Walk.remarks filename branches (form.after.filter Event.isNote) = [] ∧
      Walk.begun (form.after.filter Event.isNote) = -form.begun := by
  cases form <;> exact ⟨rfl, rfl⟩

mutual

/-- The remarks on a tree are made in the order of the tree, and all its branches end in it. -/
theorem remarks_notes (filename : String) (around : Around) (n : Node) :
    Walk.remarks filename around.branches n.notes =
        (n.occurrences around).filterMap (Occurrence.remark? filename) ∧
      Walk.begun n.notes = 0 := by
  match n with
  | mk id span form parts =>
    obtain ⟨hself, hbegun⟩ := remarks_events filename around (mk id span form parts)
    obtain ⟨hinner, hbalanced⟩ :=
      remarks_notesParts filename (mk id span form parts) around 0 parts
    obtain ⟨hafter, hended⟩ := remarks_after filename (around.branches + form.begun) form
    change Walk.begun _ = form.begun at hbegun
    change Walk.remarks filename (around.branches + form.begun) _ = _ at hinner
    refine ⟨?_, ?_⟩
    · rw [notes, Walk.remarks_append, Walk.remarks_append, Walk.begun_append, hbegun, hbalanced,
        Int.add_zero, hself, hinner, hafter, List.append_nil, occurrences, List.filterMap_cons]
      cases Occurrence.remark? filename ⟨mk id span form parts, around⟩ <;> rfl
    · rw [notes, Walk.begun_append, Walk.begun_append, hbegun, hbalanced, hended]
      omega

theorem remarks_notesParts (filename : String) (parent : Node) (around : Around) (k : Nat)
    (parts : List (List Node)) :
    Walk.remarks filename (around.branches + parent.form.begun) (notesParts parts) =
        (occurrencesParts parent around k parts).filterMap (Occurrence.remark? filename) ∧
      Walk.begun (notesParts parts) = 0 := by
  match parts with
  | [] => exact ⟨rfl, rfl⟩
  | part :: parts =>
    obtain ⟨hpart, hpart'⟩ := remarks_notesPart filename ((parent, k) :: around) part
    obtain ⟨hparts, hparts'⟩ := remarks_notesParts filename parent around (k + 1) parts
    rw [Around.branches_cons] at hpart
    refine ⟨?_, ?_⟩
    · rw [notesParts, Walk.remarks_append, hpart', Int.add_zero, hpart, hparts, occurrencesParts,
        List.filterMap_append]
    · rw [notesParts, Walk.begun_append, hpart', hparts', Int.add_zero]

theorem remarks_notesPart (filename : String) (around : Around) (part : List Node) :
    Walk.remarks filename around.branches (notesPart part) =
        (occurrencesPart around part).filterMap (Occurrence.remark? filename) ∧
      Walk.begun (notesPart part) = 0 := by
  match part with
  | [] => exact ⟨rfl, rfl⟩
  | n :: rest =>
    obtain ⟨hn, hn'⟩ := remarks_notes filename around n
    obtain ⟨hrest, hrest'⟩ := remarks_notesPart filename around rest
    refine ⟨?_, ?_⟩
    · rw [notesPart, Walk.remarks_append, hn', Int.add_zero, hn, hrest, occurrencesPart,
        List.filterMap_append]
    · rw [notesPart, Walk.begun_append, hn', hrest', Int.add_zero]

end

mutual

theorem emptyImport_mem_notes (around : Around) (n : Node) :
    .emptyImport ∈ n.notes ↔ ∃ o ∈ n.occurrences around, o.node.form.namesImport = false := by
  match n with
  | mk id span form parts =>
    have hself : .emptyImport ∈ (mk id span form parts).events.filter Event.isNote ↔
        form.namesImport = false := by
      rw [filter_events]
      cases form with
      | empty marker => by_cases h : marker = ";" <;> simp [Node.form, h, Form.namesImport]
      | importModule path asName asSpan =>
        change _ ↔ (Form.importModule path asName none).namesImport = false
        cases h : (Form.importModule path asName none).namesImport <;> simp [Node.form, h]
      | _ => simp [Node.form, Form.namesImport]
    have hafter : .emptyImport ∉ form.after.filter Event.isNote := by
      cases form <;> simp [Form.after, Form.opensScope, Form.isBranch, Event.isNote]
    have hinner := emptyImport_mem_notesParts (mk id span form parts) around 0 parts
    rw [notes, List.mem_append, List.mem_append, or_iff_left hafter, hself, hinner, occurrences]
    simp [Node.form]

theorem emptyImport_mem_notesParts (parent : Node) (around : Around) (k : Nat)
    (parts : List (List Node)) :
    .emptyImport ∈ notesParts parts ↔
      ∃ o ∈ occurrencesParts parent around k parts, o.node.form.namesImport = false := by
  match parts with
  | [] => simp [notesParts, occurrencesParts]
  | part :: parts =>
    rw [notesParts, List.mem_append, emptyImport_mem_notesPart ((parent, k) :: around) part,
      emptyImport_mem_notesParts parent around (k + 1) parts, occurrencesParts]
    simp [or_and_right, exists_or]

theorem emptyImport_mem_notesPart (around : Around) (part : List Node) :
    .emptyImport ∈ notesPart part ↔
      ∃ o ∈ occurrencesPart around part, o.node.form.namesImport = false := by
  match part with
  | [] => simp [notesPart, occurrencesPart]
  | n :: rest =>
    rw [notesPart, List.mem_append, emptyImport_mem_notes around n,
      emptyImport_mem_notesPart around rest, occurrencesPart]
    simp [or_and_right, exists_or]

end

end Node

/-! ## How a walk ends -/

namespace Walk

theorem replay_append (w : Walk) (first second : List Event) :
    w.replay (first ++ second) = (w.replay first).bind (·.replay second) := by
  induction first generalizing w with
  | nil => rfl
  | cons e first ih =>
    simp only [List.cons_append, replay, bind, Except.bind]
    cases w.step e with
    | error e => rfl
    | ok v => exact ih v

theorem not_mem_of_replay {w w' : Walk} {events : List Event} (h : w.replay events = .ok w') :
    .emptyImport ∉ events := by
  induction events generalizing w with
  | nil => simp
  | cons e events ih =>
    obtain ⟨v, hstep, hrest⟩ := replay_cons_iff.mp h
    rw [List.mem_cons, not_or]
    refine ⟨?_, ih hrest⟩
    rintro rfl
    cases hstep

theorem mem_of_replay_error {w : Walk} {events : List Event}
    (h : w.replay events = .error .emptyImport) : .emptyImport ∈ events := by
  induction events generalizing w with
  | nil => cases h
  | cons e events ih =>
    simp only [replay, bind, Except.bind] at h
    cases hstep : w.step e with
    | ok v =>
      rw [hstep] at h
      exact List.mem_cons_of_mem _ (ih h)
    | error fault =>
      rw [hstep] at h
      cases h
      cases e with
      | emptyImport => exact List.mem_cons_self
      | leave | bind | use => cases hopen : w.opened <;> simp [step, hopen] at hstep
      | _ => cases hstep

/-- The replay stops at an import that gives no name, or it ends with these scopes open and so many
branches begun. -/
def Settles (w : Walk) (events : List Event) (opened : List Nat) (branches : Int) : Prop :=
  w.replay events = .error .emptyImport ∨ w.Reaches events opened branches

theorem Settles.append {w : Walk} {first second : List Event} {opened opened' : List Nat}
    {branches branches' : Int} (h : w.Settles first opened branches)
    (h' : ∀ v : Walk, v.opened = opened → v.branches = branches →
      v.Settles second opened' branches') :
    w.Settles (first ++ second) opened' branches' := by
  unfold Settles Reaches
  rw [replay_append]
  rcases h with herror | ⟨v, hv, ho, hb⟩
  · rw [herror]
    exact .inl rfl
  · rw [hv]
    exact h' v ho hb

end Walk

namespace Node

open Walk

theorem events_of_not_namesImport {n : Node} (h : n.form.namesImport = false) :
    n.events = [.emptyImport] := by
  obtain ⟨id, span, form, parts⟩ := n
  cases form with
  | importModule path asName asSpan =>
    cases hword : word? asName <;> cases path <;>
      simp_all [Node.form, Form.namesImport, events]
  | _ => cases h

mutual

theorem settles_trace (n : Node) (seen : IdSet) {w : Walk}
    (hor : w.opened ≠ [] ∨ n.form = .module) :
    w.Settles (n.trace seen).1 w.opened w.branches := by
  match n with
  | mk id span form parts =>
    rw [trace_mk]
    split
    · exact .inr (reaches_nil w)
    · cases hname : form.namesImport with
      | false =>
        rw [events_of_not_namesImport (n := mk id span form parts) hname]
        exact .inl rfl
      | true =>
        obtain ⟨opened, hopens, hevents⟩ := reaches_events (mk id span form parts) hname hor
        have hbegun : w.Settles (mk id span form parts).events opened (w.branches + form.begun) :=
          .inr hevents
        refine (hbegun.append fun v hv hb => ?_).append fun v hv hb =>
          .inr (reaches_after form (hv ▸ hopens) hb)
        exact hv ▸ hb ▸ settles_traceParts parts _ (hv ▸ hopens.ne_nil hor)

theorem settles_traceParts (parts : List (List Node)) (seen : IdSet) {w : Walk}
    (hopen : w.opened ≠ []) : w.Settles (traceParts parts seen).1 w.opened w.branches := by
  match parts with
  | [] => exact .inr (reaches_nil w)
  | part :: parts =>
    refine (settles_tracePart part seen hopen).append fun v hv hb => ?_
    exact hv ▸ hb ▸ settles_traceParts parts _ (hv ▸ hopen)

theorem settles_tracePart (part : List Node) (seen : IdSet) {w : Walk} (hopen : w.opened ≠ []) :
    w.Settles (tracePart part seen).1 w.opened w.branches := by
  match part with
  | [] => exact .inr (reaches_nil w)
  | n :: rest =>
    refine (settles_trace n seen (.inl hopen)).append fun v hv hb => ?_
    exact hv ▸ hb ▸ settles_tracePart rest _ (hv ▸ hopen)

end

end Node

/-- A walk of a module without shared nodes stops if an import gives no name. Otherwise it remarks,
in the order of the tree, on every definition of a function or a class that stands in a branch,
however deep, and on every semicolon that stands alone, and on nothing else. -/
theorem walk_remarks_in_tree_order {root : Node} (hroot : root.form = .module)
    (hdistinct : ((root.occurrences []).map (·.node.id)).Nodup)
    (hleaf : ∀ o ∈ root.occurrences [], ∀ name, o.node.form = .name name → o.node.children = [])
    (filename : String) :
    (walk root filename).map (·.messages) =
      if (root.occurrences []).all (·.node.form.namesImport) then
        .ok ((root.occurrences []).filterMap (Occurrence.remark? filename))
      else .error .emptyImport := by
  have hnotes : (root.trace .empty).1.filter Event.isNote = root.notes :=
    Node.filter_trace [] root .empty ⟨hdistinct, hleaf, fun o _ h => by simp at h⟩
  have hstops : .emptyImport ∈ (root.trace .empty).1 ↔
      (root.occurrences []).all (·.node.form.namesImport) = false := by
    rw [List.all_eq_false]
    simp only [Bool.not_eq_true]
    rw [← Node.emptyImport_mem_notes [] root, ← hnotes, List.mem_filter]
    exact (and_iff_left rfl).symm
  rcases Node.settles_trace root .empty (w := { filename }) (.inr hroot) with herror | hreaches
  · rw [hstops.mp (Walk.mem_of_replay_error herror), if_neg Bool.false_ne_true, walk, herror]
    rfl
  · obtain ⟨w, hreplay, hends⟩ := hreaches
    have hall := Bool.eq_true_of_not_eq_false (mt hstops.mpr (Walk.not_mem_of_replay hreplay))
    have hw : walk root filename = .ok w := walk_ok_iff.mpr ⟨hreplay, hends⟩
    obtain ⟨_, _, hmessages⟩ := Walk.replay_remarks hreplay
    have hremarks := (Node.remarks_notes filename [] root).1
    rw [← hnotes, Walk.remarks_filter] at hremarks
    rw [hall, if_pos rfl, hw, ← hremarks]
    exact congrArg Except.ok hmessages

/-- A class in a loop in a branch, a function behind `elif`, and a function in neither. -/
def branching : String :=
  "def g():\n\t;\nif g:\n\twhile g:\n\t\tclass C:\n\t\t\tf = lambda: f\n" ++
  "elif f:\n\tdef h(): pass; ;\ndef k(): pass\n"

theorem remarks_of_branching :
    ∃ root, parse branching = .ok root ∧ root.form = .module ∧
      ((root.occurrences []).map (·.node.id)).Nodup ∧
      (∀ o ∈ root.occurrences [], ∀ name, o.node.form = .name name → o.node.children = []) ∧
      (root.occurrences []).all (·.node.form.namesImport) = true ∧
      ((root.occurrences []).filterMap (Occurrence.remark? "m")).map
          (fun d => (d.ident, d.name, d.startLine)) =
        [("extra-semicolon", ";", some 2), ("func-in-branch", "C", some 5),
          ("func-in-branch", "h", some 8), ("extra-semicolon", ";", some 8)] ∧
      (walk root "m").map (·.messages) =
        .ok ((root.occurrences []).filterMap (Occurrence.remark? "m")) := by
  have hfacts : (parse branching).toOption.map (fun root =>
      ((root.occurrences []).all (·.node.form.namesImport),
        ((root.occurrences []).filterMap (Occurrence.remark? "m")).map
          fun d => (d.ident, d.name, d.startLine))) =
      some (true, [("extra-semicolon", ";", some 2), ("func-in-branch", "C", some 5),
        ("func-in-branch", "h", some 8), ("extra-semicolon", ";", some 8)]) := by decide +kernel
  obtain ⟨root, hparse, hfacts⟩ := parsed_of_map hfacts
  obtain ⟨hall, hremarks⟩ := Prod.mk.inj hfacts
  have hwhole := Node.whole_parse hparse
  have hleaf : ∀ o ∈ root.occurrences [], ∀ name, o.node.form = .name name →
      o.node.children = [] := by
    intro o ho name hform
    rw [Node.children, Node.parts_of_name hform (hwhole.complete o ho)]
    rfl
  have hwalk := walk_remarks_in_tree_order hwhole.isModule hwhole.distinct hleaf "m"
  rw [hall, if_pos rfl] at hwalk
  exact ⟨root, hparse, hwhole.isModule, hwhole.distinct, hleaf, hall, hremarks, hwalk⟩

end ScopeLint
