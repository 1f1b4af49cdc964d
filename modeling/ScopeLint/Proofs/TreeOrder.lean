import ScopeLint.Proofs.Analysis

/-! # What happens in the order of the tree

A walk acts for the names of a target when it comes to the node that binds them,
and not when it comes to the names. All other actions are made in the order of the
tree: `Whole.filter_actionsIn`. -/
namespace ScopeLint

/-- The test picks actions only, and none that binds a name in a target. -/
structure Event.SkipsTargets (q : Event → Bool) : Prop where
  target : ∀ name span isLoop, q (.bind name span {} isLoop false) = false
  isAction : ∀ e, q e = true → e.isAction = true

namespace Node

variable {q : Event → Bool}

theorem filter_isAction (hq : Event.SkipsTargets q) (items : List (Option Nat × Event)) :
    (items.filter (·.2.isAction)).filter (q ·.2) = items.filter (q ·.2) := by
  rw [List.filter_filter]
  refine List.filter_congr fun item _ => ?_
  cases hitem : q item.2 with
  | false => rfl
  | true => exact hq.isAction _ hitem

theorem filter_bindItem (hq : Event.SkipsTargets q) (home : Option Nat)
    (bound : List (String × Node × Bool)) : (bound.map (bindItem home)).filter (q ·.2) = [] := by
  refine List.filter_eq_nil_iff.mpr fun item hitem => ?_
  obtain ⟨_, _, rfl⟩ := List.mem_map.mp hitem
  rw [bindItem, hq.target]
  exact Bool.false_ne_true

theorem filter_own (hq : Event.SkipsTargets q) {n : Node} {around : Around}
    (hcomplete : n.form.complete (n.parts.map List.length) = true)
    (hclaimed : n.isClaimed around = false) :
    (n.own around).filter (q ·.2) = (Occurrence.items ⟨n, around⟩).filter (q ·.2) := by
  have hown := congrArg (List.filter (q ·.2)) (own_append hcomplete hclaimed)
  rwa [List.filter_append, List.filter_append, filter_bindItem hq, filter_bindItem hq,
    List.append_nil, List.append_nil, filter_isAction hq] at hown

mutual

/-- A walk over a tree makes the actions that bind no target in the order of the tree. -/
theorem filter_located (hq : Event.SkipsTargets q) (around : Around) (n : Node) (h : n.Complete) :
    (located around n).filter (q ·.2) =
      ((n.occurrences around).flatMap Occurrence.items).filter (q ·.2) := by
  match n, h with
  | mk id span form parts, .mk hcomplete hinner =>
    rw [located, occurrences, List.flatMap_cons, List.filter_append]
    split
    · next hclaimed =>
      -- the name is a target
      obtain ⟨name, isLoop, rfl, hrole⟩ := form_of_isClaimed hclaimed
      cases parts_of_name (n := mk id span (.name name) parts) rfl hcomplete
      simp [Node.form, hrole, Occurrence.items, Occurrence.actions, occurrencesParts, hq.target]
    · next hclaimed =>
      have hown := filter_own hq (n := mk id span form parts) hcomplete (by simpa using hclaimed)
      rw [List.filter_append, hown,
        filter_locatedParts hq (mk id span form parts) around 0 parts hinner]

theorem filter_locatedParts (hq : Event.SkipsTargets q) (parent : Node) (around : Around) (k : Nat)
    (parts : List (List Node)) (h : ∀ part ∈ parts, ∀ n ∈ part, n.Complete) :
    (locatedParts parent around k parts).filter (q ·.2) =
      ((occurrencesParts parent around k parts).flatMap Occurrence.items).filter (q ·.2) := by
  match parts with
  | [] => rfl
  | part :: parts =>
    have hpart := filter_locatedPart hq ((parent, k) :: around) part (h part (by simp))
    have hparts := filter_locatedParts hq parent around (k + 1) parts
      fun part hp => h part (by simp [hp])
    rw [locatedParts, occurrencesParts, List.filter_append, List.flatMap_append,
      List.filter_append, hpart, hparts]

theorem filter_locatedPart (hq : Event.SkipsTargets q) (around : Around) (part : List Node)
    (h : ∀ n ∈ part, n.Complete) :
    (locatedPart around part).filter (q ·.2) =
      ((occurrencesPart around part).flatMap Occurrence.items).filter (q ·.2) := by
  match part with
  | [] => rfl
  | n :: rest =>
    have hn := filter_located hq around n (h n (by simp))
    have hrest := filter_locatedPart hq around rest fun m hm => h m (by simp [hm])
    rw [locatedPart, occurrencesPart, List.filter_append, List.flatMap_append, List.filter_append,
      hn, hrest]

end

/-- What a walk does at a node it does in one go. Of what it does before that, the actions that bind
no target are made by the nodes before it. -/
theorem Complete.split_located {n : Node} (hn : n.Complete) {around : Around} {o : Occurrence}
    (ho : o ∈ n.occurrences around) (hclaimed : o.node.isClaimed o.around = false) :
    ∃ earlier later before after,
      n.occurrences around = earlier ++ (o.node.occurrences o.around ++ later) ∧
      located around n = before ++ (located o.around o.node ++ after) ∧
      ∀ q, Event.SkipsTargets q →
        before.filter (q ·.2) = (earlier.flatMap Occurrence.items).filter (q ·.2) := by
  unfold Complete at hn
  induction hn generalizing around with
  | @mk id span form parts here inner ih =>
    rcases List.mem_cons.mp ho with rfl | ho
    · exact ⟨[], [], [], [], by simp, by simp, fun _ _ => rfl⟩
    obtain ⟨first, front, c, back, last, rfl, ho⟩ := split_parts ho
    obtain ⟨earlier, later, before, after, hoccurrences, hlocated, hbefore⟩ :=
      ih (front ++ c :: back) (by simp) c (by simp) ho
    set n := mk id span form (first ++ (front ++ c :: back) :: last) with hn
    have hname : n.isClaimed around = false := by
      refine Bool.eq_false_iff.mpr fun hname => ?_
      -- a name has no parts to look into
      obtain ⟨name, _, rfl, _⟩ := form_of_isClaimed hname
      have hparts := parts_of_name (n := n) rfl here
      simp [hn, Node.parts] at hparts
    set inside : Around := (n, 0 + first.length) :: around
    refine ⟨⟨n, around⟩ ::
        (occurrencesParts n around 0 first ++ occurrencesPart inside front ++ earlier),
      later ++
        (occurrencesPart inside back ++ occurrencesParts n around (0 + first.length + 1) last),
      n.own around ++ (locatedParts n around 0 first ++ locatedPart inside front ++ before),
      after ++ (locatedPart inside back ++ locatedParts n around (0 + first.length + 1) last),
      ?_, ?_, fun q hq => ?_⟩
    · rw [occurrences_eq, hn, Node.parts, ← hn, occurrencesParts_append, occurrencesParts,
        occurrencesPart_append, occurrencesPart, hoccurrences]
      simp only [inside, List.append_assoc, List.cons_append]
    · rw [located_eq hname, hn, Node.parts, ← hn, locatedParts_append, locatedParts,
        locatedPart_append, locatedPart, hlocated]
      simp only [inside, List.append_assoc]
    · have hown := filter_own hq (n := n) here hname
      have hfirst := filter_locatedParts hq n around 0 first fun part hpart =>
        inner part (by simp [hpart])
      have hfront := filter_locatedPart hq inside front fun m hm =>
        inner (front ++ c :: back) (by simp) m (by simp [hm])
      simp only [List.filter_append, List.flatMap_cons, List.flatMap_append, hown, hfirst, hfront,
        hbefore q hq]

/-- The occurrences whose scope a node opens. -/
def inScope (root : Node) (m : Occurrence) : List Occurrence :=
  (root.occurrences []).filter fun o => o.home = some m.node.id

/-- The actions that happen in the scope at `i`, among what nodes do. -/
def actionsAmong (root : Node) (i : Nat) (items : List (Option Nat × Event)) : List Event :=
  ((items.map (relabel root.scopeIndex)).filter fun item =>
    item.2.isAction && decide (item.1 = some i)).map Prod.snd

theorem actionsAmong_append (root : Node) (i : Nat) (items more : List (Option Nat × Event)) :
    root.actionsAmong i (items ++ more) =
      root.actionsAmong i items ++ root.actionsAmong i more := by
  simp [actionsAmong]

namespace Whole

variable {root : Node} (h : root.Whole) {filename : String} {w : Walk}
  (hw : walk root filename = .ok w) {i : Nat} {m : Occurrence} (hm : root.openers[i]? = some m)
include h hw hm

omit hm in
theorem size_arena : w.arena.size = root.openers.length := by
  rw [(h.locates hw).size, ← List.length_map Prod.fst, h.entries, List.length_map]
  exact Nat.zero_add _

omit hm in
/-- A node that is no module stands in a scope of the walk. -/
theorem exists_scope {o : Occurrence} (ho : o ∈ root.occurrences [])
    (hform : o.node.form ≠ .module) :
    ∃ i : Nat, ∃ m s, root.openers[i]? = some m ∧ o.home = some m.node.id ∧
      w.arena.scopes[i]? = some s := by
  obtain ⟨m, hmem, hhome⟩ := h.exists_home ho hform
  obtain ⟨i, hm⟩ := List.getElem?_of_mem hmem
  have hi : i < w.arena.size := by
    rw [h.size_arena hw]
    exact (List.getElem?_eq_some_iff.mp hm).1
  obtain ⟨s, hs⟩ := Arena.exists_scope hi
  exact ⟨i, m, s, hm, hhome, hs⟩

omit hm in
theorem actionsIn_eq : root.actionsIn filename i = root.actionsAmong i (located [] root) :=
  (h.locates hw).actions i

theorem perm_actionsIn :
    (root.actionsIn filename i).Perm ((root.inScope m).flatMap Occurrence.actions) := by
  rw [h.actionsIn_eq hw]
  exact h.perm_actions hm

theorem mem_actionsIn {e : Event} :
    e ∈ root.actionsIn filename i ↔ ∃ o ∈ root.inScope m, e ∈ o.actions := by
  rw [(h.perm_actionsIn hw hm).mem_iff, List.mem_flatMap]

omit hw in
/-- What happens in a scope of what nodes of the tree do, if that binds no target. -/
theorem filter_actionsAmong (hq : Event.SkipsTargets q) {items : List (Option Nat × Event)}
    {os : List Occurrence} (hos : os ⊆ root.occurrences [])
    (hitems : items.filter (q ·.2) = (os.flatMap Occurrence.items).filter (q ·.2)) :
    (root.actionsAmong i items).filter q =
      ((os.filter fun o => o.home = some m.node.id).flatMap Occurrence.actions).filter q := by
  have hsame : ∀ o ∈ os,
      decide (o.home.map root.scopeIndex = some i) = decide (o.home = some m.node.id) := by
    intro o ho
    rw [decide_eq_decide, h.map_home_eq_some_iff (hos ho), hm]
    simp
  have hhere := filter_items os fun home => decide (home.map root.scopeIndex = some i)
  rw [List.filter_congr hsame] at hhere
  -- picked actions of the scope, with and without the identities replaced
  have hpick : (root.actionsAmong i items).filter q =
      ((items.filter (q ·.2)).filter fun item =>
        decide (item.1.map root.scopeIndex = some i)).map Prod.snd := by
    rw [actionsAmong, List.filter_map, List.filter_filter, List.filter_map, List.map_map,
      List.filter_filter]
    refine congrArg (List.map Prod.snd) (List.filter_congr fun item _ => ?_)
    cases hitem : q item.2 with
    | false => simp [relabel, hitem]
    | true => simp [relabel, hitem, hq.isAction _ hitem]
  have hplain : (((os.flatMap Occurrence.items).filter fun item =>
        decide (item.1.map root.scopeIndex = some i)).map Prod.snd).filter q =
      (((os.flatMap Occurrence.items).filter (q ·.2)).filter fun item =>
        decide (item.1.map root.scopeIndex = some i)).map Prod.snd := by
    rw [List.filter_map, List.filter_filter, List.filter_filter]
    exact congrArg (List.map Prod.snd) (List.filter_congr fun item _ => Bool.and_comm _ _)
  rw [← hhere, hpick, hplain, hitems]

/-- What binds no target happens in a scope in the order of the tree. -/
theorem filter_actionsIn (hq : Event.SkipsTargets q) :
    (root.actionsIn filename i).filter q =
      ((root.inScope m).flatMap Occurrence.actions).filter q := by
  rw [h.actionsIn_eq hw]
  exact h.filter_actionsAmong hm hq (List.Subset.refl _) (filter_located hq [] root h.tree)

/-- What happens in a scope while the walk is at a node stands together there. Of what happens
before that, what binds no target is done by the nodes before it. -/
theorem split_actionsIn_at {o : Occurrence} (ho : o ∈ root.occurrences [])
    (hclaimed : o.node.isClaimed o.around = false) :
    ∃ earlier later before after,
      root.occurrences [] = earlier ++ (o.node.occurrences o.around ++ later) ∧
      root.actionsIn filename i =
        before ++ (root.actionsAmong i (located o.around o.node) ++ after) ∧
      ∀ q, Event.SkipsTargets q → before.filter q =
        ((earlier.filter fun o => o.home = some m.node.id).flatMap
          Occurrence.actions).filter q := by
  obtain ⟨earlier, later, before, after, hoccurrences, hlocated, hbefore⟩ :=
    h.tree.split_located ho hclaimed
  refine ⟨earlier, later, root.actionsAmong i before, root.actionsAmong i after, hoccurrences, ?_,
    fun q hq => ?_⟩
  · rw [h.actionsIn_eq hw, hlocated, actionsAmong_append, actionsAmong_append]
  · refine h.filter_actionsAmong hm hq ?_ (hbefore q hq)
    rw [hoccurrences]
    exact List.subset_append_left _ _

end Whole

end Node

end ScopeLint
