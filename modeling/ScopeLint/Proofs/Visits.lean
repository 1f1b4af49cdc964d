import ScopeLint.Proofs.Unshared

/-! # The visits of a walk

A walk comes to a node once for every place where it stands, and the node acts at
the first of these visits only, unless another node has claimed it before. What
the walk has seen passes from each visit to the next one (`threaded_visits`), so
whether a node acts can be told from the visits before (`Threaded.acts_iff`). -/
namespace ScopeLint

/-- A walk comes to a node after it has seen some others. -/
structure Visit where
  node : Node
  seen : IdSet

namespace Visit

/-- A node that was visited or claimed before does nothing. -/
def acts (v : Visit) : Bool := !v.seen.contains v.node.id

/-- What the node does before its children, if it acts. -/
def events (v : Visit) : List Event := if v.acts then v.node.events else []

/-- What is seen when the walk goes on. -/
def leaves (v : Visit) : IdSet :=
  if v.acts then (v.seen.insert v.node.id).insertAll v.node.claims else v.seen

/-- What is seen when the walk comes to an entry of the node, if it acts. -/
def arrival (v : Visit) (part index : Nat) : IdSet :=
  (Node.tracePart ((v.node.parts.getD part []).take index)
    (Node.traceParts (v.node.parts.take part) v.leaves).2).2

theorem arrival_eq {v : Visit} {part index : Nat} {list : List Node}
    (h : v.node.parts[part]? = some list) : v.arrival part index = (Node.tracePart
      (list.take index) (Node.traceParts (v.node.parts.take part) v.leaves).2).2 := by
  rw [arrival, List.getD_eq_getElem?_getD, h]
  rfl

end Visit

namespace Node

mutual

/-- The visits of a walk over a tree, in order. -/
def visits : Node → (seen : IdSet) → List Visit
  | mk id span form parts, seen =>
    ⟨mk id span form parts, seen⟩ :: if seen.contains id then [] else
      visitsParts parts ((seen.insert id).insertAll (mk id span form parts).claims)

def visitsParts : List (List Node) → (seen : IdSet) → List Visit
  | [], _ => []
  | part :: parts, seen => visitsPart part seen ++ visitsParts parts (tracePart part seen).2

def visitsPart : List Node → (seen : IdSet) → List Visit
  | [], _ => []
  | n :: rest, seen => visits n seen ++ visitsPart rest (n.trace seen).2

end

end Node

/-! ## What passes from visit to visit -/

/-- Each visit finds what the one before it leaves, from `seen` up to `final`. -/
def Threaded (seen : IdSet) : List Visit → (final : IdSet) → Prop
  | [], final => final = seen
  | v :: visits, final => v.seen = seen ∧ Threaded v.leaves visits final

theorem Visit.leaves_eq (v : Visit) : v.leaves = if v.seen.contains v.node.id then v.seen else
    (v.seen.insert v.node.id).insertAll v.node.claims := by
  rw [leaves, acts]
  cases v.seen.contains v.node.id <;> rfl

theorem Visit.contains_leaves (v : Visit) (j : Nat) : v.leaves.contains j = true ↔
    v.seen.contains j = true ∨ v.acts = true ∧ (j = v.node.id ∨ j ∈ v.node.claims) := by
  rw [leaves]
  cases v.acts with
  | false => simp
  | true =>
    rw [if_pos rfl, IdSet.contains_insertAll, IdSet.contains_insert]
    simp only [Bool.or_eq_true, decide_eq_true_eq, true_and, or_assoc, eq_comm (a := v.node.id)]

namespace Threaded

variable {seen middle final : IdSet} {visits more : List Visit}

theorem append (h : Threaded seen visits middle) (hmore : Threaded middle more final) :
    Threaded seen (visits ++ more) final := by
  induction visits generalizing seen with
  | nil =>
    cases h
    exact hmore
  | cons v visits ih => exact ⟨h.1, ih h.2⟩

/-- What a visit finds was seen from the start, or left by a visit before. -/
theorem contains_seen {before after : List Visit} {v : Visit}
    (h : Threaded seen (before ++ v :: after) final) (j : Nat) :
    v.seen.contains j = true ↔ seen.contains j = true ∨
      ∃ u ∈ before, u.acts = true ∧ (j = u.node.id ∨ j ∈ u.node.claims) := by
  induction before generalizing seen with
  | nil =>
    rw [h.1]
    simp
  | cons u before ih =>
    rw [ih h.2, u.contains_leaves, h.1, List.exists_mem_cons_iff, or_assoc]

/-- What was seen from the start does not act. -/
theorem acts_of_seen (h : Threaded seen visits final) {v : Visit} (hv : v ∈ visits)
    (hseen : seen.contains v.node.id = true) : v.acts = false := by
  obtain ⟨before, after, rfl⟩ := List.append_of_mem hv
  rw [Visit.acts, (h.contains_seen v.node.id).mpr (.inl hseen)]
  rfl

end Threaded

namespace Node

mutual

theorem threaded_visits (n : Node) (seen : IdSet) :
    Threaded seen (n.visits seen) (n.trace seen).2 := by
  match n with
  | mk id span form parts =>
    rw [visits, seen_trace_mk]
    refine ⟨rfl, ?_⟩
    rw [Visit.leaves_eq]
    show Threaded (if seen.contains id then _ else _) _ _
    split
    · rfl
    · exact threaded_visitsParts parts _

theorem threaded_visitsParts (parts : List (List Node)) (seen : IdSet) :
    Threaded seen (visitsParts parts seen) (traceParts parts seen).2 := by
  match parts with
  | [] => rfl
  | part :: parts => exact (threaded_visitsPart part seen).append (threaded_visitsParts parts _)

theorem threaded_visitsPart (part : List Node) (seen : IdSet) :
    Threaded seen (visitsPart part seen) (tracePart part seen).2 := by
  match part with
  | [] => rfl
  | n :: rest => exact (threaded_visits n seen).append (threaded_visitsPart rest _)

end

end Node

/-! ## The visits below a visit -/

namespace Node

theorem tracePart_cons (n : Node) (rest : List Node) (seen : IdSet) :
    tracePart (n :: rest) seen = ((n.trace seen).1 ++ (tracePart rest (n.trace seen).2).1,
      (tracePart rest (n.trace seen).2).2) :=
  rfl

theorem traceParts_cons (part : List Node) (parts : List (List Node)) (seen : IdSet) :
    traceParts (part :: parts) seen =
      ((tracePart part seen).1 ++ (traceParts parts (tracePart part seen).2).1,
        (traceParts parts (tracePart part seen).2).2) :=
  rfl

theorem visits_eq (n : Node) (seen : IdSet) :
    n.visits seen = ⟨n, seen⟩ ::
      if Visit.acts ⟨n, seen⟩ then visitsParts n.parts (Visit.leaves ⟨n, seen⟩) else [] := by
  obtain ⟨id, span, form, parts⟩ := n
  rw [visits, Visit.leaves_eq, Visit.acts]
  show _ :: (if seen.contains id then _ else _) = _ ::
    if (!seen.contains id) = true then visitsParts parts (if seen.contains id then _ else _) else _
  cases seen.contains id <;> rfl

theorem mem_visitsPart {list : List Node} {index : Nat} {c : Node} (hc : list[index]? = some c)
    (seen : IdSet) : ⟨c, (tracePart (list.take index) seen).2⟩ ∈ visitsPart list seen := by
  induction list generalizing index seen with
  | nil => cases hc
  | cons n rest ih =>
    cases index with
    | zero =>
      obtain rfl : n = c := Option.some.inj hc
      rw [visitsPart, visits_eq]
      exact List.mem_append_left _ List.mem_cons_self
    | succ index => exact List.mem_append_right _ (ih hc _)

theorem mem_visitsParts {parts : List (List Node)} {part : Nat} {list : List Node} {v : Visit}
    (hlist : parts[part]? = some list) (seen : IdSet)
    (hv : v ∈ visitsPart list (traceParts (parts.take part) seen).2) :
    v ∈ visitsParts parts seen := by
  induction parts generalizing part seen with
  | nil => cases hlist
  | cons first parts ih =>
    cases part with
    | zero =>
      obtain rfl : first = list := Option.some.inj hlist
      exact List.mem_append_left _ hv
    | succ part => exact List.mem_append_right _ (ih hlist _ hv)

mutual

/-- A node that acts has its children visited. -/
theorem visits_below {w : Visit} (hacts : w.acts = true) (n : Node) (seen : IdSet)
    (hw : w ∈ n.visits seen) : visitsParts w.node.parts w.leaves ⊆ n.visits seen := by
  match n with
  | mk id span form parts =>
    rw [visits_eq] at hw ⊢
    rcases List.mem_cons.mp hw with rfl | hw
    · rw [if_pos hacts]
      exact List.subset_cons_self ..
    · split at hw
      · next hself =>
        rw [if_pos hself]
        exact List.subset_cons_of_subset _ (visitsParts_below hacts parts _ hw)
      · cases hw

theorem visitsParts_below {w : Visit} (hacts : w.acts = true) (parts : List (List Node))
    (seen : IdSet) (hw : w ∈ visitsParts parts seen) :
    visitsParts w.node.parts w.leaves ⊆ visitsParts parts seen := by
  match parts with
  | [] => cases hw
  | part :: parts =>
    rcases List.mem_append.mp hw with hw | hw
    · exact List.subset_append_of_subset_left _ (visitsPart_below hacts part seen hw)
    · exact List.subset_append_of_subset_right _ (visitsParts_below hacts parts _ hw)

theorem visitsPart_below {w : Visit} (hacts : w.acts = true) (part : List Node) (seen : IdSet)
    (hw : w ∈ visitsPart part seen) :
    visitsParts w.node.parts w.leaves ⊆ visitsPart part seen := by
  match part with
  | [] => cases hw
  | n :: rest =>
    rcases List.mem_append.mp hw with hw | hw
    · exact List.subset_append_of_subset_left _ (visits_below hacts n seen hw)
    · exact List.subset_append_of_subset_right _ (visitsPart_below hacts rest _ hw)

end

/-- A node that acts has each of its entries visited. -/
theorem mem_visits_arrival {n : Node} {seen : IdSet} {w : Visit} (hw : w ∈ n.visits seen)
    (hacts : w.acts = true) {part index : Nat} {list : List Node} {c : Node}
    (hlist : w.node.parts[part]? = some list) (hc : list[index]? = some c) :
    ⟨c, w.arrival part index⟩ ∈ n.visits seen := by
  rw [Visit.arrival_eq hlist]
  exact visits_below hacts n seen hw (mem_visitsParts hlist _ (mem_visitsPart hc _))

end Node

/-! ## What a walk does at its visits -/

/-- Whether an event comes after the children of a node. -/
def Event.isClosing : Event → Bool
  | .leave | .join => true
  | _ => false

theorem Form.isClosing_after (form : Form) : ∀ e ∈ form.after, e.isClosing = true := by
  rw [after]
  cases form.opensScope <;> cases form.isBranch <;> simp [Event.isClosing]

namespace Node

theorem isClosing_events (n : Node) : ∀ e ∈ n.events, e.isClosing = false := by
  have htarget : ∀ e ∈ n.targetEvents, e.isClosing = false := by
    intro e he
    obtain ⟨bound, _, rfl⟩ := List.mem_map.mp he
    rfl
  intro e he
  unfold events at he
  cases hform : n.form with
  | assign | forIn =>
    rw [hform] at he
    exact htarget e he
  | comprehension =>
    rw [hform] at he
    rcases List.mem_cons.mp he with rfl | he
    · rfl
    · exact htarget e he
  | importModule path asName asSpan =>
    rw [hform] at he
    dsimp only at he
    split at he <;> rw [List.mem_singleton.mp he] <;> rfl
  | declaration keyword names =>
    rw [hform] at he
    obtain ⟨p, _, rfl⟩ := List.mem_map.mp he
    rfl
  | empty marker =>
    rw [hform] at he
    dsimp only at he
    split at he
    · rw [List.mem_singleton.mp he]
      rfl
    · cases he
  | functionDef | classDef =>
    simp only [hform, List.mem_cons, List.not_mem_nil, or_false] at he
    rcases he with rfl | rfl | rfl <;> rfl
  | _ => simp_all [Event.isClosing]

theorem opening_events (n : Node) : n.events.filter (!·.isClosing) = n.events := by
  refine List.filter_eq_self.mpr fun e he => ?_
  rw [n.isClosing_events e he]
  rfl

theorem opening_after (form : Form) : form.after.filter (!·.isClosing) = [] := by
  refine List.filter_eq_nil_iff.mpr fun e he => ?_
  rw [form.isClosing_after e he]
  exact Bool.false_ne_true

mutual

/-- What a walk does, but for what it does after children, is done at its visits, in order. -/
theorem opening_trace (n : Node) (seen : IdSet) :
    (n.trace seen).1.filter (!·.isClosing) = (n.visits seen).flatMap Visit.events := by
  match n with
  | mk id span form parts =>
    rw [trace_mk, visits, List.flatMap_cons, Visit.events, Visit.acts]
    show _ = (if (!seen.contains id) = true then (mk id span form parts).events else []) ++ _
    cases seen.contains id with
    | true => rfl
    | false =>
      rw [if_neg Bool.false_ne_true, if_neg Bool.false_ne_true, List.filter_append,
        List.filter_append, opening_events, opening_after, List.append_nil,
        opening_traceParts parts]
      rfl

theorem opening_traceParts (parts : List (List Node)) (seen : IdSet) :
    (traceParts parts seen).1.filter (!·.isClosing) =
      (visitsParts parts seen).flatMap Visit.events := by
  match parts with
  | [] => rfl
  | part :: parts =>
    rw [visitsParts, List.flatMap_append, ← opening_tracePart part seen,
      ← opening_traceParts parts, ← List.filter_append]
    rfl

theorem opening_tracePart (part : List Node) (seen : IdSet) :
    (tracePart part seen).1.filter (!·.isClosing) =
      (visitsPart part seen).flatMap Visit.events := by
  match part with
  | [] => rfl
  | n :: rest =>
    rw [visitsPart, List.flatMap_append, ← opening_trace n seen,
      ← opening_tracePart rest, ← List.filter_append]
    rfl

end

end Node

/-! ## Nodes act once -/

namespace Threaded

variable {seen final : IdSet} {visits : List Visit}

/-- A node acts if it was neither visited nor claimed at a visit before that acted. -/
theorem acts_iff {before after : List Visit} {v : Visit}
    (h : Threaded .empty (before ++ v :: after) final) : v.acts = true ↔
      ∀ u ∈ before, u.acts = true → v.node.id ≠ u.node.id ∧ v.node.id ∉ u.node.claims := by
  have hseen := h.contains_seen v.node.id
  rw [IdSet.contains_empty] at hseen
  rw [Visit.acts, Bool.not_eq_true', Bool.eq_false_iff, Ne, hseen]
  simp [not_or]

/-- A visit that acts keeps later ones to the node, and to the nodes it claims, from acting. -/
theorem pairwise (h : Threaded seen visits final) : visits.Pairwise fun u v =>
    u.acts = true → v.node.id = u.node.id ∨ v.node.id ∈ u.node.claims → v.acts = false := by
  induction visits generalizing seen with
  | nil => exact .nil
  | cons u visits ih =>
    refine List.pairwise_cons.mpr ⟨fun v hv hacts hnode => ?_, ih h.2⟩
    exact h.2.acts_of_seen hv ((u.contains_leaves v.node.id).mpr (.inr ⟨hacts, hnode⟩))

/-- A node that is claimed before the walk comes to it does nothing. -/
theorem events_of_claimed {before after : List Visit} {v : Visit}
    (h : Threaded seen (before ++ v :: after) final) (hacts : v.acts = true) (j : Nat)
    (hj : j ∈ v.node.claims) (hnew : ∀ u ∈ before ++ [v], u.node.id ≠ j) :
    ∀ u ∈ before ++ v :: after, u.node.id = j → u.events = [] := by
  intro u hu hid
  rw [List.append_cons] at h hu
  rcases List.mem_append.mp hu with hu | hu
  · exact absurd hid (hnew u hu)
  · have hlast : v ∈ before ++ [v] := List.mem_append_right _ List.mem_cons_self
    have hquiet := (List.pairwise_append.mp h.pairwise).2.2 v hlast u hu hacts (.inr (hid ▸ hj))
    rw [Visit.events, hquiet, if_neg Bool.false_ne_true]

theorem acting_nodup (h : Threaded seen visits final) :
    ((visits.filter Visit.acts).map (·.node.id)).Nodup := by
  rw [List.Nodup, List.pairwise_map]
  refine (h.pairwise.filter Visit.acts).imp_of_mem fun hu hv himp heq => ?_
  have hquiet := himp (List.mem_filter.mp hu).2 (.inl heq.symm)
  rw [(List.mem_filter.mp hv).2] at hquiet
  cases hquiet

/-- A visit that acts is the only one to its node that does. -/
theorem acting_unique (h : Threaded seen visits final) {u v : Visit} (hu : u ∈ visits)
    (hv : v ∈ visits) (hacts : u.acts = true) (hacts' : v.acts = true)
    (hid : u.node.id = v.node.id) : u = v :=
  List.inj_on_of_nodup_map h.acting_nodup (List.mem_filter.mpr ⟨hu, hacts⟩)
    (List.mem_filter.mpr ⟨hv, hacts'⟩) hid

end Threaded

end ScopeLint
