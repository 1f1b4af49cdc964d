import Mathlib.Data.List.Basic
import ScopeLint.Proofs.WellFormed

/-! # Occurrences of identifiers

Every node of a tree stands at a place: in a part of a node, which stands in a
part of another one, and so on outwards. What an identifier does there, and in
whose scope, is read off the nodes around it (`Occurrence.actions`, `homeOf`).

A walk does the same in another order: a node that binds a target acts for the
names in it before the walk comes to them, and they do nothing then (`located`).
The actions are the same, scope by scope. -/
namespace ScopeLint

/-- The nodes around a place, innermost first, each with the part that the place is in. -/
abbrev Around := List (Node × Nat)

/-- A node at its place. -/
structure Occurrence where
  node : Node
  around : Around

namespace Node

mutual

/-- All nodes of a tree at their places, parents before children. -/
def occurrences (around : Around) : Node → List Occurrence
  | mk id span form parts =>
    ⟨mk id span form parts, around⟩ :: occurrencesParts (mk id span form parts) around 0 parts

def occurrencesParts (parent : Node) (around : Around) (k : Nat) :
    List (List Node) → List Occurrence
  | [] => []
  | part :: parts =>
    occurrencesPart ((parent, k) :: around) part ++ occurrencesParts parent around (k + 1) parts

def occurrencesPart (around : Around) : List Node → List Occurrence
  | [] => []
  | n :: rest => occurrences around n ++ occurrencesPart around rest

end

end Node

namespace Form

/-- Whether a node of this form binds what its target holds, and then whether as loop variables. -/
def bindsTarget : Form → Option Bool
  | assign _ => some false
  | forIn | comprehension => some true
  | _ => none

/-- The same for a target that is a name: only a plain assignment binds it. -/
def bindsName : Form → Option Bool
  | assign op => if op = "=" then some false else none
  | form => form.bindsTarget

end Form

/-- Whether a list is a target where it stands, and then whether of loop variables. -/
def listRole : Around → Option Bool
  | (parent, 0) :: _ => parent.form.bindsTarget
  | _ => none

/-- Whether a name is bound where it stands, and then whether as a loop variable: it is a target, or
stands directly in a list that is one. -/
def nameRole : Around → Option Bool
  | [] => none
  | (parent, k) :: rest =>
    if parent.form = .array then listRole rest
    else if k = 0 then parent.form.bindsName else none

/-- The identity of the nearest node around that opens a scope. -/
def homeOf (around : Around) : Option Nat :=
  (around.find? (·.1.form.opensScope)).map (·.1.id)

namespace Occurrence

def home (o : Occurrence) : Option Nat := homeOf o.around

/-- What an identifier does where it stands. A form that carries no identifier does nothing. -/
def actions (o : Occurrence) : List Event :=
  let declare (name : String) (span : Span) : Event :=
    .bind name span o.node.form.traits false false
  match o.node.form with
  | .name name =>
    match nameRole o.around with
    | some isLoop => [.bind name o.node.span {} isLoop false]
    | none => [.use name o.node.span]
  | .decorator name => [.use name o.node.span]
  | .param name _ => [declare name o.node.span]
  | .functionDef name nameSpan | .classDef name nameSpan => [declare name nameSpan]
  | .varDef name nameSpan =>
    [.bind name nameSpan ((o.node.children.head?.map (·.form.traits)).getD {}) false false]
  | .importModule path asName asSpan =>
    match Node.word? asName with
    | some other => [declare other (asSpan.getD o.node.span)]
    | none => path.head?.toList.map (declare · o.node.span)
  | .importedName name asName => [declare ((Node.word? asName).getD name) o.node.span]
  | .declaration _ names => names.map fun (name, span) => .bind name span {} false true
  | _ => []

/-- The actions with the scope that they happen in. -/
def items (o : Occurrence) : List (Option Nat × Event) := o.actions.map (o.home, ·)

end Occurrence

/-- Names have no parts, what binds a target has one target, and an import gives a name. -/
def Form.complete : Form → (counts : List Nat) → Bool
  | .name _, counts => counts.isEmpty
  | .assign _, counts | .forIn, counts | .comprehension, counts => counts.head? = some 1
  | form, _ => form.namesImport

/-- A module whose nodes are all different and all complete. -/
structure Node.Whole (root : Node) : Prop where
  isModule : root.form = .module
  distinct : ((root.occurrences []).map (·.node.id)).Nodup
  complete : ∀ o ∈ root.occurrences [],
    o.node.form.complete (o.node.parts.map List.length) = true

namespace Node

/-- Every node of the tree is complete. -/
def Complete : Node → Prop := Each fun _ form counts => form.complete counts = true

theorem occurrences_eq (n : Node) (around : Around) :
    n.occurrences around = ⟨n, around⟩ :: occurrencesParts n around 0 n.parts := by
  cases n
  rfl

theorem mem_occurrencesPart {around : Around} {part : List Node} {o : Occurrence} :
    o ∈ occurrencesPart around part ↔ ∃ n ∈ part, o ∈ n.occurrences around := by
  induction part with
  | nil => simp [occurrencesPart]
  | cons n rest ih => simp [occurrencesPart, ih]

theorem mem_occurrencesParts {parent : Node} {around : Around} {k : Nat}
    {parts : List (List Node)} {o : Occurrence} (h : o ∈ occurrencesParts parent around k parts) :
    ∃ j, ∃ part ∈ parts, ∃ n ∈ part, o ∈ n.occurrences ((parent, j) :: around) ∧
      n.occurrences ((parent, j) :: around) ⊆ occurrencesParts parent around k parts := by
  induction parts generalizing k with
  | nil => cases h
  | cons part parts ih =>
    rcases List.mem_append.mp h with h | h
    · obtain ⟨n, hn, h⟩ := mem_occurrencesPart.mp h
      refine ⟨k, part, List.mem_cons_self, n, hn, h, fun m hm => ?_⟩
      exact List.mem_append_left _ (mem_occurrencesPart.mpr ⟨n, hn, hm⟩)
    · obtain ⟨j, part, hpart, n, hn, ho, hsub⟩ := ih h
      exact ⟨j, part, List.mem_cons_of_mem _ hpart, n, hn, ho,
        fun m hm => List.mem_append_right _ (hsub hm)⟩

section

variable {P : Span → Form → List Nat → Prop}

theorem Each.of_mem_occurrences {n : Node} (h : n.Each P) {around : Around} {o : Occurrence}
    (ho : o ∈ n.occurrences around) : o.node.Each P := by
  induction h generalizing around with
  | mk here inner ih =>
    rcases List.mem_cons.mp ho with rfl | ho
    · exact .mk here inner
    · obtain ⟨_, part, hpart, n, hn, ho, _⟩ := mem_occurrencesParts ho
      exact ih part hpart n hn ho

mutual

/-- What holds of all occurrences holds of the tree. -/
theorem each_of_occurrences {n : Node} {around : Around}
    (h : ∀ o ∈ n.occurrences around, P o.node.span o.node.form (o.node.parts.map List.length)) :
    n.Each P := by
  match n with
  | mk id span form parts =>
    have hinner := fun o ho => h o (List.mem_cons_of_mem _ ho)
    exact .mk (h _ List.mem_cons_self) (each_of_occurrencesParts parts hinner)

theorem each_of_occurrencesParts {parent : Node} {around : Around} {k : Nat}
    (parts : List (List Node)) (h : ∀ o ∈ occurrencesParts parent around k parts,
      P o.node.span o.node.form (o.node.parts.map List.length)) :
    ∀ part ∈ parts, ∀ n ∈ part, n.Each P := by
  match parts with
  | [] => simp
  | part :: rest =>
    have hpart := each_of_occurrencesPart part fun o ho => h o (List.mem_append_left _ ho)
    have hrest := each_of_occurrencesParts rest fun o ho => h o (List.mem_append_right _ ho)
    exact List.forall_mem_cons.mpr ⟨hpart, hrest⟩

theorem each_of_occurrencesPart {around : Around} (part : List Node)
    (h : ∀ o ∈ occurrencesPart around part,
      P o.node.span o.node.form (o.node.parts.map List.length)) : ∀ n ∈ part, n.Each P := by
  match part with
  | [] => simp
  | n :: rest =>
    have hn := each_of_occurrences fun o ho => h o (List.mem_append_left _ ho)
    have hrest := each_of_occurrencesPart rest fun o ho => h o (List.mem_append_right _ ho)
    exact List.forall_mem_cons.mpr ⟨hn, hrest⟩

end

end

/-! ## The names that are bound from around -/

/-- The names in a node that the nodes around it bind. -/
def boundFrom (around : Around) (n : Node) : List (String × Node × Bool) :=
  match n.form with
  | .name name => (nameRole around).toList.map (name, n, ·)
  | .array => (listRole around).toList.flatMap fun isLoop =>
    n.children.filterMap fun c => c.name?.map (·, c, isLoop)
  | _ => []

def boundFromParts (parent : Node) (around : Around) (k : Nat) :
    List (List Node) → List (String × Node × Bool)
  | [] => []
  | part :: parts =>
    part.flatMap (boundFrom ((parent, k) :: around)) ++ boundFromParts parent around (k + 1) parts

/-- A name that was bound before the walk comes to it. -/
def isClaimed (around : Around) (n : Node) : Bool :=
  n.name?.isSome && (nameRole around).isSome

theorem boundFromParts_eq_flatMap {parent : Node} {around : Around}
    {found : Node → List (String × Node × Bool)} {k : Nat}
    (h : ∀ j, k ≤ j → ∀ c, boundFrom ((parent, j) :: around) c = found c)
    (parts : List (List Node)) :
    boundFromParts parent around k parts = parts.flatten.flatMap found := by
  induction parts generalizing k with
  | nil => rfl
  | cons part parts ih =>
    have hpart : boundFrom ((parent, k) :: around) = found := funext (h k (Nat.le_refl k))
    have hparts := ih fun j hj => h j (Nat.le_of_succ_le hj)
    rw [boundFromParts, hpart, hparts, List.flatten_cons, List.flatMap_append]

/-- In a node that binds no target, nothing is bound from around but the elements of a list. -/
theorem boundFrom_of_not_binder {parent : Node} {around : Around} (harray : parent.form ≠ .array)
    {k : Nat} (hbinds : parent.form.bindsTarget = none ∨ 1 ≤ k) (c : Node) :
    boundFrom ((parent, k) :: around) c = [] := by
  have hlist : listRole ((parent, k) :: around) = none := by
    cases k with
    | zero => exact hbinds.resolve_right (by omega)
    | succ k => rfl
  have hname : nameRole ((parent, k) :: around) = none := by
    rw [nameRole, if_neg harray]
    split
    · next hk =>
      have hnone : parent.form.bindsTarget = none := hbinds.resolve_right (by omega)
      cases hform : parent.form <;> simp_all [Form.bindsName, Form.bindsTarget]
    · rfl
  unfold boundFrom
  split
  · rw [hname]
    rfl
  · rw [hlist]
    rfl
  · rfl

/-- The elements of a list are bound from around exactly if the list is. -/
theorem boundFrom_of_array {parent : Node} {around : Around} (harray : parent.form = .array)
    (k : Nat) (c : Node) :
    boundFrom ((parent, k) :: around) c = (listRole around).toList.flatMap fun isLoop =>
      (c.name?.map (·, c, isLoop)).toList := by
  have hname : nameRole ((parent, k) :: around) = listRole around := by
    rw [nameRole, if_pos harray]
  have hlist : listRole ((parent, k) :: around) = none := by
    cases k with
    | zero => simp [listRole, harray, Form.bindsTarget]
    | succ k => rfl
  cases hform : c.form with
  | name name =>
    simp only [boundFrom, hform, name?, hname]
    cases listRole around <;> rfl
  | array => simp [boundFrom, hform, name?, hlist]
  | _ => simp [boundFrom, name?, hform]

theorem exists_target {n : Node} {isLoop : Bool}
    (hcomplete : n.form.complete (n.parts.map List.length) = true)
    (hbinds : n.form.bindsTarget = some isLoop) :
    ∃ target others, n.parts = [target] :: others := by
  have hcount : (n.parts.map List.length).head? = some 1 := by
    cases hform : n.form <;> simp_all [Form.bindsTarget, Form.complete]
  cases hparts : n.parts with
  | nil => simp [hparts] at hcount
  | cons part others =>
    rw [hparts] at hcount
    obtain ⟨target, rfl⟩ := List.length_eq_one_iff.mp (Option.some.inj hcount)
    exact ⟨target, others, rfl⟩

/-- What is bound from around in a target is what the node with that target binds. -/
theorem boundFrom_target {n target : Node} {others : List (List Node)} {isLoop : Bool}
    (around : Around) (hbinds : n.form.bindsTarget = some isLoop)
    (hparts : n.parts = [target] :: others) :
    boundFrom ((n, 0) :: around) target = n.boundNames := by
  have harray : n.form ≠ .array := by
    intro h
    rw [h] at hbinds
    cases hbinds
  have hlist : listRole ((n, 0) :: around) = some isLoop := hbinds
  have hname : nameRole ((n, 0) :: around) = n.form.bindsName := by
    rw [nameRole, if_neg harray, if_pos rfl]
  have hbound : n.boundTarget =
      if target.name?.isSome ∧ n.form.bindsName = none then none else some (target, isLoop) := by
    cases hform : n.form <;> rw [hform] at hbinds <;> cases hbinds
    · simp [boundTarget, hform, hparts, Form.bindsName]
    · simp [boundTarget, hform, hparts, Form.bindsName, Form.bindsTarget]
    · simp [boundTarget, hform, hparts, Form.bindsName, Form.bindsTarget]
  have hsame : ∀ {loop : Bool}, n.form.bindsName = some loop → loop = isLoop := by
    intro loop h
    cases hform : n.form <;> rw [hform] at hbinds h <;> cases hbinds <;>
      simp_all [Form.bindsName, Form.bindsTarget]
  unfold boundNames
  rw [hbound]
  cases hform : target.form with
  | name name =>
    simp only [boundFrom, hform, hname, name?, Option.isSome_some, true_and]
    cases h : n.form.bindsName with
    | none => simp
    | some loop =>
      cases hsame h
      simp [targetNames, hform, name?]
  | array =>
    simp [boundFrom, hform, hlist, name?, targetNames, List.map_filterMap, Function.comp_def]
  | _ => simp [boundFrom, hform, name?, targetNames]

theorem boundNames_of_not_binder {n : Node} (hbinds : n.form.bindsTarget = none) :
    n.boundNames = [] := by
  cases hform : n.form <;> simp_all [boundNames, boundTarget, Form.bindsTarget]

theorem boundFrom_of_binder {n : Node} {isLoop : Bool} (hbinds : n.form.bindsTarget = some isLoop)
    (around : Around) : n.boundFrom around = [] := by
  cases hform : n.form <;> simp_all [boundFrom, Form.bindsTarget]

/-- What is bound from around in the children of a node is what the node binds itself, and what is
bound from around in it. -/
theorem boundFromParts_eq {n : Node} {around : Around}
    (hcomplete : n.form.complete (n.parts.map List.length) = true)
    (hclaimed : n.isClaimed around = false) :
    boundFromParts n around 0 n.parts = n.boundNames ++ n.boundFrom around := by
  by_cases harray : n.form = .array
  · rw [boundFromParts_eq_flatMap (fun j _ => boundFrom_of_array harray j)]
    simp only [boundNames, boundTarget, boundFrom, harray, List.nil_append]
    cases listRole around with
    | none => simp
    | some isLoop => simp [children, List.filterMap_eq_flatMap_toList]
  cases hbinds : n.form.bindsTarget with
  | none =>
    rw [boundFromParts_eq_flatMap (fun j _ => boundFrom_of_not_binder harray (.inl hbinds))]
    have hfrom : n.boundFrom around = [] := by
      cases hform : n.form <;> simp_all [boundFrom, isClaimed, name?]
    rw [boundNames_of_not_binder hbinds, hfrom]
    simp
  | some isLoop =>
    obtain ⟨target, others, hparts⟩ := exists_target hcomplete hbinds
    have hothers : boundFromParts n around 1 others = [] := by
      rw [boundFromParts_eq_flatMap (fun j hj => boundFrom_of_not_binder harray (.inr hj))]
      simp
    rw [hparts, boundFromParts, hothers, boundFrom_of_binder hbinds, List.flatMap_singleton,
      boundFrom_target around hbinds hparts]

/-! ## What a walk does, and in which scope -/

/-- An entry or an action with the scope it happens in; no other event is told. -/
def told (home : Option Nat) (e : Event) : List (Option Nat × Event) :=
  if e.isEntry || e.isAction then [(home, e)] else []

/-- The entries and actions among events: in the scope `home`, or in `inner` after the entry. -/
def tag (home inner : Option Nat) : List Event → List (Option Nat × Event)
  | [] => []
  | e :: events => told home e ++ tag (if e.isEntry then inner else home) inner events

/-- The entries and actions of a node itself. -/
def own (around : Around) (n : Node) : List (Option Nat × Event) :=
  tag (homeOf around) (some n.id) n.events

mutual

/-- The entries and actions in a tree, in the order of a walk. -/
def located (around : Around) : Node → List (Option Nat × Event)
  | mk id span form parts =>
    if (mk id span form parts).isClaimed around then [] else
    (mk id span form parts).own around ++ locatedParts (mk id span form parts) around 0 parts

def locatedParts (parent : Node) (around : Around) (k : Nat) :
    List (List Node) → List (Option Nat × Event)
  | [] => []
  | part :: parts =>
    locatedPart ((parent, k) :: around) part ++ locatedParts parent around (k + 1) parts

def locatedPart (around : Around) : List Node → List (Option Nat × Event)
  | [] => []
  | n :: rest => located around n ++ locatedPart around rest

end

theorem located_eq {n : Node} {around : Around} (h : n.isClaimed around = false) :
    located around n = n.own around ++ locatedParts n around 0 n.parts := by
  cases n
  rw [located, h, if_neg Bool.false_ne_true]
  rfl

/-- The action that binds a name in a target. -/
def bindItem (home : Option Nat) (bound : String × Node × Bool) : Option Nat × Event :=
  (home, .bind bound.1 bound.2.1.span {} bound.2.2 false)

theorem homeOf_cons (n : Node) (k : Nat) (around : Around) :
    homeOf ((n, k) :: around) = if n.form.opensScope then some n.id else homeOf around := by
  unfold homeOf
  rw [List.find?_cons]
  cases n.form.opensScope <;> rfl

/-- The parts of a node have one scope. -/
theorem homeOf_part (n : Node) (k : Nat) (around : Around) :
    homeOf ((n, k) :: around) = homeOf ((n, 0) :: around) := by
  rw [homeOf_cons, homeOf_cons]

theorem tag_entry (home inner : Option Nat) (top : Bool) (events : List Event) :
    tag home inner (.enter top :: events) = (home, .enter top) :: tag inner inner events := rfl

theorem tag_of_actions {events : List Event} (h : ∀ e ∈ events, e.isAction = true)
    (home inner : Option Nat) : tag home inner events = events.map (home, ·) := by
  induction events with
  | nil => rfl
  | cons e events ih =>
    have he := h e List.mem_cons_self
    rw [tag, told, Event.isEntry_of_isAction he, he, if_neg Bool.false_ne_true,
      ih fun e he => h e (List.mem_cons_of_mem _ he)]
    rfl

theorem tag_targetEvents (n : Node) (home inner : Option Nat) :
    tag home inner n.targetEvents = n.boundNames.map (bindItem home) := by
  rw [tag_of_actions isAction_targetEvents, targetEvents, List.map_map]
  rfl

/-- A node that binds a target acts for the names in it, in the scope of its parts. -/
theorem own_of_binder {n : Node} {isLoop : Bool} (hbinds : n.form.bindsTarget = some isLoop)
    (around : Around) :
    (n.own around).filter (·.2.isAction) =
      n.boundNames.map (bindItem (homeOf ((n, 0) :: around))) := by
  have hactions : ∀ home, (n.boundNames.map (bindItem home)).filter (·.2.isAction) =
      n.boundNames.map (bindItem home) := by
    intro home
    refine List.filter_eq_self.mpr fun item hitem => ?_
    obtain ⟨_, _, rfl⟩ := List.mem_map.mp hitem
    rfl
  rw [homeOf_cons]
  cases hform : n.form <;> rw [hform] at hbinds <;> cases hbinds
  · simp only [own, events, hform]
    rw [tag_targetEvents, hactions]
    rfl
  · simp only [own, events, hform]
    rw [tag_entry, tag_targetEvents, List.filter_cons_of_neg Bool.false_ne_true, hactions]
    rfl
  · simp only [own, events, hform]
    rw [tag_targetEvents, hactions]
    rfl

/-- Any other node acts for itself only. -/
theorem own_of_not_binder {n : Node} {around : Around} (hbinds : n.form.bindsTarget = none)
    (hclaimed : n.isClaimed around = false) :
    (n.own around).filter (·.2.isAction) = Occurrence.items ⟨n, around⟩ := by
  cases hform : n.form with
  | name name =>
    have hrole : nameRole around = none := by
      simpa [isClaimed, name?, hform] using hclaimed
    simp [own, events, hform, tag, told, Event.isEntry, Event.isAction, Occurrence.items,
      Occurrence.actions, Occurrence.home, hrole]
  | importModule path asName asSpan =>
    simp only [own, events, hform, Occurrence.items, Occurrence.actions]
    cases word? asName with
    | some other => rfl
    | none => cases path <;> rfl
  | declaration keyword names =>
    have hall := isAction_events_declaration hform
    have hitems : Occurrence.items ⟨n, around⟩ = n.events.map (homeOf around, ·) := by
      simp [Occurrence.items, Occurrence.actions, Occurrence.home, events, hform]
    rw [own, tag_of_actions hall, hitems]
    refine List.filter_eq_self.mpr fun item hitem => ?_
    obtain ⟨e, he, rfl⟩ := List.mem_map.mp hitem
    exact hall e he
  | empty marker =>
    simp only [own, events, hform]
    split <;> simp [tag, told, Event.isEntry, Event.isAction, Occurrence.items, Occurrence.actions,
      hform]
  | assign | forIn | comprehension =>
    rw [hform] at hbinds
    cases hbinds
  | _ =>
    simp [own, events, hform, tag, told, Event.isEntry, Event.isAction, Occurrence.items,
      Occurrence.actions, Occurrence.home]

/-- What the walk does at a node, and what was done for it from around, is what the node does as an
occurrence and what is done for its children. -/
theorem own_append {n : Node} {around : Around}
    (hcomplete : n.form.complete (n.parts.map List.length) = true)
    (hclaimed : n.isClaimed around = false) :
    (n.own around).filter (·.2.isAction) ++ (n.boundFrom around).map (bindItem (homeOf around)) =
      Occurrence.items ⟨n, around⟩ ++
        (boundFromParts n around 0 n.parts).map (bindItem (homeOf ((n, 0) :: around))) := by
  rw [boundFromParts_eq hcomplete hclaimed]
  cases hbinds : n.form.bindsTarget with
  | some isLoop =>
    have hitems : Occurrence.items ⟨n, around⟩ = [] := by
      cases hform : n.form <;>
        simp_all [Occurrence.items, Occurrence.actions, Form.bindsTarget]
    rw [own_of_binder hbinds, boundFrom_of_binder hbinds, hitems]
    simp
  | none =>
    rw [own_of_not_binder hbinds hclaimed, boundNames_of_not_binder hbinds, List.nil_append,
      homeOf_cons]
    -- a node with something bound in it from around is a name or a list
    cases hscope : n.form.opensScope with
    | false => rfl
    | true =>
      have hfrom : n.boundFrom around = [] := by
        cases hform : n.form <;> simp_all [boundFrom, Form.opensScope]
      rw [hfrom]
      rfl

theorem perm_interleave {α : Type} {a b c d : List α} :
    ((a ++ b) ++ (c ++ d)).Perm ((a ++ c) ++ (b ++ d)) := by
  rw [List.append_assoc, List.append_assoc]
  exact List.Perm.append_left a (List.perm_append_comm_assoc b c d)

theorem perm_regroup {α : Type} {own inner done items bound outer : List α}
    (hown : own ++ done = items ++ bound) (hinner : (inner ++ bound).Perm outer) :
    ((own ++ inner) ++ done).Perm (items ++ outer) := by
  have hdone : ((own ++ inner) ++ done).Perm ((own ++ done) ++ inner) := by
    rw [List.append_assoc, List.append_assoc]
    exact List.perm_append_comm.append_left own
  have hbound : ((items ++ bound) ++ inner).Perm (items ++ (inner ++ bound)) := by
    rw [List.append_assoc]
    exact List.perm_append_comm.append_left items
  rw [hown] at hdone
  exact hdone.trans (hbound.trans (hinner.append_left items))

/-- A name has no parts. -/
theorem parts_of_name {n : Node} {name : String} (hform : n.form = .name name)
    (hcomplete : n.form.complete (n.parts.map List.length) = true) : n.parts = [] := by
  rw [hform] at hcomplete
  simpa [Form.complete] using hcomplete

theorem form_of_isClaimed {n : Node} {around : Around} (h : n.isClaimed around = true) :
    ∃ name isLoop, n.form = .name name ∧ nameRole around = some isLoop := by
  rw [isClaimed, Bool.and_eq_true] at h
  obtain ⟨isLoop, hrole⟩ := Option.isSome_iff_exists.mp h.2
  cases hform : n.form with
  | name name => exact ⟨name, isLoop, rfl, hrole⟩
  | _ => simp [name?, hform] at h

mutual

/-- The actions of a walk over a tree, and those done for it from around, are the actions of its
occurrences. -/
theorem perm_located (around : Around) (n : Node) (h : n.Complete) :
    ((located around n).filter (·.2.isAction) ++
      (n.boundFrom around).map (bindItem (homeOf around))).Perm
    ((n.occurrences around).flatMap Occurrence.items) := by
  match n, h with
  | mk id span form parts, .mk hcomplete hinner =>
    rw [located, occurrences, List.flatMap_cons]
    split
    · next hclaimed =>
      -- the walk does nothing here: the name is what is bound from around
      obtain ⟨name, isLoop, rfl, hrole⟩ := form_of_isClaimed hclaimed
      cases parts_of_name (n := mk id span (.name name) parts) rfl hcomplete
      simp [boundFrom, Node.form, hrole, Occurrence.items, Occurrence.actions, Occurrence.home,
        bindItem, occurrencesParts]
    · next hclaimed =>
      have hown := own_append (n := mk id span form parts) hcomplete (by simpa using hclaimed)
      have hparts := perm_locatedParts (mk id span form parts) around 0 parts hinner
      rw [List.filter_append]
      exact perm_regroup hown hparts

theorem perm_locatedParts (parent : Node) (around : Around) (k : Nat) (parts : List (List Node))
    (h : ∀ part ∈ parts, ∀ n ∈ part, n.Complete) :
    ((locatedParts parent around k parts).filter (·.2.isAction) ++
      (boundFromParts parent around k parts).map (bindItem (homeOf ((parent, 0) :: around)))).Perm
    ((occurrencesParts parent around k parts).flatMap Occurrence.items) := by
  match parts with
  | [] => exact .nil
  | part :: parts =>
    have hpart := perm_locatedPart ((parent, k) :: around) part (h part (by simp))
    have hparts := perm_locatedParts parent around (k + 1) parts
      fun part hp => h part (by simp [hp])
    rw [homeOf_part] at hpart
    rw [locatedParts, boundFromParts, occurrencesParts, List.filter_append, List.map_append,
      List.flatMap_append]
    exact perm_interleave.trans (hpart.append hparts)

theorem perm_locatedPart (around : Around) (part : List Node) (h : ∀ n ∈ part, n.Complete) :
    ((locatedPart around part).filter (·.2.isAction) ++
      (part.flatMap (boundFrom around)).map (bindItem (homeOf around))).Perm
    ((occurrencesPart around part).flatMap Occurrence.items) := by
  match part with
  | [] => exact .nil
  | n :: rest =>
    have hn := perm_located around n (h n (by simp))
    have hrest := perm_locatedPart around rest fun m hm => h m (by simp [hm])
    rw [locatedPart, occurrencesPart, List.flatMap_cons, List.filter_append, List.map_append,
      List.flatMap_append]
    exact perm_interleave.trans (hn.append hrest)

end

/-! ## The scopes that are opened -/

theorem entries_tag_of_actions {events : List Event} (h : ∀ e ∈ events, e.isAction = true)
    (home inner : Option Nat) : (tag home inner events).filter (·.2.isEntry) = [] := by
  rw [tag_of_actions h]
  refine List.filter_eq_nil_iff.mpr fun item hitem => ?_
  obtain ⟨e, he, rfl⟩ := List.mem_map.mp hitem
  simp [Event.isEntry_of_isAction (h e he)]

/-- A node enters its scope, if it opens one, from the scope around it. -/
theorem entries_own (around : Around) (n : Node) :
    ((n.own around).filter (·.2.isEntry)).map Prod.fst =
      if n.form.opensScope then [homeOf around] else [] := by
  cases hform : n.form with
  | assign | forIn =>
    simp only [own, events, hform]
    rw [entries_tag_of_actions isAction_targetEvents]
    rfl
  | comprehension =>
    simp only [own, events, hform]
    rw [tag_entry, List.filter_cons_of_pos rfl, entries_tag_of_actions isAction_targetEvents]
    rfl
  | importModule path asName asSpan =>
    simp only [own, events, hform]
    cases word? asName with
    | some other => rfl
    | none => cases path <;> rfl
  | declaration keyword names =>
    rw [own, entries_tag_of_actions (isAction_events_declaration hform)]
    rfl
  | empty marker =>
    simp only [own, events, hform]
    split <;> rfl
  | _ => simp [own, events, hform, tag, told, Event.isEntry, Event.isAction, Form.opensScope]

mutual

/-- Scopes are entered in the order of the nodes that open them. -/
theorem entries_located (around : Around) (n : Node) (h : n.Complete) :
    ((located around n).filter (·.2.isEntry)).map Prod.fst =
      ((n.occurrences around).filter (·.node.form.opensScope)).map Occurrence.home := by
  match n, h with
  | mk id span form parts, .mk hcomplete hinner =>
    rw [located, occurrences]
    split
    · next hclaimed =>
      obtain ⟨name, isLoop, rfl, _⟩ := form_of_isClaimed hclaimed
      cases parts_of_name (n := mk id span (.name name) parts) rfl hcomplete
      rfl
    · have hparts := entries_locatedParts (mk id span form parts) around 0 parts hinner
      rw [List.filter_append, List.map_append, entries_own, hparts, List.filter_cons]
      dsimp only
      cases (mk id span form parts).form.opensScope <;> rfl

theorem entries_locatedParts (parent : Node) (around : Around) (k : Nat)
    (parts : List (List Node)) (h : ∀ part ∈ parts, ∀ n ∈ part, n.Complete) :
    ((locatedParts parent around k parts).filter (·.2.isEntry)).map Prod.fst =
      ((occurrencesParts parent around k parts).filter (·.node.form.opensScope)).map
        Occurrence.home := by
  match parts with
  | [] => rfl
  | part :: parts =>
    rw [locatedParts, occurrencesParts, List.filter_append, List.map_append, List.filter_append,
      List.map_append, entries_locatedPart _ part (h part (by simp)),
      entries_locatedParts parent around (k + 1) parts fun part hp => h part (by simp [hp])]

theorem entries_locatedPart (around : Around) (part : List Node) (h : ∀ n ∈ part, n.Complete) :
    ((locatedPart around part).filter (·.2.isEntry)).map Prod.fst =
      ((occurrencesPart around part).filter (·.node.form.opensScope)).map Occurrence.home := by
  match part with
  | [] => rfl
  | n :: rest =>
    rw [locatedPart, occurrencesPart, List.filter_append, List.map_append, List.filter_append,
      List.map_append, entries_located around n (h n (by simp)),
      entries_locatedPart around rest fun m hm => h m (by simp [hm])]

end

/-! ## A part of a tree, and the walk over it -/

theorem occurrencesPart_append (around : Around) (part rest : List Node) :
    occurrencesPart around (part ++ rest) =
      occurrencesPart around part ++ occurrencesPart around rest := by
  induction part with
  | nil => rfl
  | cons n part ih => rw [List.cons_append, occurrencesPart, occurrencesPart, ih, List.append_assoc]

theorem locatedPart_append (around : Around) (part rest : List Node) :
    locatedPart around (part ++ rest) = locatedPart around part ++ locatedPart around rest := by
  induction part with
  | nil => rfl
  | cons n part ih => rw [List.cons_append, locatedPart, locatedPart, ih, List.append_assoc]

theorem occurrencesParts_append (parent : Node) (around : Around) (k : Nat)
    (parts rest : List (List Node)) :
    occurrencesParts parent around k (parts ++ rest) = occurrencesParts parent around k parts ++
      occurrencesParts parent around (k + parts.length) rest := by
  induction parts generalizing k with
  | nil => rfl
  | cons part parts ih =>
    rw [List.cons_append, occurrencesParts, occurrencesParts, ih, List.append_assoc,
      List.length_cons, Nat.add_right_comm, Nat.add_assoc k]

theorem locatedParts_append (parent : Node) (around : Around) (k : Nat)
    (parts rest : List (List Node)) :
    locatedParts parent around k (parts ++ rest) = locatedParts parent around k parts ++
      locatedParts parent around (k + parts.length) rest := by
  induction parts generalizing k with
  | nil => rfl
  | cons part parts ih =>
    rw [List.cons_append, locatedParts, locatedParts, ih, List.append_assoc, List.length_cons,
      Nat.add_right_comm, Nat.add_assoc k]

/-- What stands in the parts of a node stands in one of its children: in `c`, behind the parts
`first` and the children `front`. -/
theorem split_parts {parent : Node} {around : Around} {k : Nat} {parts : List (List Node)}
    {o : Occurrence} (h : o ∈ occurrencesParts parent around k parts) :
    ∃ first front c back last, parts = first ++ (front ++ c :: back) :: last ∧
      o ∈ c.occurrences ((parent, k + first.length) :: around) := by
  induction parts generalizing k with
  | nil => cases h
  | cons part parts ih =>
    rcases List.mem_append.mp h with h | h
    · obtain ⟨c, hc, ho⟩ := mem_occurrencesPart.mp h
      obtain ⟨front, back, rfl⟩ := List.append_of_mem hc
      exact ⟨[], front, c, back, parts, rfl, ho⟩
    · obtain ⟨first, front, c, back, last, rfl, ho⟩ := ih h
      rw [Nat.add_right_comm, Nat.add_assoc k] at ho
      exact ⟨part :: first, front, c, back, last, rfl, ho⟩

theorem infix_parts {parent : Node} {around : Around} {k : Nat} {parts : List (List Node)}
    {o : Occurrence} (h : o ∈ occurrencesParts parent around k parts) :
    ∃ j, ∃ part ∈ parts, ∃ c ∈ part, o ∈ c.occurrences ((parent, j) :: around) ∧
      c.occurrences ((parent, j) :: around) <:+: occurrencesParts parent around k parts := by
  obtain ⟨first, front, c, back, last, rfl, ho⟩ := split_parts h
  refine ⟨k + first.length, front ++ c :: back, by simp, c, by simp, ho, ?_⟩
  rw [occurrencesParts_append, occurrencesParts, occurrencesPart_append, occurrencesPart]
  refine .trans ?_ (List.suffix_append _ _).isInfix
  refine .trans ?_ (List.prefix_append _ _).isInfix
  exact .trans (List.prefix_append _ _).isInfix (List.suffix_append _ _).isInfix

/-- What stands in a node of a tree stands together in the tree. -/
theorem Complete.infix_occurrences {n : Node} (hn : n.Complete) {around : Around} {o : Occurrence}
    (ho : o ∈ n.occurrences around) : o.node.occurrences o.around <:+: n.occurrences around := by
  unfold Complete at hn
  induction hn generalizing around with
  | mk here inner ih =>
    rcases List.mem_cons.mp ho with rfl | ho
    · exact List.infix_rfl
    · obtain ⟨j, part, hpart, c, hc, ho, hinner⟩ := infix_parts ho
      exact (ih part hpart c hc ho).trans (hinner.trans (List.suffix_cons _ _).isInfix)

end Node
end ScopeLint
