import ScopeLint.Builtins
import ScopeLint.Proofs.Constructs
import ScopeLint.Proofs.TreeRemarks

/-! # The insides of definitions do not show

A function, a class, a lambda and a comprehension bind what they bind in a scope
of their own. What the scope of a module comes to hold can therefore be read off
the outline of its tree, in which the insides of these are left out (`heldNames`),
and two modules with the same outline hold the same names, whatever is in them. -/
namespace ScopeLint

namespace Form

/-- Whether what stands in a node of this form is left out of an outline. -/
def conceals (form : Form) : Bool := form.opensScope && form ≠ .module

/-- The form without the places that it holds. -/
def unplaced : Form → Form
  | functionDef word _ => functionDef word .unknown
  | classDef word _ => classDef word .unknown
  | varDef word _ => varDef word .unknown
  | importModule path asName _ => importModule path asName none
  | declaration keyword names => declaration keyword (names.map fun p => (p.1, .unknown))
  | form => form

/-- The names that a form gives to the scope that its node stands in. -/
def given : Form → List String
  | functionDef word _ | classDef word _ | varDef word _ | param word _ => [word]
  | importModule path asName _ => ((Node.word? asName).or path.head?).toList
  | importedName word asName => [(Node.word? asName).getD word]
  | declaration _ names => names.map Prod.fst
  | _ => []

theorem given_unplaced (form : Form) : form.unplaced.given = form.given := by
  cases form with
  | declaration keyword names => simp [unplaced, given, Function.comp_def]
  | _ => rfl

theorem opensScope_unplaced (form : Form) : form.unplaced.opensScope = form.opensScope := by
  cases form <;> rfl

theorem bindsTarget_unplaced (form : Form) : form.unplaced.bindsTarget = form.bindsTarget := by
  cases form <;> rfl

theorem bindsName_unplaced (form : Form) : form.unplaced.bindsName = form.bindsName := by
  cases form <;> rfl

theorem conceals_of_opensScope {form : Form} (h : form.opensScope = false) :
    form.conceals = false := by
  rw [conceals, h, Bool.false_and]

theorem unplaced_eq_name {form : Form} {name : String} :
    form.unplaced = .name name ↔ form = .name name := by
  cases form <;> simp [unplaced]

theorem unplaced_eq_array {form : Form} : form.unplaced = .array ↔ form = .array := by
  cases form <;> simp [unplaced]

theorem unplaced_eq_module {form : Form} : form.unplaced = .module ↔ form = .module := by
  cases form <;> simp [unplaced]

theorem conceals_of_unplaced {form form' : Form} (h : form.unplaced = form'.unplaced) :
    form.conceals = form'.conceals := by
  have hunplaced : ∀ form : Form, form.unplaced.conceals = form.conceals := fun form => by
    cases form <;> rfl
  rw [← hunplaced, h, hunplaced]

end Form

namespace Node

/-! ## Outlines -/

mutual

/-- Whether two trees are alike but for places and identities, and for what stands in functions,
classes, lambdas and comprehensions. -/
def sameOutline : Node → Node → Bool
  | mk _ _ form parts, mk _ _ form' parts' =>
    form.unplaced = form'.unplaced && (form.conceals || sameOutlineParts parts parts')

def sameOutlineParts : List (List Node) → List (List Node) → Bool
  | [], [] => true
  | part :: parts, part' :: parts' => sameOutlinePart part part' && sameOutlineParts parts parts'
  | _, _ => false

def sameOutlinePart : List Node → List Node → Bool
  | [], [] => true
  | n :: rest, n' :: rest' => sameOutline n n' && sameOutlinePart rest rest'
  | _, _ => false

end

mutual

/-- The nodes of the outline, parents before children. -/
def outer : Node → List Node
  | mk id span form parts =>
    mk id span form parts :: if form.conceals then [] else outerParts parts

def outerParts : List (List Node) → List Node
  | [] => []
  | part :: parts => outerPart part ++ outerParts parts

def outerPart : List Node → List Node
  | [] => []
  | n :: rest => outer n ++ outerPart rest

end

mutual

/-- The names that a tree binds, those in scopes that it opens left out. -/
def heldNames : Node → List String
  | mk id span form parts =>
    form.given ++ if form.opensScope then [] else
      (mk id span form parts).boundNames.map Prod.fst ++ heldNamesParts parts

def heldNamesParts : List (List Node) → List String
  | [] => []
  | part :: parts => heldNamesPart part ++ heldNamesParts parts

def heldNamesPart : List Node → List String
  | [] => []
  | n :: rest => heldNames n ++ heldNamesPart rest

end

section Alike

variable {n n' : Node} {part part' : List Node} {parts parts' : List (List Node)}

theorem sameOutline_iff : n.sameOutline n' = true ↔ n.form.unplaced = n'.form.unplaced ∧
    (n.form.conceals = false → sameOutlineParts n.parts n'.parts = true) := by
  cases n
  cases n'
  simp [sameOutline, form, Node.parts, or_iff_not_imp_left]

theorem sameOutlineParts_cons : sameOutlineParts (part :: parts) parts' = true ↔
    ∃ part' rest', parts' = part' :: rest' ∧ sameOutlinePart part part' = true ∧
      sameOutlineParts parts rest' = true := by
  cases parts' <;> simp [sameOutlineParts]

theorem sameOutlinePart_cons : sameOutlinePart (n :: part) part' = true ↔
    ∃ n' rest', part' = n' :: rest' ∧ n.sameOutline n' = true ∧
      sameOutlinePart part rest' = true := by
  cases part' <;> simp [sameOutlinePart]

theorem sameOutlineParts_nil : sameOutlineParts [] parts' = true ↔ parts' = [] := by
  cases parts' <;> simp [sameOutlineParts]

theorem sameOutlinePart_nil : sameOutlinePart [] part' = true ↔ part' = [] := by
  cases part' <;> simp [sameOutlinePart]

theorem name?_of_sameOutline (h : n.sameOutline n' = true) : n.name? = n'.name? := by
  have hform := (sameOutline_iff.mp h).1
  refine Option.ext fun name => ?_
  have hname : ∀ m : Node, m.name? = some name ↔ m.form = .name name := by
    intro m
    unfold name?
    split <;> simp_all
  rw [hname, hname, ← Form.unplaced_eq_name, hform, Form.unplaced_eq_name]

theorem filterMap_name?_of_sameOutlinePart (h : sameOutlinePart part part' = true) :
    part.filterMap name? = part'.filterMap name? := by
  induction part generalizing part' with
  | nil => rw [sameOutlinePart_nil.mp h]
  | cons n part ih =>
    obtain ⟨n', rest', rfl, hn, hrest⟩ := sameOutlinePart_cons.mp h
    rw [List.filterMap_cons, List.filterMap_cons, name?_of_sameOutline hn, ih hrest]

theorem filterMap_name?_of_sameOutlineParts (h : sameOutlineParts parts parts' = true) :
    parts.flatten.filterMap name? = parts'.flatten.filterMap name? := by
  induction parts generalizing parts' with
  | nil => rw [sameOutlineParts_nil.mp h]
  | cons part parts ih =>
    obtain ⟨part', rest', rfl, hpart, hrest⟩ := sameOutlineParts_cons.mp h
    rw [List.flatten_cons, List.flatten_cons, List.filterMap_append, List.filterMap_append,
      filterMap_name?_of_sameOutlinePart hpart, ih hrest]

/-! ## The names of an outline -/

theorem map_fst_targetNames (target : Node) : target.targetNames.map Prod.fst =
    if target.form = .array then target.children.filterMap name? else target.name?.toList := by
  have hnamed : ∀ m : Node, (m.name?.map (·, m)).map Prod.fst = m.name? := fun m => by
    cases m.name? <;> rfl
  unfold targetNames
  split
  · rw [List.map_filterMap]
    exact List.filterMap_congr fun m _ => hnamed m
  · dsimp only
    cases target.name? <;> rfl

theorem targetNames_of_sameOutline (h : n.sameOutline n' = true) :
    n.targetNames.map Prod.fst = n'.targetNames.map Prod.fst := by
  obtain ⟨hform, hparts⟩ := sameOutline_iff.mp h
  have harray : n'.form = .array ↔ n.form = .array := by
    rw [← Form.unplaced_eq_array, ← hform, Form.unplaced_eq_array]
  rw [map_fst_targetNames, map_fst_targetNames, name?_of_sameOutline h]
  simp only [harray]
  split
  · next hn =>
    rw [children, children, filterMap_name?_of_sameOutlineParts (hparts (by rw [hn]; rfl))]
  · rfl

/-- What a node binds as its target: the names in the one child of the first part, if it takes them
as a target of this kind. -/
theorem map_fst_boundNames (n : Node) : n.boundNames.map Prod.fst =
    match n.parts with
    | [target] :: _ =>
      if (if target.name?.isSome then n.form.bindsName else n.form.bindsTarget).isSome then
        target.targetNames.map Prod.fst
      else []
    | _ => [] := by
  obtain ⟨id, span, form, parts⟩ := n
  rcases parts with _ | ⟨_ | ⟨target, _ | ⟨other, more⟩⟩, rest⟩
  · cases form <;> rfl
  · cases form <;> rfl
  · cases form with
    | assign op =>
      by_cases hop : op = "=" <;> cases hname : target.name? <;>
        simp [boundNames, boundTarget, Node.form, Node.parts, Form.bindsTarget, Form.bindsName,
          hop, hname, Function.comp_def]
    | forIn | comprehension =>
      simp [boundNames, boundTarget, Node.form, Node.parts, Form.bindsTarget, Form.bindsName,
        Function.comp_def]
    | _ => simp [boundNames, boundTarget, Node.form, Node.parts, Form.bindsTarget, Form.bindsName]
  · cases form <;> rfl

theorem boundNames_of_sameOutline (h : n.sameOutline n' = true)
    (hopens : n.form.opensScope = false) :
    n.boundNames.map Prod.fst = n'.boundNames.map Prod.fst := by
  obtain ⟨hform, hparts⟩ := sameOutline_iff.mp h
  replace hparts := hparts (Form.conceals_of_opensScope hopens)
  have htarget : n.form.bindsTarget = n'.form.bindsTarget := by
    rw [← Form.bindsTarget_unplaced, hform, Form.bindsTarget_unplaced]
  have hname : n.form.bindsName = n'.form.bindsName := by
    rw [← Form.bindsName_unplaced, hform, Form.bindsName_unplaced]
  rw [map_fst_boundNames, map_fst_boundNames, htarget, hname]
  generalize n.parts = parts at hparts
  generalize n'.parts = parts' at hparts
  rcases parts with _ | ⟨_ | ⟨target, _ | ⟨other, more⟩⟩, rest⟩
  · rw [sameOutlineParts_nil.mp hparts]
  · obtain ⟨part', rest', rfl, hpart, -⟩ := sameOutlineParts_cons.mp hparts
    rw [sameOutlinePart_nil.mp hpart]
  · obtain ⟨part', rest', rfl, hpart, -⟩ := sameOutlineParts_cons.mp hparts
    obtain ⟨target', more', rfl, htarget, hmore⟩ := sameOutlinePart_cons.mp hpart
    rw [sameOutlinePart_nil.mp hmore]
    dsimp only
    rw [name?_of_sameOutline htarget, targetNames_of_sameOutline htarget]
  · obtain ⟨part', rest', rfl, hpart, -⟩ := sameOutlineParts_cons.mp hparts
    obtain ⟨target', more', rfl, -, hmore⟩ := sameOutlinePart_cons.mp hpart
    obtain ⟨other', more', rfl, -, -⟩ := sameOutlinePart_cons.mp hmore
    rfl

end Alike

mutual

theorem heldNames_of_sameOutline (n n' : Node) (h : n.sameOutline n' = true) :
    n.heldNames = n'.heldNames := by
  match n, n' with
  | mk id span form parts, mk id' span' form' parts' =>
    obtain ⟨hform, hparts⟩ := sameOutline_iff.mp h
    have hsame : form.unplaced = form'.unplaced := hform
    have hopens : form.opensScope = form'.opensScope := by
      rw [← Form.opensScope_unplaced, hsame, Form.opensScope_unplaced]
    rw [heldNames, heldNames, ← Form.given_unplaced, hsame, Form.given_unplaced, hopens]
    split
    · rfl
    · next hopened =>
      have hclosed : form.opensScope = false := by rw [hopens]; exact Bool.eq_false_iff.mpr hopened
      rw [boundNames_of_sameOutline h hclosed, heldNamesParts_of_sameOutline parts parts'
        (hparts (Form.conceals_of_opensScope hclosed))]

theorem heldNamesParts_of_sameOutline (parts parts' : List (List Node))
    (h : sameOutlineParts parts parts' = true) : heldNamesParts parts = heldNamesParts parts' := by
  match parts with
  | [] => rw [sameOutlineParts_nil.mp h]
  | part :: parts =>
    obtain ⟨part', rest', rfl, hpart, hrest⟩ := sameOutlineParts_cons.mp h
    rw [heldNamesParts, heldNamesParts, heldNamesPart_of_sameOutline part part' hpart,
      heldNamesParts_of_sameOutline parts rest' hrest]

theorem heldNamesPart_of_sameOutline (part part' : List Node)
    (h : sameOutlinePart part part' = true) : heldNamesPart part = heldNamesPart part' := by
  match part with
  | [] => rw [sameOutlinePart_nil.mp h]
  | n :: rest =>
    obtain ⟨n', rest', rfl, hn, hrest⟩ := sameOutlinePart_cons.mp h
    rw [heldNamesPart, heldNamesPart, heldNames_of_sameOutline n n' hn,
      heldNamesPart_of_sameOutline rest rest' hrest]

end

mutual

/-- The nodes of an outline have their like in a tree with the same outline. -/
theorem exists_outer_of_sameOutline (n n' : Node) (h : n.sameOutline n' = true) {m' : Node}
    (hm : m' ∈ n'.outer) : ∃ m ∈ n.outer, m.sameOutline m' = true := by
  match n, n' with
  | mk id span form parts, mk id' span' form' parts' =>
    obtain ⟨hform, hparts⟩ := sameOutline_iff.mp h
    rw [outer] at hm ⊢
    rcases List.mem_cons.mp hm with rfl | hm
    · exact ⟨_, List.mem_cons_self, h⟩
    split at hm
    · cases hm
    · next hshown =>
      have hconceals : form.conceals = false :=
        (Form.conceals_of_unplaced hform).trans (Bool.eq_false_iff.mpr hshown)
      obtain ⟨m, hmem, hsame⟩ :=
        exists_outerParts_of_sameOutline parts parts' (hparts hconceals) hm
      rw [hconceals]
      exact ⟨m, List.mem_cons_of_mem _ hmem, hsame⟩

theorem exists_outerParts_of_sameOutline (parts parts' : List (List Node))
    (h : sameOutlineParts parts parts' = true) {m' : Node} (hm : m' ∈ outerParts parts') :
    ∃ m ∈ outerParts parts, m.sameOutline m' = true := by
  match parts with
  | [] =>
    rw [sameOutlineParts_nil.mp h] at hm
    cases hm
  | part :: parts =>
    obtain ⟨part', rest', rfl, hpart, hrest⟩ := sameOutlineParts_cons.mp h
    rw [outerParts] at hm ⊢
    rcases List.mem_append.mp hm with hm | hm
    · obtain ⟨m, hmem, hsame⟩ := exists_outerPart_of_sameOutline part part' hpart hm
      exact ⟨m, List.mem_append_left _ hmem, hsame⟩
    · obtain ⟨m, hmem, hsame⟩ := exists_outerParts_of_sameOutline parts rest' hrest hm
      exact ⟨m, List.mem_append_right _ hmem, hsame⟩

theorem exists_outerPart_of_sameOutline (part part' : List Node)
    (h : sameOutlinePart part part' = true) {m' : Node} (hm : m' ∈ outerPart part') :
    ∃ m ∈ outerPart part, m.sameOutline m' = true := by
  match part with
  | [] =>
    rw [sameOutlinePart_nil.mp h] at hm
    cases hm
  | n :: rest =>
    obtain ⟨n', rest', rfl, hn, hrest⟩ := sameOutlinePart_cons.mp h
    rw [outerPart] at hm ⊢
    rcases List.mem_append.mp hm with hm | hm
    · obtain ⟨m, hmem, hsame⟩ := exists_outer_of_sameOutline n n' hn hm
      exact ⟨m, List.mem_append_left _ hmem, hsame⟩
    · obtain ⟨m, hmem, hsame⟩ := exists_outerPart_of_sameOutline rest rest' hrest hm
      exact ⟨m, List.mem_append_right _ hmem, hsame⟩

end

end Node

/-! ## What a walk binds around the scopes that it opens -/

/-- The names that events bind, in any scope. -/
def boundIn (events : List Event) : List String := (events.filterMap Event.bound?).map Prod.fst

theorem boundIn_append (first second : List Event) :
    boundIn (first ++ second) = boundIn first ++ boundIn second := by
  simp [boundIn]

theorem mem_boundIn {name : String} {events : List Event} :
    name ∈ boundIn events ↔ Bound name events := by
  have hone : ∀ e : Event, (∃ span, e.bound? = some (name, span)) ↔ e.binds name = true := by
    intro e
    cases e <;> simp [Event.bound?, Event.binds]
  simp only [boundIn, Bound, List.mem_map, List.mem_filterMap, Prod.exists, exists_and_right,
    exists_eq_right, ← hone]
  constructor
  · intro h
    obtain ⟨span, e, he, heq⟩ := h
    exact ⟨e, he, span, heq⟩
  · intro h
    obtain ⟨e, he, span, heq⟩ := h
    exact ⟨span, e, he, heq⟩

namespace Node

theorem boundIn_events {n : Node} (h : n.form.opensScope = false) :
    boundIn n.events = n.form.given ++ n.boundNames.map Prod.fst := by
  have htargets : boundIn n.targetEvents = n.boundNames.map Prod.fst := by
    rw [boundIn, targetEvents, List.filterMap_map, List.map_filterMap, ← List.filterMap_eq_map]
    rfl
  cases hform : n.form with
  | assign | forIn => simpa [events, hform, Form.given] using htargets
  | module | functionDef | lambda | classDef | comprehension =>
    rw [hform] at h
    cases h
  | importModule path asName asSpan =>
    cases hword : word? asName with
    | some word => simp [boundIn, events, hform, hword, Event.bound?, Form.given, boundNames,
        boundTarget]
    | none =>
      cases path <;> simp [boundIn, events, hform, hword, Event.bound?, Form.given, boundNames,
        boundTarget]
  | empty marker =>
    by_cases hmarker : marker = ";" <;> simp [boundIn, events, hform, hmarker, Event.bound?,
      Form.given, boundNames, boundTarget]
  | declaration keyword names =>
    simp [boundIn, events, hform, Event.bound?, Form.given, boundNames, boundTarget,
      List.filterMap_map, Function.comp_def]
  | _ => simp [boundIn, events, hform, Event.bound?, Form.given, boundNames, boundTarget]

/-- A node that opens a scope gives its names before that. -/
theorem exists_enter {n : Node} (h : n.form.opensScope = true) : ∃ before top after,
    n.events = before ++ .enter top :: after ∧ Level before ∧ Level after ∧
      boundIn before = n.form.given := by
  have hnil : Level [] := by simp [Level]
  cases hform : n.form with
  | module | lambda =>
    simp only [events, hform]
    exact ⟨[], _, [], rfl, hnil, hnil, rfl⟩
  | functionDef word nameSpan | classDef word nameSpan =>
    simp only [events, hform]
    exact ⟨[_, _], _, [], rfl, by simp [Level, Event.isEntry], hnil, rfl⟩
  | comprehension =>
    simp only [events, hform]
    exact ⟨[], _, n.targetEvents, rfl, hnil, level_of_actions isAction_targetEvents, rfl⟩
  | _ =>
    rw [hform] at h
    cases h

end Node

namespace Walk

theorem boundIn_own_level {events : List Event} (h : Node.Level events) :
    boundIn (own events) = boundIn events := by
  induction events with
  | nil => rfl
  | cons e events ih =>
    obtain ⟨hentry, hleave⟩ := h e List.mem_cons_self
    have hone : boundIn (own [e]) = boundIn [e] := by
      cases e <;> rfl
    have hlevel : Block [e] := .level hentry hleave .nil
    rw [← List.singleton_append, own_append hlevel, boundIn_append, boundIn_append, hone,
      ih fun e he => h e (List.mem_cons_of_mem _ he)]

end Walk

namespace Node

open Walk

/-! ## What a walk finds of an outline -/

theorem outer_eq (n : Node) :
    n.outer = n :: if n.form.conceals then [] else outerParts n.parts := by
  cases n
  rfl

theorem outerPart_eq_flatMap (part : List Node) : outerPart part = part.flatMap outer := by
  induction part with
  | nil => rfl
  | cons n rest ih => rw [outerPart, ih, List.flatMap_cons]

theorem outerParts_eq_flatMap (parts : List (List Node)) :
    outerParts parts = parts.flatten.flatMap outer := by
  induction parts with
  | nil => rfl
  | cons part parts ih =>
    rw [outerParts, ih, outerPart_eq_flatMap, List.flatten_cons, List.flatMap_append]

theorem outer_subset_of_child {n c : Node} (h : c ∈ n.children) : c.outer ⊆ outerParts n.parts := by
  intro m hm
  rw [outerParts_eq_flatMap]
  exact List.mem_flatMap.mpr ⟨c, h, hm⟩

mutual

theorem sublist_ids (n : Node) : (n.outer.map id).Sublist n.ids := by
  match n with
  | mk id span form parts =>
    rw [outer, ids, List.map_cons]
    refine List.Sublist.cons_cons id ?_
    split
    · exact List.nil_sublist _
    · exact sublist_idsParts parts

theorem sublist_idsParts (parts : List (List Node)) :
    ((outerParts parts).map id).Sublist (idsParts parts) := by
  match parts with
  | [] => exact List.nil_sublist _
  | part :: parts =>
    rw [outerParts, idsParts, List.map_append]
    exact (sublist_idsPart part).append (sublist_idsParts parts)

theorem sublist_idsPart (part : List Node) :
    ((outerPart part).map id).Sublist (idsPart part) := by
  match part with
  | [] => exact List.nil_sublist _
  | n :: rest =>
    rw [outerPart, idsPart, List.map_append]
    exact (sublist_ids n).append (sublist_idsPart rest)

end

/-- Nodes of an outline that a walk comes to among the nodes `ids`: each occurs once there, names
hold nothing, and those that were seen hold nothing. -/
structure Shown (seen : IdSet) (ids : List Nat) (nodes : List Node) : Prop where
  once : ∀ m ∈ nodes, ids.count m.id = 1
  leaf : ∀ m ∈ nodes, m.name?.isSome = true → m.heldNames = []
  skips : ∀ m ∈ nodes, seen.contains m.id = true → m.heldNames = []

/-- The first of the nodes can be walked, and then the others. -/
theorem Shown.split {seen : IdSet} {ids ids' : List Nat} {first second : List Node}
    (h : Shown seen (ids ++ ids') (first ++ second)) (hfirst : (first.map id).Sublist ids)
    (hsecond : (second.map id).Sublist ids') :
    Shown seen ids first ∧ ∀ seen' : IdSet,
      (∀ j, j ∉ ids → seen'.contains j = seen.contains j) → Shown seen' ids' second := by
  have hcount : ∀ m ∈ first ++ second, ids.count m.id + ids'.count m.id = 1 := by
    intro m hm
    rw [← List.count_append]
    exact h.once m hm
  refine ⟨⟨fun m hm => ?_, fun m hm => h.leaf m (List.mem_append_left _ hm),
    fun m hm => h.skips m (List.mem_append_left _ hm)⟩, fun seen' hseen => ⟨fun m hm => ?_,
    fun m hm => h.leaf m (List.mem_append_right _ hm), fun m hm hcontains => ?_⟩⟩
  · have hpos := List.count_pos_iff.mpr (hfirst.subset (List.mem_map_of_mem hm))
    have := hcount m (List.mem_append_left _ hm)
    omega
  · have hpos := List.count_pos_iff.mpr (hsecond.subset (List.mem_map_of_mem hm))
    have := hcount m (List.mem_append_right _ hm)
    omega
  · have hpos := List.count_pos_iff.mpr (hsecond.subset (List.mem_map_of_mem hm))
    have hone := hcount m (List.mem_append_right _ hm)
    have hnot : m.id ∉ ids := List.count_eq_zero.mp (by omega)
    exact h.skips m (List.mem_append_right _ hm) (hseen _ hnot ▸ hcontains)

/-- Nodes of an outline that occur once are told apart by their identities. -/
theorem Shown.eq_of_id {seen : IdSet} {ids : List Nat} {nodes : List Node}
    (h : Shown seen ids nodes) (hsub : (nodes.map id).Sublist ids) {m m' : Node} (hm : m ∈ nodes)
    (hm' : m' ∈ nodes) (hid : m.id = m'.id) : m = m' := by
  refine List.inj_on_of_nodup_map (List.nodup_iff_count_le_one.mpr fun j => ?_) hm hm' hid
  by_cases hj : j ∈ nodes.map id
  · obtain ⟨m, hm, rfl⟩ := List.mem_map.mp hj
    exact (hsub.count_le _).trans (h.once m hm).le
  · rw [List.count_eq_zero.mpr hj]
    exact Nat.zero_le 1

/-- When a node has acted its children can be walked: what it claims are names. -/
theorem Shown.children {seen : IdSet} {n : Node} (h : Shown seen n.ids n.outer)
    (hshown : n.form.conceals = false) :
    Shown ((seen.insert n.id).insertAll n.claims) (idsParts n.parts) (outerParts n.parts) := by
  have houter : n.outer = n :: outerParts n.parts := by
    rw [outer_eq, hshown]
    rfl
  have hinner : ∀ m ∈ outerParts n.parts, m ∈ n.outer := fun m hm => by
    rw [houter]
    exact List.mem_cons_of_mem _ hm
  have hcount : ∀ m ∈ outerParts n.parts, (idsParts n.parts).count m.id = 1 ∧ n.id ≠ m.id := by
    intro m hm
    have hpos := List.count_pos_iff.mpr ((sublist_idsParts n.parts).subset (List.mem_map_of_mem hm))
    have hone := h.once m (hinner m hm)
    rw [ids_eq, List.count_cons] at hone
    split at hone
    · omega
    · next hne => exact ⟨hone, fun heq => hne (beq_iff_eq.mpr heq)⟩
  have hchildren : Shown seen (idsParts n.parts) (outerParts n.parts) :=
    ⟨fun m hm => (hcount m hm).1, fun m hm => h.leaf m (hinner m hm),
      fun m hm => h.skips m (hinner m hm)⟩
  refine ⟨hchildren.once, hchildren.leaf, fun m hm hcontains => ?_⟩
  rw [IdSet.contains_insertAll, IdSet.contains_insert, decide_eq_false (hcount m hm).2,
    Bool.or_false, Bool.or_eq_true, decide_eq_true_eq] at hcontains
  rcases hcontains with hcontains | hclaimed
  · exact hchildren.skips m hm hcontains
  · obtain ⟨⟨name, node, isLoop⟩, hbound, hid⟩ := List.mem_map.mp hclaimed
    obtain ⟨hform, hplace⟩ := mem_boundNames hbound
    have hself : ∀ c : Node, c ∈ c.outer := fun c => by simp [outer_eq]
    have hnode : node ∈ outerParts n.parts := by
      rcases hplace with hchild | ⟨target, htarget, harray, hchild⟩
      · exact outer_subset_of_child hchild (hself node)
      · refine outer_subset_of_child htarget ?_
        rw [outer_eq, harray]
        exact List.mem_cons_of_mem _ (outer_subset_of_child hchild (hself node))
    rw [hchildren.eq_of_id (sublist_idsParts n.parts) hm hnode hid.symm]
    exact hchildren.leaf node hnode (by simp [name?, hform])

mutual

/-- What a walk binds at a tree, around the scopes that it opens, can be told from the outline. -/
theorem boundIn_trace (n : Node) (seen : IdSet) (h : Shown seen n.ids n.outer) :
    boundIn (Walk.own (n.trace seen).1) = n.heldNames := by
  match n with
  | mk id span form parts =>
    rw [trace_mk]
    split
    · next hseen => exact (h.skips (mk id span form parts) List.mem_cons_self hseen).symm
    · rw [heldNames]
      split
      · next hopens =>
        obtain ⟨before, top, after, hevents, hbefore, hafter, hgiven⟩ :=
          exists_enter (n := mk id span form parts) hopens
        have hinner := (block_level hafter).append (block_traceParts parts
          ((seen.insert id).insertAll (mk id span form parts).claims))
        have hleave : form.after = [.leave] := if_pos hopens
        rw [hevents, hleave, List.append_assoc, List.append_assoc,
          Walk.own_append (block_level hbefore), List.cons_append, ← List.append_assoc,
          ← List.cons_append, own_scope top hinner, List.append_nil, boundIn_own_level hbefore,
          hgiven, List.append_nil]
        rfl
      · next hopens =>
        have hclosed : form.opensScope = false := Bool.eq_false_iff.mpr hopens
        have hlevel : Level (mk id span form parts).events :=
          (events_level_or_enter _).elim And.right fun h => absurd h.1 hopens
        have hquiet : boundIn (Walk.own form.after) = [] := by
          cases form <;> rfl
        have hinner := boundIn_traceParts parts _ (h.children (Form.conceals_of_opensScope hclosed))
        rw [Walk.own_append ((block_level hlevel).append (block_traceParts parts _)),
          Walk.own_append (block_level hlevel), boundIn_append, boundIn_append, hquiet,
          List.append_nil, boundIn_own_level hlevel,
          boundIn_events (n := mk id span form parts) hclosed, List.append_assoc]
        exact congrArg _ (congrArg _ hinner)

theorem boundIn_traceParts (parts : List (List Node)) (seen : IdSet)
    (h : Shown seen (idsParts parts) (outerParts parts)) :
    boundIn (Walk.own (traceParts parts seen).1) = heldNamesParts parts := by
  match parts with
  | [] => rfl
  | part :: parts =>
    obtain ⟨hfirst, hrest⟩ := h.split (sublist_idsPart part) (sublist_idsParts parts)
    rw [traceParts, heldNamesParts, Walk.own_append (block_tracePart part seen), boundIn_append,
      boundIn_tracePart part seen hfirst, boundIn_traceParts parts _
        (hrest _ fun j hj => contains_tracePart part seen hj)]

theorem boundIn_tracePart (part : List Node) (seen : IdSet)
    (h : Shown seen (idsPart part) (outerPart part)) :
    boundIn (Walk.own (tracePart part seen).1) = heldNamesPart part := by
  match part with
  | [] => rfl
  | n :: rest =>
    obtain ⟨hfirst, hrest⟩ := h.split (sublist_ids n) (sublist_idsPart rest)
    rw [tracePart, heldNamesPart, Walk.own_append (block_trace n seen), boundIn_append,
      boundIn_trace n seen hfirst, boundIn_tracePart rest _
        (hrest _ fun j hj => contains_trace n seen hj)]

end

/-- The scope of a module binds the names that the outline holds. -/
theorem mem_names_module {root : Node} (hroot : root.form = .module)
    (h : Shown .empty root.ids root.outer) {filename : String} {w : Walk}
    (hw : walk root filename = .ok w) : ∃ s, w.arena.scopes[0]? = some s ∧
      ∀ name, name ∈ s.bindings.names ↔ name ∈ heldNamesParts root.parts := by
  obtain ⟨id, span, form, parts⟩ := root
  cases hroot
  have hinner := boundIn_traceParts parts _ (h.children rfl)
  have hblock := block_traceParts parts
    ((IdSet.empty.insert id).insertAll (mk id span .module parts).claims)
  have htrace : ((mk id span .module parts).trace .empty).1 = enclosed []
      (traceParts parts ((IdSet.empty.insert id).insertAll (mk id span .module parts).claims)).1
      [] := by
    rw [trace_mk, IdSet.contains_empty, if_neg Bool.false_ne_true, enclosed, List.append_nil]
    rfl
  obtain ⟨hresolves, -⟩ := resolves_walk hw
  have hreplay := (walk_ok_iff.mp hw).1
  rw [htrace] at hresolves hreplay
  have hsize := (encloses_enclosed .nil hblock .nil hreplay).size
  obtain ⟨s, hs⟩ := Arena.exists_scope (Nat.zero_lt_of_lt hsize)
  refine ⟨s, hs, fun name => ?_⟩
  rw [NameTable.mem_names_iff, (hresolves.answers hs).tracks.bound, ← mem_boundIn,
    actions_module .nil hblock .nil hreplay]
  change name ∈ boundIn (Walk.own _ ++ []) ↔ _
  rw [List.append_nil]
  exact hinner ▸ Iff.rfl

end Node

/-! ## Modules with the same outline -/

theorem Node.Each.of_mem_outer {p : Span → Form → List Nat → Prop} {n m : Node} (h : Each p n)
    (hm : m ∈ n.outer) : Each p m := by
  induction h with
  | mk here inner ih =>
    rw [outer_eq] at hm
    rcases List.mem_cons.mp hm with rfl | hm
    · exact .mk here inner
    split at hm
    · cases hm
    · rw [outerParts_eq_flatMap] at hm
      obtain ⟨c, hc, hm⟩ := List.mem_flatMap.mp hm
      obtain ⟨part, hpart, hc⟩ := List.mem_flatten.mp hc
      exact ih part hpart c hc hm

theorem Node.Whole.shown {root : Node} (h : root.Whole) : Shown .empty root.ids root.outer := by
  have hdistinct : root.ids.Nodup := idsOf_occurrences [] root ▸ h.distinct
  refine ⟨fun m hm => ?_, fun m hm hname => ?_, fun m _ hseen => ?_⟩
  · exact List.count_eq_one_of_mem hdistinct ((sublist_ids root).subset (List.mem_map_of_mem hm))
  · obtain ⟨id, span, form, parts⟩ := m
    have hcomplete := (h.tree.of_mem_outer hm).here
    cases form with
    | name word =>
      have hparts : parts = [] := List.map_eq_nil_iff.mp (List.isEmpty_iff.mp hcomplete)
      rw [hparts]
      rfl
    | _ => cases hname
  · rw [IdSet.contains_empty] at hseen
    cases hseen

/-- In the scope of a whole module the names are bound by the constructs that stand in it. -/
theorem Node.Whole.mem_names_module {root : Node} (h : root.Whole) {filename : String} {w : Walk}
    (hw : walk root filename = .ok w) {s : Scope} (hs : w.arena.scopes[0]? = some s)
    {name : String} : name ∈ s.bindings.names ↔
      ∃ o ∈ root.occurrences [], o.home = some root.id ∧ name ∈ o.bound.map Prod.fst := by
  have hopener : root.openers[0]? = some ⟨root, []⟩ := by
    rw [openers, occurrences_eq,
      List.filter_cons_of_pos (p := fun o : Occurrence => o.node.form.opensScope) h.opensScope]
    rfl
  rw [NameTable.mem_names_iff, ((resolves_walk hw).1.answers hs).tracks.bound, ← mem_boundIn]
  have hperm := ((h.perm_actionsIn hw hopener).filterMap Event.bound?).map Prod.fst
  refine hperm.mem_iff.trans ?_
  rw [List.filterMap_flatMap, List.map_flatMap, List.mem_flatMap]
  simp only [inScope, List.mem_filter, decide_eq_true_eq, and_assoc]
  rfl

theorem Node.Shown.of_sameOutline {root root' : Node} (hshown : Shown .empty root.ids root.outer)
    (h : root.sameOutline root' = true)
    (honce : ∀ m ∈ root'.outer, root'.ids.count m.id = 1) :
    Shown .empty root'.ids root'.outer := by
  refine ⟨honce, fun m' hm' hname => ?_, fun m' _ hseen => ?_⟩
  · obtain ⟨m, hm, hsame⟩ := exists_outer_of_sameOutline root root' h hm'
    rw [← heldNames_of_sameOutline m m' hsame]
    exact hshown.leaf m hm (name?_of_sameOutline hsame ▸ hname)
  · rw [IdSet.contains_empty] at hseen
    cases hseen

theorem Builtins.moduleNames_of_walk {source : String} {root : Node} {w : Walk} {s : Scope}
    (hparse : parse source = .ok root) (hw : walk root "<baselib>" = .ok w)
    (hs : w.arena.scopes[0]? = some s) :
    moduleNames source = .ok ⟨s.bindings.names, w.notes⟩ := by
  unfold moduleNames
  simp only [hparse, hw, hs, Option.map_some, Option.getD_some]

/-- The names that a base library gives are those that constructs bind directly in the scope of the
module, and what is inside of its definitions, lambdas and comprehensions has no part in them: a
module with the same outline and other insides, which have no node in common with the outline,
binds the same names. -/
theorem insides_bind_no_builtins {source : String} {root : Node} (hparse : parse source = .ok root)
    (filename : String) : ∃ loaded w s, Builtins.moduleNames source = .ok loaded ∧
      walk root filename = .ok w ∧ w.arena.scopes[0]? = some s ∧
      (∀ name, name ∈ loaded.names ↔ name ∈ s.bindings.names) ∧
      (∀ name, name ∈ loaded.names ↔
        ∃ o ∈ root.occurrences [], o.home = some root.id ∧ name ∈ o.bound.map Prod.fst) ∧
      ∀ root', root.sameOutline root' = true →
        (∀ m ∈ root'.outer, root'.ids.count m.id = 1) →
        ((∀ p ∈ root'.preorder 0, p.2.form.namesImport = true) →
          ∃ w', walk root' filename = .ok w') ∧
        ∀ w', walk root' filename = .ok w' → ∃ s', w'.arena.scopes[0]? = some s' ∧
          ∀ name, name ∈ s'.bindings.names ↔ name ∈ s.bindings.names := by
  have hwhole := Node.whole_parse hparse
  have hshown := hwhole.shown
  obtain ⟨w, hw⟩ := walk_parse_ok hparse filename
  obtain ⟨v, hv⟩ := walk_parse_ok hparse "<baselib>"
  obtain ⟨s, hs, hnames⟩ := Node.mem_names_module hwhole.isModule hshown hw
  obtain ⟨t, ht, hloaded⟩ := Node.mem_names_module hwhole.isModule hshown hv
  refine ⟨_, w, s, Builtins.moduleNames_of_walk hparse hv ht, hw, hs,
    fun name => (hloaded name).trans (hnames name).symm,
    fun name => hwhole.mem_names_module hv ht, fun root' houtline honce => ?_⟩
  obtain ⟨hform, hparts⟩ := Node.sameOutline_iff.mp houtline
  have hmodule : root'.form = .module := by
    rw [← Form.unplaced_eq_module, ← hform, Form.unplaced_eq_module, hwhole.isModule]
  refine ⟨fun himports => walk_module_ok hmodule himports filename, fun w' hw' => ?_⟩
  obtain ⟨s', hs', hnames'⟩ :=
    Node.mem_names_module hmodule (hshown.of_sameOutline houtline honce) hw'
  have hheld : Node.heldNamesParts root.parts = Node.heldNamesParts root'.parts :=
    Node.heldNamesParts_of_sameOutline _ _ (hparts (by rw [hwhole.isModule]; rfl))
  exact ⟨s', hs', fun name => by rw [hnames, hnames', hheld]⟩

/-- A library with a definition, and with a comprehension in a loop. -/
def library : String := "def f(a): g = a\nfor i in f: y = [j for j in i]\n"

/-- Its outline with other insides. -/
def otherLibrary : String := "@c\ndef f(): import m\nfor i in f: y = [k for k in f if k]\n"

theorem names_of_library : ∃ root root' loaded w s w' s', parse library = .ok root ∧
    parse otherLibrary = .ok root' ∧ root.sameOutline root' = true ∧
    (∀ m ∈ root'.outer, root'.ids.count m.id = 1) ∧
    Builtins.moduleNames library = .ok loaded ∧ loaded.names = ["f", "i", "y"] ∧
    walk root "m" = .ok w ∧ w.arena.scopes[0]? = some s ∧
    walk root' "m" = .ok w' ∧ w'.arena.scopes[0]? = some s' ∧
    (∀ name, name ∈ loaded.names ↔
      ∃ o ∈ root.occurrences [], o.home = some root.id ∧ name ∈ o.bound.map Prod.fst) ∧
    ∀ name, name ∈ s'.bindings.names ↔ name ∈ s.bindings.names := by
  have hfacts : (parse library).toOption.map (fun root => (parse otherLibrary).toOption.map
      fun root' => root.sameOutline root' &&
        root'.outer.all (fun m => root'.ids.count m.id = 1) &&
        (root'.preorder 0).all fun p => p.2.form.namesImport) = some (some true) := by
    decide +kernel
  have hgiven : (Builtins.moduleNames library).toOption.map Builtins.Loaded.names =
      some ["f", "i", "y"] := by
    decide +kernel
  obtain ⟨root, hparse, hfacts⟩ := parsed_of_map hfacts
  obtain ⟨root', hparse', hfacts⟩ := parsed_of_map hfacts
  simp only [Bool.and_eq_true, List.all_eq_true, decide_eq_true_eq] at hfacts
  obtain ⟨⟨houtline, honce⟩, himports⟩ := hfacts
  obtain ⟨loaded, w, s, hloaded, hw, hs, _, hnames, hsame⟩ := insides_bind_no_builtins hparse "m"
  obtain ⟨hexists, hsame⟩ := hsame root' houtline honce
  obtain ⟨w', hw'⟩ := hexists himports
  obtain ⟨s', hs', hsame⟩ := hsame w' hw'
  rw [hloaded] at hgiven
  exact ⟨root, root', loaded, w, s, w', s', hparse, hparse', houtline, honce, hloaded,
    Option.some.inj hgiven, hw, hs, hw', hs', hnames, hsame⟩

end ScopeLint
