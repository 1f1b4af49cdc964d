import Mathlib.Data.List.Perm.Basic
import ScopeLint.Proofs.WellFormed

/-! # Names and literals of a tree

The atoms of a tree are its names and its literals. They are visited in the order in which they are
written, but for one form: a comprehension is written from its element on and visited from its
target on. `leaves` has them as they are written, `nodes` has everything as it is visited, and
`pairwise_visited` says how the two orders differ. -/
namespace ScopeLint

/-- What an atom shows of the source: how a name is spelt and where it stands, or where a literal
begins. -/
inductive Atom where
  | name (word : String) (span : Span)
  | literal (start : Option Position)
deriving DecidableEq

def Atom.start : Atom → Option Position
  | .name _ span => span.start
  | .literal start => start

def Atom.identifier? : Atom → Option (String × Span)
  | .name word span => some (word, span)
  | .literal _ => none

/-- Parts as they are written. -/
def Form.written {α : Type} (form : Form) (parts : List α) : List α :=
  if form = .comprehension then parts.drop 3 ++ parts.take 3 else parts

/-- A form that is no atom and whose parts are written as they are visited. -/
def Form.isPlain : Form → Bool
  | .name _ | .literal _ | .comprehension => false
  | _ => true

theorem Form.written_map {α β : Type} (form : Form) (f : α → β) (parts : List α) :
    form.written (parts.map f) = (form.written parts).map f := by
  unfold written
  split
  · rw [List.map_append, List.map_drop, List.map_take]
  · rfl

theorem Form.counts_of_comprehension {counts : List Nat}
    (h : Form.comprehension.fits counts = true) :
    ∃ condition value, counts = [1, 1, condition, 1, value] := by
  rcases counts with _ | ⟨_ | _ | _, _ | ⟨_ | _ | _, _ | ⟨condition, _ | ⟨_ | _ | _, _ |
    ⟨value, _ | ⟨_, _⟩⟩⟩⟩⟩⟩ <;> first | cases h | exact ⟨condition, value, rfl⟩

namespace Node

/-- What a node shows if it is an atom. -/
def atom? (n : Node) : Option Atom :=
  match n.form with
  | .name word => some (.name word n.span)
  | .literal _ => some (.literal n.span.start)
  | _ => none

/-- How a name is spelt and where it stands. -/
def identifier? (n : Node) : Option (String × Span) :=
  match n.form with
  | .name word => some (word, n.span)
  | _ => none

def isAtom (n : Node) : Bool := n.atom?.isSome

/-- Every node of a tree, as it is visited. -/
def nodes (n : Node) : List Node := (n.preorder 0).map Prod.snd

mutual

/-- The atoms of a tree as they are written. -/
def leaves : Node → List Node
  | mk id span form parts =>
    [mk id span form parts].filter isAtom ++ (form.written (leavesParts parts)).flatten

def leavesParts : List (List Node) → List (List Node)
  | [] => []
  | part :: parts => leavesPart part :: leavesParts parts

def leavesPart : List Node → List Node
  | [] => []
  | n :: rest => leaves n ++ leavesPart rest

end

/-- What the atoms of a tree show, as they are written. -/
def atoms (n : Node) : List Atom := n.leaves.filterMap atom?

/-- The children as they are written. -/
def written (n : Node) : List Node := (n.form.written n.parts).flatten

/-! ## One node and its children -/

theorem leavesPart_eq (part : List Node) : leavesPart part = part.flatMap leaves := by
  induction part with
  | nil => rfl
  | cons n rest ih => rw [leavesPart, ih, List.flatMap_cons]

theorem leavesParts_eq (parts : List (List Node)) :
    leavesParts parts = parts.map (List.flatMap leaves) := by
  induction parts with
  | nil => rfl
  | cons part rest ih => rw [leavesParts, ih, leavesPart_eq, List.map_cons]

theorem flatMap_written {α : Type} (n : Node) (f : Node → List α) :
    n.written.flatMap f = (n.form.written (n.parts.map (List.flatMap f))).flatten := by
  rw [Form.written_map, ← List.flatMap_def, written, ← List.flatMap_id, List.flatMap_assoc]
  rfl

theorem leaves_eq (n : Node) : n.leaves = [n].filter isAtom ++ n.written.flatMap leaves := by
  obtain ⟨id, span, form, parts⟩ := n
  rw [leaves, leavesParts_eq, flatMap_written]
  rfl

theorem atoms_eq (n : Node) : n.atoms = n.atom?.toList ++ n.written.flatMap atoms := by
  rw [atoms, leaves_eq, List.filterMap_append, List.filterMap_flatMap]
  congr 1
  cases h : n.atom? with
  | none => simp [isAtom, h]
  | some atom => simp [isAtom, h]

/-- The atoms of a node that is none and whose parts are written as they are visited. -/
theorem atoms_make {span : Span} {form : Form} {parts : List (List Node)}
    (h : form.isPlain = true) : (make span form parts).atoms = parts.flatten.flatMap atoms := by
  rw [atoms_eq]
  cases form with
  | name | literal | comprehension => cases h
  | _ => rfl

theorem start_of_atom? {n : Node} {atom : Atom} (h : n.atom? = some atom) :
    n.span.start = atom.start := by
  unfold atom? at h
  split at h <;> cases h <;> rfl

theorem filterMap_identifier? (ns : List Node) :
    (ns.filter isAtom).filterMap identifier? = ns.filterMap identifier? := by
  rw [List.filterMap_filter]
  congr 1
  funext n
  obtain ⟨id, span, form, parts⟩ := n
  cases form <;> rfl

theorem filterMap_atoms (n : Node) :
    n.atoms.filterMap Atom.identifier? = n.leaves.filterMap identifier? := by
  rw [atoms, List.filterMap_filterMap]
  congr 1
  funext n
  obtain ⟨id, span, form, parts⟩ := n
  cases form <;> rfl

mutual

theorem map_preorder (depth : Nat) (n : Node) : (n.preorder depth).map Prod.snd = n.nodes := by
  match n with
  | .mk id span form parts =>
    rw [nodes, preorder, preorder, List.map_cons, List.map_cons, map_preorderParts,
      map_preorderParts]

theorem map_preorderParts (depth : Nat) (parts : List (List Node)) :
    (preorderParts depth parts).map Prod.snd = parts.flatten.flatMap nodes := by
  match parts with
  | [] => rfl
  | part :: rest =>
    rw [preorderParts, List.map_append, map_preorderPart, map_preorderParts, List.flatten_cons,
      List.flatMap_append]

theorem map_preorderPart (depth : Nat) (part : List Node) :
    (preorderPart depth part).map Prod.snd = part.flatMap nodes := by
  match part with
  | [] => rfl
  | n :: rest =>
    rw [preorderPart, List.map_append, map_preorder, map_preorderPart, List.flatMap_cons]

end

theorem nodes_eq (n : Node) : n.nodes = [n] ++ n.children.flatMap nodes := by
  obtain ⟨id, span, form, parts⟩ := n
  rw [nodes, preorder, List.map_cons, map_preorderParts]
  rfl

mutual

theorem atoms_numberFrom (next : Nat) (n : Node) : (n.numberFrom next).1.atoms = n.atoms := by
  match n with
  | .mk id span form parts =>
    rw [atoms_eq, atoms_eq, flatMap_written, flatMap_written]
    exact congrArg (fun rows => (mk id span form parts).atom?.toList ++ (form.written rows).flatten)
      (atoms_numberParts (next + 1) parts)

theorem atoms_numberParts (next : Nat) (parts : List (List Node)) :
    (numberParts next parts).1.map (List.flatMap atoms) = parts.map (List.flatMap atoms) := by
  match parts with
  | [] => rfl
  | part :: rest =>
    rw [numberParts, List.map_cons, List.map_cons, atoms_numberPart, atoms_numberParts]

theorem atoms_numberPart (next : Nat) (part : List Node) :
    (numberPart next part).1.flatMap atoms = part.flatMap atoms := by
  match part with
  | [] => rfl
  | n :: rest =>
    rw [numberPart, List.flatMap_cons, List.flatMap_cons, atoms_numberFrom, atoms_numberPart]

end

theorem perm_written (n : Node) : n.written.Perm n.children := by
  unfold written children Form.written
  split
  · have hswap : (n.parts.drop 3 ++ n.parts.take 3).Perm (n.parts.take 3 ++ n.parts.drop 3) :=
      List.perm_append_comm
    rw [List.take_append_drop] at hswap
    exact hswap.flatten
  · exact .refl _

/-! ## Whole trees -/

section

variable {n m a b : Node}

theorem WellFormed.of_mem_nodes (h : n.WellFormed) (hm : m ∈ n.nodes) : m.WellFormed := by
  obtain ⟨p, hp, rfl⟩ := List.mem_map.mp hm
  exact h.of_mem_preorder hp

theorem WellFormed.children (h : n.WellFormed) (hm : m ∈ n.children) : m.WellFormed :=
  wellFormed_iff.mpr ((wellFormed_iff.mp h).children hm)

@[elab_as_elim]
theorem WellFormed.inductionOn {motive : (n : Node) → n.WellFormed → Prop} (h : n.WellFormed)
    (step : ∀ (n : Node) (hn : n.WellFormed),
      (∀ c (hc : c ∈ n.children), motive c (hn.children hc)) → motive n hn) : motive n h := by
  induction h with
  | mk fits inner ih =>
    refine step _ (.mk fits inner) fun c hc => ?_
    obtain ⟨part, hpart, hc⟩ := List.mem_flatten.mp hc
    exact ih part hpart c hc

theorem perm_leaves (h : n.WellFormed) : n.leaves.Perm (n.nodes.filter isAtom) := by
  induction h using WellFormed.inductionOn with
  | step n _ ih =>
    rw [leaves_eq, nodes_eq, List.filter_append, List.filter_flatMap]
    refine List.Perm.append_left _ ((perm_written n).flatMap fun c hc => ?_)
    exact ih c ((perm_written n).mem_iff.mp hc)

theorem mem_leaves (h : n.WellFormed) : a ∈ n.leaves ↔ a ∈ n.nodes ∧ a.isAtom = true :=
  (perm_leaves h).mem_iff.trans List.mem_filter

theorem sublist_leaves (hm : m ∈ n.children) : m.leaves.Sublist n.leaves := by
  rw [n.leaves_eq, List.flatMap_def]
  refine List.Sublist.trans (List.sublist_flatten_of_mem ?_) (List.sublist_append_right _ _)
  exact List.mem_map_of_mem ((perm_written n).mem_iff.mpr hm)

theorem mem_nodes_of_child {c : Node} (hc : c ∈ n.children) (hm : m ∈ c.nodes) : m ∈ n.nodes := by
  rw [n.nodes_eq]
  exact List.mem_append_right _ (List.mem_flatMap.mpr ⟨c, hc, hm⟩)

theorem sublist_leaves_of_mem (h : n.WellFormed) (hm : m ∈ n.nodes) :
    m.leaves.Sublist n.leaves := by
  induction h using WellFormed.inductionOn with
  | step n _ ih =>
    rw [nodes_eq] at hm
    rcases List.mem_append.mp hm with hm | hm
    · rw [List.mem_singleton.mp hm]
    · obtain ⟨c, hc, hm⟩ := List.mem_flatMap.mp hm
      exact (ih c hc hm).trans (sublist_leaves hc)

/-! ## The two orders -/

/-- The first node is in the target, the iterable or the condition of a comprehension and the second
in its element or value, so the first is visited before the second and written after it. -/
def Swaps (root a b : Node) : Prop :=
  ∃ m ∈ root.nodes, m.form = .comprehension ∧
    ∃ target iterable condition element value,
      m.parts = [[target], [iterable], condition, [element], value] ∧
      a ∈ (target :: iterable :: condition).flatMap nodes ∧ b ∈ (element :: value).flatMap nodes

theorem WellFormed.comprehension (h : n.WellFormed) (hform : n.form = .comprehension) :
    ∃ target iterable condition element value,
      n.parts = [[target], [iterable], condition, [element], value] := by
  have hfits := h.fits
  rw [hform] at hfits
  obtain ⟨_, _, hcounts⟩ := Form.counts_of_comprehension hfits
  simp only [List.map_eq_cons_iff, List.map_eq_nil_iff, List.length_eq_one_iff] at hcounts
  obtain ⟨_, _, hparts, ⟨target, rfl⟩, _, _, rfl, ⟨iterable, rfl⟩, condition, _, rfl, _, _, _, rfl,
    ⟨element, rfl⟩, value, _, rfl, _, rfl⟩ := hcounts
  exact ⟨target, iterable, condition, element, value, hparts⟩

variable {R : Node → Node → Prop}

theorem written_comprehension {target iterable element : Node} {condition value : List Node}
    (hform : n.form = .comprehension)
    (hparts : n.parts = [[target], [iterable], condition, [element], value]) :
    n.written = element :: value ++ target :: iterable :: condition := by
  simp [written, hform, hparts, Form.written]

theorem mem_flatMap_leaves {ns : List Node} (hns : ∀ c ∈ ns, c.WellFormed)
    (ha : a ∈ ns.flatMap nodes) (hatom : a.isAtom = true) : a ∈ ns.flatMap leaves := by
  obtain ⟨c, hc, ha⟩ := List.mem_flatMap.mp ha
  exact List.mem_flatMap.mpr ⟨c, hc, (mem_leaves (hns c hc)).mpr ⟨ha, hatom⟩⟩

/-- A pair that a comprehension swaps is written the other way round. -/
theorem written_of_swaps (h : n.WellFormed) (hn : n.leaves.Pairwise R) (hab : n.Swaps a b)
    (ha : a.isAtom = true) (hb : b.isAtom = true) : R b a := by
  obtain ⟨m, hm, hform, target, iterable, condition, element, value, hparts, hina, hinb⟩ := hab
  have hwritten := written_comprehension hform hparts
  have hinner : ∀ c ∈ element :: value ++ target :: iterable :: condition, c.WellFormed := by
    intro c hc
    rw [← hwritten] at hc
    exact (h.of_mem_nodes hm).children ((perm_written m).mem_iff.mp hc)
  have hleaves := hn.sublist (sublist_leaves_of_mem h hm)
  rw [leaves_eq, hwritten, List.flatMap_append] at hleaves
  have hcross := (List.pairwise_append.mp (List.pairwise_append.mp hleaves).2.1).2.2
  refine hcross b (mem_flatMap_leaves (fun c hc => hinner c ?_) hinb hb) a
    (mem_flatMap_leaves (fun c hc => hinner c ?_) hina ha)
  · exact List.mem_append_left _ hc
  · exact List.mem_append_right _ hc

theorem Swaps.of_child {c : Node} (hc : c ∈ n.children) (h : c.Swaps a b) : n.Swaps a b := by
  obtain ⟨m, hm, hrest⟩ := h
  exact ⟨m, mem_nodes_of_child hc hm, hrest⟩

/-- Children that are written in order are visited in order, or swapped. -/
theorem pairwise_children (h : n.WellFormed) {S : Node → Node → Prop}
    (hn : n.written.Pairwise S) :
    n.children.Pairwise fun x y => S x y ∨ ∀ a ∈ x.nodes, ∀ b ∈ y.nodes, n.Swaps a b := by
  by_cases hform : n.form = .comprehension
  · obtain ⟨target, iterable, condition, element, value, hparts⟩ := h.comprehension hform
    have hchildren : n.children = target :: iterable :: condition ++ element :: value := by
      simp [children, hparts]
    rw [written_comprehension hform hparts] at hn
    obtain ⟨hlater, hearlier, _⟩ := List.pairwise_append.mp hn
    rw [hchildren, List.pairwise_append]
    refine ⟨hearlier.imp .inl, hlater.imp .inl, fun x hx y hy => .inr fun a ha b hb => ?_⟩
    have hself : n ∈ n.nodes := by simp [n.nodes_eq]
    exact ⟨n, hself, hform, target, iterable, condition, element, value, hparts,
      List.mem_flatMap.mpr ⟨x, hx, ha⟩, List.mem_flatMap.mpr ⟨y, hy, hb⟩⟩
  · rw [written, Form.written, if_neg hform] at hn
    exact hn.imp .inl

/-- What is written in order is visited in order, but for what a comprehension swaps. -/
theorem pairwise_visited (h : n.WellFormed) (hn : n.leaves.Pairwise R) :
    (n.nodes.filter isAtom).Pairwise fun a b => n.Swaps a b ∨ R a b := by
  induction h using WellFormed.inductionOn with
  | step n h ih =>
    have hleaves := hn
    rw [leaves_eq] at hleaves
    obtain ⟨_, hwritten, hfirst⟩ := List.pairwise_append.mp hleaves
    rw [nodes_eq, List.filter_append, List.filter_flatMap, List.pairwise_append,
      List.pairwise_flatMap]
    refine ⟨(List.pairwise_singleton _ _).sublist List.filter_sublist, ⟨?_, ?_⟩, ?_⟩
    · intro c hc
      exact (ih c hc (hn.sublist (sublist_leaves hc))).imp (Or.imp_left (.of_child hc))
    · refine (pairwise_children h (List.pairwise_flatMap.mp hwritten).2).imp_of_mem ?_
      intro x y hx hy hxy a ha b hb
      rcases hxy with hxy | hswaps
      · exact .inr (hxy a ((perm_leaves (h.children hx)).mem_iff.mpr ha) b
          ((perm_leaves (h.children hy)).mem_iff.mpr hb))
      · exact .inl (hswaps a (List.mem_of_mem_filter ha) b (List.mem_of_mem_filter hb))
    · intro a ha b hb
      obtain ⟨c, hc, hb⟩ := List.mem_flatMap.mp hb
      refine .inr (hfirst a ha b (List.mem_flatMap.mpr ⟨c, (perm_written n).mem_iff.mpr hc, ?_⟩))
      exact (perm_leaves (h.children hc)).mem_iff.mpr hb

end

end Node
end ScopeLint
