import ScopeLint.Proofs.AtomMeaning
import ScopeLint.Proofs.SourceOrder

/-! # Identifiers of a module

The names of a module are the tokens that its derivation takes for names, each spelt and placed as
the token is. Names and literals are visited in the order of the source, except that a
comprehension, which is written from its element on, is visited from its target on. -/
namespace ScopeLint

/-- The kinds of tokens that are names and literals by themselves. -/
def Kind.isAtom : Kind → Bool
  | .name | .number | .string | .longString | .noneWord | .trueWord | .falseWord => true
  | _ => false

namespace Grammar

theorem Production.sublist_atoms {r : Rule} (p : Production r) (hrole : p.role = .atom)
    (children : Forest p.symbols) :
    (children.tokens.take 1).Sublist (children.tokens.filter (·.kind.isAtom)) := by
  cases p with
  | atomName | atomNumber | atomString | atomLongString | atomNone | atomTrue | atomFalse =>
    match children with
    | .cons (.leaf t fits) tail =>
      have hatom : t.kind.isAtom = true := by rw [fits]; rfl
      exact List.singleton_sublist.mpr (List.mem_filter.mpr ⟨List.mem_cons_self, hatom⟩)
  | _ => cases hrole

mutual

theorem Tree.sublist_atoms {s : Symbol} (t : Tree s) :
    t.atoms.Sublist (t.tokens.filter (·.kind.isAtom)) := by
  match t with
  | .leaf _ _ => exact List.nil_sublist _
  | .node p children =>
    rw [Tree.atoms, Tree.tokens]
    cases hrole : p.role with
    | atom => exact p.sublist_atoms hrole children
    | argument => exact (Forest.sublist_atoms children).2
    | plain => exact (Forest.sublist_atoms children).1

theorem Forest.sublist_atoms {ss : List Symbol} (f : Forest ss) :
    f.atoms.Sublist (f.tokens.filter (·.kind.isAtom)) ∧
      f.argumentAtoms.Sublist (f.tokens.filter (·.kind.isAtom)) := by
  match f with
  | .nil => exact ⟨.refl _, .refl _⟩
  | .cons head tail =>
    have hhead := Tree.sublist_atoms head
    have htail := (Forest.sublist_atoms tail).1
    rw [Forest.atoms, Forest.argumentAtoms, Forest.tokens, List.filter_append]
    refine ⟨hhead.append htail, List.Sublist.append ?_ htail⟩
    split
    · exact hhead
    · exact (List.drop_sublist _ _).trans hhead

end

/-- The atoms of a source start one after the other. -/
theorem pairwise_atoms {text : List Char} {tree : Tree (.rule .file)}
    (h : read (tokenize text).tokens = .ok tree) : tree.atoms.Pairwise Token.Precedes := by
  have hsublist := tree.sublist_atoms
  rw [read_eq_ok_iff.mp h] at hsublist
  have hadded : ∀ kind : Kind, kind = .separator ∨ kind.isAdded = true → kind.isAtom = false := by
    intro kind hkind
    cases kind with
    | name | number | string | longString | noneWord | trueWord | falseWord =>
      simp [Kind.isAdded] at hkind
    | _ => rfl
  exact (pairwise_filter_tokenize (fun t => hadded t.kind) text).sublist hsublist

end Grammar

theorem start_atom (t : Token) : t.atom.start = some t.start := by
  unfold Token.atom
  split <;> rfl

/-- A module shows the atoms of its derivation. -/
theorem atoms_of_parse {source : String} {root : Node} (h : parse source = .ok root) :
    ∃ tree, Grammar.read (tokenize (endLine source.toList)).tokens = .ok tree ∧
      root.atoms = tree.atoms.map Token.atom := by
  obtain ⟨tree, node, hread, hnode, rfl⟩ := read_of_parse h
  have hshows : Grammar.Single (tree.atoms.map Token.atom) tree.meaning.value := tree.shows_meaning
  exact ⟨tree, hread, (Node.atoms_numberFrom 0 node).trans (hshows node hnode)⟩

/-- Leaves start one after the other if the tokens that they show do. -/
theorem pairwise_leaves {n : Node} {tokens : List Token} (hn : n.WellFormed)
    (hatoms : n.atoms = tokens.map Token.atom) (htokens : tokens.Pairwise Token.Precedes) :
    n.leaves.Pairwise fun a b => a.span.StartsBefore b.span := by
  have hstarts : n.atoms.Pairwise fun x y =>
      ∃ p q, x.start = some p ∧ y.start = some q ∧ p.Before q := by
    rw [hatoms, List.pairwise_map]
    exact htokens.imp fun {t u} h => ⟨t.start, u.start, start_atom t, start_atom u, h⟩
  refine (List.pairwise_filterMap.mp hstarts).imp_of_mem fun {a b} ha hb hab => ?_
  obtain ⟨x, hx⟩ := Option.isSome_iff_exists.mp ((Node.mem_leaves hn).mp ha).2
  obtain ⟨y, hy⟩ := Option.isSome_iff_exists.mp ((Node.mem_leaves hn).mp hb).2
  rw [Span.StartsBefore, Node.start_of_atom? hx, Node.start_of_atom? hy]
  exact hab x hx y hy

theorem filterMap_identifier? (tokens : List Token) :
    (tokens.map Token.atom).filterMap Atom.identifier? =
      (tokens.filter fun t => t.kind = .name).map fun t => (t.text, t.span) := by
  induction tokens with
  | nil => rfl
  | cons t tokens ih =>
    by_cases hname : t.kind = .name
    · have hatom : t.atom = .name t.text t.span := if_pos hname
      rw [List.filter_cons_of_pos (by simpa using hname), List.map_cons, List.map_cons, ← ih, hatom]
      rfl
    · have hatom : t.atom = .literal (some t.start) := if_neg hname
      rw [List.filter_cons_of_neg (by simpa using hname), List.map_cons, ← ih, hatom]
      rfl

/-- The names of a module are those of its derivation, and it visits names and literals as they are
written, except that a comprehension visits its target, iterable and condition before its element
and value. -/
theorem parse_keeps_identifiers {source : String} {root : Node} (h : parse source = .ok root) :
    ∃ tree, Grammar.read (tokenize (endLine source.toList)).tokens = .ok tree ∧
      (root.nodes.filterMap Node.identifier?).Perm
        (tree.variables.map fun t => (t.text, t.span)) ∧
      (root.nodes.filter Node.isAtom).Pairwise fun a b =>
        (root.Swaps a b → b.span.StartsBefore a.span) ∧
          (¬ root.Swaps a b → a.span.StartsBefore b.span) := by
  obtain ⟨tree, hread, hatoms⟩ := atoms_of_parse h
  have hwell := (wellFormed_parse h).2
  have hleaves := pairwise_leaves hwell hatoms (Grammar.pairwise_atoms hread)
  refine ⟨tree, hread, ?_, ?_⟩
  · rw [Grammar.Tree.variables, ← filterMap_identifier?, ← hatoms, Node.filterMap_atoms,
      ← Node.filterMap_identifier?]
    exact ((Node.perm_leaves hwell).filterMap _).symm
  · refine (Node.pairwise_visited hwell hleaves).imp_of_mem fun {a b} ha hb hab => ?_
    refine ⟨fun hswaps => ?_, hab.resolve_left⟩
    exact Node.written_of_swaps hwell hleaves hswaps (List.of_mem_filter ha) (List.of_mem_filter hb)

/-- A comprehension that is passed by name. -/
def collected : String := "f(x, key=[a + 1 for a in b if c])\n"

theorem parse_keeps_identifiers_of_collected :
    ∃ root tree, parse collected = .ok root ∧
      (root.nodes.filterMap Node.identifier?).map (fun entry => (entry.1, entry.2.start)) =
        [("f", some ⟨1, 0⟩), ("x", some ⟨1, 2⟩), ("a", some ⟨1, 20⟩), ("b", some ⟨1, 25⟩),
          ("c", some ⟨1, 30⟩), ("a", some ⟨1, 10⟩)] ∧
      Grammar.read (tokenize (endLine collected.toList)).tokens = .ok tree ∧
      (root.nodes.filterMap Node.identifier?).Perm
        (tree.variables.map fun t => (t.text, t.span)) ∧
      (root.nodes.filter Node.isAtom).Pairwise fun a b =>
        (root.Swaps a b → b.span.StartsBefore a.span) ∧
          (¬ root.Swaps a b → a.span.StartsBefore b.span) := by
  have hnames : (parse collected).toOption.map (fun root =>
      (root.nodes.filterMap Node.identifier?).map fun entry => (entry.1, entry.2.start)) =
      some [("f", some ⟨1, 0⟩), ("x", some ⟨1, 2⟩), ("a", some ⟨1, 20⟩), ("b", some ⟨1, 25⟩),
        ("c", some ⟨1, 30⟩), ("a", some ⟨1, 10⟩)] := by decide +kernel
  obtain ⟨root, hparse, hnames⟩ := parsed_of_map hnames
  obtain ⟨tree, hread, hperm, horder⟩ := parse_keeps_identifiers hparse
  exact ⟨root, tree, hparse, hnames, hread, hperm, horder⟩

end ScopeLint
