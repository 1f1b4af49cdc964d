import ScopeLint.Proofs.Balance

/-! # Well-formed syntax trees

What a form says about the parts of its node: how many there are, which of them
hold one child and which at most one. A tree is well-formed if every node in it
has the parts that its form calls for. -/
namespace ScopeLint

/-- Whether a node of this form may have parts with so many children each. -/
def Form.fits : Form → (counts : List Nat) → Bool
  | .module, [_] => true
  | .name _, [] | .importedName .., [] | .literal _, [] => true
  | .empty _, [] | .breakStmt, [] | .continueStmt, [] => true
  | .importModule path _ _, [] => !path.isEmpty
  | .declaration _ names, [] => !names.isEmpty
  | .importMembers path, [members] => !path.isEmpty && 0 < members
  | .param .., [default] => default ≤ 1
  | .varDef .., [value] => value ≤ 1
  | .returnStmt, [value] | .raiseStmt, [value] => value ≤ 1
  | .decorator _, [_] | .delStmt, [_] | .boolOp _, [_] | .array, [_] => true
  | .exprStmt, [1] | .keywordArg _, [1] | .attribute _, [1] | .unaryOp _, [1] => true
  | .functionDef .., [_, _, _] | .classDef .., [_, _, _] => true
  | .lambda, [_, 1] => true
  | .assign _, [1, 1] | .subscript, [1, 1] | .binOp _, [1, 1] => true
  | .withBlock, [items, _] => 0 < items
  | .assertStmt, [1, message] => message ≤ 1
  | .call, [1, _] => true
  | .slice, [lower, upper] => lower ≤ 1 && upper ≤ 1
  | .compare ops, [1, operands] => operands = ops.length
  | .ifBranch, [1, _, _] | .whileLoop, [1, _, _] | .ternary, [1, 1, 1] => true
  | .handler, [type, binder, _] => type ≤ 1 && binder ≤ 1
  | .forIn, [1, 1, _, _] | .tryBlock, [_, _, _, _] => true
  | .comprehension, [1, 1, condition, 1, value] => condition ≤ 1 && value ≤ 1
  | .dict, counts => counts.all (· = 2)
  | _, _ => false

theorem Form.namesImport_of_fits {form : Form} {counts : List Nat}
    (h : form.fits counts = true) : form.namesImport = true := by
  cases form with
  | importModule path asName asSpan =>
    cases path with
    | nil => cases counts <;> exact absurd h Bool.false_ne_true
    | cons first rest => simp [namesImport]
  | _ => rfl

namespace Node

/-- A fact of every node of a tree: of where it stands, of its form, and of how many children its
parts have. -/
inductive Each (P : Span → Form → List Nat → Prop) : Node → Prop where
  | mk {id : Nat} {span : Span} {form : Form} {parts : List (List Node)}
    (here : P span form (parts.map List.length))
    (inner : ∀ part ∈ parts, ∀ n ∈ part, Each P n) : Each P (.mk id span form parts)

/-- Every node of the tree has the parts that its form calls for. -/
inductive WellFormed : Node → Prop where
  | mk {id : Nat} {span : Span} {form : Form} {parts : List (List Node)}
    (fits : form.fits (parts.map List.length) = true)
    (inner : ∀ part ∈ parts, ∀ n ∈ part, WellFormed n) : WellFormed (.mk id span form parts)

theorem wellFormed_iff {n : Node} :
    n.WellFormed ↔ n.Each fun _ form counts => form.fits counts = true := by
  constructor
  · intro h
    induction h with
    | mk fits _ ih => exact .mk fits ih
  · intro h
    induction h with
    | mk here _ ih => exact .mk here ih

theorem WellFormed.fits {n : Node} (h : n.WellFormed) :
    n.form.fits (n.parts.map List.length) = true := by
  cases h with
  | mk fits _ => exact fits

theorem mem_preorderPart {depth : Nat} {p : Nat × Node} {part : List Node} :
    p ∈ preorderPart depth part ↔ ∃ n ∈ part, p ∈ n.preorder depth := by
  induction part with
  | nil => simp [preorderPart]
  | cons n rest ih => simp [preorderPart, ih]

theorem mem_preorderParts {depth : Nat} {p : Nat × Node} {parts : List (List Node)} :
    p ∈ preorderParts depth parts ↔ ∃ part ∈ parts, ∃ n ∈ part, p ∈ n.preorder depth := by
  induction parts with
  | nil => simp [preorderParts]
  | cons part rest ih => simp [preorderParts, ih, mem_preorderPart]

section Each

variable {P Q : Span → Form → List Nat → Prop} {n : Node}

theorem Each.here (h : n.Each P) : P n.span n.form (n.parts.map List.length) := by
  cases h with
  | mk here _ => exact here

theorem Each.children (h : n.Each P) {c : Node} (hc : c ∈ n.children) : c.Each P := by
  cases h with
  | mk _ inner =>
    obtain ⟨part, hpart, hc⟩ := List.mem_flatten.mp hc
    exact inner part hpart c hc

theorem Each.imp (h : n.Each P)
    (hPQ : ∀ span form counts, P span form counts → Q span form counts) : n.Each Q := by
  induction h with
  | mk here _ ih => exact .mk (hPQ _ _ _ here) ih

theorem Each.of_mem_preorder (h : n.Each P) {depth : Nat} {p : Nat × Node}
    (hp : p ∈ n.preorder depth) : p.2.Each P := by
  induction h generalizing depth with
  | mk here inner ih =>
    rcases List.mem_cons.mp hp with rfl | hp
    · exact .mk here inner
    · obtain ⟨part, hpart, n, hn, hp⟩ := mem_preorderParts.mp hp
      exact ih part hpart n hn hp

end Each

theorem WellFormed.of_mem_preorder {n : Node} (h : n.WellFormed) {depth : Nat} {p : Nat × Node}
    (hp : p ∈ n.preorder depth) : p.2.WellFormed :=
  wellFormed_iff.mpr ((wellFormed_iff.mp h).of_mem_preorder hp)

/-! ## Numbering keeps the shape of a tree -/

theorem form_number (n : Node) : n.number.form = n.form := by
  cases n
  rfl

section

variable {P : Span → Form → List Nat → Prop}

mutual

theorem Each.numberFrom {n : Node} (h : n.Each P) (next : Nat) : (n.numberFrom next).1.Each P := by
  match n, h with
  | .mk id span form parts, .mk here inner =>
    obtain ⟨hcounts, hinner⟩ := each_numberParts (next + 1) parts inner
    exact .mk (hcounts ▸ here) hinner

theorem each_numberParts (next : Nat) (parts : List (List Node))
    (h : ∀ part ∈ parts, ∀ n ∈ part, n.Each P) :
    (numberParts next parts).1.map List.length = parts.map List.length ∧
      ∀ part ∈ (numberParts next parts).1, ∀ n ∈ part, n.Each P := by
  match parts with
  | [] => exact ⟨rfl, by simp [numberParts]⟩
  | part :: rest =>
    obtain ⟨hlength, hpart⟩ := each_numberPart next part (h part (by simp))
    obtain ⟨hcounts, hrest⟩ := each_numberParts (numberPart next part).2 rest
      fun part hp => h part (by simp [hp])
    refine ⟨by simp only [numberParts, List.map_cons, hlength, hcounts], ?_⟩
    intro p hp
    rcases List.mem_cons.mp hp with rfl | hp
    · exact hpart
    · exact hrest p hp

theorem each_numberPart (next : Nat) (part : List Node) (h : ∀ n ∈ part, n.Each P) :
    (numberPart next part).1.length = part.length ∧ ∀ n ∈ (numberPart next part).1, n.Each P := by
  match part with
  | [] => exact ⟨rfl, by simp [numberPart]⟩
  | n :: rest =>
    have hn := (h n (by simp)).numberFrom next
    obtain ⟨hlength, hrest⟩ := each_numberPart (n.numberFrom next).2 rest
      fun m hm => h m (by simp [hm])
    refine ⟨congrArg (· + 1) hlength, ?_⟩
    intro m hm
    rcases List.mem_cons.mp hm with rfl | hm
    · exact hn
    · exact hrest m hm

end

end

end Node
end ScopeLint
