import ScopeLint.Proofs.BuiltStatements
import ScopeLint.Proofs.Image

/-! # The parser accepts its grammar

Reading by the factored grammar, the trees of the two grammars and what is built of them
are put together: a text whose tokens have no fault parses exactly if the published
grammar derives its tokens, and into what the builder makes of the parse tree. -/
namespace ScopeLint

open Ebnf

/-- The tokens of a source with its last line ended. -/
def sourceTokens (source : String) : Stream := tokenize (endLine source.toList)

/-- A source whose tokens have no fault is parsed up to the last token: into a module, or into a
keyword argument that no identifier names. -/
def Accepted (result : Except SyntaxError Node) : Prop :=
  (∃ root, result = .ok root) ∨ ∃ span, result = .error (.keywordName span)

/-- What parsing comes to if a module is built. -/
def parsed : Grammar.Build Node → Except SyntaxError Node
  | .ok node => .ok node.number
  | .error span => .error (.keywordName span)

theorem accepted_parsed (built : Grammar.Build Node) : Accepted (parsed built) := by
  cases built with
  | ok node => exact .inl ⟨node.number, rfl⟩
  | error span => exact .inr ⟨span, rfl⟩

/-- Derived tokens are read, and as the derivation says. -/
theorem read_of_derivation {tokens : List Token} (d : Derivation (ph .fileInput))
    (hd : d.tokens = tokens) :
    ∃ t : Grammar.Tree (.rule .file), t.derivation = d ∧ Grammar.read tokens = .ok t := by
  obtain ⟨t, rfl⟩ := Grammar.exists_tree (r := .file) d
  exact ⟨t, rfl, Grammar.read_eq_ok_iff.mpr (t.tokens_derivation.symm.trans hd)⟩

/-- The builder comes to the value of a derivation, unless the limit is less than its depth. -/
theorem Ebnf.Derivation.image_eq (d : Derivation (ph .fileInput))
    (hspelled : ∀ t ∈ d.tokens, t.Spelled) (limit : Nat) :
    d.image limit = (parsed d.value).mapError .syntaxError ∨
      limit < d.depth ∧ d.image limit = .error .tooDeep := by
  obtain ⟨tree, htree, hbuilds⟩ := (d.sound hspelled (Nat.le_refl _)).phrase
  have himage : d.image limit = (do return (← TreeBuilder.moduleOf limit tree).number) := by
    rw [image, htree]
    rfl
  rw [himage]
  rcases hbuilds limit with h | ⟨hdepth, h⟩
  · left
    rw [h]
    cases (d.value : Grammar.Build Node) <;> rfl
  · right
    rw [h]
    exact ⟨Nat.lt_of_not_le hdepth, rfl⟩

section

variable {source : String} (hfault : (sourceTokens source).fault = none)
include hfault

theorem parse_of_read {t : Grammar.Tree (.rule .file)}
    (h : Grammar.read (sourceTokens source).tokens = .ok t) :
    parse source = parsed t.derivation.value := by
  have hmeaning : t.meaning.value = t.derivation.value := by
    rw [t.meaning_eq]
    rfl
  unfold sourceTokens at h hfault
  unfold parse
  simp only [h, hfault]
  rw [← hmeaning]
  split <;> next heq => rw [heq]; rfl

theorem not_accepted_of_read {e : Grammar.Rejection}
    (h : Grammar.read (sourceTokens source).tokens = .error e) : ¬ Accepted (parse source) := by
  unfold sourceTokens at h hfault
  unfold parse
  cases e with
  | none =>
    simp only [h, hfault]
    intro haccepted
    rcases haccepted with ⟨_, h⟩ | ⟨_, h⟩ <;> cases h
  | some t =>
    simp only [h]
    intro haccepted
    rcases haccepted with ⟨_, h⟩ | ⟨_, h⟩ <;> cases h

theorem accepted_iff_derivable :
    Accepted (parse source) ↔
      ∃ d : Derivation (ph .fileInput), d.tokens = (sourceTokens source).tokens := by
  constructor
  · intro haccepted
    cases h : Grammar.read (sourceTokens source).tokens with
    | error e => exact absurd haccepted (not_accepted_of_read hfault h)
    | ok t => exact ⟨t.derivation, t.tokens_derivation.trans (Grammar.read_eq_ok_iff.mp h)⟩
  · rintro ⟨d, hd⟩
    obtain ⟨t, _, hread⟩ := read_of_derivation d hd
    rw [parse_of_read hfault hread]
    exact accepted_parsed _

/-- Parsing gives what the builder makes of the parse tree. The builder fails in no other way than
parsing does, or its limit is less than the depth of the derivation. -/
theorem image_eq_parse {d : Derivation (ph .fileInput)}
    (hd : d.tokens = (sourceTokens source).tokens) (limit : Nat) :
    d.image limit = (parse source).mapError .syntaxError ∨
      limit < d.depth ∧ d.image limit = .error .tooDeep := by
  obtain ⟨t, rfl, hread⟩ := read_of_derivation d hd
  rw [parse_of_read hfault hread]
  exact t.derivation.image_eq (fun u hu => spelled_tokenize (hd ▸ hu)) limit

end

/-- A source whose tokens have no fault is accepted exactly if the grammar derives its tokens, every
one spelled as its kind says. The derivation is then the only one, and parsing gives the module that
the builder makes of its parse tree, if the builder's calls may nest as deep as the derivation. -/
theorem parse_accepts_grammar (source : String) (hfault : (sourceTokens source).fault = none) :
    (∀ t ∈ (sourceTokens source).tokens, t.Spelled) ∧
    (Accepted (parse source) ↔
      ∃ d : Derivation (ph .fileInput), d.tokens = (sourceTokens source).tokens) ∧
    ∀ d : Derivation (ph .fileInput), d.tokens = (sourceTokens source).tokens →
      (∀ limit, d.depth ≤ limit → d.image limit = (parse source).mapError .syntaxError) ∧
      ∀ e : Derivation (ph .fileInput), e.tokens = (sourceTokens source).tokens → e = d := by
  refine ⟨fun t ht => spelled_tokenize ht, accepted_iff_derivable hfault, ?_⟩
  intro d hd
  refine ⟨fun limit hlimit => ?_, fun e he => ?_⟩
  · rcases image_eq_parse hfault hd limit with himage | ⟨hdepth, _⟩
    · exact himage
    · exact absurd hlimit (Nat.not_le_of_lt hdepth)
  · obtain ⟨t, rfl, hread⟩ := read_of_derivation d hd
    obtain ⟨u, rfl, hread'⟩ := read_of_derivation e he
    rw [hread] at hread'
    cases hread'
    rfl

/-- The forms of a tree in preorder, each with how many nodes there are in its parts: all of the
tree but its places and identities. -/
def Node.shape (n : Node) : List (Form × List Nat) :=
  (n.preorder 0).map fun (_, m) => (m.form, m.parts.map List.length)

/-- A chained assignment of differences with a signed power in them, and a chained comparison. -/
def chains : String :=
  "if a:\n\tb = c = -d ** e ** f - g - h\nelif i < j < k:\n\tpass\nelif l:\n\tm\nelse:\n\tn\n"

/-- Assignments and powers nest to the right and differences to the left, a sign applies to the
whole power, the comparison is one node, and every `elif` stands in the else body before it. -/
def chainsShape : List (Form × List Nat) :=
  [(.module, [1]),
    (.ifBranch, [1, 1, 1]), (.name "a", []),
    (.assign "=", [1, 1]), (.name "b", []), (.assign "=", [1, 1]), (.name "c", []),
    (.binOp "-", [1, 1]), (.binOp "-", [1, 1]),
    (.unaryOp "-", [1]), (.binOp "**", [1, 1]), (.name "d", []),
    (.binOp "**", [1, 1]), (.name "e", []), (.name "f", []),
    (.name "g", []), (.name "h", []),
    (.ifBranch, [1, 1, 1]), (.compare ["<", "<"], [1, 2]),
    (.name "i", []), (.name "j", []), (.name "k", []), (.empty "pass", []),
    (.ifBranch, [1, 1, 1]), (.name "l", []), (.exprStmt, [1]), (.name "m", []),
    (.exprStmt, [1]), (.name "n", [])]

theorem parse_accepts_chains :
    (sourceTokens chains).fault = none ∧ ∃ (root : Node) (d : Derivation (ph .fileInput)),
      parse chains = .ok root ∧ root.shape = chainsShape ∧
      d.tokens = (sourceTokens chains).tokens ∧
      ∀ limit, d.depth ≤ limit → d.image limit = .ok root := by
  have hfault : (sourceTokens chains).fault = none := by decide +kernel
  have hshape : (parse chains).toOption.map Node.shape = some chainsShape := by decide +kernel
  obtain ⟨_, haccepted, himage⟩ := parse_accepts_grammar chains hfault
  cases hparse : parse chains with
  | error e =>
    rw [hparse] at hshape
    cases hshape
  | ok root =>
    rw [hparse] at hshape
    obtain ⟨d, hd⟩ := haccepted.mp (.inl ⟨root, hparse⟩)
    refine ⟨hfault, root, d, rfl, Option.some.inj hshape, hd, fun limit hlimit => ?_⟩
    rw [(himage d hd).1 limit hlimit, hparse]
    rfl

end ScopeLint
