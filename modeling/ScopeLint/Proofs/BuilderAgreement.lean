import Mathlib.Data.List.Forall2
import ScopeLint.Proofs.Factoring
import ScopeLint.Proofs.Spelling
import ScopeLint.Proofs.TreeBuilder

/-! # What it means that a parse tree is built as meant

A derivation has a value, and its parse tree is what the builder looks at. `Builds` says that the
builder comes to the value, or else that the limit on its calls was too low; it never allows
another failure. `Meets` says for each nonterminal what its trees look like as far as
the builder looks, and `Derivation.Sound` that all phrases of a derivation are so. -/
namespace ScopeLint

/-- The labels of expressions. -/
def Label.isExpr : Label → Bool
  | tuple | ternary | lambdef | orTest | andTest | notOp | comparison | bitorExpr | bitxorExpr
  | bitandExpr | shiftExpr | arithExpr | term | factor | power | call | getitem | getattr
  | emptyTuple | paren | tupleDisplay | emptyList | comprehension | listDisplay | emptyDict
  | dictComprehension | dictDisplay | var | number | string | constNone | constTrue
  | constFalse => true
  | _ => false

namespace TreeBuilder

open Ebnf Grammar

/-! ## Agreement of answers -/

section Agreement

variable {α β γ : Type} {p q : Prop}

/-- How the builder answers if a value is meant. -/
def answer : Build α → Result α
  | .ok v => .ok v
  | .error span => .error (.syntaxError (.keywordName span))

/-- The builder answers as meant, or the limit is not `enough` and it says so. -/
def Builds (enough : Prop) (r : Result α) (b : Build α) : Prop :=
  r = answer b ∨ ¬ enough ∧ r = .error .tooDeep

namespace Builds

theorem weaken {r : Result α} {b : Build α} (h : Builds p r b) (hpq : q → p) : Builds q r b :=
  h.imp_right fun hfail => ⟨fun hq => hfail.1 (hpq hq), hfail.2⟩

theorem pure (v : α) : Builds p (Pure.pure v) (Pure.pure v) := .inl rfl

theorem bind {r : Result α} {b : Build α} {f : α → Result β} {g : α → Build β}
    (h : Builds p r b) (hf : ∀ v, Builds p (f v) (g v)) : Builds p (r >>= f) (b >>= g) := by
  rcases h with rfl | ⟨hp, rfl⟩
  · cases b with
    | ok v => exact hf v
    | error span => exact .inl rfl
  · exact .inr ⟨hp, rfl⟩

theorem assoc {r : Result α} {f : α → Result β} {g : β → Result γ} {b : Build γ}
    (h : Builds p (r >>= fun x => f x >>= g) b) : Builds p (r >>= f >>= g) b := by
  rwa [bind_assoc]

/-- A look at the tree that finds what it asks for. -/
theorem look {r : Result α} {x : α} {f : α → Result β} {b : Build β} (h : r = .ok x)
    (hf : Builds p (f x) b) : Builds p (r >>= f) b := by
  rw [h]
  exact hf

theorem mapM {f : α → Result β} {xs : List α} {bs : List (Build β)}
    (h : List.Forall₂ (fun x b => Builds p (f x) b) xs bs) :
    Builds p (xs.mapM f) (Grammar.sequence bs) := by
  induction h with
  | nil => exact .pure []
  | cons h _ ih =>
    rw [List.mapM_cons]
    exact .bind h fun _ => .bind ih fun _ => .pure _

theorem foldlM {f : β → α → Result β} {g : β → γ → Build β} {xs : List α} {ys : List γ}
    (h : List.Forall₂ (fun x y => ∀ acc, Builds p (f acc x) (g acc y)) xs ys) (acc : β) :
    Builds p (xs.foldlM f acc) (ys.foldlM g acc) := by
  induction h generalizing acc with
  | nil => exact .pure acc
  | cons h _ ih =>
    rw [List.foldlM_cons, List.foldlM_cons]
    exact .bind (h acc) ih

theorem foldrM {f : α → β → Result β} {g : γ → β → Build β} {xs : List α} {ys : List γ}
    (h : List.Forall₂ (fun x y => ∀ acc, Builds p (f x acc) (g y acc)) xs ys) (acc : β) :
    Builds p (xs.foldrM f acc) (ys.foldrM g acc) := by
  induction h with
  | nil => exact .pure acc
  | cons h _ ih =>
    rw [List.foldrM_cons, List.foldrM_cons]
    exact .bind ih h

theorem flatten {r : Result (List (List α))} {b : Build (List (List α))} (h : Builds p r b) :
    Builds p (do return (← r).flatten) (do return (← b).flatten) :=
  .bind h fun _ => .pure _

end Builds

theorem mapM_eq_ok {f : α → Result β} {xs : List α} {ys : List β}
    (h : List.Forall₂ (fun x y => f x = .ok y) xs ys) : xs.mapM f = .ok ys := by
  induction h with
  | nil => rfl
  | cons h _ ih =>
    rw [List.mapM_cons, h, ih]
    rfl

end Agreement

/-! ## What is found among the children of a node -/

section Children

variable {β : Type} {trees : List ParseTree} {vs : List β}

theorem names_name (t : Derivation (tk .name)) (rest : List ParseTree) :
    names (.token t.value :: rest) = t.value :: names rest := by
  cases t with
  | leaf t fits => exact List.filterMap_cons_some (if_pos fits)

theorem nth_names_name (t : Derivation (tk .name)) (rest : List ParseTree) :
    nth (names (.token t.value :: rest)) 0 = .ok t.value := by
  rw [names_name]
  rfl

theorem names_tree (label : Label) (span : Span) (children rest : List ParseTree) :
    names (.tree label span children :: rest) = names rest := rfl

/-- A node, whatever its label. -/
def IsBranch (P : Branch → Prop) (tree : ParseTree) : Prop := ∃ b : Branch, tree = b.tree ∧ P b

theorem forall₂_branches {P : β → Branch → Prop}
    (h : List.Forall₂ (fun tree v => IsBranch (P v) tree) trees vs) :
    List.Forall₂ (fun b v => P v b) (branches trees) vs := by
  induction h with
  | nil => exact .nil
  | cons h _ ih =>
    obtain ⟨b, rfl, h⟩ := h
    exact .cons h ih

/-- A node with a certain label. -/
def IsNode (label : Label) (P : Branch → Prop) (tree : ParseTree) : Prop :=
  ∃ span children, tree = .tree label span children ∧ P ⟨label, span, children⟩

theorem labelled_name (wanted : Label) (t : Derivation (tk .name)) (rest : List ParseTree) :
    labelled wanted (.token t.value :: rest) = labelled wanted rest := rfl

theorem labelled_self (label : Label) (span : Span) (children rest : List ParseTree) :
    labelled label (.tree label span children :: rest) =
      ⟨label, span, children⟩ :: labelled label rest := by
  simp [labelled, branches]

theorem labelled_of_ne {label wanted : Label} (hne : label ≠ wanted) (span : Span)
    (children rest : List ParseTree) :
    labelled wanted (.tree label span children :: rest) = labelled wanted rest := by
  simp [labelled, branches, hne]

/-- The nodes under a label, of which there are no others. -/
theorem forall₂_labelled {label : Label} {P : β → Branch → Prop}
    (h : List.Forall₂ (fun tree v => IsNode label (P v) tree) trees vs) :
    List.Forall₂ (fun b v => P v b) (labelled label trees) vs := by
  induction h with
  | nil => exact .nil
  | cons h _ ih =>
    obtain ⟨span, children, rfl, h⟩ := h
    rw [labelled_self]
    exact .cons h ih

end Children

/-! ## What the trees of a nonterminal look like -/

section Looks

variable (depth : Nat)

/-- The tree is one name and nothing else, or something else. -/
def Identifies (tree : ParseTree) : Option String → Prop
  | some name => ∃ span t, tree = .tree .var span [.token t] ∧ t.text = name
  | none => ∀ span children, tree ≠ .tree .var span children

/-- The tree of an expression that takes as many calls as `depth` says. -/
structure IsExpr (tree : ParseTree) (span : Span) (e : Expr) : Prop where
  label : ∃ label children, tree = .tree label span children ∧ label.isExpr = true
  identifier : Identifies tree e.identifier
  node : ∀ limit, Builds (depth ≤ limit) (expr limit tree) e.node

/-- A key of a dictionary with its value. -/
def IsItem (item : Expr × Expr) (b : Branch) : Prop :=
  ∃ key value place place', b.children = [key, value] ∧ IsExpr depth key place item.1 ∧
    IsExpr depth value place' item.2

def IsParam (v : Build Node) (b : Branch) : Prop :=
  ∀ limit, Builds (depth ≤ limit) (param (expr limit) b) v

def IsSmall (v : Build (List Node)) (b : Branch) : Prop :=
  ∀ limit, Builds (depth ≤ limit) (smallStatement (expr limit) b) v

def IsElif (span : Span) (clause : Expr × Build (List Node)) (b : Branch) : Prop :=
  ∀ limit orelse, Builds (depth ≤ limit) (elifClause (expr limit) (suite limit) b orelse)
    (do return [.make span .ifBranch [[← clause.1.node], ← clause.2, orelse]])

def IsHandler (v : Build Node) (b : Branch) : Prop :=
  ∀ limit, Builds (depth ≤ limit) (handler (expr limit) (suite limit) b) v

def IsWithItem (v : Build Node) (b : Branch) : Prop :=
  ∀ limit, Builds (depth ≤ limit) (withItem (expr limit) b) v

def IsDecorator (v : Build Node) (b : Branch) : Prop :=
  ∀ limit, Builds (depth ≤ limit) (decorator (expr limit) b) v

def IsStatement (tree : ParseTree) (v : Build (List Node)) : Prop :=
  ∀ limit, Builds (depth ≤ limit) (statement (expr limit) (suite limit) tree) v

def IsClause (label : Label) (tree : ParseTree) (v : Build (List Node)) : Prop :=
  IsNode label (fun b => ∀ limit, Builds (depth ≤ limit) (clauseBody (suite limit) (some b)) v) tree

end Looks

end TreeBuilder

namespace Ebnf

open Grammar TreeBuilder

/-- What a tree is to the builder if it is one of the nonterminal, at the span, with the value. -/
def Meets (n : Nonterminal) (depth : Nat) (tree : ParseTree) (span : Span) : n.Value → Prop :=
  match n with
  | .fileInput => fun v => ∀ limit, Builds (depth ≤ limit) (moduleOf limit tree) v
  | .stmt | .simpleStmt | .compoundStmt | .ifStmt | .whileStmt | .forStmt | .tryStmt | .withStmt
  | .decorated => fun v => IsStatement depth tree v
  | .smallStmt | .exprStmt | .passStmt | .breakStmt | .continueStmt | .returnStmt | .raiseStmt
  | .delStmt | .assertStmt | .globalStmt | .nonlocalStmt | .emptyStmt | .importName
  | .importFrom => fun v => IsBranch (IsSmall depth v) tree
  | .augassignOp | .shiftOp | .addOp | .mulOp | .unaryOp => fun v => operator tree = .ok v
  | .compOp => fun v => comparisonOp tree = .ok v
  | .dottedAsName => fun v => IsNode .dottedAsName (fun b => moduleImport b = .ok v) tree
  | .importAsName => fun v => IsNode .importAsName (fun b => member b = .ok v) tree
  | .importAsNames => fun v => IsNode .importAsNames (fun b =>
      (labelled .importAsName b.children).mapM member = .ok v) tree
  | .dottedName => fun v => IsNode .dottedName (fun b => dotted b = v.1 :: v.2) tree
  | .elifClause => fun v => IsNode .elifClause (IsElif depth span v) tree
  | .elseClause => fun v => IsClause depth .elseClause tree v
  | .finallyClause => fun v => IsClause depth .finallyClause tree v
  | .exceptClause => fun v => IsNode .exceptClause (IsHandler depth v) tree
  | .withItem => fun v => IsNode .withItem (IsWithItem depth v) tree
  | .funcdef => fun v => IsNode .funcdef (fun b => ∀ limit decorators,
      Builds (depth ≤ limit) (function (expr limit) (suite limit) decorators b)
        (v.node decorators)) tree
  | .classdef => fun v => IsNode .classdef (fun b => ∀ limit decorators,
      Builds (depth ≤ limit) (classOf (expr limit) (suite limit) decorators b)
        (v.node decorators)) tree
  | .parameters => fun v => IsNode .parameters (fun b => ∀ limit,
      Builds (depth ≤ limit) (params (expr limit) (some b.tree)) (Grammar.sequence v)) tree
  | .param => fun v => IsBranch (IsParam depth v) tree
  | .decorator => fun v => IsNode .decorator (IsDecorator depth v) tree
  | .suite => fun v => IsNode .suite (fun b => ∀ limit,
      Builds (depth ≤ limit) (suite limit b.tree) v) tree
  | .testlist | .exprlist | .test | .lambdef | .orTest | .andTest | .notTest | .comparison
  | .bitorExpr | .bitxorExpr | .bitandExpr | .shiftExpr | .arithExpr | .term | .factor | .power
  | .atomExpr | .atom => fun v => IsExpr depth tree span v
  | .arguments => fun v => IsNode .arguments (fun b => ∀ limit,
      Builds (depth ≤ limit) (arguments (expr limit) (some b.tree)) (Grammar.sequence v)) tree
  | .argument => fun v => ∀ limit,
      Builds (depth ≤ limit) (argument (expr limit) tree) v
  | .subscript => fun v => ∀ limit, Builds (depth ≤ limit) (expr limit tree) v
  | .compFor => fun v => ∀ limit whole element value (e : Expr) (x : Option Expr),
      Builds (depth ≤ limit) element e.node → Builds (depth ≤ limit) value (Grammar.optional x) →
      Builds (depth ≤ limit) (TreeBuilder.comprehension (expr limit) whole element value tree)
        (Grammar.comprehension whole e x v)
  | .compIf => fun v => IsNode .compIf (fun b => ∃ test place,
      b.children = [test] ∧ IsExpr depth test place v) tree
  | .dictItem => fun v => IsNode .dictItem (IsItem depth v) tree

mutual

/-- Every phrase gives one tree, and it is what the builder takes for the phrase. Every token is
spelled as its kind says. -/
def Derivation.Sound (depth : Nat) {x : Item} : Derivation x → Prop
  | .leaf t _ => t.Spelled
  | @Derivation.node n a parts =>
    ∃ tree, a.outline.wrap (spanOf parts.tokens) (parts.trees a.keepsWords) = [tree] ∧
      Meets n depth tree (spanOf parts.tokens) (a.build (spanOf parts.tokens) parts.values)
  | .absent | .done => True
  | .present parts | .left parts | .right parts => parts.Sound depth
  | .more parts rest | .plus parts rest => parts.Sound depth ∧ rest.Sound depth

def Derivations.Sound (depth : Nat) {xs : List Item} : Derivations xs → Prop
  | .nil => True
  | .cons head tail => head.Sound depth ∧ tail.Sound depth

end

/-- What is to be shown of an alternative: its node is sound if its parts are, one level below. -/
def Alternative.Keeps {n : Nonterminal} (a : Alternative n) : Prop :=
  ∀ (depth : Nat) (parts : Derivations a.body), parts.Sound depth →
    (Derivation.node a parts).Sound (depth + 1)

/-! ## The trees of items -/

variable {depth : Nat} {n m : Nonterminal}

@[simp] theorem Derivations.trees_nil (words : Bool) : Derivations.nil.trees words = [] := rfl

@[simp] theorem Derivations.trees_cons {x : Item} {xs : List Item} (words : Bool)
    (head : Derivation x) (tail : Derivations xs) :
    (cons head tail).trees words = head.trees words ++ tail.trees words := rfl

/-- A token is a tree if it has a name, or if words are kept. -/
@[simp] theorem Derivation.trees_token {kind : Kind} (words : Bool) (d : Derivation (tk kind)) :
    d.trees words = if words || kind.isNamed then [.token d.value] else [] := by
  cases d
  rfl

theorem Derivation.kind_value {kind : Kind} (d : Derivation (tk kind)) :
    Token.kind d.value = kind := by
  cases d with
  | leaf t fits => exact fits

theorem Derivation.spanOf_token {kind : Kind} (d : Derivation (tk kind)) :
    spanOf d.tokens = Token.span d.value := by
  cases d with
  | leaf t fits => simp [tokens, prepend, spanOf, value, Span.cover, Span.unknown]

theorem Derivation.Sound.spelled {kind : Kind} {d : Derivation (tk kind)} (h : d.Sound depth) :
    Token.Spelled d.value := by
  cases d
  exact h

/-- A kind that has one text decides that of the token. -/
theorem text_of_spelled {t : Token} {kind : Kind} {text : String} (h : t.Spelled)
    (hkind : t.kind = kind) (hopen : kind.isOpen = false)
    (hentry : ∀ entry ∈ Token.keywords ++ Token.operators, entry.2 = kind → entry.1 = text) :
    t.text = text := by
  rcases h with h | h
  · rw [hkind, hopen] at h
    cases h
  · exact hentry _ h hkind

theorem Derivation.Sound.text {kind : Kind} {d : Derivation (tk kind)} (h : d.Sound depth)
    (text : String) (hopen : kind.isOpen = false)
    (hentry : ∀ entry ∈ Token.keywords ++ Token.operators, entry.2 = kind → entry.1 = text) :
    Token.text d.value = text :=
  text_of_spelled h.spelled d.kind_value hopen hentry

theorem Derivation.Sound.phrase {d : Derivation (ph n)} (h : d.Sound depth) :
    ∃ tree, d.trees false = [tree] ∧ Meets n depth tree (spanOf d.tokens) d.value := by
  cases d
  exact h

/-- The trees of phrases behind separators. -/
theorem Derivation.Sound.seconds {kind : Kind} (hkind : kind.isNamed = false) :
    ∀ {d : Derivation (.many [tk kind, ph n])}, d.Sound depth →
      List.Forall₂ (fun tree (v : Values [tk kind, ph n]) =>
        v.1.value.kind = kind ∧ v.1.value.Spelled ∧ Meets n depth tree v.2.1.span v.2.1.value)
        (d.trees false) d.value
  | .done, _ => .nil
  | .more (.row2 t d) rest, ⟨⟨ht, hd, _⟩, hrest⟩ => by
    obtain ⟨tree, htree, hmeets⟩ := hd.phrase
    have htrees : (Derivation.more (.row2 t d) rest).trees false = tree :: rest.trees false := by
      simp [Derivation.trees, hkind, htree]
    rw [htrees]
    exact .cons ⟨t.kind_value, ht.spelled, hmeets⟩ (Derivation.Sound.seconds hkind hrest)

/-- The trees of a phrase and of others like it behind separators. -/
theorem Derivation.Sound.listed {kind : Kind} (hkind : kind.isNamed = false)
    {x : Derivation (ph n)} {ys : Derivation (.many [tk kind, ph n])} (hx : x.Sound depth)
    (hys : ys.Sound depth) {R : ParseTree → n.Value → Prop}
    (hR : ∀ tree span v, Meets n depth tree span v → R tree v) :
    ∃ first, x.trees false = [first] ∧ List.Forall₂ R (first :: ys.trees false)
      (x.value :: List.map (fun v : Values [tk kind, ph n] => v.2.1.value) ys.value) := by
  obtain ⟨first, hfirst, hmeets⟩ := hx.phrase
  refine ⟨first, hfirst, .cons (hR _ _ _ hmeets) ?_⟩
  exact List.forall₂_map_right_iff.mpr ((hys.seconds hkind).imp fun _ _ h => hR _ _ _ h.2.2)

/-- The trees of phrases one after the other. -/
theorem Derivation.Sound.each : ∀ {d : Derivation (.many [ph n])}, d.Sound depth →
    List.Forall₂ (fun tree (v : Values [ph n]) => Meets n depth tree v.1.span v.1.value)
      (d.trees false) d.value
  | .done, _ => .nil
  | .more (.row1 d) rest, ⟨⟨hd, _⟩, hrest⟩ => by
    obtain ⟨tree, htree, hmeets⟩ := hd.phrase
    have htrees : (Derivation.more (.row1 d) rest).trees false = tree :: rest.trees false := by
      simp [Derivation.trees, htree]
    rw [htrees]
    exact .cons hmeets (Derivation.Sound.each hrest)

/-- The trees of a phrase and of others like it. -/
theorem Derivation.Sound.repeated {x : Derivation (ph n)} {ys : Derivation (.many [ph n])}
    (hx : x.Sound depth) (hys : ys.Sound depth) {R : ParseTree → n.Value → Prop}
    (hR : ∀ tree span v, Meets n depth tree span v → R tree v) :
    ∃ first, x.trees false = [first] ∧ List.Forall₂ R (first :: ys.trees false)
      (x.value :: List.map (fun v : Values [ph n] => v.1.value) ys.value) := by
  obtain ⟨first, hfirst, hmeets⟩ := hx.phrase
  refine ⟨first, hfirst, .cons (hR _ _ _ hmeets) ?_⟩
  exact List.forall₂_map_right_iff.mpr (hys.each.imp fun _ _ h => hR _ _ _ h)

/-- The trees of phrases in pairs. -/
theorem Derivation.Sound.pairs : ∀ {d : Derivation (.many [ph m, ph n])}, d.Sound depth →
    ∃ pairs : List (ParseTree × ParseTree), d.trees false = pairs.flatMap (fun q => [q.1, q.2]) ∧
      List.Forall₂ (fun q (v : Values [ph m, ph n]) =>
        Meets m depth q.1 v.1.span v.1.value ∧ Meets n depth q.2 v.2.1.span v.2.1.value)
        pairs d.value
  | .done, _ => ⟨[], rfl, .nil⟩
  | .more (.row2 d e) rest, ⟨⟨hd, he, _⟩, hrest⟩ => by
    obtain ⟨first, hfirst, hmeets⟩ := hd.phrase
    obtain ⟨second, hsecond, hmeets'⟩ := he.phrase
    obtain ⟨pairs, hpairs, hall⟩ := Derivation.Sound.pairs hrest
    refine ⟨(first, second) :: pairs, ?_, .cons ⟨hmeets, hmeets'⟩ hall⟩
    simp [Derivation.trees, hfirst, hsecond, hpairs]

/-! ## The tree of an alternative -/

theorem Alternative.sound_node {a : Alternative n} {parts : Derivations a.body} {label : Label}
    {children : List ParseTree} (houtline : a.outline = .node label)
    (hchildren : parts.trees a.keepsWords = children)
    (hmeets : Meets n depth (.tree label (spanOf parts.tokens) children) (spanOf parts.tokens)
      (a.build (spanOf parts.tokens) parts.values)) :
    (Derivation.node a parts).Sound depth := by
  refine ⟨_, ?_, hmeets⟩
  rw [houtline, hchildren]
  rfl

/-- A phrase that has more than one child is a node. -/
theorem Alternative.sound_thin {a : Alternative n} {parts : Derivations a.body} {label : Label}
    {first : ParseTree} {others : List ParseTree} (houtline : a.outline = .thin label)
    (hchildren : parts.trees a.keepsWords = first :: others) (hothers : others ≠ [])
    (hmeets : Meets n depth (.tree label (spanOf parts.tokens) (first :: others))
      (spanOf parts.tokens) (a.build (spanOf parts.tokens) parts.values)) :
    (Derivation.node a parts).Sound depth := by
  refine ⟨_, ?_, hmeets⟩
  rw [houtline, hchildren]
  cases others with
  | nil => exact absurd rfl hothers
  | cons second others => rfl

/-- A phrase that only passes on a child is that child. -/
theorem Alternative.sound_pass {a : Alternative n} {parts : Derivations a.body} {tree : ParseTree}
    (houtline : a.outline.yieldsChild = true) (hchildren : parts.trees a.keepsWords = [tree])
    (hmeets : Meets n depth tree (spanOf parts.tokens)
      (a.build (spanOf parts.tokens) parts.values)) :
    (Derivation.node a parts).Sound depth := by
  refine ⟨tree, ?_, hmeets⟩
  rw [hchildren]
  cases h : a.outline with
  | spliced | thin label => rfl
  | node label =>
    rw [h] at houtline
    cases houtline

end Ebnf
end ScopeLint
