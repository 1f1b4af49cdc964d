import ScopeLint.Proofs.BuilderAgreement

/-! # Expressions are built as meant

One theorem for each nonterminal of expressions: the builder finds in its trees what it
looks for, and makes of it what the alternative says. -/
namespace ScopeLint

open Ebnf Grammar

namespace TreeBuilder

variable {depth : Nat} {tree : ParseTree} {span place : Span} {e : Expr}

/-- One call of the builder is one more level. -/
theorem builds_expr {node : Build Node}
    (h : ∀ limit, Builds (depth ≤ limit) (expression (expr limit) tree) node) (limit : Nat) :
    Builds (depth + 1 ≤ limit) (expr limit tree) node := by
  cases limit with
  | zero => exact .inr ⟨Nat.not_succ_le_zero depth, rfl⟩
  | succ limit => exact (h limit).weaken Nat.le_of_succ_le_succ

namespace IsExpr

theorem succ (h : IsExpr depth tree span e) : IsExpr (depth + 1) tree span e :=
  ⟨h.label, h.identifier, fun limit => (h.node limit).weaken Nat.le_of_succ_le⟩

/-- A node that is no name, by one call of the builder. -/
theorem make {label : Label} {children : List ParseTree} {node : Build Node}
    (hlabel : label.isExpr = true) (hname : label ≠ .var)
    (h : ∀ limit, Builds (depth ≤ limit)
      (expression (expr limit) (.tree label span children)) node) :
    IsExpr (depth + 1) (.tree label span children) span { node } := by
  refine ⟨⟨label, children, rfl, hlabel⟩, ?_, ?_⟩
  · intro span children heq
    cases heq
    exact hname rfl
  · exact builds_expr h

/-- What is no argument of a special kind is built as an expression. -/
theorem argument_eq (h : IsExpr depth tree span e) (build : ParseTree → Result Node) :
    argument build tree = build tree := by
  obtain ⟨label, children, rfl, hlabel⟩ := h.label
  cases label <;> first | rfl | cases hlabel

end IsExpr

theorem ne_nil_of_forall₂ {α β : Type} {R : α → β → Prop} {xs : List α} {y : β} {ys : List β}
    (h : List.Forall₂ R xs (y :: ys)) : xs ≠ [] := by
  rintro rfl
  cases h

theorem flatMap_ne_nil {β : Type} {R : ParseTree × ParseTree → β → Prop}
    {pairs : List (ParseTree × ParseTree)} {y : β} {ys : List β}
    (h : List.Forall₂ R pairs (y :: ys)) : (pairs.flatMap fun q => [q.1, q.2]) ≠ [] := by
  cases h
  exact List.cons_ne_nil _ _

/-- An argument is a keyword argument if an identifier names it, and refused if not. -/
theorem builds_kwarg {key value : ParseTree} {place' : Span} {e' : Expr}
    (hkey : IsExpr depth key place e) (hvalue : IsExpr depth value place' e') (limit : Nat) :
    Builds (depth ≤ limit) (argument (expr limit) (.tree .kwarg span [key, value]))
      (match e.identifier with
        | none => .error place
        | some name => do return .make span (.keywordArg name) [[← e'.node]]) := by
  have hidentifier := hkey.identifier
  cases h : e.identifier with
  | some name =>
    rw [h] at hidentifier
    obtain ⟨_, t, rfl, rfl⟩ := hidentifier
    exact .look rfl <| .look rfl <| .look rfl <| .bind (hvalue.node limit) fun _ => .pure _
  | none =>
    rw [h] at hidentifier
    obtain ⟨label, children, rfl, _⟩ := hkey.label
    refine .look rfl (.inl ?_)
    split
    · next heq =>
      cases heq
      exact absurd rfl (hidentifier _ _)
    · rfl

/-- Trees of expressions, one for each. -/
def Exprs (depth : Nat) (trees : List ParseTree) (es : List Expr) : Prop :=
  List.Forall₂ (fun tree e => ∃ span, IsExpr depth tree span e) trees es

namespace Exprs

theorem builds {trees : List ParseTree} {es : List Expr} (h : Exprs depth trees es)
    (limit : Nat) : Builds (depth ≤ limit) (trees.mapM (expr limit)) (nodes es) :=
  .mapM (List.forall₂_map_right_iff.mpr (List.Forall₂.imp (fun _ _ ⟨_, h⟩ => h.node limit) h))

/-- The trees of an expression and of others behind separators. -/
theorem of_listed {kind : Kind} {n : Nonterminal} {d : Derivation (ph n)}
    {e : Derivation (.many [tk kind, ph n])} (hd : d.Sound depth) (he : e.Sound depth)
    (hkind : kind.isNamed = false) {get : n.Value → Expr}
    (hget : ∀ tree span v, Meets n depth tree span v → IsExpr depth tree span (get v)) :
    ∃ first, d.trees false = [first] ∧ Exprs depth (first :: e.trees false)
      (get d.value :: List.map (fun v : Values [tk kind, ph n] => get v.2.1.value) e.value) := by
  obtain ⟨first, hfirst, hd⟩ := hd.phrase
  refine ⟨first, hfirst, .cons ⟨_, hget _ _ _ hd⟩ ?_⟩
  exact List.forall₂_map_right_iff.mpr
    ((he.seconds hkind).imp fun _ _ h => ⟨_, hget _ _ _ h.2.2⟩)

theorem tail_ne_nil {trees : List ParseTree} {e e' : Expr} {es : List Expr}
    (h : Exprs depth (tree :: trees) (e :: e' :: es)) : trees ≠ [] := by
  rintro rfl
  cases h with
  | cons _ h => cases h

/-- Displays of elements and elements between commas. -/
theorem array {label : Label} {trees : List ParseTree} {es : List Expr} (h : Exprs depth trees es)
    (hlabel : label = .tuple ∨ label = .tupleDisplay ∨ label = .listDisplay) :
    IsExpr (depth + 1) (.tree label span trees) span { node := arrayOf span es } := by
  rcases hlabel with rfl | rfl | rfl <;>
    exact .make rfl (by decide) fun limit => .bind (h.builds limit) fun _ => .pure _

end Exprs

theorem ne_of_isExpr {label other : Label} (h : label.isExpr = true)
    (hother : other.isExpr = false) : label ≠ other := by
  rintro rfl
  rw [h] at hother
  cases hother

namespace IsExpr

/-- An expression is not what is asked for by another name. -/
theorem labelled_cons (h : IsExpr depth tree span e) {wanted : Label}
    (hwanted : wanted.isExpr = false) (rest : List ParseTree) :
    labelled wanted (tree :: rest) = labelled wanted rest := by
  obtain ⟨label, children, rfl, hlabel⟩ := h.label
  exact labelled_of_ne (ne_of_isExpr hlabel hwanted) ..

theorem names_cons (h : IsExpr depth tree span e) (rest : List ParseTree) :
    names (tree :: rest) = names rest := by
  obtain ⟨label, children, rfl, _⟩ := h.label
  rfl

theorem branch_of_ne (h : IsExpr depth tree span e) {other : Label}
    (hother : other.isExpr = false) (rest : List ParseTree) :
    ((branches (tree :: rest)).head?.filter (·.label ≠ other)).map Branch.tree = some tree := by
  obtain ⟨label, children, rfl, hlabel⟩ := h.label
  simp [branches, ne_of_isExpr hlabel hother, Branch.tree]

end IsExpr

/-- The tree of an expression that may be missing. -/
inductive IsOptExpr (depth : Nat) : List ParseTree → Option Expr → Prop
  | missing : IsOptExpr depth [] none
  | present {tree : ParseTree} {span : Span} {e : Expr} (h : IsExpr depth tree span e) :
    IsOptExpr depth [tree] (some e)

namespace IsOptExpr

variable {trees : List ParseTree} {e : Option Expr}

theorem builds (h : IsOptExpr depth trees e) (limit : Nat) :
    Builds (depth ≤ limit) (optional (expr limit) trees[0]?) (Grammar.optional e) := by
  cases h with
  | missing => exact .pure []
  | present h => exact .bind (h.node limit) fun _ => .pure _

theorem head_branches (h : IsOptExpr depth trees e) :
    (branches trees).head?.map Branch.tree = trees[0]? := by
  cases h with
  | missing => rfl
  | present h =>
    obtain ⟨label, children, rfl, _⟩ := h.label
    rfl

end IsOptExpr

theorem builds_comprehension {target iterable : ParseTree} {place' : Span} {x y : Expr}
    {conditions : List ParseTree} {c : Option Expr} (hx : IsExpr depth target place x)
    (hy : IsExpr depth iterable place' y)
    (hc : ∀ limit, Builds (depth ≤ limit)
      (condition (expr limit) (labelled .compIf conditions).head?) (Grammar.optional c))
    (limit : Nat) (whole : Span) (element : Result Node) (value : Result (List Node)) (e : Expr)
    (v : Option Expr) (he : Builds (depth ≤ limit) element e.node)
    (hv : Builds (depth ≤ limit) value (Grammar.optional v)) :
    Builds (depth ≤ limit)
      (TreeBuilder.comprehension (expr limit) whole element value
        (.tree .compFor span (target :: iterable :: conditions)))
      (Grammar.comprehension whole e v ⟨x, y, c⟩) := by
  have hconditions :
      labelled .compIf (target :: iterable :: conditions) = labelled .compIf conditions := by
    rw [hx.labelled_cons rfl, hy.labelled_cons rfl]
  refine .look rfl <| .bind he fun _ => .bind hv fun _ => .look rfl <|
    .bind (hx.node limit) fun _ => .look rfl <| .bind (hy.node limit) fun _ => ?_
  rw [hconditions]
  exact .bind (hc limit) fun _ => .pure _

/-- All keys are built before the first value. -/
theorem IsExpr.dict {trees : List ParseTree} {items : List (Expr × Expr)}
    (h : List.Forall₂ (fun tree item => IsNode .dictItem (IsItem depth item) tree) trees items) :
    IsExpr (depth + 1) (.tree .dictDisplay span trees) span { node := dictOf span items } := by
  have hitems := forall₂_labelled h
  refine .make rfl (by decide) fun limit =>
    .bind (.mapM ?_) fun _ => .bind (.mapM ?_) fun _ => .pure _
  · refine List.forall₂_map_right_iff.mpr (List.forall₂_map_right_iff.mpr (hitems.imp ?_))
    rintro ⟨_, _, _⟩ item ⟨key, value, _, _, rfl, hkey, _⟩
    exact .look rfl (hkey.node limit)
  · refine List.forall₂_map_right_iff.mpr (List.forall₂_map_right_iff.mpr (hitems.imp ?_))
    rintro ⟨_, _, _⟩ item ⟨key, value, _, _, rfl, _, hvalue⟩
    exact .look rfl (hvalue.node limit)

/-! ## Operators in a row -/

theorem everySecond_pairs (first : ParseTree) (pairs : List (ParseTree × ParseTree)) :
    everySecond (first :: pairs.flatMap fun q => [q.1, q.2]) = first :: pairs.map Prod.snd := by
  induction pairs generalizing first with
  | nil => rfl
  | cons q pairs ih => exact congrArg (first :: ·) (ih q.2)

theorem everySecond_tail_pairs (pairs : List (ParseTree × ParseTree)) :
    everySecond (pairs.flatMap fun q => [q.1, q.2]) = pairs.map Prod.fst := by
  induction pairs with
  | nil => rfl
  | cons q pairs ih => exact congrArg (q.1 :: ·) ih

/-- Operators are applied from the left to the operands that belong to them. -/
theorem builds_foldLeft {limit : Nat} {first : ParseTree} {others : List ParseTree}
    {ops : List String} {more : List (String × Expr)} (hfirst : IsExpr depth first place e)
    (hmore : List.Forall₂ (fun (q : String × ParseTree) r => q.1 = r.1 ∧
      ∃ span, IsExpr depth q.2 span r.2) (ops.zip others) more) :
    Builds (depth ≤ limit) (foldLeft (expr limit) span (first :: others) ops) (do
      more.foldlM (fun left (op, e) => do return .make span (.binOp op) [[left], [← Expr.node e]])
        (← e.node)) := by
  refine .look rfl (.bind (hfirst.node limit) (Builds.foldlM (hmore.imp ?_)))
  rintro ⟨op, tree⟩ ⟨_, e⟩ ⟨rfl, _, h⟩ left
  exact .bind (h.node limit) fun _ => .pure _

/-- Operators that are told apart stand between the operands. -/
theorem IsExpr.chain {label : Label}
    (hlabel : label = .shiftExpr ∨ label = .arithExpr ∨ label = .term) {first : ParseTree}
    {pairs : List (ParseTree × ParseTree)} {more : List (String × Expr)} (hne : more ≠ [])
    (hfirst : IsExpr depth first place e)
    (hmore : List.Forall₂ (fun q r => operator q.1 = .ok r.1 ∧ ∃ span, IsExpr depth q.2 span r.2)
      pairs more) :
    IsExpr (depth + 1) (.tree label span (first :: pairs.flatMap fun q => [q.1, q.2])) span
      (Ebnf.foldLeft span e more) := by
  have hops : (pairs.map Prod.fst).mapM operator = .ok (more.map Prod.fst) :=
    mapM_eq_ok (List.forall₂_map_left_iff.mpr
      (List.forall₂_map_right_iff.mpr (hmore.imp fun _ _ h => h.1)))
  have hzip : List.Forall₂ (fun (q : String × ParseTree) r => q.1 = r.1 ∧
      ∃ span, IsExpr depth q.2 span r.2) ((more.map Prod.fst).zip (pairs.map Prod.snd)) more := by
    clear hops hne
    induction hmore with
    | nil => exact .nil
    | cons h _ ih => exact .cons ⟨rfl, h.2⟩ ih
  have hbuilds : ∀ limit, Builds (depth ≤ limit)
      ((everySecond (pairs.flatMap fun q => [q.1, q.2])).mapM operator >>= fun ops =>
        foldLeft (expr limit) span (everySecond (first :: pairs.flatMap fun q => [q.1, q.2])) ops)
      (e.node >>= fun left => more.foldlM (fun left (op, e) => do
        return .make span (.binOp op) [[left], [← Expr.node e]]) left) := by
    intro limit
    rw [everySecond_pairs, everySecond_tail_pairs]
    exact .look hops (builds_foldLeft hfirst hzip)
  rw [Ebnf.foldLeft, if_neg (by simpa using hne)]
  rcases hlabel with rfl | rfl | rfl <;> exact .make rfl (by decide) hbuilds

/-- An operator that stands for itself is left out between the operands. -/
theorem IsExpr.bits {label : Label} {op : String} (hlabel : (label, op) ∈
      [(Label.bitorExpr, "|"), (.bitxorExpr, "^"), (.bitandExpr, "&")]) {first : ParseTree}
    {others : List ParseTree} {more : List (String × Expr)} (hne : more ≠ [])
    (hfirst : IsExpr depth first place e)
    (hmore : List.Forall₂ (fun tree r => r.1 = op ∧ ∃ span, IsExpr depth tree span r.2)
      others more) :
    IsExpr (depth + 1) (.tree label span (first :: others)) span (Ebnf.foldLeft span e more) := by
  have hzip : List.Forall₂ (fun (q : String × ParseTree) r => q.1 = r.1 ∧
      ∃ span, IsExpr depth q.2 span r.2) ((List.replicate others.length op).zip others) more := by
    clear hne
    induction hmore with
    | nil => exact .nil
    | cons h _ ih => exact .cons ⟨h.1.symm, h.2⟩ ih
  rw [Ebnf.foldLeft, if_neg (by simpa using hne)]
  simp only [List.mem_cons, Prod.mk.injEq, List.not_mem_nil, or_false] at hlabel
  rcases hlabel with ⟨rfl, rfl⟩ | ⟨rfl, rfl⟩ | ⟨rfl, rfl⟩ <;>
    exact .make rfl (by decide) fun limit => builds_foldLeft hfirst hzip

theorem IsExpr.comparison {first : ParseTree} {pairs : List (ParseTree × ParseTree)}
    {more : List (String × Expr)} (hne : more ≠ []) (hfirst : IsExpr depth first place e)
    (hmore : List.Forall₂ (fun q r => comparisonOp q.1 = .ok r.1 ∧
      ∃ span, IsExpr depth q.2 span r.2) pairs more) :
    IsExpr (depth + 1) (.tree .comparison span (first :: pairs.flatMap fun q => [q.1, q.2])) span
      (compareChain span e more) := by
  have hops : (pairs.map Prod.fst).mapM comparisonOp = .ok (more.map Prod.fst) :=
    mapM_eq_ok (List.forall₂_map_left_iff.mpr
      (List.forall₂_map_right_iff.mpr (hmore.imp fun _ _ h => h.1)))
  have hexprs : Exprs depth (pairs.map Prod.snd) (more.map Prod.snd) :=
    List.forall₂_map_left_iff.mpr (List.forall₂_map_right_iff.mpr (hmore.imp fun _ _ h => h.2))
  rw [compareChain, if_neg (by simpa using hne)]
  refine .make rfl (by decide) fun limit => ?_
  show Builds _ (TreeBuilder.comparison (expr limit) span
    (everySecond (first :: pairs.flatMap fun q => [q.1, q.2]))
    (everySecond (pairs.flatMap fun q => [q.1, q.2]))) _
  rw [everySecond_pairs, everySecond_tail_pairs]
  exact .look hops <| .look rfl <| .bind (hfirst.node limit) fun _ =>
    .bind (hexprs.builds limit) fun _ => .pure _

end TreeBuilder

namespace Ebnf

open TreeBuilder

variable {depth : Nat}

/-- A phrase of one phrase is built as that one is. -/
theorem Alternative.sound_forward {n m : Nonterminal} {a : Alternative n}
    {parts : Derivations a.body} {d : Derivation (ph m)} (hd : d.Sound depth)
    (houtline : a.outline.yieldsChild = true)
    (htrees : parts.trees a.keepsWords = d.trees false ++ [])
    (hmeets : ∀ tree, Meets m depth tree (spanOf d.tokens) d.value →
      Meets n (depth + 1) tree (spanOf parts.tokens) (a.build (spanOf parts.tokens) parts.values)) :
    (Derivation.node a parts).Sound (depth + 1) := by
  obtain ⟨tree, htree, h⟩ := hd.phrase
  exact sound_pass houtline (htrees.trans (by rw [htree]; rfl)) (hmeets tree h)

section Optional

variable {n : Nonterminal} {get : n.Value → Expr}

theorem Derivation.Sound.optional {d : Derivation (.opt [ph n])} (hd : d.Sound depth)
    (hget : ∀ tree span v, Meets n depth tree span v → IsExpr depth tree span (get v)) :
    IsOptExpr depth (d.trees false)
      (Option.map (fun v : Values [ph n] => get v.1.value) d.value) := by
  match d, hd with
  | .absent, _ => exact .missing
  | .present (.row1 x), ⟨hx, _⟩ =>
    obtain ⟨tree, htree, hx⟩ := hx.phrase
    have htrees : (Derivation.present (.row1 x)).trees false = [tree] := by
      simp [Derivation.trees, htree]
    rw [htrees]
    exact .present (hget _ _ _ hx)

theorem Derivation.Sound.optionalSecond {kind : Kind} {d : Derivation (.opt [tk kind, ph n])}
    (hd : d.Sound depth) (hkind : kind.isNamed = false)
    (hget : ∀ tree span v, Meets n depth tree span v → IsExpr depth tree span (get v)) :
    IsOptExpr depth (d.trees false)
      (Option.map (fun v : Values [tk kind, ph n] => get v.2.1.value) d.value) := by
  match d, hd with
  | .absent, _ => exact .missing
  | .present (.row2 t x), ⟨_, hx, _⟩ =>
    obtain ⟨tree, htree, hx⟩ := hx.phrase
    have htrees : (Derivation.present (.row2 t x)).trees false = [tree] := by
      simp [Derivation.trees, hkind, htree]
    rw [htrees]
    exact .present (hget _ _ _ hx)

end Optional

theorem keeps_testlist : ∀ a : Alternative .testlist, a.Keeps
  | .testlist, _, .row1 d, ⟨hd, _⟩ =>
    Alternative.sound_forward hd rfl rfl fun _ => IsExpr.succ
  | .testTuple, _, .row2 x (.plus y zs), ⟨hx, hyzs, _⟩ => by
    obtain ⟨first, hfirst, hexprs⟩ := Exprs.of_listed hx (e := .more y zs) hyzs rfl fun _ _ _ h => h
    have hchildren : Derivations.trees false (.row2 x (.plus y zs)) =
        first :: (Derivation.more y zs).trees false := by
      simp [Derivation.trees, hfirst]
    exact Alternative.sound_node rfl hchildren (Exprs.array hexprs (.inl rfl))

theorem keeps_exprlist : ∀ a : Alternative .exprlist, a.Keeps
  | .exprlist, _, .row1 d, ⟨hd, _⟩ =>
    Alternative.sound_forward hd rfl rfl fun _ => IsExpr.succ
  | .exprTuple, _, .row2 x (.plus y zs), ⟨hx, hyzs, _⟩ => by
    obtain ⟨first, hfirst, hexprs⟩ := Exprs.of_listed hx (e := .more y zs) hyzs rfl fun _ _ _ h => h
    have hchildren : Derivations.trees false (.row2 x (.plus y zs)) =
        first :: (Derivation.more y zs).trees false := by
      simp [Derivation.trees, hfirst]
    exact Alternative.sound_node rfl hchildren (Exprs.array hexprs (.inl rfl))

theorem keeps_test : ∀ a : Alternative .test, a.Keeps
  | .test, _, .row1 d, ⟨hd, _⟩ | .testLambdef, _, .row1 d, ⟨hd, _⟩ =>
    Alternative.sound_forward hd rfl rfl fun _ => IsExpr.succ
  | .ternary, _, .row5 x i y j z, ⟨hx, _, hy, _, hz, _⟩ => by
    obtain ⟨body, hbody, hx⟩ := hx.phrase
    obtain ⟨test, htest, hy⟩ := hy.phrase
    obtain ⟨orelse, horelse, hz⟩ := hz.phrase
    have hchildren : Derivations.trees false (.row5 x i y j z) = [body, test, orelse] := by
      simp [Kind.isNamed, hbody, htest, horelse]
    refine Alternative.sound_node rfl hchildren (IsExpr.make rfl (by decide) fun limit => ?_)
    exact .look rfl <| .bind (IsExpr.node hx limit) fun _ =>
      .look rfl <| .bind (IsExpr.node hy limit) fun _ =>
      .look rfl <| .bind (IsExpr.node hz limit) fun _ => .pure _

theorem keeps_lambdef : ∀ a : Alternative .lambdef, a.Keeps
  | .lambdef, _, .row4 l .absent c x, ⟨_, _, _, hx, _⟩ => by
    obtain ⟨body, hbody, hx⟩ := hx.phrase
    have hchildren : Derivations.trees false
        (.row4 l (.absent : Derivation (.opt [ph .parameters])) c x) = [body] := by
      simp [Derivation.trees, Kind.isNamed, hbody]
    refine Alternative.sound_node rfl hchildren (IsExpr.make rfl (by decide) fun limit => ?_)
    exact .bind (.pure _) fun _ => .look rfl <| .bind (IsExpr.node hx limit) fun _ => .pure _
  | .lambdef, _, .row4 l (.present (.row1 ps)) c x, ⟨_, ⟨hps, _⟩, _, hx, _⟩ => by
    obtain ⟨_, hparams, span, items, rfl, hps⟩ := hps.phrase
    obtain ⟨body, hbody, hx⟩ := hx.phrase
    have hchildren : Derivations.trees false (.row4 l (.present (.row1 ps)) c x) =
        [.tree .parameters span items, body] := by
      simp [Derivation.trees, Kind.isNamed, hparams, hbody]
    refine Alternative.sound_node rfl hchildren (IsExpr.make rfl (by decide) fun limit => ?_)
    exact .bind (hps limit) fun _ => .look rfl <| .bind (IsExpr.node hx limit) fun _ => .pure _

theorem keeps_orTest : ∀ a : Alternative .orTest, a.Keeps
  | .orTest, _, .row2 x .done, ⟨hx, _⟩ =>
    Alternative.sound_forward hx rfl rfl fun _ => IsExpr.succ
  | .orTest, _, .row2 x (.more y zs), ⟨hx, hyzs, _⟩ => by
    obtain ⟨first, hfirst, hexprs⟩ := Exprs.of_listed hx hyzs rfl fun _ _ _ h => h
    have hchildren : Derivations.trees false (.row2 x (.more y zs)) =
        first :: (Derivation.more y zs).trees false := by simp [hfirst]
    refine Alternative.sound_thin rfl hchildren hexprs.tail_ne_nil
      (.make rfl (by decide) fun limit => ?_)
    exact .bind (hexprs.builds limit) fun _ => .pure _

theorem keeps_andTest : ∀ a : Alternative .andTest, a.Keeps
  | .andTest, _, .row2 x .done, ⟨hx, _⟩ =>
    Alternative.sound_forward hx rfl rfl fun _ => IsExpr.succ
  | .andTest, _, .row2 x (.more y zs), ⟨hx, hyzs, _⟩ => by
    obtain ⟨first, hfirst, hexprs⟩ := Exprs.of_listed hx hyzs rfl fun _ _ _ h => h
    have hchildren : Derivations.trees false (.row2 x (.more y zs)) =
        first :: (Derivation.more y zs).trees false := by simp [hfirst]
    refine Alternative.sound_thin rfl hchildren hexprs.tail_ne_nil
      (.make rfl (by decide) fun limit => ?_)
    exact .bind (hexprs.builds limit) fun _ => .pure _

theorem keeps_notTest : ∀ a : Alternative .notTest, a.Keeps
  | .notTest, _, .row1 d, ⟨hd, _⟩ =>
    Alternative.sound_forward hd rfl rfl fun _ => IsExpr.succ
  | .notOp, _, .row2 w x, ⟨_, hx, _⟩ => by
    obtain ⟨operand, hoperand, hx⟩ := hx.phrase
    have hchildren : Derivations.trees false (.row2 w x) = [operand] := by
      simp [Kind.isNamed, hoperand]
    refine Alternative.sound_node rfl hchildren (IsExpr.make rfl (by decide) fun limit => ?_)
    exact .look rfl <| .bind (IsExpr.node hx limit) fun _ => .pure _

/-! ## Operators -/

theorem keeps_compOp : ∀ a : Alternative .compOp, a.Keeps
  | .compRelation, _, .row1 t, _ =>
    have hchildren : Derivations.trees true (.row1 t) = [.token t.value] := by simp
    Alternative.sound_node rfl hchildren rfl
  | .compIn, _, .row1 t, ⟨ht, _⟩ =>
    have hchildren : Derivations.trees true (.row1 t) = [.token t.value] := by simp
    Alternative.sound_node rfl hchildren (congrArg Except.ok (ht.text "in" rfl (by decide)))
  | .compIs, _, .row1 t, ⟨ht, _⟩ =>
    have hchildren : Derivations.trees true (.row1 t) = [.token t.value] := by simp
    Alternative.sound_node rfl hchildren (congrArg Except.ok (ht.text "is" rfl (by decide)))
  | .compNotIn, _, .row2 t u, ⟨ht, hu, _⟩ => by
    have hchildren : Derivations.trees true (.row2 t u) = [.token t.value, .token u.value] := by
      simp
    have hwords : " ".intercalate [Token.text t.value, Token.text u.value] = "not in" := by
      rw [ht.text "not" rfl (by decide), hu.text "in" rfl (by decide)]
      rfl
    exact Alternative.sound_node rfl hchildren (congrArg Except.ok hwords)
  | .compIsNot, _, .row2 t u, ⟨ht, hu, _⟩ => by
    have hchildren : Derivations.trees true (.row2 t u) = [.token t.value, .token u.value] := by
      simp
    have hwords : " ".intercalate [Token.text t.value, Token.text u.value] = "is not" := by
      rw [ht.text "is" rfl (by decide), hu.text "not" rfl (by decide)]
      rfl
    exact Alternative.sound_node rfl hchildren (congrArg Except.ok hwords)

theorem keeps_shiftOp : ∀ a : Alternative .shiftOp, a.Keeps
  | .shiftOp, _, .row1 t, _ =>
    have hchildren : Derivations.trees true (.row1 t) = [.token t.value] := by simp
    Alternative.sound_node rfl hchildren rfl

theorem keeps_addOp : ∀ a : Alternative .addOp, a.Keeps
  | .addOp, _, .row1 t, _ =>
    have hchildren : Derivations.trees true (.row1 t) = [.token t.value] := by simp
    Alternative.sound_node rfl hchildren rfl

theorem keeps_mulOp : ∀ a : Alternative .mulOp, a.Keeps
  | .mulStar, _, .row1 t, _ | .mulDivide, _, .row1 t, _ =>
    have hchildren : Derivations.trees true (.row1 t) = [.token t.value] := by simp
    Alternative.sound_node rfl hchildren rfl

theorem keeps_unaryOp : ∀ a : Alternative .unaryOp, a.Keeps
  | .unarySign, _, .row1 t, _ | .unaryTilde, _, .row1 t, _ =>
    have hchildren : Derivations.trees true (.row1 t) = [.token t.value] := by simp
    Alternative.sound_node rfl hchildren rfl

/-- Operators and operands in turn, with what is read off the operators. -/
theorem Derivation.Sound.operands {m n : Nonterminal} {d : Derivation (.many [ph m, ph n])}
    (hd : d.Sound depth) (read : ParseTree → Result String) {op : m.Value → String}
    {get : n.Value → Expr}
    (hop : ∀ tree span v, Meets m depth tree span v → read tree = .ok (op v))
    (hget : ∀ tree span v, Meets n depth tree span v → IsExpr depth tree span (get v)) :
    ∃ pairs : List (ParseTree × ParseTree), d.trees false = pairs.flatMap (fun q => [q.1, q.2]) ∧
      List.Forall₂ (fun q r => read q.1 = .ok r.1 ∧ ∃ span, IsExpr depth q.2 span r.2) pairs
        (List.map (fun v : Values [ph m, ph n] => (op v.1.value, get v.2.1.value)) d.value) := by
  obtain ⟨pairs, htrees, hall⟩ := hd.pairs
  refine ⟨pairs, htrees, List.forall₂_map_right_iff.mpr (hall.imp fun _ _ h => ?_)⟩
  exact ⟨hop _ _ _ h.1, _, hget _ _ _ h.2⟩

/-- Operands behind one operator, which is spelled as its kind says. -/
theorem Derivation.Sound.bits {kind : Kind} {n : Nonterminal}
    {d : Derivation (.many [tk kind, ph n])} (hd : d.Sound depth) (op : String)
    (hkind : kind.isNamed = false) (hopen : kind.isOpen = false)
    (hentry : ∀ entry ∈ Token.keywords ++ Token.operators, entry.2 = kind → entry.1 = op)
    {get : n.Value → Expr}
    (hget : ∀ tree span v, Meets n depth tree span v → IsExpr depth tree span (get v)) :
    List.Forall₂ (fun tree r => r.1 = op ∧ ∃ span, IsExpr depth tree span r.2) (d.trees false)
      (List.map (fun v : Values [tk kind, ph n] => (v.1.value.text, get v.2.1.value)) d.value) :=
  List.forall₂_map_right_iff.mpr ((hd.seconds hkind).imp fun _ _ h =>
    ⟨text_of_spelled h.2.1 h.1 hopen hentry, _, hget _ _ _ h.2.2⟩)

theorem keeps_comparison : ∀ a : Alternative .comparison, a.Keeps
  | .comparison, _, .row2 x .done, ⟨hx, _⟩ =>
    Alternative.sound_forward hx rfl rfl fun _ => IsExpr.succ
  | .comparison, _, .row2 x (.more y zs), ⟨hx, hyzs, _⟩ => by
    obtain ⟨first, hfirst, hx⟩ := hx.phrase
    obtain ⟨pairs, hpairs, hmore⟩ := hyzs.operands comparisonOp (fun _ _ _ h => h) fun _ _ _ h => h
    have hchildren : Derivations.trees false (.row2 x (.more y zs)) =
        first :: pairs.flatMap fun q => [q.1, q.2] := by simp [hfirst, hpairs]
    exact Alternative.sound_thin rfl hchildren (flatMap_ne_nil hmore)
      (.comparison (List.cons_ne_nil _ _) hx hmore)

theorem keeps_bitorExpr : ∀ a : Alternative .bitorExpr, a.Keeps
  | .bitorExpr, _, .row2 x .done, ⟨hx, _⟩ =>
    Alternative.sound_forward hx rfl rfl fun _ => IsExpr.succ
  | .bitorExpr, _, .row2 x (.more y zs), ⟨hx, hyzs, _⟩ => by
    obtain ⟨first, hfirst, hx⟩ := hx.phrase
    have hmore := hyzs.bits "|" rfl rfl (by decide) fun _ _ _ h => h
    have hchildren : Derivations.trees false (.row2 x (.more y zs)) =
        first :: (Derivation.more y zs).trees false := by simp [hfirst]
    exact Alternative.sound_thin rfl hchildren (ne_nil_of_forall₂ hmore)
      (.bits (by decide) (List.cons_ne_nil _ _) hx hmore)

theorem keeps_bitxorExpr : ∀ a : Alternative .bitxorExpr, a.Keeps
  | .bitxorExpr, _, .row2 x .done, ⟨hx, _⟩ =>
    Alternative.sound_forward hx rfl rfl fun _ => IsExpr.succ
  | .bitxorExpr, _, .row2 x (.more y zs), ⟨hx, hyzs, _⟩ => by
    obtain ⟨first, hfirst, hx⟩ := hx.phrase
    have hmore := hyzs.bits "^" rfl rfl (by decide) fun _ _ _ h => h
    have hchildren : Derivations.trees false (.row2 x (.more y zs)) =
        first :: (Derivation.more y zs).trees false := by simp [hfirst]
    exact Alternative.sound_thin rfl hchildren (ne_nil_of_forall₂ hmore)
      (.bits (by decide) (List.cons_ne_nil _ _) hx hmore)

theorem keeps_bitandExpr : ∀ a : Alternative .bitandExpr, a.Keeps
  | .bitandExpr, _, .row2 x .done, ⟨hx, _⟩ =>
    Alternative.sound_forward hx rfl rfl fun _ => IsExpr.succ
  | .bitandExpr, _, .row2 x (.more y zs), ⟨hx, hyzs, _⟩ => by
    obtain ⟨first, hfirst, hx⟩ := hx.phrase
    have hmore := hyzs.bits "&" rfl rfl (by decide) fun _ _ _ h => h
    have hchildren : Derivations.trees false (.row2 x (.more y zs)) =
        first :: (Derivation.more y zs).trees false := by simp [hfirst]
    exact Alternative.sound_thin rfl hchildren (ne_nil_of_forall₂ hmore)
      (.bits (by decide) (List.cons_ne_nil _ _) hx hmore)

theorem keeps_shiftExpr : ∀ a : Alternative .shiftExpr, a.Keeps
  | .shiftExpr, _, .row2 x .done, ⟨hx, _⟩ =>
    Alternative.sound_forward hx rfl rfl fun _ => IsExpr.succ
  | .shiftExpr, _, .row2 x (.more y zs), ⟨hx, hyzs, _⟩ => by
    obtain ⟨first, hfirst, hx⟩ := hx.phrase
    obtain ⟨pairs, hpairs, hmore⟩ := hyzs.operands operator (fun _ _ _ h => h) fun _ _ _ h => h
    have hchildren : Derivations.trees false (.row2 x (.more y zs)) =
        first :: pairs.flatMap fun q => [q.1, q.2] := by simp [hfirst, hpairs]
    exact Alternative.sound_thin rfl hchildren (flatMap_ne_nil hmore)
      (.chain (.inl rfl) (List.cons_ne_nil _ _) hx hmore)

theorem keeps_arithExpr : ∀ a : Alternative .arithExpr, a.Keeps
  | .arithExpr, _, .row2 x .done, ⟨hx, _⟩ =>
    Alternative.sound_forward hx rfl rfl fun _ => IsExpr.succ
  | .arithExpr, _, .row2 x (.more y zs), ⟨hx, hyzs, _⟩ => by
    obtain ⟨first, hfirst, hx⟩ := hx.phrase
    obtain ⟨pairs, hpairs, hmore⟩ := hyzs.operands operator (fun _ _ _ h => h) fun _ _ _ h => h
    have hchildren : Derivations.trees false (.row2 x (.more y zs)) =
        first :: pairs.flatMap fun q => [q.1, q.2] := by simp [hfirst, hpairs]
    exact Alternative.sound_thin rfl hchildren (flatMap_ne_nil hmore)
      (.chain (.inr (.inl rfl)) (List.cons_ne_nil _ _) hx hmore)

theorem keeps_term : ∀ a : Alternative .term, a.Keeps
  | .term, _, .row2 x .done, ⟨hx, _⟩ =>
    Alternative.sound_forward hx rfl rfl fun _ => IsExpr.succ
  | .term, _, .row2 x (.more y zs), ⟨hx, hyzs, _⟩ => by
    obtain ⟨first, hfirst, hx⟩ := hx.phrase
    obtain ⟨pairs, hpairs, hmore⟩ := hyzs.operands operator (fun _ _ _ h => h) fun _ _ _ h => h
    have hchildren : Derivations.trees false (.row2 x (.more y zs)) =
        first :: pairs.flatMap fun q => [q.1, q.2] := by simp [hfirst, hpairs]
    exact Alternative.sound_thin rfl hchildren (flatMap_ne_nil hmore)
      (.chain (.inr (.inr rfl)) (List.cons_ne_nil _ _) hx hmore)

theorem keeps_factor : ∀ a : Alternative .factor, a.Keeps
  | .factorPower, _, .row1 d, ⟨hd, _⟩ =>
    Alternative.sound_forward hd rfl rfl fun _ => IsExpr.succ
  | .factorUnary, _, .row2 o x, ⟨ho, hx, _⟩ => by
    obtain ⟨op, hop, ho⟩ := ho.phrase
    obtain ⟨operand, hoperand, hx⟩ := hx.phrase
    have hchildren : Derivations.trees false (.row2 o x) = [op, operand] := by
      simp [hop, hoperand]
    refine Alternative.sound_thin rfl hchildren (List.cons_ne_nil _ _)
      (IsExpr.make rfl (by decide) fun limit => ?_)
    exact .look rfl <| .look ho <| .look rfl <| .bind (IsExpr.node hx limit) fun _ => .pure _

theorem keeps_power : ∀ a : Alternative .power, a.Keeps
  | .power, _, .row2 x .absent, ⟨hx, _⟩ =>
    Alternative.sound_forward hx rfl rfl fun _ => IsExpr.succ
  | .power, _, .row2 x (.present (.row2 o y)), ⟨hx, ⟨_, hy, _⟩, _⟩ => by
    obtain ⟨left, hleft, hx⟩ := hx.phrase
    obtain ⟨right, hright, hy⟩ := hy.phrase
    have hchildren : Derivations.trees false (.row2 x (.present (.row2 o y))) = [left, right] := by
      simp [Derivation.trees, Kind.isNamed, hleft, hright]
    refine Alternative.sound_thin rfl hchildren (List.cons_ne_nil _ _)
      (IsExpr.make rfl (by decide) fun limit => ?_)
    exact .look rfl <| .bind (IsExpr.node hx limit) fun _ =>
      .look rfl <| .bind (IsExpr.node hy limit) fun _ => .pure _

/-! ## Calls, subscripts and attributes -/

theorem keeps_argument : ∀ a : Alternative .argument, a.Keeps
  | .argument, _, .row1 d, ⟨hd, _⟩ =>
    Alternative.sound_forward hd rfl rfl fun _ (h : IsExpr _ _ _ _) limit =>
      (h.argument_eq _).symm ▸ h.succ.node limit
  | .starArg, _, .row2 s x, ⟨_, hx, _⟩ | .kwstarArg, _, .row2 s x, ⟨_, hx, _⟩ => by
    obtain ⟨value, hvalue, hx⟩ := hx.phrase
    have hchildren : Derivations.trees false (.row2 s x) = [value] := by
      simp [Kind.isNamed, hvalue]
    refine Alternative.sound_node rfl hchildren fun limit => ?_
    exact .look rfl <| .bind (IsExpr.node (IsExpr.succ hx) limit) fun _ => .pure _
  | .kwarg, _, .row3 x e y, ⟨hx, _, hy, _⟩ => by
    obtain ⟨key, hkey, hx⟩ := hx.phrase
    obtain ⟨value, hvalue, hy⟩ := hy.phrase
    have hchildren : Derivations.trees false (.row3 x e y) = [key, value] := by
      simp [Kind.isNamed, hkey, hvalue]
    exact Alternative.sound_node rfl hchildren fun limit =>
      (builds_kwarg hx hy limit).weaken Nat.le_of_succ_le

theorem keeps_arguments : ∀ a : Alternative .arguments, a.Keeps
  | .arguments, depth, .row2 x zs, ⟨hx, hzs, _⟩ => by
    obtain ⟨first, hfirst, hall⟩ := hx.listed rfl hzs (R := fun tree v =>
      ∀ limit, Builds (depth ≤ limit) (argument (expr limit) tree) v) fun _ _ _ h => h
    have hchildren : Derivations.trees false (.row2 x zs) = first :: zs.trees false := by
      simp [hfirst]
    refine Alternative.sound_node rfl hchildren ⟨_, _, rfl, fun limit => ?_⟩
    exact .look rfl <| .weaken (.mapM (hall.imp fun _ _ h => h limit)) Nat.le_of_succ_le

theorem keeps_subscript : ∀ a : Alternative .subscript, a.Keeps
  | .subscript, _, .row1 d, ⟨hd, _⟩ =>
    Alternative.sound_forward hd rfl rfl fun _ (h : IsExpr _ _ _ _) limit => h.succ.node limit
  | .sliceFull, _, .row3 x c y, ⟨hx, _, hy, _⟩ => by
    obtain ⟨lower, hlower, hx⟩ := hx.phrase
    obtain ⟨upper, hupper, hy⟩ := hy.phrase
    have hchildren : Derivations.trees false (.row3 x c y) = [lower, upper] := by
      simp [Kind.isNamed, hlower, hupper]
    refine Alternative.sound_node rfl hchildren (builds_expr fun limit => ?_)
    show Builds _ _ (slice _ (some x.value) (some y.value))
    simp only [slice, Grammar.optional, bind_assoc, pure_bind]
    exact .look rfl <| .bind (IsExpr.node hx limit) fun _ =>
      .look rfl <| .bind (IsExpr.node hy limit) fun _ => .pure _
  | .sliceLower, _, .row2 x c, ⟨hx, _, _⟩ => by
    obtain ⟨lower, hlower, hx⟩ := hx.phrase
    have hchildren : Derivations.trees false (.row2 x c) = [lower] := by
      simp [Kind.isNamed, hlower]
    refine Alternative.sound_node rfl hchildren (builds_expr fun limit => ?_)
    show Builds _ _ (slice _ (some x.value) none)
    simp only [slice, Grammar.optional, bind_assoc, pure_bind]
    exact .look rfl <| .bind (IsExpr.node hx limit) fun _ => .pure _
  | .sliceUpper, _, .row2 c x, ⟨_, hx, _⟩ => by
    obtain ⟨upper, hupper, hx⟩ := hx.phrase
    have hchildren : Derivations.trees false (.row2 c x) = [upper] := by
      simp [Kind.isNamed, hupper]
    refine Alternative.sound_node rfl hchildren (builds_expr fun limit => ?_)
    show Builds _ _ (slice _ none (some x.value))
    simp only [slice, Grammar.optional, bind_assoc, pure_bind]
    exact .look rfl <| .bind (IsExpr.node hx limit) fun _ => .pure _
  | .sliceAll, _, .row1 c, _ => by
    have hchildren : Derivations.trees false (.row1 c) = [] := by simp [Kind.isNamed]
    exact Alternative.sound_node rfl hchildren (builds_expr fun limit => .pure _)

theorem keeps_atomExpr : ∀ a : Alternative .atomExpr, a.Keeps
  | .atomExpr, _, .row1 d, ⟨hd, _⟩ =>
    Alternative.sound_forward hd rfl rfl fun _ => IsExpr.succ
  | .call, _, .row4 x l .absent r, ⟨hx, _⟩ => by
    obtain ⟨function, hfunction, hx⟩ := hx.phrase
    have hchildren : Derivations.trees false
        (.row4 x l (.absent : Derivation (.opt [ph .arguments])) r) = [function] := by
      simp [Derivation.trees, Kind.isNamed, hfunction]
    refine Alternative.sound_node rfl hchildren (IsExpr.make rfl (by decide) fun limit => ?_)
    exact .look rfl <| .bind (IsExpr.node hx limit) fun _ => .bind (.pure []) fun _ => .pure _
  | .call, _, .row4 x l (.present (.row1 as)) r, ⟨hx, _, ⟨has, _⟩, _⟩ => by
    obtain ⟨function, hfunction, hx⟩ := hx.phrase
    obtain ⟨_, harguments, span, items, rfl, has⟩ := has.phrase
    have hchildren : Derivations.trees false (.row4 x l (.present (.row1 as)) r) =
        [function, .tree .arguments span items] := by
      simp [Derivation.trees, Kind.isNamed, hfunction, harguments]
    refine Alternative.sound_node rfl hchildren (IsExpr.make rfl (by decide) fun limit => ?_)
    exact .look rfl <| .bind (IsExpr.node hx limit) fun _ => .bind (has limit) fun _ => .pure _
  | .getitem, _, .row4 x l y r, ⟨hx, _, hy, _⟩ => by
    obtain ⟨value, hvalue, hx⟩ := hx.phrase
    obtain ⟨inner, hinner, hy⟩ := hy.phrase
    have hchildren : Derivations.trees false (.row4 x l y r) = [value, inner] := by
      simp [Kind.isNamed, hvalue, hinner]
    refine Alternative.sound_node rfl hchildren (IsExpr.make rfl (by decide) fun limit => ?_)
    exact .look rfl <| .bind (IsExpr.node hx limit) fun _ =>
      .look rfl <| .bind (hy limit) fun _ => .pure _
  | .getattr, _, .row3 x d t, ⟨hx, _⟩ => by
    obtain ⟨value, hvalue, hx⟩ := hx.phrase
    have hchildren : Derivations.trees false (.row3 x d t) = [value, .token t.value] := by
      simp [Kind.isNamed, hvalue]
    refine Alternative.sound_node rfl hchildren (IsExpr.make rfl (by decide) fun limit => ?_)
    exact .look rfl <| .bind (IsExpr.node hx limit) fun _ => .look rfl <| .look rfl <| .pure _

/-! ## Atoms -/

theorem keeps_dictItem : ∀ a : Alternative .dictItem, a.Keeps
  | .dictItem, _, .row3 x c y, ⟨hx, _, hy, _⟩ => by
    obtain ⟨key, hkey, hx⟩ := hx.phrase
    obtain ⟨value, hvalue, hy⟩ := hy.phrase
    have hchildren : Derivations.trees false (.row3 x c y) = [key, value] := by
      simp [Kind.isNamed, hkey, hvalue]
    exact Alternative.sound_node rfl hchildren
      ⟨_, _, rfl, _, _, _, _, rfl, IsExpr.succ hx, IsExpr.succ hy⟩

theorem keeps_compIf : ∀ a : Alternative .compIf, a.Keeps
  | .compIf, _, .row2 i x, ⟨_, hx, _⟩ => by
    obtain ⟨test, htest, hx⟩ := hx.phrase
    have hchildren : Derivations.trees false (.row2 i x) = [test] := by
      simp [Kind.isNamed, htest]
    exact Alternative.sound_node rfl hchildren ⟨_, _, rfl, _, _, rfl, IsExpr.succ hx⟩

theorem keeps_compFor : ∀ a : Alternative .compFor, a.Keeps
  | .compFor, _, .row5 f x i y .absent, ⟨_, hx, _, hy, _⟩ => by
    obtain ⟨target, htarget, hx⟩ := hx.phrase
    obtain ⟨iterable, hiterable, hy⟩ := hy.phrase
    have hchildren : Derivations.trees false
        (.row5 f x i y (.absent : Derivation (.opt [ph .compIf]))) = [target, iterable] := by
      simp [Derivation.trees, Kind.isNamed, htarget, hiterable]
    exact Alternative.sound_node rfl hchildren
      (builds_comprehension (IsExpr.succ hx) (IsExpr.succ hy) fun _ => .pure [])
  | .compFor, _, .row5 f x i y (.present (.row1 z)), ⟨_, hx, _, hy, ⟨hz, _⟩, _⟩ => by
    obtain ⟨target, htarget, hx⟩ := hx.phrase
    obtain ⟨iterable, hiterable, hy⟩ := hy.phrase
    obtain ⟨_, hcondition, span, _, rfl, test, place, rfl, hz⟩ := hz.phrase
    have hchildren : Derivations.trees false (.row5 f x i y (.present (.row1 z))) =
        [target, iterable, .tree .compIf span [test]] := by
      simp [Derivation.trees, Kind.isNamed, htarget, hiterable, hcondition]
    exact Alternative.sound_node rfl hchildren
      (builds_comprehension (IsExpr.succ hx) (IsExpr.succ hy) fun limit =>
        .look rfl <| .bind (hz.succ.node limit) fun _ => .pure _)

/-- The texts of string literals, one after the other. -/
theorem wordOf_strings : ∀ ds : Derivation (.many [.either [tk .string] [tk .longString]]),
    List.Forall₂ (fun tree (v : Values [.either [tk .string] [tk .longString]]) =>
      wordOf tree = .ok (match v with
        | (⟨_, .inl (t, _)⟩, _) | (⟨_, .inr (t, _)⟩, _) => t.value.text)) (ds.trees false) ds.value
  | .done => .nil
  | .more (.row1 (.left (.row1 t))) rest => by
    have htrees : (Derivation.more (.row1 (.left (.row1 t))) rest).trees false =
        .token t.value :: rest.trees false := by
      simp [Derivation.trees, Kind.isNamed]
    rw [htrees]
    exact .cons rfl (wordOf_strings rest)
  | .more (.row1 (.right (.row1 t))) rest => by
    have htrees : (Derivation.more (.row1 (.right (.row1 t))) rest).trees false =
        .token t.value :: rest.trees false := by
      simp [Derivation.trees, Kind.isNamed]
    rw [htrees]
    exact .cons rfl (wordOf_strings rest)

theorem keeps_atom : ∀ a : Alternative .atom, a.Keeps
  | .emptyTuple, _, .row2 l r, _ =>
    Alternative.sound_node rfl rfl
      (IsExpr.make rfl (by decide) fun limit => .pure _)
  | .emptyList, _, .row2 l r, _ =>
    Alternative.sound_node rfl rfl (IsExpr.make rfl (by decide) fun limit => .pure _)
  | .emptyDict, _, .row2 l r, _ =>
    Alternative.sound_node rfl rfl (IsExpr.make rfl (by decide) fun limit => .pure _)
  | .paren, _, .row3 l x r, ⟨_, hx, _⟩ => by
    obtain ⟨inner, hinner, hx⟩ := hx.phrase
    have hchildren : Derivations.trees false (.row3 l x r) = [inner] := by
      simp [Kind.isNamed, hinner]
    exact Alternative.sound_node rfl hchildren
      (IsExpr.make rfl (by decide) fun limit => .look rfl (IsExpr.node hx limit))
  | .tupleDisplay, _, .row4 l x (.plus y zs) r, ⟨_, hx, hyzs, _⟩ => by
    obtain ⟨first, hfirst, hexprs⟩ := Exprs.of_listed hx (e := .more y zs) hyzs rfl fun _ _ _ h => h
    have hchildren : Derivations.trees false (.row4 l x (.plus y zs) r) =
        first :: (Derivation.more y zs).trees false := by
      simp [Derivation.trees, Kind.isNamed, hfirst]
    exact Alternative.sound_node rfl hchildren (Exprs.array hexprs (.inr (.inl rfl)))
  | .listDisplay, _, .row4 l x ys r, ⟨_, hx, hys, _⟩ => by
    obtain ⟨first, hfirst, hexprs⟩ := Exprs.of_listed hx hys rfl fun _ _ _ h => h
    have hchildren : Derivations.trees false (.row4 l x ys r) = first :: ys.trees false := by
      simp [Kind.isNamed, hfirst]
    exact Alternative.sound_node rfl hchildren (Exprs.array hexprs (.inr (.inr rfl)))
  | .listComprehension, _, .row4 l x c r, ⟨_, hx, hc, _⟩ => by
    obtain ⟨element, helement, hx⟩ := hx.phrase
    obtain ⟨clause, hclause, hc⟩ := hc.phrase
    have hchildren : Derivations.trees false (.row4 l x c r) = [element, clause] := by
      simp [Kind.isNamed, helement, hclause]
    refine Alternative.sound_node rfl hchildren (IsExpr.make rfl (by decide) fun limit => ?_)
    exact .look rfl <| hc _ _ _ _ _ none (.look rfl (IsExpr.node hx limit)) (.pure [])
  | .dictComprehension, _, .row4 l x c r, ⟨_, hx, hc, _⟩ => by
    obtain ⟨_, hitem, span, _, rfl, key, value, _, _, rfl, hkey, hvalue⟩ := hx.phrase
    obtain ⟨clause, hclause, hc⟩ := hc.phrase
    have hchildren : Derivations.trees false (.row4 l x c r) =
        [.tree .dictItem span [key, value], clause] := by
      simp [Kind.isNamed, hitem, hclause]
    refine Alternative.sound_node rfl hchildren (IsExpr.make rfl (by decide) fun limit => ?_)
    exact hc _ _ _ _ _ (some _) (.look rfl <| .look rfl <| hkey.node limit)
      (.look rfl <| .look rfl <| .bind (hvalue.node limit) fun _ => .pure _)
  | .dictDisplay, depth, .row4 l x ys r, ⟨_, hx, hys, _⟩ => by
    obtain ⟨first, hfirst, hitems⟩ := hx.listed rfl hys
      (R := fun tree v => IsNode .dictItem (IsItem depth v) tree) fun _ _ _ h => h
    have hchildren : Derivations.trees false (.row4 l x ys r) = first :: ys.trees false := by
      simp [Kind.isNamed, hfirst]
    exact Alternative.sound_node rfl hchildren (IsExpr.dict hitems)
  | .var, _, .row1 t, _ => by
    have hchildren : Derivations.trees false (.row1 t) = [.token t.value] := by
      simp [Kind.isNamed]
    exact Alternative.sound_node rfl hchildren
      ⟨⟨_, _, rfl, rfl⟩, ⟨_, _, rfl, rfl⟩,
        builds_expr fun limit => .look rfl <| .look rfl <| .pure _⟩
  | .number, _, .row1 t, _ => by
    have hchildren : Derivations.trees false (.row1 t) = [.token t.value] := by
      simp [Kind.isNamed]
    exact Alternative.sound_node rfl hchildren <|
      IsExpr.make rfl (by decide) fun limit => .look rfl <| .look rfl <| .pure _
  | .string, _, .row1 (.plus d ds), _ => by
    have htexts := mapM_eq_ok (List.forall₂_map_right_iff.mpr (wordOf_strings (.more d ds)))
    have hchildren : Derivations.trees false (.row1 (.plus d ds)) =
        (Derivation.more d ds).trees false := by simp [Derivation.trees]
    exact Alternative.sound_node rfl hchildren
      (IsExpr.make rfl (by decide) fun limit => .look htexts <| .pure _)
  | .constNone, _, .row1 t, _ | .constTrue, _, .row1 t, _ | .constFalse, _, .row1 t, _ =>
    Alternative.sound_node rfl rfl (IsExpr.make rfl (by decide) fun limit => .pure _)

/-! ## Parameters -/

theorem keeps_param : ∀ a : Alternative .param, a.Keeps
  | .param, _, .row2 t d, ⟨_, hd, _⟩ => by
    have hchildren : Derivations.trees false (.row2 t d) = .token t.value :: d.trees false := by
      simp [Kind.isNamed]
    refine Alternative.sound_node rfl hchildren ⟨⟨_, _, _⟩, rfl, fun limit => ?_⟩
    have hdefault := hd.optionalSecond rfl fun _ _ _ h => h
    refine .weaken (.look (nth_names_name t _) ?_) Nat.le_of_succ_le
    show Builds _ (optional _ ((branches (d.trees false)).head?.map Branch.tree) >>= _) _
    rw [← t.spanOf_token, hdefault.head_branches]
    exact .bind (hdefault.builds limit) fun _ => .pure _
  | .starParam, _, .row2 s t, _ | .kwstarParam, _, .row2 s t, _ => by
    have hchildren : Derivations.trees false (.row2 s t) = [.token t.value] := by
      simp [Kind.isNamed]
    refine Alternative.sound_node rfl hchildren ⟨⟨_, _, _⟩, rfl, fun limit => ?_⟩
    refine .look (nth_names_name t _) ?_
    rw [← t.spanOf_token]
    exact .pure _

theorem keeps_parameters : ∀ a : Alternative .parameters, a.Keeps
  | .parameters, depth, .row2 p ps, ⟨hp, hps, _⟩ => by
    obtain ⟨first, hfirst, hall⟩ := hp.listed rfl hps
      (R := fun tree v => IsBranch (IsParam depth v) tree) fun _ _ _ h => h
    have hchildren : Derivations.trees false (.row2 p ps) = first :: ps.trees false := by
      simp [hfirst]
    refine Alternative.sound_node rfl hchildren ⟨_, _, rfl, fun limit => ?_⟩
    refine .look rfl <| .weaken (.mapM ?_) Nat.le_of_succ_le
    exact (forall₂_branches hall).imp fun _ _ h => h limit

end Ebnf
end ScopeLint
