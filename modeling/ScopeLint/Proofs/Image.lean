import ScopeLint.Proofs.Factoring

/-! # Both grammars build the same tree

What a rule means can be read off the value of the item it stands for
(`Rule.meaningOf`), and every production means what is built by the derivation it
makes up. So a tree means what its derivation builds. -/
namespace ScopeLint.Grammar

open Ebnf

/-- The values behind a separator. -/
def seconds {α β γ : Type} (items : List (Located α × Located β × γ)) : List β :=
  items.map fun (_, item, _) => item.value

/-- The text of a string of either kind. -/
def stringText : Values [.either [tk .string] [tk .longString]] → String
  | (⟨_, .inl (t, _)⟩, _) | (⟨_, .inr (t, _)⟩, _) => t.value.text

def trailerOf : trailerItem.Value → Trailer
  | .inl (_, ⟨_, some (args, _)⟩, _) => .call args.value
  | .inl (_, ⟨_, none⟩, _) => .call []
  | .inr (⟨_, .inl (_, i, _)⟩, _) => .index i.value
  | .inr (⟨_, .inr (_, name, _)⟩, _) => .attribute name.value.text

def finallyOf : Option (Values [ph .finallyClause]) → Build (List Node)
  | some (body, _) => body.value
  | none => .ok []

def listRestOf : listRestItem.Value → List Expr ⊕ CompFor
  | .inl (more, _) => .inl (seconds more.value)
  | .inr (c, _) => .inr c.value

def dictRestOf : dictRestItem.Value → List (Expr × Expr) ⊕ CompFor
  | .inl (more, _) => .inl (seconds more.value)
  | .inr (c, _) => .inr c.value

/-- What a rule means, read off the value of the item that it stands for. -/
def Rule.meaningOf (r : Rule) : r.shape.Value → r.Meaning :=
  match r with
  | .lines => fun lines => lines.filterMap fun
    | (⟨_, .inl _⟩, _) => none
    | (⟨_, .inr (line, _)⟩, _) => some line.value
  | .statements => fun items => items.map fun (item, _) => item.value
  | .smalls => seconds
  | .assignments => fun
    | none => .none
    | some (⟨_, .inl (⟨_, (_, next, _), more⟩, _)⟩, _) => .plain next.value (seconds more)
    | some (⟨_, .inr (op, value, _)⟩, _) => .augmented op.value value.value
  | .moreAssignments => seconds
  | .optTestlist => Option.map fun (e, _) => e.value
  | .optTest => Option.map fun (e, _) => e.value
  | .optUpper => Option.map fun (e, _) => e.value
  | .assertMessage => Option.map fun (_, e, _) => e.value
  | .moreNames => seconds
  | .moreModuleImports => seconds
  | .members => fun
    | .inl (names, _) => names.value
    | .inr (_, names, _) => names.value
  | .moreMembers => seconds
  | .optAlias => aliasOf
  | .moreDotted => fun items => items.map fun (_, name, _) => name.value.text
  | .elifs => List.map Prod.fst
  | .optElse => elseOf
  | .tryTail => fun
    | .inl (final, _) => ⟨[], .ok [], final.value⟩
    | .inr (⟨_, first, others⟩, orelse, final, _) =>
      ⟨(first :: others).map fun (h, _) => h.value, elseOf orelse.value, finallyOf final.value⟩
  | .handlers => fun items => items.map fun (item, _) => item.value
  | .handlerHead => Option.map fun (type, asName, _) => (type.value, aliasOf asName.value)
  | .optFinally => finallyOf
  | .moreWithItems => seconds
  | .decorators => fun items => items.map fun (item, _) => item.value
  | .definition => fun
    | .inl (d, _) => d.value
    | .inr (d, _) => d.value
  | .optBases => argumentsOf
  | .optParams => parametersOf
  | .moreParams => seconds
  | .optDefault => Option.map fun (_, e, _) => e.value
  | .optKeyword => Option.map fun (_, e, _) => e.value
  | .optArguments => fun
    | some (args, _) => args.value
    | none => []
  | .moreArguments => seconds
  | .moreTests => seconds
  | .moreExprs => seconds
  | .optTernary => Option.map fun (_, condition, _, orelse, _) => (condition.value, orelse.value)
  | .moreOr => seconds
  | .moreAnd => seconds
  | .moreCompare => fun items => items.map fun (op, e, _) => (op.value, e.value)
  | .optNot => Option.isSome
  | .moreBitOr => fun items => items.map fun (op, e, _) => (op.value.text, e.value)
  | .moreBitXor => fun items => items.map fun (op, e, _) => (op.value.text, e.value)
  | .moreBitAnd => fun items => items.map fun (op, e, _) => (op.value.text, e.value)
  | .moreShift => fun items => items.map fun (op, e, _) => (op.value, e.value)
  | .moreArith => fun items => items.map fun (op, e, _) => (op.value, e.value)
  | .moreTerm => fun items => items.map fun (op, e, _) => (op.value, e.value)
  | .optPower => Option.map fun (_, e, _) => e.value
  | .trailers => fun items => items.map fun (t, _) => ⟨t.span, trailerOf t.value⟩
  | .trailer => trailerOf
  | .optSlice => Option.map fun (_, upper, _) => upper.value.map fun (e, _) => e.value
  | .parenTail => fun
    | .inl _ => none
    | .inr (first, more, _) => some (first.value, seconds more.value)
  | .listTail => fun
    | .inl _ => none
    | .inr (first, rest, _) => some (first.value, listRestOf rest.value)
  | .listRest => listRestOf
  | .dictTail => fun
    | .inl _ => none
    | .inr (first, rest, _) => some (first.value, dictRestOf rest.value)
  | .dictRest => dictRestOf
  | .moreDictItems => seconds
  | .optCondition => Option.map fun (e, _) => e.value
  | .moreStrings => List.map stringText
  | .file => id
  | .statement => id
  | .suite => id
  | .simple => id
  | .small => id
  | .moduleImport => id
  | .member => id
  | .dotted => id
  | .elif => id
  | .handler => id
  | .withItem => id
  | .decorator => id
  | .param => id
  | .argument => id
  | .testlist => id
  | .exprlist => id
  | .test => id
  | .orTest => id
  | .andTest => id
  | .notTest => id
  | .comparison => id
  | .compareOp => id
  | .bitOr => id
  | .bitXor => id
  | .bitAnd => id
  | .shiftExpr => id
  | .arith => id
  | .term => id
  | .mulOp => id
  | .factor => id
  | .power => id
  | .primary => id
  | .subscript => id
  | .atom => id
  | .dictItem => id
  | .compFor => id

def Symbol.meaningOf : (s : Symbol) → s.shape.Value → s.Meaning
  | .token _ => id
  | .rule r => r.meaningOf

/-- What the symbols of a row mean, given what they derive. -/
def Pieces.meanings : {ss : List Symbol} → Pieces ss → Meanings ss
  | [], _ => ()
  | s :: _, (d, ds) => (⟨spanOf d.tokens, s.meaningOf d.value⟩, Pieces.meanings ds)

/-! ## Chains -/

theorem foldlM_binOp (span : Span) (left : Node) (more : List (String × Expr)) :
    more.foldlM (fun left (op, e) => show Build Node from do
      return .make span (.binOp op) [[left], [← e.node]]) left = binaryFrom span left more := by
  induction more generalizing left with
  | nil => rfl
  | cons step more ih =>
    rw [List.foldlM_cons, binaryFrom, bind_assoc]
    congr 1
    funext right
    rw [pure_bind]
    exact ih _

theorem foldLeft_eq (span : Span) (first : Expr) (more : List (String × Expr)) :
    foldLeft span first more = binaryChain span first more := by
  unfold foldLeft binaryChain
  split
  · rfl
  · congr 2
    funext left
    exact foldlM_binOp span left more

theorem foldAssign_eq (span : Span) (first : Expr) (more : List Expr) :
    foldAssign span first more = assignChain span first more := by
  induction more generalizing first with
  | nil => exact bind_pure _
  | cons next more ih =>
    rw [assignChain, ← ih, foldAssign, foldAssign, bind_assoc]
    congr 1
    funext value
    rw [List.dropLast_cons_cons, List.foldrM_cons]

theorem foldElif_eq (clauses : List (Located (Expr × Build (List Node))))
    (orelse : Build (List Node)) : foldElif clauses orelse = elifChain orelse clauses := by
  induction clauses with
  | nil => exact bind_pure _
  | cons clause clauses ih =>
    rw [elifChain, ← ih, foldElif, foldElif, bind_assoc]
    congr 1
    funext final
    rw [List.foldrM_cons]

/-! ## Spans -/

theorem Span.cover_assoc (a b c : Span) : (a.cover b).cover c = a.cover (b.cover c) := by
  cases a with
  | mk start stop => cases start <;> cases c with
    | mk start' stop' => cases stop' <;> rfl

theorem Span.unknown_cover (a : Span) : Span.unknown.cover a = a := by
  cases a with
  | mk start stop => cases stop <;> rfl

theorem Span.cover_unknown (a : Span) : a.cover .unknown = a := by
  cases a with
  | mk start stop => cases start <;> rfl

theorem spanOf_append (xs ys : List Token) : spanOf (xs ++ ys) = (spanOf xs).cover (spanOf ys) := by
  induction xs with
  | nil => exact (Span.unknown_cover _).symm
  | cons t xs ih =>
    show t.span.cover (spanOf (xs ++ ys)) = _
    rw [ih, ← Span.cover_assoc]
    rfl

/-- The start of a span is known if there is a token. -/
theorem start_spanOf {tokens : List Token} (h : tokens ≠ []) : (spanOf tokens).start ≠ none := by
  cases tokens with
  | nil => exact absurd rfl h
  | cons t tokens => nofun

theorem stop_spanOf {tokens : List Token} (h : tokens ≠ []) : (spanOf tokens).stop ≠ none := by
  induction tokens with
  | nil => exact absurd rfl h
  | cons t tokens ih =>
    show ((spanOf tokens).stop <|> some t.stop) ≠ none
    cases (spanOf tokens).stop <;> nofun

/-! ## Trailers -/

/-- What becomes of a node that a trailer is applied to. -/
def Trailer.apply (span : Span) (node : Node) : Trailer → Build Node
  | .call arguments => do pure (.make span .call [[node], ← sequence arguments])
  | .index i => do pure (.make span .subscript [[node], [← i]])
  | .attribute name => pure (.make span (.attribute name) [[node]])

theorem trailerChain_cons (start : Span) (node : Node) (t : Located Trailer)
    (more : List (Located Trailer)) :
    trailerChain start node (t :: more) = (do
      trailerChain start (← t.value.apply (start.cover t.span) node) more) := by
  obtain ⟨place, trailer⟩ := t
  cases trailer <;> simp [trailerChain, Trailer.apply]

theorem value_applyTrailer (left : Derivation (ph .atomExpr)) (d : Derivation trailerItem) :
    (applyTrailer left d).value = show Expr from
      { node := do
          (trailerOf d.value).apply ((spanOf left.tokens).cover (spanOf d.tokens))
            (← Expr.node left.value) } := by
  rw [← spanOf_append, ← left.prepend_eq]
  match d with
  | .left (.row3 _ .absent _) => rfl
  | .left (.row3 _ (.present (.row1 _)) _) => rfl
  | .right (.row1 (.left (.row3 _ _ _))) => rfl
  | .right (.row1 (.right (.row2 _ _))) => rfl

theorem Expr.eq_of_fields {a b : Expr} (hidentifier : a.identifier = b.identifier)
    (hnode : a.node = b.node) : a = b := by
  cases a
  cases b
  cases hidentifier
  cases hnode
  rfl

theorem identifier_applyTrailers :
    ∀ (left : Derivation (ph .atomExpr)) (ds : Derivation (.many [trailerItem])),
      Expr.identifier left.value = none → Expr.identifier (applyTrailers left ds).value = none
  | left, .done, h => by rwa [applyTrailers]
  | left, .more (.row1 first) others, _ => by
    rw [applyTrailers]
    apply identifier_applyTrailers
    rw [value_applyTrailer]

/-- The trailers of an expression are applied one after the other, and what they make spans the
tokens from where the expression starts. -/
theorem node_applyTrailers {start : Span} :
    ∀ (left : Derivation (ph .atomExpr)) (ds : Derivation (.many [trailerItem])),
      (spanOf left.tokens).start = start.start →
      Expr.node (applyTrailers left ds).value = (do
        trailerChain start (← Expr.node left.value) (Rule.meaningOf .trailers ds.value))
  | left, .done, _ => by
    rw [applyTrailers]
    exact (bind_pure _).symm
  | left, .more (.row1 first) others, hstart => by
    have hknown := start_spanOf (left.tokens_ne_nil rfl)
    have htokens : (applyTrailer left first).tokens = left.tokens ++ first.tokens :=
      (prepend_applyTrailer left first []).trans (left.prepend_eq _)
    have hnext : (spanOf (applyTrailer left first).tokens).start = start.start := by
      rw [htokens, spanOf_append, ← hstart]
      cases h : (spanOf left.tokens).start with
      | none => exact absurd h hknown
      | some place => simp [Span.cover, h]
    have hcover : (spanOf left.tokens).cover (spanOf first.tokens) =
        start.cover (spanOf first.tokens) := by
      have hstop := stop_spanOf (first.tokens_ne_nil rfl)
      cases h : (spanOf first.tokens).stop with
      | none => exact absurd h hstop
      | some place => simp [Span.cover, h, hstart]
    rw [applyTrailers, node_applyTrailers _ others hnext, value_applyTrailer, hcover]
    show (Expr.node left.value >>= _) >>= _ = _
    rw [bind_assoc]
    congr 1
    funext node
    exact (trailerChain_cons start node ⟨spanOf first.tokens, trailerOf first.value⟩ _).symm

/-! ## Productions -/

/-- A production means what is built by the derivation that it makes up. -/
theorem Production.meaning_derive {r : Rule} (p : Production r) (ds : Pieces p.symbols) :
    p.meaning (spanOf (ds.prepend [])) ds.meanings = r.meaningOf (p.derive ds).value := by
  cases p
  case bitOr | bitXor | bitAnd | shiftExpr | arith | term => exact (foldLeft_eq _ _ _).symm
  case statementIf =>
    exact congrArg (· >>= _) (foldElif_eq _ _).symm
  case statementTry =>
    match ds with
    | (_, _, _, .left (.row1 _), _) => rfl
    | (_, _, _, .right (.row3 (.plus _ _) _ .absent), _) => rfl
    | (_, _, _, .right (.row3 (.plus _ _) _ (.present (.row1 _))), _) => rfl
  case statementDefinition =>
    match ds with
    | (.left (.row1 _), _) => rfl
    | (.right (.row1 _), _) => rfl
  case smallExpr =>
    match ds with
    | (_, .absent, _) => rfl
    | (_, .present (.row1 (.left (.row1 (.plus (.row2 _ _) _)))), _) =>
      exact congrArg (· >>= _) (foldAssign_eq _ _ _).symm
    | (_, .present (.row1 (.right (.row2 _ _))), _) => rfl
  case smallFrom =>
    match ds with
    | (_, _, _, .left (.row1 _), _) => rfl
    | (_, _, _, .right (.row3 _ _ _), _) => rfl
  case handler =>
    match ds with
    | (_, .absent, _, _, _) => rfl
    | (_, .present (.row2 _ _), _, _, _) => rfl
  case optBasesSome =>
    match ds with
    | (_, .absent, _, _) => rfl
    | (_, .present (.row1 _), _, _) => rfl
  case argumentPlain =>
    match ds with
    | (_, .absent, _) => rfl
    | (_, .present (.row2 _ _), _) => rfl
  case testlist =>
    match ds with
    | (_, .done, _) => rfl
    | (_, .more (.row2 _ _) _, _) => rfl
  case exprlist =>
    match ds with
    | (_, .done, _) => rfl
    | (_, .more (.row2 _ _) _, _) => rfl
  case testValue =>
    match ds with
    | (_, .absent, _) => rfl
    | (_, .present (.row4 _ _ _ _), _) => rfl
  case compareOpIs =>
    match ds with
    | (_, .absent, _) => rfl
    | (_, .present (.row1 _), _) => rfl
  case power =>
    match ds with
    | (_, .absent, _) => rfl
    | (_, .present (.row2 _ _), _) => rfl
  case trailerCall =>
    match ds with
    | (_, .absent, _, _) => rfl
    | (_, .present (.row1 _), _, _) => rfl
  case subscriptTest =>
    match ds with
    | (_, .absent, _) => rfl
    | (_, .present (.row2 _ .absent), _) => rfl
    | (_, .present (.row2 _ (.present (.row1 _))), _) => rfl
  case subscriptColon =>
    match ds with
    | (_, .absent, _) => rfl
    | (_, .present (.row1 _), _) => rfl
  case atomParen =>
    match ds with
    | (_, .left (.row1 _), _) => rfl
    | (_, .right (.row3 _ .done _), _) => rfl
    | (_, .right (.row3 _ (.more (.row2 _ _) _) _), _) => rfl
  case atomList =>
    match ds with
    | (_, .left (.row1 _), _) => rfl
    | (_, .right (.row2 _ (.left (.row2 _ _))), _) => rfl
    | (_, .right (.row2 _ (.right (.row2 _ _))), _) => rfl
  case atomDict =>
    match ds with
    | (_, .left (.row1 _), _) => rfl
    | (_, .right (.row2 _ (.left (.row2 _ _))), _) => rfl
    | (_, .right (.row2 _ (.right (.row2 _ _))), _) => rfl
  case primary =>
    match ds with
    | (base, .done, _) =>
      exact congrArg Derivation.value (applyTrailers_done (.node .atomExpr (.row1 base))).symm
    | (base, .more (.row1 first) others, _) =>
      have hnode := node_applyTrailers (.node .atomExpr (.row1 base))
        (.more (.row1 first) others) (rfl : _ = (spanOf base.tokens).start)
      have hidentifier : Expr.identifier (applyTrailers (.node .atomExpr (.row1 base))
          (.more (.row1 first) others)).value = none := by
        rw [applyTrailers]
        apply identifier_applyTrailers
        rw [value_applyTrailer]
      exact Expr.eq_of_fields hidentifier.symm hnode.symm
  all_goals rfl

mutual

/-- A tree means what its derivation builds, and spans its tokens. -/
theorem Tree.meaning_eq {s : Symbol} (t : Tree s) :
    t.meaning = ⟨spanOf t.tokens, s.meaningOf t.derivation.value⟩ := by
  match t with
  | .leaf t _ =>
    show Located.mk t.span t = ⟨t.span.cover .unknown, t⟩
    rw [Span.cover_unknown]
  | .node p children =>
    rw [Tree.meaning, children.meanings_eq]
    have hspan : spanOf children.tokens = spanOf (children.pieces.prepend []) := by
      rw [children.prepend_pieces, List.append_nil]
    show Located.mk (spanOf children.tokens)
      (p.meaning (spanOf children.tokens) children.pieces.meanings) = _
    rw [hspan, p.meaning_derive, ← hspan]
    rfl

theorem Forest.meanings_eq {ss : List Symbol} (ts : Forest ss) :
    ts.meanings = (spanOf ts.tokens, ts.pieces.meanings) := by
  match ts with
  | .nil => rfl
  | .cons head tail =>
    rw [Forest.meanings, head.meaning_eq, tail.meanings_eq, Forest.tokens, spanOf_append,
      ← head.tokens_derivation]
    rfl

end

end ScopeLint.Grammar
