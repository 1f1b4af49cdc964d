import ScopeLint.Proofs.Ebnf
import ScopeLint.Proofs.Reading

/-! # The factored grammar derives what the published one does

The reader's grammar has one rule for each part of an alternative that it has to
decide on, so a rule stands for an item of the published grammar: its `shape`.
Every production says which derivation of that item its parts make up, and every
derivation of an item is made up by one production from smaller ones. -/
namespace ScopeLint.Ebnf

open Grammar

namespace Derivations

variable {x₁ x₂ x₃ x₄ x₅ x₆ x₇ : Item} (a : Derivation x₁) (b : Derivation x₂) (c : Derivation x₃)
  (d : Derivation x₄) (e : Derivation x₅) (f : Derivation x₆) (g : Derivation x₇)

@[match_pattern] abbrev row1 : Derivations [x₁] := .cons a .nil

@[match_pattern] abbrev row2 : Derivations [x₁, x₂] := .cons a (row1 b)

@[match_pattern] abbrev row3 : Derivations [x₁, x₂, x₃] := .cons a (row2 b c)

@[match_pattern] abbrev row4 : Derivations [x₁, x₂, x₃, x₄] := .cons a (row3 b c d)

@[match_pattern] abbrev row5 : Derivations [x₁, x₂, x₃, x₄, x₅] := .cons a (row4 b c d e)

@[match_pattern] abbrev row6 : Derivations [x₁, x₂, x₃, x₄, x₅, x₆] := .cons a (row5 b c d e f)

@[match_pattern] abbrev row7 : Derivations [x₁, x₂, x₃, x₄, x₅, x₆, x₇] :=
  .cons a (row6 b c d e f g)

end Derivations

mutual

theorem Derivation.prepend_eq {x : Item} (d : Derivation x) (rest : List Token) :
    d.prepend rest = d.tokens ++ rest := by
  match d with
  | .leaf _ _ => rfl
  | .node _ parts | .present parts | .left parts | .right parts => exact parts.prepend_eq rest
  | .absent | .done => rfl
  | .more parts others | .plus parts others =>
    show parts.prepend (others.prepend rest) = parts.prepend (others.prepend []) ++ rest
    rw [parts.prepend_eq, parts.prepend_eq (others.prepend []), others.prepend_eq rest,
      List.append_assoc]
    rfl

theorem Derivations.prepend_eq {xs : List Item} (ds : Derivations xs) (rest : List Token) :
    ds.prepend rest = ds.tokens ++ rest := by
  match ds with
  | .nil => rfl
  | .cons head tail =>
    show head.prepend (tail.prepend rest) = head.prepend (tail.prepend []) ++ rest
    rw [head.prepend_eq, head.prepend_eq (tail.prepend []), tail.prepend_eq rest,
      List.append_assoc]
    rfl

end

theorem Derivations.tokens_cons {x : Item} {xs : List Item} (head : Derivation x)
    (tail : Derivations xs) : (cons head tail).tokens = head.tokens ++ tail.tokens :=
  head.prepend_eq tail.tokens

/-! ## Phrases that take a token -/

mutual

/-- The item takes a token, since all phrases but a file do. -/
def Item.solid : Item → Bool
  | .token _ => true
  | .phrase .fileInput => false
  | .phrase _ => true
  | .opt _ | .many _ => false
  | .plus body => anySolid body
  | .either left right => anySolid left && anySolid right

def anySolid : List Item → Bool
  | [] => false
  | x :: xs => x.solid || anySolid xs

end

theorem Alternative.solid_body {n : Nonterminal} (a : Alternative n)
    (hn : (ph n).solid = true) : anySolid a.body = true := by
  cases a <;> first | rfl | cases hn

mutual

theorem Derivation.tokens_ne_nil {x : Item} (d : Derivation x) (hx : x.solid = true) :
    d.tokens ≠ [] := by
  match d with
  | .leaf _ _ => exact List.cons_ne_nil _ _
  | .node a parts => exact parts.tokens_ne_nil (a.solid_body hx)
  | .absent | .present _ | .done | .more _ _ => cases hx
  | .plus parts rest =>
    intro h
    have happend : parts.tokens ++ rest.tokens = [] := (parts.prepend_eq rest.tokens).symm.trans h
    exact parts.tokens_ne_nil hx (List.append_eq_nil_iff.mp happend).1
  | .left parts => exact parts.tokens_ne_nil (Bool.and_eq_true_iff.mp hx).1
  | .right parts => exact parts.tokens_ne_nil (Bool.and_eq_true_iff.mp hx).2

theorem Derivations.tokens_ne_nil {xs : List Item} (ds : Derivations xs)
    (hxs : anySolid xs = true) : ds.tokens ≠ [] := by
  match ds with
  | .nil => cases hxs
  | .cons head tail =>
    rw [Derivations.tokens_cons]
    intro h
    obtain ⟨hhead, htail⟩ := List.append_eq_nil_iff.mp h
    rcases Bool.or_eq_true_iff.mp hxs with hx | hx
    · exact head.tokens_ne_nil hx hhead
    · exact tail.tokens_ne_nil hx htail

end

/-! ## Items of the factored grammar -/

/-- What is applied to an expression on its left. -/
abbrev trailerItem : Item :=
  .either [tk .openParen, .opt [ph .arguments], tk .closeParen]
    [.either [tk .openBracket, ph .subscript, tk .closeBracket] [tk .dot, tk .name]]

abbrev listRestItem : Item :=
  .either [.many [tk .comma, ph .test], tk .closeBracket] [ph .compFor, tk .closeBracket]

abbrev dictRestItem : Item :=
  .either [.many [tk .comma, ph .dictItem], tk .closeBrace] [ph .compFor, tk .closeBrace]

end ScopeLint.Ebnf

namespace ScopeLint.Grammar

open Ebnf

/-- The item of the published grammar that a rule stands for. -/
def Rule.shape : Rule → Item
  | .file => ph .fileInput
  | .lines => .many [.either [tk .newline] [ph .stmt]]
  | .statement => ph .stmt
  | .suite => ph .suite
  | .statements => .many [ph .stmt]
  | .simple => ph .simpleStmt
  | .smalls => .many [tk .separator, ph .smallStmt]
  | .small => ph .smallStmt
  | .assignments =>
    .opt [.either [.plus [tk .assign, ph .testlist]] [ph .augassignOp, ph .testlist]]
  | .moreAssignments => .many [tk .assign, ph .testlist]
  | .optTestlist => .opt [ph .testlist]
  | .optTest | .optUpper => .opt [ph .test]
  | .assertMessage => .opt [tk .comma, ph .test]
  | .moreNames => .many [tk .comma, tk .name]
  | .moduleImport => ph .dottedAsName
  | .moreModuleImports => .many [tk .comma, ph .dottedAsName]
  | .members => .either [ph .importAsNames] [tk .openParen, ph .importAsNames, tk .closeParen]
  | .moreMembers => .many [tk .comma, ph .importAsName]
  | .member => ph .importAsName
  | .optAlias => .opt [tk .asWord, tk .name]
  | .dotted => ph .dottedName
  | .moreDotted => .many [tk .dot, tk .name]
  | .elifs => .many [ph .elifClause]
  | .elif => ph .elifClause
  | .optElse => .opt [ph .elseClause]
  | .tryTail =>
    .either [ph .finallyClause]
      [.plus [ph .exceptClause], .opt [ph .elseClause], .opt [ph .finallyClause]]
  | .handlers => .many [ph .exceptClause]
  | .handler => ph .exceptClause
  | .handlerHead => .opt [ph .test, .opt [tk .asWord, tk .name]]
  | .optFinally => .opt [ph .finallyClause]
  | .withItem => ph .withItem
  | .moreWithItems => .many [tk .comma, ph .withItem]
  | .decorators => .many [ph .decorator]
  | .decorator => ph .decorator
  | .definition => .either [ph .funcdef] [ph .classdef]
  | .optBases => .opt [tk .openParen, .opt [ph .arguments], tk .closeParen]
  | .optParams => .opt [ph .parameters]
  | .moreParams => .many [tk .comma, ph .param]
  | .param => ph .param
  | .optDefault | .optKeyword => .opt [tk .assign, ph .test]
  | .optArguments => .opt [ph .arguments]
  | .moreArguments => .many [tk .comma, ph .argument]
  | .argument => ph .argument
  | .testlist => ph .testlist
  | .moreTests => .many [tk .comma, ph .test]
  | .exprlist => ph .exprlist
  | .moreExprs => .many [tk .comma, ph .bitorExpr]
  | .test => ph .test
  | .optTernary => .opt [tk .ifWord, ph .orTest, tk .elseWord, ph .test]
  | .orTest => ph .orTest
  | .moreOr => .many [tk .orWord, ph .andTest]
  | .andTest => ph .andTest
  | .moreAnd => .many [tk .andWord, ph .notTest]
  | .notTest => ph .notTest
  | .comparison => ph .comparison
  | .moreCompare => .many [ph .compOp, ph .bitorExpr]
  | .compareOp => ph .compOp
  | .optNot => .opt [tk .notWord]
  | .bitOr => ph .bitorExpr
  | .moreBitOr => .many [tk .bar, ph .bitxorExpr]
  | .bitXor => ph .bitxorExpr
  | .moreBitXor => .many [tk .caret, ph .bitandExpr]
  | .bitAnd => ph .bitandExpr
  | .moreBitAnd => .many [tk .ampersand, ph .shiftExpr]
  | .shiftExpr => ph .shiftExpr
  | .moreShift => .many [ph .shiftOp, ph .arithExpr]
  | .arith => ph .arithExpr
  | .moreArith => .many [ph .addOp, ph .term]
  | .term => ph .term
  | .moreTerm => .many [ph .mulOp, ph .factor]
  | .mulOp => ph .mulOp
  | .factor => ph .factor
  | .power => ph .power
  | .optPower => .opt [tk .doubleStar, ph .factor]
  | .primary => ph .atomExpr
  | .trailers => .many [trailerItem]
  | .trailer => trailerItem
  | .subscript => ph .subscript
  | .optSlice => .opt [tk .colon, .opt [ph .test]]
  | .atom => ph .atom
  | .parenTail =>
    .either [tk .closeParen] [ph .test, .many [tk .comma, ph .test], tk .closeParen]
  | .listTail => .either [tk .closeBracket] [ph .test, listRestItem]
  | .listRest => listRestItem
  | .dictTail => .either [tk .closeBrace] [ph .dictItem, dictRestItem]
  | .dictRest => dictRestItem
  | .dictItem => ph .dictItem
  | .moreDictItems => .many [tk .comma, ph .dictItem]
  | .compFor => ph .compFor
  | .optCondition => .opt [ph .compIf]
  | .moreStrings => .many [.either [tk .string] [tk .longString]]

def Symbol.shape : Symbol → Item
  | .token kind => tk kind
  | .rule r => r.shape

/-- Derivations of what a row of symbols stands for. -/
def Pieces : List Symbol → Type
  | [] => Unit
  | s :: ss => Derivation s.shape × Pieces ss

/-- The tokens that are derived, in order, before some others. -/
def Pieces.prepend : {ss : List Symbol} → Pieces ss → List Token → List Token
  | [], _, rest => rest
  | _ :: _, (d, ds), rest => d.prepend (Pieces.prepend ds rest)

/-- A call, a subscript or an attribute of what stands on its left. -/
def applyTrailer (left : Derivation (ph .atomExpr)) :
    Derivation trailerItem → Derivation (ph .atomExpr)
  | .left (.row3 a args b) => .node .call (.row4 left a args b)
  | .right (.row1 (.left (.row3 a i b))) => .node .getitem (.row4 left a i b)
  | .right (.row1 (.right (.row2 a name))) => .node .getattr (.row3 left a name)

/-- Everything that is applied to an expression, from left to right. -/
def applyTrailers (left : Derivation (ph .atomExpr)) :
    Derivation (.many [trailerItem]) → Derivation (ph .atomExpr)
  | .done => left
  | .more (.row1 first) rest => applyTrailers (applyTrailer left first) rest

theorem applyTrailers_done (left : Derivation (ph .atomExpr)) :
    applyTrailers left .done = left := by
  rw [applyTrailers]

/-- A statement of one line. -/
abbrev smallOf (a : Alternative .smallStmt) (parts : Derivations a.body) :
    Derivation (ph .smallStmt) := .node a parts

/-- A statement of several lines. -/
abbrev compoundOf (a : Alternative .compoundStmt) (parts : Derivations a.body) :
    Derivation (ph .stmt) := .node .stmtCompound (.row1 (.node a parts))

/-- The derivation that a production makes up from those of its symbols. -/
def Production.derive {r : Rule} (p : Production r) : Pieces p.symbols → Derivation r.shape :=
  match p with
  | file => fun (lines, _) => .node .fileInput (.row1 lines)
  | linesEnd => fun _ => .done
  | linesBlank => fun (a, lines, _) => .more (.row1 (.left (.row1 a))) lines
  | linesMore => fun (first, lines, _) => .more (.row1 (.right (.row1 first))) lines
  | statementSimple => fun (body, _) => .node .stmtSimple (.row1 body)
  | statementIf => fun (a, condition, b, body, elifs, orelse, _) =>
    compoundOf .compoundIf (.row1 (.node .ifStmt (.row6 a condition b body elifs orelse)))
  | statementWhile => fun (a, condition, b, body, orelse, _) =>
    compoundOf .compoundWhile (.row1 (.node .whileStmt (.row5 a condition b body orelse)))
  | statementFor => fun (a, target, b, iterable, c, body, orelse, _) =>
    compoundOf .compoundFor (.row1 (.node .forStmt (.row7 a target b iterable c body orelse)))
  | statementTry => fun (a, b, body, tail, _) => match tail with
    | .left (.row1 final) =>
      compoundOf .compoundTry (.row1 (.node .tryFinally (.row4 a b body final)))
    | .right (.row3 handlers orelse final) =>
      compoundOf .compoundTry (.row1 (.node .tryExcept (.row6 a b body handlers orelse final)))
  | statementWith => fun (a, first, more, b, body, _) =>
    compoundOf .compoundWith (.row1 (.node .withStmt (.row5 a first more b body)))
  | statementDefinition => fun (d, _) => match d with
    | .left (.row1 d) => compoundOf .compoundFuncdef (.row1 d)
    | .right (.row1 d) => compoundOf .compoundClassdef (.row1 d)
  | statementDecorated => fun (first, more, d, _) =>
    compoundOf .compoundDecorated (.row1 (.node .decorated (.row2 (.plus (.row1 first) more) d)))
  | suiteInline => fun (body, _) => .node .suiteInline (.row1 body)
  | suiteBlock => fun (a, b, first, more, c, _) =>
    .node .suiteBlock (.row4 a b (.plus (.row1 first) more) c)
  | statementsEnd => fun _ => .done
  | statementsMore => fun (first, more, _) => .more (.row1 first) more
  | simple => fun (first, more, a, _) => .node .simpleStmt (.row3 first more a)
  | smallsEnd => fun _ => .done
  | smallsMore => fun (a, first, more, _) => .more (.row2 a first) more
  | smallExpr => fun (first, rest, _) => match rest with
    | .absent => smallOf .smallExpr (.row1 (.node .exprStmt (.row1 first)))
    | .present (.row1 (.left (.row1 more))) =>
      smallOf .smallExpr (.row1 (.node .assignStmt (.row2 first more)))
    | .present (.row1 (.right (.row2 op value))) =>
      smallOf .smallExpr (.row1 (.node .augassignStmt (.row3 first op value)))
  | smallPass => fun (a, _) => smallOf .smallPass (.row1 (.node .passStmt (.row1 a)))
  | smallBreak => fun (a, _) => smallOf .smallBreak (.row1 (.node .breakStmt (.row1 a)))
  | smallContinue => fun (a, _) => smallOf .smallContinue (.row1 (.node .continueStmt (.row1 a)))
  | smallReturn => fun (a, value, _) =>
    smallOf .smallReturn (.row1 (.node .returnStmt (.row2 a value)))
  | smallRaise => fun (a, value, _) =>
    smallOf .smallRaise (.row1 (.node .raiseStmt (.row2 a value)))
  | smallDel => fun (a, target, _) => smallOf .smallDel (.row1 (.node .delStmt (.row2 a target)))
  | smallAssert => fun (a, condition, message, _) =>
    smallOf .smallAssert (.row1 (.node .assertStmt (.row3 a condition message)))
  | smallGlobal => fun (a, name, more, _) =>
    smallOf .smallGlobal (.row1 (.node .globalStmt (.row3 a name more)))
  | smallNonlocal => fun (a, name, more, _) =>
    smallOf .smallNonlocal (.row1 (.node .nonlocalStmt (.row3 a name more)))
  | smallImport => fun (a, first, more, _) =>
    smallOf .smallImportName (.row1 (.node .importName (.row3 a first more)))
  | smallFrom => fun (a, path, b, members, _) => match members with
    | .left (.row1 names) =>
      smallOf .smallImportFrom (.row1 (.node .importFrom (.row4 a path b names)))
    | .right (.row3 c names d) =>
      smallOf .smallImportFrom (.row1 (.node .importFromParen (.row6 a path b c names d)))
  | smallEmpty => fun (a, _) => smallOf .smallEmpty (.row1 (.node .emptyStmt (.row1 a)))
  | assignmentsNone => fun _ => .absent
  | assignmentsPlain => fun (a, next, more, _) =>
    .present (.row1 (.left (.row1 (.plus (.row2 a next) more))))
  | assignmentsAugmented => fun (op, value, _) =>
    .present (.row1 (.right (.row2 (.node .augassignOp (.row1 op)) value)))
  | moreAssignmentsEnd => fun _ => .done
  | moreAssignmentsMore => fun (a, next, more, _) => .more (.row2 a next) more
  | optTestlistNone => fun _ => .absent
  | optTestlistSome => fun (value, _) => .present (.row1 value)
  | optTestNone => fun _ => .absent
  | optTestSome => fun (value, _) => .present (.row1 value)
  | assertMessageNone => fun _ => .absent
  | assertMessageSome => fun (a, value, _) => .present (.row2 a value)
  | moreNamesEnd => fun _ => .done
  | moreNamesMore => fun (a, name, more, _) => .more (.row2 a name) more
  | moduleImport => fun (path, asName, _) => .node .dottedAsName (.row2 path asName)
  | moreModuleImportsEnd => fun _ => .done
  | moreModuleImportsMore => fun (a, next, more, _) => .more (.row2 a next) more
  | membersBare => fun (first, more, _) => .left (.row1 (.node .importAsNames (.row2 first more)))
  | membersParen => fun (a, first, more, b, _) =>
    .right (.row3 a (.node .importAsNames (.row2 first more)) b)
  | moreMembersEnd => fun _ => .done
  | moreMembersMore => fun (a, first, more, _) => .more (.row2 a first) more
  | member => fun (name, asName, _) => .node .importAsName (.row2 name asName)
  | optAliasNone => fun _ => .absent
  | optAliasSome => fun (a, name, _) => .present (.row2 a name)
  | dotted => fun (name, more, _) => .node .dottedName (.row2 name more)
  | moreDottedEnd => fun _ => .done
  | moreDottedMore => fun (a, name, more, _) => .more (.row2 a name) more
  | elifsEnd => fun _ => .done
  | elifsMore => fun (first, more, _) => .more (.row1 first) more
  | elif => fun (a, condition, b, body, _) => .node .elifClause (.row4 a condition b body)
  | optElseNone => fun _ => .absent
  | optElseSome => fun (a, b, body, _) => .present (.row1 (.node .elseClause (.row3 a b body)))
  | tryTailFinally => fun (a, b, body, _) => .left (.row1 (.node .finallyClause (.row3 a b body)))
  | tryTailHandlers => fun (first, more, orelse, final, _) =>
    .right (.row3 (.plus (.row1 first) more) orelse final)
  | handlersEnd => fun _ => .done
  | handlersMore => fun (first, more, _) => .more (.row1 first) more
  | handler => fun (a, head, b, body, _) => .node .exceptClause (.row4 a head b body)
  | handlerHeadNone => fun _ => .absent
  | handlerHeadSome => fun (type, asName, _) => .present (.row2 type asName)
  | optFinallyNone => fun _ => .absent
  | optFinallySome => fun (a, b, body, _) =>
    .present (.row1 (.node .finallyClause (.row3 a b body)))
  | withItem => fun (value, asName, _) => .node .withItem (.row2 value asName)
  | moreWithItemsEnd => fun _ => .done
  | moreWithItemsMore => fun (a, first, more, _) => .more (.row2 a first) more
  | decoratorsEnd => fun _ => .done
  | decoratorsMore => fun (first, more, _) => .more (.row1 first) more
  | decorator => fun (a, path, arguments, b, _) => .node .decorator (.row4 a path arguments b)
  | definitionFunction => fun (a, name, b, params, c, d, body, _) =>
    .left (.row1 (.node .funcdef (.row7 a name b params c d body)))
  | definitionClass => fun (a, name, bases, b, body, _) =>
    .right (.row1 (.node .classdef (.row5 a name bases b body)))
  | optBasesNone => fun _ => .absent
  | optBasesSome => fun (a, arguments, b, _) => .present (.row3 a arguments b)
  | optParamsNone => fun _ => .absent
  | optParamsSome => fun (first, more, _) =>
    .present (.row1 (.node .parameters (.row2 first more)))
  | moreParamsEnd => fun _ => .done
  | moreParamsMore => fun (a, first, more, _) => .more (.row2 a first) more
  | paramPlain => fun (name, default, _) => .node .param (.row2 name default)
  | paramStar => fun (a, name, _) => .node .starParam (.row2 a name)
  | paramDoubleStar => fun (a, name, _) => .node .kwstarParam (.row2 a name)
  | optDefaultNone => fun _ => .absent
  | optDefaultSome => fun (a, value, _) => .present (.row2 a value)
  | optArgumentsNone => fun _ => .absent
  | optArgumentsSome => fun (first, more, _) =>
    .present (.row1 (.node .arguments (.row2 first more)))
  | moreArgumentsEnd => fun _ => .done
  | moreArgumentsMore => fun (a, first, more, _) => .more (.row2 a first) more
  | argumentPlain => fun (key, value, _) => match value with
    | .absent => .node .argument (.row1 key)
    | .present (.row2 a value) => .node .kwarg (.row3 key a value)
  | argumentStar => fun (a, value, _) => .node .starArg (.row2 a value)
  | argumentDoubleStar => fun (a, value, _) => .node .kwstarArg (.row2 a value)
  | optKeywordNone => fun _ => .absent
  | optKeywordSome => fun (a, value, _) => .present (.row2 a value)
  | testlist => fun (first, more, _) => match more with
    | .done => .node .testlist (.row1 first)
    | .more second others => .node .testTuple (.row2 first (.plus second others))
  | moreTestsEnd => fun _ => .done
  | moreTestsMore => fun (a, first, more, _) => .more (.row2 a first) more
  | exprlist => fun (first, more, _) => match more with
    | .done => .node .exprlist (.row1 first)
    | .more second others => .node .exprTuple (.row2 first (.plus second others))
  | moreExprsEnd => fun _ => .done
  | moreExprsMore => fun (a, first, more, _) => .more (.row2 a first) more
  | testValue => fun (value, ternary, _) => match ternary with
    | .absent => .node .test (.row1 value)
    | .present (.row4 a condition b orelse) => .node .ternary (.row5 value a condition b orelse)
  | testLambda => fun (a, params, b, body, _) =>
    .node .testLambdef (.row1 (.node .lambdef (.row4 a params b body)))
  | optTernaryNone => fun _ => .absent
  | optTernarySome => fun (a, condition, b, orelse, _) => .present (.row4 a condition b orelse)
  | orTest => fun (first, more, _) => .node .orTest (.row2 first more)
  | moreOrEnd => fun _ => .done
  | moreOrMore => fun (a, first, more, _) => .more (.row2 a first) more
  | andTest => fun (first, more, _) => .node .andTest (.row2 first more)
  | moreAndEnd => fun _ => .done
  | moreAndMore => fun (a, first, more, _) => .more (.row2 a first) more
  | notTestNot => fun (a, operand, _) => .node .notOp (.row2 a operand)
  | notTestComparison => fun (value, _) => .node .notTest (.row1 value)
  | comparison => fun (first, more, _) => .node .comparison (.row2 first more)
  | moreCompareEnd => fun _ => .done
  | moreCompareMore => fun (op, operand, more, _) => .more (.row2 op operand) more
  | compareOpRelation => fun (a, _) => .node .compRelation (.row1 a)
  | compareOpIn => fun (a, _) => .node .compIn (.row1 a)
  | compareOpNotIn => fun (a, b, _) => .node .compNotIn (.row2 a b)
  | compareOpIs => fun (a, negated, _) => match negated with
    | .absent => .node .compIs (.row1 a)
    | .present (.row1 b) => .node .compIsNot (.row2 a b)
  | optNotNone => fun _ => .absent
  | optNotSome => fun (a, _) => .present (.row1 a)
  | bitOr => fun (first, more, _) => .node .bitorExpr (.row2 first more)
  | moreBitOrEnd => fun _ => .done
  | moreBitOrMore => fun (op, first, more, _) => .more (.row2 op first) more
  | bitXor => fun (first, more, _) => .node .bitxorExpr (.row2 first more)
  | moreBitXorEnd => fun _ => .done
  | moreBitXorMore => fun (op, first, more, _) => .more (.row2 op first) more
  | bitAnd => fun (first, more, _) => .node .bitandExpr (.row2 first more)
  | moreBitAndEnd => fun _ => .done
  | moreBitAndMore => fun (op, first, more, _) => .more (.row2 op first) more
  | shiftExpr => fun (first, more, _) => .node .shiftExpr (.row2 first more)
  | moreShiftEnd => fun _ => .done
  | moreShiftMore => fun (op, first, more, _) =>
    .more (.row2 (.node .shiftOp (.row1 op)) first) more
  | arith => fun (first, more, _) => .node .arithExpr (.row2 first more)
  | moreArithEnd => fun _ => .done
  | moreArithMore => fun (op, first, more, _) =>
    .more (.row2 (.node .addOp (.row1 op)) first) more
  | term => fun (first, more, _) => .node .term (.row2 first more)
  | moreTermEnd => fun _ => .done
  | moreTermMore => fun (op, first, more, _) => .more (.row2 op first) more
  | mulOpStar => fun (op, _) => .node .mulStar (.row1 op)
  | mulOpDivide => fun (op, _) => .node .mulDivide (.row1 op)
  | factorSign => fun (op, operand, _) =>
    .node .factorUnary (.row2 (.node .unarySign (.row1 op)) operand)
  | factorTilde => fun (op, operand, _) =>
    .node .factorUnary (.row2 (.node .unaryTilde (.row1 op)) operand)
  | factorPower => fun (value, _) => .node .factorPower (.row1 value)
  | power => fun (base, exponent, _) => .node .power (.row2 base exponent)
  | optPowerNone => fun _ => .absent
  | optPowerSome => fun (a, value, _) => .present (.row2 a value)
  | primary => fun (base, trailers, _) => applyTrailers (.node .atomExpr (.row1 base)) trailers
  | trailersEnd => fun _ => .done
  | trailersMore => fun (first, more, _) => .more (.row1 first) more
  | trailerCall => fun (a, arguments, b, _) => .left (.row3 a arguments b)
  | trailerIndex => fun (a, i, b, _) => .right (.row1 (.left (.row3 a i b)))
  | trailerAttribute => fun (a, name, _) => .right (.row1 (.right (.row2 a name)))
  | subscriptTest => fun (lower, upper, _) => match upper with
    | .absent => .node .subscript (.row1 lower)
    | .present (.row2 a .absent) => .node .sliceLower (.row2 lower a)
    | .present (.row2 a (.present (.row1 upper))) => .node .sliceFull (.row3 lower a upper)
  | subscriptColon => fun (a, upper, _) => match upper with
    | .absent => .node .sliceAll (.row1 a)
    | .present (.row1 upper) => .node .sliceUpper (.row2 a upper)
  | optSliceNone => fun _ => .absent
  | optSliceSome => fun (a, upper, _) => .present (.row2 a upper)
  | optUpperNone => fun _ => .absent
  | optUpperSome => fun (value, _) => .present (.row1 value)
  | atomParen => fun (a, tail, _) => match tail with
    | .left (.row1 b) => .node .emptyTuple (.row2 a b)
    | .right (.row3 inner .done b) => .node .paren (.row3 a inner b)
    | .right (.row3 first (.more second others) b) =>
      .node .tupleDisplay (.row4 a first (.plus second others) b)
  | atomList => fun (a, tail, _) => match tail with
    | .left (.row1 b) => .node .emptyList (.row2 a b)
    | .right (.row2 first (.left (.row2 more b))) => .node .listDisplay (.row4 a first more b)
    | .right (.row2 element (.right (.row2 c b))) =>
      .node .listComprehension (.row4 a element c b)
  | atomDict => fun (a, tail, _) => match tail with
    | .left (.row1 b) => .node .emptyDict (.row2 a b)
    | .right (.row2 first (.left (.row2 more b))) => .node .dictDisplay (.row4 a first more b)
    | .right (.row2 item (.right (.row2 c b))) => .node .dictComprehension (.row4 a item c b)
  | atomName => fun (a, _) => .node .var (.row1 a)
  | atomNumber => fun (a, _) => .node .number (.row1 a)
  | atomString => fun (first, more, _) =>
    .node .string (.row1 (.plus (.row1 (.left (.row1 first))) more))
  | atomLongString => fun (first, more, _) =>
    .node .string (.row1 (.plus (.row1 (.right (.row1 first))) more))
  | atomNone => fun (a, _) => .node .constNone (.row1 a)
  | atomTrue => fun (a, _) => .node .constTrue (.row1 a)
  | atomFalse => fun (a, _) => .node .constFalse (.row1 a)
  | parenTailEmpty => fun (a, _) => .left (.row1 a)
  | parenTailTests => fun (first, more, a, _) => .right (.row3 first more a)
  | listTailEmpty => fun (a, _) => .left (.row1 a)
  | listTailTests => fun (first, rest, _) => .right (.row2 first rest)
  | listRestItems => fun (more, a, _) => .left (.row2 more a)
  | listRestFor => fun (c, a, _) => .right (.row2 c a)
  | dictTailEmpty => fun (a, _) => .left (.row1 a)
  | dictTailItems => fun (first, rest, _) => .right (.row2 first rest)
  | dictRestItems => fun (more, a, _) => .left (.row2 more a)
  | dictRestFor => fun (c, a, _) => .right (.row2 c a)
  | dictItem => fun (key, a, value, _) => .node .dictItem (.row3 key a value)
  | moreDictItemsEnd => fun _ => .done
  | moreDictItemsMore => fun (a, first, more, _) => .more (.row2 a first) more
  | compFor => fun (a, target, b, iterable, condition, _) =>
    .node .compFor (.row5 a target b iterable condition)
  | optConditionNone => fun _ => .absent
  | optConditionSome => fun (a, value, _) => .present (.row1 (.node .compIf (.row2 a value)))
  | moreStringsEnd => fun _ => .done
  | moreStringsShort => fun (a, more, _) => .more (.row1 (.left (.row1 a))) more
  | moreStringsLong => fun (a, more, _) => .more (.row1 (.right (.row1 a))) more

/-! ## Productions keep the tokens -/

theorem prepend_applyTrailer (left : Derivation (ph .atomExpr)) (d : Derivation trailerItem)
    (rest : List Token) :
    (applyTrailer left d).prepend rest = left.prepend (d.prepend rest) := by
  match d with
  | .left (.row3 _ _ _) => rfl
  | .right (.row1 (.left (.row3 _ _ _))) => rfl
  | .right (.row1 (.right (.row2 _ _))) => rfl

theorem prepend_applyTrailers (rest : List Token) :
    ∀ (left : Derivation (ph .atomExpr)) (ds : Derivation (.many [trailerItem])),
      (applyTrailers left ds).prepend rest = left.prepend (ds.prepend rest)
  | _, .done => by
    rw [applyTrailers]
    rfl
  | left, .more (.row1 first) others => by
    rw [applyTrailers, prepend_applyTrailers rest _ others, prepend_applyTrailer]
    rfl

theorem Production.prepend_derive {r : Rule} (p : Production r) (ds : Pieces p.symbols)
    (rest : List Token) : (p.derive ds).prepend rest = ds.prepend rest := by
  cases p
  case primary => exact prepend_applyTrailers rest _ _
  case statementTry =>
    match ds with
    | (_, _, _, .left (.row1 _), _) => rfl
    | (_, _, _, .right (.row3 _ _ _), _) => rfl
  case statementDefinition =>
    match ds with
    | (.left (.row1 _), _) => rfl
    | (.right (.row1 _), _) => rfl
  case smallExpr =>
    match ds with
    | (_, .absent, _) => rfl
    | (_, .present (.row1 (.left (.row1 (.plus _ _)))), _) => rfl
    | (_, .present (.row1 (.right (.row2 _ _))), _) => rfl
  case smallFrom =>
    match ds with
    | (_, _, _, .left (.row1 _), _) => rfl
    | (_, _, _, .right (.row3 _ _ _), _) => rfl
  case argumentPlain =>
    match ds with
    | (_, .absent, _) => rfl
    | (_, .present (.row2 _ _), _) => rfl
  case testlist =>
    match ds with
    | (_, .done, _) => rfl
    | (_, .more _ _, _) => rfl
  case exprlist =>
    match ds with
    | (_, .done, _) => rfl
    | (_, .more _ _, _) => rfl
  case testValue =>
    match ds with
    | (_, .absent, _) => rfl
    | (_, .present (.row4 _ _ _ _), _) => rfl
  case compareOpIs =>
    match ds with
    | (_, .absent, _) => rfl
    | (_, .present (.row1 _), _) => rfl
  case subscriptTest =>
    match ds with
    | (_, .absent, _) => rfl
    | (_, .present (.row2 _ .absent), _) => rfl
    | (_, .present (.row2 _ (.present (.row1 _))), _) => rfl
  case subscriptColon =>
    match ds with
    | (_, .absent, _) => rfl
    | (_, .present (.row1 _), _) => rfl
  case atomParen =>
    match ds with
    | (_, .left (.row1 _), _) => rfl
    | (_, .right (.row3 _ .done _), _) => rfl
    | (_, .right (.row3 _ (.more _ _) _), _) => rfl
  case atomList =>
    match ds with
    | (_, .left (.row1 _), _) => rfl
    | (_, .right (.row2 _ (.left (.row2 _ _))), _) => rfl
    | (_, .right (.row2 _ (.right (.row2 _ _))), _) => rfl
  case atomDict =>
    match ds with
    | (_, .left (.row1 _), _) => rfl
    | (_, .right (.row2 _ (.left (.row2 _ _))), _) => rfl
    | (_, .right (.row2 _ (.right (.row2 _ _))), _) => rfl
  all_goals rfl

theorem Production.tokens_derive {r : Rule} (p : Production r) (ds : Pieces p.symbols) :
    (p.derive ds).tokens = ds.prepend [] := p.prepend_derive ds []

/-! ## Every derivation is made up -/

/-- The calls, subscripts and attributes of an expression can be taken off one by one. -/
theorem exists_trailers :
    ∀ (left : Derivation (ph .atomExpr)) (ds : Derivation (.many [trailerItem])),
      ∃ (base : Derivation (ph .atom)) (trailers : Derivation (.many [trailerItem])),
        applyTrailers (.node .atomExpr (.row1 base)) trailers = applyTrailers left ds
  | .node .atomExpr (.row1 base), ds => ⟨base, ds, rfl⟩
  | .node .call (.row4 left (.leaf t fits) args b), ds => by
    have h := exists_trailers left (.more (.row1 (.left (.row3 (.leaf t fits) args b))) ds)
    rwa [applyTrailers] at h
  | .node .getitem (.row4 left (.leaf t fits) i b), ds => by
    have h := exists_trailers left
      (.more (.row1 (.right (.row1 (.left (.row3 (.leaf t fits) i b))))) ds)
    rwa [applyTrailers] at h
  | .node .getattr (.row3 left (.leaf t fits) name), ds => by
    have h := exists_trailers left
      (.more (.row1 (.right (.row1 (.right (.row2 (.leaf t fits) name))))) ds)
    rwa [applyTrailers] at h
  termination_by left => left.tokens.length
  decreasing_by
    all_goals
      show left.tokens.length < (left.prepend (t :: _)).length
      rw [left.prepend_eq]
      simp

theorem exists_statement (d : Derivation (Rule.shape .statement)) :
    ∃ (p : Production .statement) (ds : Pieces p.symbols), p.derive ds = d :=
  match d with
  | .node .stmtSimple (.row1 body) => ⟨.statementSimple, (body, ()), rfl⟩
  | .node .stmtCompound (.row1
      (.node .compoundIf (.row1 (.node .ifStmt (.row6 a condition b body elifs orelse))))) =>
    ⟨.statementIf, (a, condition, b, body, elifs, orelse, ()), rfl⟩
  | .node .stmtCompound (.row1
      (.node .compoundWhile (.row1 (.node .whileStmt (.row5 a condition b body orelse))))) =>
    ⟨.statementWhile, (a, condition, b, body, orelse, ()), rfl⟩
  | .node .stmtCompound (.row1
      (.node .compoundFor (.row1 (.node .forStmt (.row7 a target b iterable c body orelse))))) =>
    ⟨.statementFor, (a, target, b, iterable, c, body, orelse, ()), rfl⟩
  | .node .stmtCompound (.row1
      (.node .compoundTry (.row1 (.node .tryFinally (.row4 a b body final))))) =>
    ⟨.statementTry, (a, b, body, .left (.row1 final), ()), rfl⟩
  | .node .stmtCompound (.row1
      (.node .compoundTry (.row1 (.node .tryExcept (.row6 a b body handlers orelse final))))) =>
    ⟨.statementTry, (a, b, body, .right (.row3 handlers orelse final), ()), rfl⟩
  | .node .stmtCompound (.row1
      (.node .compoundWith (.row1 (.node .withStmt (.row5 a first more b body))))) =>
    ⟨.statementWith, (a, first, more, b, body, ()), rfl⟩
  | .node .stmtCompound (.row1 (.node .compoundFuncdef (.row1 d))) =>
    ⟨.statementDefinition, (.left (.row1 d), ()), rfl⟩
  | .node .stmtCompound (.row1 (.node .compoundClassdef (.row1 d))) =>
    ⟨.statementDefinition, (.right (.row1 d), ()), rfl⟩
  | .node .stmtCompound (.row1
      (.node .compoundDecorated (.row1 (.node .decorated (.row2 (.plus (.row1 first) more) d))))) =>
    ⟨.statementDecorated, (first, more, d, ()), rfl⟩

theorem exists_small (d : Derivation (Rule.shape .small)) :
    ∃ (p : Production .small) (ds : Pieces p.symbols), p.derive ds = d :=
  match d with
  | .node .smallExpr (.row1 (.node .exprStmt (.row1 first))) =>
    ⟨.smallExpr, (first, .absent, ()), rfl⟩
  | .node .smallExpr (.row1 (.node .assignStmt (.row2 first more))) =>
    ⟨.smallExpr, (first, .present (.row1 (.left (.row1 more))), ()), rfl⟩
  | .node .smallExpr (.row1 (.node .augassignStmt (.row3 first op value))) =>
    ⟨.smallExpr, (first, .present (.row1 (.right (.row2 op value))), ()), rfl⟩
  | .node .smallPass (.row1 (.node .passStmt (.row1 a))) => ⟨.smallPass, (a, ()), rfl⟩
  | .node .smallBreak (.row1 (.node .breakStmt (.row1 a))) => ⟨.smallBreak, (a, ()), rfl⟩
  | .node .smallContinue (.row1 (.node .continueStmt (.row1 a))) => ⟨.smallContinue, (a, ()), rfl⟩
  | .node .smallReturn (.row1 (.node .returnStmt (.row2 a value))) =>
    ⟨.smallReturn, (a, value, ()), rfl⟩
  | .node .smallRaise (.row1 (.node .raiseStmt (.row2 a value))) =>
    ⟨.smallRaise, (a, value, ()), rfl⟩
  | .node .smallDel (.row1 (.node .delStmt (.row2 a target))) => ⟨.smallDel, (a, target, ()), rfl⟩
  | .node .smallAssert (.row1 (.node .assertStmt (.row3 a condition message))) =>
    ⟨.smallAssert, (a, condition, message, ()), rfl⟩
  | .node .smallGlobal (.row1 (.node .globalStmt (.row3 a name more))) =>
    ⟨.smallGlobal, (a, name, more, ()), rfl⟩
  | .node .smallNonlocal (.row1 (.node .nonlocalStmt (.row3 a name more))) =>
    ⟨.smallNonlocal, (a, name, more, ()), rfl⟩
  | .node .smallImportName (.row1 (.node .importName (.row3 a first more))) =>
    ⟨.smallImport, (a, first, more, ()), rfl⟩
  | .node .smallImportFrom (.row1 (.node .importFrom (.row4 a path b names))) =>
    ⟨.smallFrom, (a, path, b, .left (.row1 names), ()), rfl⟩
  | .node .smallImportFrom (.row1 (.node .importFromParen (.row6 a path b c names d))) =>
    ⟨.smallFrom, (a, path, b, .right (.row3 c names d), ()), rfl⟩
  | .node .smallEmpty (.row1 (.node .emptyStmt (.row1 a))) => ⟨.smallEmpty, (a, ()), rfl⟩

theorem exists_atom (d : Derivation (Rule.shape .atom)) :
    ∃ (p : Production .atom) (ds : Pieces p.symbols), p.derive ds = d :=
  match d with
  | .node .emptyTuple (.row2 a b) => ⟨.atomParen, (a, .left (.row1 b), ()), rfl⟩
  | .node .paren (.row3 a inner b) => ⟨.atomParen, (a, .right (.row3 inner .done b), ()), rfl⟩
  | .node .tupleDisplay (.row4 a first (.plus second others) b) =>
    ⟨.atomParen, (a, .right (.row3 first (.more second others) b), ()), rfl⟩
  | .node .emptyList (.row2 a b) => ⟨.atomList, (a, .left (.row1 b), ()), rfl⟩
  | .node .listDisplay (.row4 a first more b) =>
    ⟨.atomList, (a, .right (.row2 first (.left (.row2 more b))), ()), rfl⟩
  | .node .listComprehension (.row4 a element c b) =>
    ⟨.atomList, (a, .right (.row2 element (.right (.row2 c b))), ()), rfl⟩
  | .node .emptyDict (.row2 a b) => ⟨.atomDict, (a, .left (.row1 b), ()), rfl⟩
  | .node .dictDisplay (.row4 a first more b) =>
    ⟨.atomDict, (a, .right (.row2 first (.left (.row2 more b))), ()), rfl⟩
  | .node .dictComprehension (.row4 a item c b) =>
    ⟨.atomDict, (a, .right (.row2 item (.right (.row2 c b))), ()), rfl⟩
  | .node .var (.row1 a) => ⟨.atomName, (a, ()), rfl⟩
  | .node .number (.row1 a) => ⟨.atomNumber, (a, ()), rfl⟩
  | .node .string (.row1 (.plus (.row1 (.left (.row1 first))) more)) =>
    ⟨.atomString, (first, more, ()), rfl⟩
  | .node .string (.row1 (.plus (.row1 (.right (.row1 first))) more)) =>
    ⟨.atomLongString, (first, more, ()), rfl⟩
  | .node .constNone (.row1 a) => ⟨.atomNone, (a, ()), rfl⟩
  | .node .constTrue (.row1 a) => ⟨.atomTrue, (a, ()), rfl⟩
  | .node .constFalse (.row1 a) => ⟨.atomFalse, (a, ()), rfl⟩

/-- Every derivation of what a rule stands for is made up by one of its productions. -/
theorem exists_production {r : Rule} (d : Derivation r.shape) :
    ∃ (p : Production r) (ds : Pieces p.symbols), p.derive ds = d := by
  cases r with
  | file =>
    match d with
    | .node .fileInput (.row1 lines) => exact ⟨.file, (lines, ()), rfl⟩
  | lines =>
    match d with
    | .done => exact ⟨.linesEnd, (), rfl⟩
    | .more (.row1 (.left (.row1 a))) lines => exact ⟨.linesBlank, (a, lines, ()), rfl⟩
    | .more (.row1 (.right (.row1 first))) lines => exact ⟨.linesMore, (first, lines, ()), rfl⟩
  | statement => exact exists_statement d
  | suite =>
    match d with
    | .node .suiteInline (.row1 body) => exact ⟨.suiteInline, (body, ()), rfl⟩
    | .node .suiteBlock (.row4 a b (.plus (.row1 first) more) c) =>
      exact ⟨.suiteBlock, (a, b, first, more, c, ()), rfl⟩
  | statements =>
    match d with
    | .done => exact ⟨.statementsEnd, (), rfl⟩
    | .more (.row1 first) more => exact ⟨.statementsMore, (first, more, ()), rfl⟩
  | simple =>
    match d with
    | .node .simpleStmt (.row3 first more a) => exact ⟨.simple, (first, more, a, ()), rfl⟩
  | smalls =>
    match d with
    | .done => exact ⟨.smallsEnd, (), rfl⟩
    | .more (.row2 a first) more => exact ⟨.smallsMore, (a, first, more, ()), rfl⟩
  | small => exact exists_small d
  | assignments =>
    match d with
    | .absent => exact ⟨.assignmentsNone, (), rfl⟩
    | .present (.row1 (.left (.row1 (.plus (.row2 a next) more)))) =>
      exact ⟨.assignmentsPlain, (a, next, more, ()), rfl⟩
    | .present (.row1 (.right (.row2 (.node .augassignOp (.row1 op)) value))) =>
      exact ⟨.assignmentsAugmented, (op, value, ()), rfl⟩
  | moreAssignments =>
    match d with
    | .done => exact ⟨.moreAssignmentsEnd, (), rfl⟩
    | .more (.row2 a next) more => exact ⟨.moreAssignmentsMore, (a, next, more, ()), rfl⟩
  | optTestlist =>
    match d with
    | .absent => exact ⟨.optTestlistNone, (), rfl⟩
    | .present (.row1 value) => exact ⟨.optTestlistSome, (value, ()), rfl⟩
  | optTest =>
    match d with
    | .absent => exact ⟨.optTestNone, (), rfl⟩
    | .present (.row1 value) => exact ⟨.optTestSome, (value, ()), rfl⟩
  | assertMessage =>
    match d with
    | .absent => exact ⟨.assertMessageNone, (), rfl⟩
    | .present (.row2 a value) => exact ⟨.assertMessageSome, (a, value, ()), rfl⟩
  | moreNames =>
    match d with
    | .done => exact ⟨.moreNamesEnd, (), rfl⟩
    | .more (.row2 a name) more => exact ⟨.moreNamesMore, (a, name, more, ()), rfl⟩
  | moduleImport =>
    match d with
    | .node .dottedAsName (.row2 path asName) => exact ⟨.moduleImport, (path, asName, ()), rfl⟩
  | moreModuleImports =>
    match d with
    | .done => exact ⟨.moreModuleImportsEnd, (), rfl⟩
    | .more (.row2 a next) more => exact ⟨.moreModuleImportsMore, (a, next, more, ()), rfl⟩
  | members =>
    match d with
    | .left (.row1 (.node .importAsNames (.row2 first more))) =>
      exact ⟨.membersBare, (first, more, ()), rfl⟩
    | .right (.row3 a (.node .importAsNames (.row2 first more)) b) =>
      exact ⟨.membersParen, (a, first, more, b, ()), rfl⟩
  | moreMembers =>
    match d with
    | .done => exact ⟨.moreMembersEnd, (), rfl⟩
    | .more (.row2 a first) more => exact ⟨.moreMembersMore, (a, first, more, ()), rfl⟩
  | member =>
    match d with
    | .node .importAsName (.row2 name asName) => exact ⟨.member, (name, asName, ()), rfl⟩
  | optAlias =>
    match d with
    | .absent => exact ⟨.optAliasNone, (), rfl⟩
    | .present (.row2 a name) => exact ⟨.optAliasSome, (a, name, ()), rfl⟩
  | dotted =>
    match d with
    | .node .dottedName (.row2 name more) => exact ⟨.dotted, (name, more, ()), rfl⟩
  | moreDotted =>
    match d with
    | .done => exact ⟨.moreDottedEnd, (), rfl⟩
    | .more (.row2 a name) more => exact ⟨.moreDottedMore, (a, name, more, ()), rfl⟩
  | elifs =>
    match d with
    | .done => exact ⟨.elifsEnd, (), rfl⟩
    | .more (.row1 first) more => exact ⟨.elifsMore, (first, more, ()), rfl⟩
  | elif =>
    match d with
    | .node .elifClause (.row4 a condition b body) =>
      exact ⟨.elif, (a, condition, b, body, ()), rfl⟩
  | optElse =>
    match d with
    | .absent => exact ⟨.optElseNone, (), rfl⟩
    | .present (.row1 (.node .elseClause (.row3 a b body))) =>
      exact ⟨.optElseSome, (a, b, body, ()), rfl⟩
  | tryTail =>
    match d with
    | .left (.row1 (.node .finallyClause (.row3 a b body))) =>
      exact ⟨.tryTailFinally, (a, b, body, ()), rfl⟩
    | .right (.row3 (.plus (.row1 first) more) orelse final) =>
      exact ⟨.tryTailHandlers, (first, more, orelse, final, ()), rfl⟩
  | handlers =>
    match d with
    | .done => exact ⟨.handlersEnd, (), rfl⟩
    | .more (.row1 first) more => exact ⟨.handlersMore, (first, more, ()), rfl⟩
  | handler =>
    match d with
    | .node .exceptClause (.row4 a head b body) => exact ⟨.handler, (a, head, b, body, ()), rfl⟩
  | handlerHead =>
    match d with
    | .absent => exact ⟨.handlerHeadNone, (), rfl⟩
    | .present (.row2 type asName) => exact ⟨.handlerHeadSome, (type, asName, ()), rfl⟩
  | optFinally =>
    match d with
    | .absent => exact ⟨.optFinallyNone, (), rfl⟩
    | .present (.row1 (.node .finallyClause (.row3 a b body))) =>
      exact ⟨.optFinallySome, (a, b, body, ()), rfl⟩
  | withItem =>
    match d with
    | .node .withItem (.row2 value asName) => exact ⟨.withItem, (value, asName, ()), rfl⟩
  | moreWithItems =>
    match d with
    | .done => exact ⟨.moreWithItemsEnd, (), rfl⟩
    | .more (.row2 a first) more => exact ⟨.moreWithItemsMore, (a, first, more, ()), rfl⟩
  | decorators =>
    match d with
    | .done => exact ⟨.decoratorsEnd, (), rfl⟩
    | .more (.row1 first) more => exact ⟨.decoratorsMore, (first, more, ()), rfl⟩
  | decorator =>
    match d with
    | .node .decorator (.row4 a path arguments b) =>
      exact ⟨.decorator, (a, path, arguments, b, ()), rfl⟩
  | definition =>
    match d with
    | .left (.row1 (.node .funcdef (.row7 a name b params c d body))) =>
      exact ⟨.definitionFunction, (a, name, b, params, c, d, body, ()), rfl⟩
    | .right (.row1 (.node .classdef (.row5 a name bases b body))) =>
      exact ⟨.definitionClass, (a, name, bases, b, body, ()), rfl⟩
  | optBases =>
    match d with
    | .absent => exact ⟨.optBasesNone, (), rfl⟩
    | .present (.row3 a arguments b) => exact ⟨.optBasesSome, (a, arguments, b, ()), rfl⟩
  | optParams =>
    match d with
    | .absent => exact ⟨.optParamsNone, (), rfl⟩
    | .present (.row1 (.node .parameters (.row2 first more))) =>
      exact ⟨.optParamsSome, (first, more, ()), rfl⟩
  | moreParams =>
    match d with
    | .done => exact ⟨.moreParamsEnd, (), rfl⟩
    | .more (.row2 a first) more => exact ⟨.moreParamsMore, (a, first, more, ()), rfl⟩
  | param =>
    match d with
    | .node .param (.row2 name default) => exact ⟨.paramPlain, (name, default, ()), rfl⟩
    | .node .starParam (.row2 a name) => exact ⟨.paramStar, (a, name, ()), rfl⟩
    | .node .kwstarParam (.row2 a name) => exact ⟨.paramDoubleStar, (a, name, ()), rfl⟩
  | optDefault =>
    match d with
    | .absent => exact ⟨.optDefaultNone, (), rfl⟩
    | .present (.row2 a value) => exact ⟨.optDefaultSome, (a, value, ()), rfl⟩
  | optArguments =>
    match d with
    | .absent => exact ⟨.optArgumentsNone, (), rfl⟩
    | .present (.row1 (.node .arguments (.row2 first more))) =>
      exact ⟨.optArgumentsSome, (first, more, ()), rfl⟩
  | moreArguments =>
    match d with
    | .done => exact ⟨.moreArgumentsEnd, (), rfl⟩
    | .more (.row2 a first) more => exact ⟨.moreArgumentsMore, (a, first, more, ()), rfl⟩
  | argument =>
    match d with
    | .node .argument (.row1 value) => exact ⟨.argumentPlain, (value, .absent, ()), rfl⟩
    | .node .kwarg (.row3 key a value) =>
      exact ⟨.argumentPlain, (key, .present (.row2 a value), ()), rfl⟩
    | .node .starArg (.row2 a value) => exact ⟨.argumentStar, (a, value, ()), rfl⟩
    | .node .kwstarArg (.row2 a value) => exact ⟨.argumentDoubleStar, (a, value, ()), rfl⟩
  | optKeyword =>
    match d with
    | .absent => exact ⟨.optKeywordNone, (), rfl⟩
    | .present (.row2 a value) => exact ⟨.optKeywordSome, (a, value, ()), rfl⟩
  | testlist =>
    match d with
    | .node .testlist (.row1 first) => exact ⟨.testlist, (first, .done, ()), rfl⟩
    | .node .testTuple (.row2 first (.plus second others)) =>
      exact ⟨.testlist, (first, .more second others, ()), rfl⟩
  | moreTests =>
    match d with
    | .done => exact ⟨.moreTestsEnd, (), rfl⟩
    | .more (.row2 a first) more => exact ⟨.moreTestsMore, (a, first, more, ()), rfl⟩
  | exprlist =>
    match d with
    | .node .exprlist (.row1 first) => exact ⟨.exprlist, (first, .done, ()), rfl⟩
    | .node .exprTuple (.row2 first (.plus second others)) =>
      exact ⟨.exprlist, (first, .more second others, ()), rfl⟩
  | moreExprs =>
    match d with
    | .done => exact ⟨.moreExprsEnd, (), rfl⟩
    | .more (.row2 a first) more => exact ⟨.moreExprsMore, (a, first, more, ()), rfl⟩
  | test =>
    match d with
    | .node .test (.row1 value) => exact ⟨.testValue, (value, .absent, ()), rfl⟩
    | .node .ternary (.row5 value a condition b orelse) =>
      exact ⟨.testValue, (value, .present (.row4 a condition b orelse), ()), rfl⟩
    | .node .testLambdef (.row1 (.node .lambdef (.row4 a params b body))) =>
      exact ⟨.testLambda, (a, params, b, body, ()), rfl⟩
  | optTernary =>
    match d with
    | .absent => exact ⟨.optTernaryNone, (), rfl⟩
    | .present (.row4 a condition b orelse) =>
      exact ⟨.optTernarySome, (a, condition, b, orelse, ()), rfl⟩
  | orTest =>
    match d with
    | .node .orTest (.row2 first more) => exact ⟨.orTest, (first, more, ()), rfl⟩
  | moreOr =>
    match d with
    | .done => exact ⟨.moreOrEnd, (), rfl⟩
    | .more (.row2 a first) more => exact ⟨.moreOrMore, (a, first, more, ()), rfl⟩
  | andTest =>
    match d with
    | .node .andTest (.row2 first more) => exact ⟨.andTest, (first, more, ()), rfl⟩
  | moreAnd =>
    match d with
    | .done => exact ⟨.moreAndEnd, (), rfl⟩
    | .more (.row2 a first) more => exact ⟨.moreAndMore, (a, first, more, ()), rfl⟩
  | notTest =>
    match d with
    | .node .notOp (.row2 a operand) => exact ⟨.notTestNot, (a, operand, ()), rfl⟩
    | .node .notTest (.row1 value) => exact ⟨.notTestComparison, (value, ()), rfl⟩
  | comparison =>
    match d with
    | .node .comparison (.row2 first more) => exact ⟨.comparison, (first, more, ()), rfl⟩
  | moreCompare =>
    match d with
    | .done => exact ⟨.moreCompareEnd, (), rfl⟩
    | .more (.row2 op operand) more => exact ⟨.moreCompareMore, (op, operand, more, ()), rfl⟩
  | compareOp =>
    match d with
    | .node .compRelation (.row1 a) => exact ⟨.compareOpRelation, (a, ()), rfl⟩
    | .node .compIn (.row1 a) => exact ⟨.compareOpIn, (a, ()), rfl⟩
    | .node .compNotIn (.row2 a b) => exact ⟨.compareOpNotIn, (a, b, ()), rfl⟩
    | .node .compIs (.row1 a) => exact ⟨.compareOpIs, (a, .absent, ()), rfl⟩
    | .node .compIsNot (.row2 a b) => exact ⟨.compareOpIs, (a, .present (.row1 b), ()), rfl⟩
  | optNot =>
    match d with
    | .absent => exact ⟨.optNotNone, (), rfl⟩
    | .present (.row1 a) => exact ⟨.optNotSome, (a, ()), rfl⟩
  | bitOr =>
    match d with
    | .node .bitorExpr (.row2 first more) => exact ⟨.bitOr, (first, more, ()), rfl⟩
  | moreBitOr =>
    match d with
    | .done => exact ⟨.moreBitOrEnd, (), rfl⟩
    | .more (.row2 op first) more => exact ⟨.moreBitOrMore, (op, first, more, ()), rfl⟩
  | bitXor =>
    match d with
    | .node .bitxorExpr (.row2 first more) => exact ⟨.bitXor, (first, more, ()), rfl⟩
  | moreBitXor =>
    match d with
    | .done => exact ⟨.moreBitXorEnd, (), rfl⟩
    | .more (.row2 op first) more => exact ⟨.moreBitXorMore, (op, first, more, ()), rfl⟩
  | bitAnd =>
    match d with
    | .node .bitandExpr (.row2 first more) => exact ⟨.bitAnd, (first, more, ()), rfl⟩
  | moreBitAnd =>
    match d with
    | .done => exact ⟨.moreBitAndEnd, (), rfl⟩
    | .more (.row2 op first) more => exact ⟨.moreBitAndMore, (op, first, more, ()), rfl⟩
  | shiftExpr =>
    match d with
    | .node .shiftExpr (.row2 first more) => exact ⟨.shiftExpr, (first, more, ()), rfl⟩
  | moreShift =>
    match d with
    | .done => exact ⟨.moreShiftEnd, (), rfl⟩
    | .more (.row2 (.node .shiftOp (.row1 op)) first) more =>
      exact ⟨.moreShiftMore, (op, first, more, ()), rfl⟩
  | arith =>
    match d with
    | .node .arithExpr (.row2 first more) => exact ⟨.arith, (first, more, ()), rfl⟩
  | moreArith =>
    match d with
    | .done => exact ⟨.moreArithEnd, (), rfl⟩
    | .more (.row2 (.node .addOp (.row1 op)) first) more =>
      exact ⟨.moreArithMore, (op, first, more, ()), rfl⟩
  | term =>
    match d with
    | .node .term (.row2 first more) => exact ⟨.term, (first, more, ()), rfl⟩
  | moreTerm =>
    match d with
    | .done => exact ⟨.moreTermEnd, (), rfl⟩
    | .more (.row2 op first) more => exact ⟨.moreTermMore, (op, first, more, ()), rfl⟩
  | mulOp =>
    match d with
    | .node .mulStar (.row1 op) => exact ⟨.mulOpStar, (op, ()), rfl⟩
    | .node .mulDivide (.row1 op) => exact ⟨.mulOpDivide, (op, ()), rfl⟩
  | factor =>
    match d with
    | .node .factorUnary (.row2 (.node .unarySign (.row1 op)) operand) =>
      exact ⟨.factorSign, (op, operand, ()), rfl⟩
    | .node .factorUnary (.row2 (.node .unaryTilde (.row1 op)) operand) =>
      exact ⟨.factorTilde, (op, operand, ()), rfl⟩
    | .node .factorPower (.row1 value) => exact ⟨.factorPower, (value, ()), rfl⟩
  | power =>
    match d with
    | .node .power (.row2 base exponent) => exact ⟨.power, (base, exponent, ()), rfl⟩
  | optPower =>
    match d with
    | .absent => exact ⟨.optPowerNone, (), rfl⟩
    | .present (.row2 a value) => exact ⟨.optPowerSome, (a, value, ()), rfl⟩
  | primary =>
    obtain ⟨base, trailers, heq⟩ := exists_trailers d .done
    exact ⟨.primary, (base, trailers, ()), heq.trans (applyTrailers_done d)⟩
  | trailers =>
    match d with
    | .done => exact ⟨.trailersEnd, (), rfl⟩
    | .more (.row1 first) more => exact ⟨.trailersMore, (first, more, ()), rfl⟩
  | trailer =>
    match d with
    | .left (.row3 a arguments b) => exact ⟨.trailerCall, (a, arguments, b, ()), rfl⟩
    | .right (.row1 (.left (.row3 a i b))) => exact ⟨.trailerIndex, (a, i, b, ()), rfl⟩
    | .right (.row1 (.right (.row2 a name))) => exact ⟨.trailerAttribute, (a, name, ()), rfl⟩
  | subscript =>
    match d with
    | .node .subscript (.row1 lower) => exact ⟨.subscriptTest, (lower, .absent, ()), rfl⟩
    | .node .sliceLower (.row2 lower a) =>
      exact ⟨.subscriptTest, (lower, .present (.row2 a .absent), ()), rfl⟩
    | .node .sliceFull (.row3 lower a upper) =>
      exact ⟨.subscriptTest, (lower, .present (.row2 a (.present (.row1 upper))), ()), rfl⟩
    | .node .sliceAll (.row1 a) => exact ⟨.subscriptColon, (a, .absent, ()), rfl⟩
    | .node .sliceUpper (.row2 a upper) =>
      exact ⟨.subscriptColon, (a, .present (.row1 upper), ()), rfl⟩
  | optSlice =>
    match d with
    | .absent => exact ⟨.optSliceNone, (), rfl⟩
    | .present (.row2 a upper) => exact ⟨.optSliceSome, (a, upper, ()), rfl⟩
  | optUpper =>
    match d with
    | .absent => exact ⟨.optUpperNone, (), rfl⟩
    | .present (.row1 value) => exact ⟨.optUpperSome, (value, ()), rfl⟩
  | atom => exact exists_atom d
  | parenTail =>
    match d with
    | .left (.row1 a) => exact ⟨.parenTailEmpty, (a, ()), rfl⟩
    | .right (.row3 first more a) => exact ⟨.parenTailTests, (first, more, a, ()), rfl⟩
  | listTail =>
    match d with
    | .left (.row1 a) => exact ⟨.listTailEmpty, (a, ()), rfl⟩
    | .right (.row2 first rest) => exact ⟨.listTailTests, (first, rest, ()), rfl⟩
  | listRest =>
    match d with
    | .left (.row2 more a) => exact ⟨.listRestItems, (more, a, ()), rfl⟩
    | .right (.row2 c a) => exact ⟨.listRestFor, (c, a, ()), rfl⟩
  | dictTail =>
    match d with
    | .left (.row1 a) => exact ⟨.dictTailEmpty, (a, ()), rfl⟩
    | .right (.row2 first rest) => exact ⟨.dictTailItems, (first, rest, ()), rfl⟩
  | dictRest =>
    match d with
    | .left (.row2 more a) => exact ⟨.dictRestItems, (more, a, ()), rfl⟩
    | .right (.row2 c a) => exact ⟨.dictRestFor, (c, a, ()), rfl⟩
  | dictItem =>
    match d with
    | .node .dictItem (.row3 key a value) => exact ⟨.dictItem, (key, a, value, ()), rfl⟩
  | moreDictItems =>
    match d with
    | .done => exact ⟨.moreDictItemsEnd, (), rfl⟩
    | .more (.row2 a first) more => exact ⟨.moreDictItemsMore, (a, first, more, ()), rfl⟩
  | compFor =>
    match d with
    | .node .compFor (.row5 a target b iterable condition) =>
      exact ⟨.compFor, (a, target, b, iterable, condition, ()), rfl⟩
  | optCondition =>
    match d with
    | .absent => exact ⟨.optConditionNone, (), rfl⟩
    | .present (.row1 (.node .compIf (.row2 a value))) =>
      exact ⟨.optConditionSome, (a, value, ()), rfl⟩
  | moreStrings =>
    match d with
    | .done => exact ⟨.moreStringsEnd, (), rfl⟩
    | .more (.row1 (.left (.row1 a))) more => exact ⟨.moreStringsShort, (a, more, ()), rfl⟩
    | .more (.row1 (.right (.row1 a))) more => exact ⟨.moreStringsLong, (a, more, ()), rfl⟩

/-! ## Trees and derivations -/

mutual

/-- What a tree of the factored grammar derives in the published one. -/
def Tree.derivation {s : Symbol} : Tree s → Derivation s.shape
  | .leaf t fits => .leaf t fits
  | .node p children => p.derive children.pieces

def Forest.pieces {ss : List Symbol} : Forest ss → Pieces ss
  | .nil => ()
  | .cons head tail => (head.derivation, tail.pieces)

end

mutual

theorem Tree.prepend_derivation {s : Symbol} (t : Tree s) (rest : List Token) :
    t.derivation.prepend rest = t.tokens ++ rest := by
  match t with
  | .leaf _ _ => rfl
  | .node p children =>
    exact (p.prepend_derive children.pieces rest).trans (children.prepend_pieces rest)

theorem Forest.prepend_pieces {ss : List Symbol} (ts : Forest ss) (rest : List Token) :
    ts.pieces.prepend rest = ts.tokens ++ rest := by
  match ts with
  | .nil => rfl
  | .cons head tail =>
    rw [Forest.pieces, Pieces.prepend, tail.prepend_pieces, head.prepend_derivation,
      Forest.tokens, List.append_assoc]

end

theorem Tree.tokens_derivation {s : Symbol} (t : Tree s) : t.derivation.tokens = t.tokens :=
  (t.prepend_derivation []).trans (List.append_nil _)

/-- A rule that stands for an item without a token of its own may be empty. -/
theorem Rule.nullable_of_shape {r : Rule} (h : r.shape.solid = false) : r.nullable = true := by
  cases r <;> first | rfl | cases h

theorem nullable_of_tokens {s : Symbol} (d : Derivation s.shape) (h : d.tokens = []) :
    s.nullable = true := by
  cases s with
  | token kind =>
    cases d with
    | leaf t fits => cases h
  | rule r =>
    apply Rule.nullable_of_shape
    cases hsolid : r.shape.solid with
    | false => rfl
    | true => exact absurd h (d.tokens_ne_nil hsolid)

theorem Pieces.nullable_of_prepend {ss : List Symbol} (ds : Pieces ss) (h : ds.prepend [] = []) :
    ss.all Symbol.nullable = true := by
  induction ss with
  | nil => rfl
  | cons s ss ih =>
    obtain ⟨d, ds⟩ := ds
    rw [Pieces.prepend, d.prepend_eq, List.append_eq_nil_iff] at h
    rw [List.all_cons, Bool.and_eq_true]
    exact ⟨nullable_of_tokens d h.1, ih ds h.2⟩

/-- Pieces come from trees if all derivations of lower measure do. The measure is the one that
bounds the height of a tree. -/
theorem Pieces.exists_forest {ss : List Symbol} (ds : Pieces ss) {measure bound spent : Nat}
    {spare : Bool}
    (htree : ∀ {r : Rule} (d : Derivation r.shape),
      depthPerToken * d.tokens.length + r.rank < measure →
        ∃ t : Tree (.rule r), t.derivation = d)
    (hss : shallow bound spare ss = true) (hspare : spare = true → 0 < spent)
    (hmeasure : depthPerToken * (spent + (ds.prepend []).length) + bound ≤ measure) :
    ∃ ts : Forest ss, ts.pieces = ds := by
  induction ss generalizing spent spare with
  | nil => exact ⟨.nil, rfl⟩
  | cons s ss ih =>
    obtain ⟨d, ds⟩ := ds
    change depthPerToken * (spent + (d.prepend (Pieces.prepend ds [])).length) + bound ≤ measure
      at hmeasure
    rw [d.prepend_eq, List.length_append, ← Nat.add_assoc] at hmeasure
    cases s with
    | token kind =>
      cases d with
      | leaf t fits =>
        have hspare : true = true → 0 < spent + 1 := fun _ => Nat.succ_pos spent
        obtain ⟨ts, hts⟩ := ih ds hss hspare hmeasure
        exact ⟨.cons (.leaf t fits) ts, by rw [Forest.pieces, hts]; rfl⟩
    | rule r =>
      obtain ⟨hdeep, hrest, hspare⟩ := shallow_rule hss hspare
        (fun h => nullable_of_tokens d (List.length_eq_zero_iff.mp h))
        (fun h => ds.nullable_of_prepend (List.length_eq_zero_iff.mp h))
      obtain ⟨t, ht⟩ := htree d (Nat.lt_of_lt_of_le hdeep hmeasure)
      obtain ⟨ts, hts⟩ := ih ds hrest hspare hmeasure
      exact ⟨.cons t ts, by rw [Forest.pieces, ht, hts]⟩

/-- Every derivation of what a rule stands for comes from a tree of the rule. -/
theorem exists_tree {r : Rule} (d : Derivation r.shape) :
    ∃ t : Tree (.rule r), t.derivation = d := by
  induction hmeasure : depthPerToken * d.tokens.length + r.rank
    using Nat.strongRecOn generalizing r with
  | ind measure ih =>
    obtain ⟨p, ds, rfl⟩ := exists_production d
    rw [p.tokens_derive] at hmeasure
    have hspare : false = true → 0 < 0 := nofun
    obtain ⟨children, rfl⟩ := ds.exists_forest (fun d h => ih _ h d rfl) p.shallow_symbols hspare
      (by rw [Nat.zero_add]; exact Nat.le_of_eq hmeasure)
    exact ⟨.node p children, rfl⟩

end ScopeLint.Grammar
