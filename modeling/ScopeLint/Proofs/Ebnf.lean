import ScopeLint.Grammar.Meaning

/-! # The grammar as it is published

The grammar that a reader of the language knows is not the one that is read by: its
alternatives begin alike, repeat and leave out, and `atomExpr` is left-recursive.
`Derivation` is what it means for tokens to be derivable from it. Every alternative
says what syntax tree it builds: operators of one level are folded from the left,
assignments and `elif` clauses from the right, and a comparison stays one node. -/
namespace ScopeLint.Ebnf

open Grammar

inductive Nonterminal where
  | fileInput | stmt | simpleStmt | smallStmt
  | exprStmt | augassignOp | passStmt | breakStmt | continueStmt | returnStmt | raiseStmt | delStmt
  | assertStmt | globalStmt | nonlocalStmt | emptyStmt
  | importName | dottedAsName | importFrom | importAsNames | importAsName | dottedName
  | compoundStmt | ifStmt | elifClause | elseClause | whileStmt | forStmt
  | tryStmt | exceptClause | finallyClause | withStmt | withItem
  | funcdef | parameters | param | classdef | decorated | decorator | suite
  | testlist | exprlist | test | lambdef | orTest | andTest | notTest | comparison | compOp
  | bitorExpr | bitxorExpr | bitandExpr | shiftExpr | shiftOp | arithExpr | addOp | term | mulOp
  | factor | unaryOp | power | atomExpr | arguments | argument | subscript | atom
  | compFor | compIf | dictItem

inductive Item where
  | token (kind : Kind)
  | phrase (n : Nonterminal)
  /-- Once or not at all. -/
  | opt (body : List Item)
  /-- Any number of times. -/
  | many (body : List Item)
  /-- At least once. -/
  | plus (body : List Item)
  | either (left right : List Item)

/-- The alternatives of each nonterminal. -/
inductive Alternative : Nonterminal → Type where
  | fileInput : Alternative .fileInput
  | stmtSimple : Alternative .stmt
  | stmtCompound : Alternative .stmt
  | simpleStmt : Alternative .simpleStmt
  | smallExpr : Alternative .smallStmt
  | smallPass : Alternative .smallStmt
  | smallBreak : Alternative .smallStmt
  | smallContinue : Alternative .smallStmt
  | smallReturn : Alternative .smallStmt
  | smallRaise : Alternative .smallStmt
  | smallDel : Alternative .smallStmt
  | smallAssert : Alternative .smallStmt
  | smallGlobal : Alternative .smallStmt
  | smallNonlocal : Alternative .smallStmt
  | smallImportName : Alternative .smallStmt
  | smallImportFrom : Alternative .smallStmt
  | smallEmpty : Alternative .smallStmt
  | exprStmt : Alternative .exprStmt
  | assignStmt : Alternative .exprStmt
  | augassignStmt : Alternative .exprStmt
  | augassignOp : Alternative .augassignOp
  | passStmt : Alternative .passStmt
  | breakStmt : Alternative .breakStmt
  | continueStmt : Alternative .continueStmt
  | returnStmt : Alternative .returnStmt
  | raiseStmt : Alternative .raiseStmt
  | delStmt : Alternative .delStmt
  | assertStmt : Alternative .assertStmt
  | globalStmt : Alternative .globalStmt
  | nonlocalStmt : Alternative .nonlocalStmt
  | emptyStmt : Alternative .emptyStmt
  | importName : Alternative .importName
  | dottedAsName : Alternative .dottedAsName
  | importFrom : Alternative .importFrom
  | importFromParen : Alternative .importFrom
  | importAsNames : Alternative .importAsNames
  | importAsName : Alternative .importAsName
  | dottedName : Alternative .dottedName
  | compoundIf : Alternative .compoundStmt
  | compoundWhile : Alternative .compoundStmt
  | compoundFor : Alternative .compoundStmt
  | compoundTry : Alternative .compoundStmt
  | compoundWith : Alternative .compoundStmt
  | compoundFuncdef : Alternative .compoundStmt
  | compoundClassdef : Alternative .compoundStmt
  | compoundDecorated : Alternative .compoundStmt
  | ifStmt : Alternative .ifStmt
  | elifClause : Alternative .elifClause
  | elseClause : Alternative .elseClause
  | whileStmt : Alternative .whileStmt
  | forStmt : Alternative .forStmt
  | tryExcept : Alternative .tryStmt
  | tryFinally : Alternative .tryStmt
  | exceptClause : Alternative .exceptClause
  | finallyClause : Alternative .finallyClause
  | withStmt : Alternative .withStmt
  | withItem : Alternative .withItem
  | funcdef : Alternative .funcdef
  | parameters : Alternative .parameters
  | param : Alternative .param
  | starParam : Alternative .param
  | kwstarParam : Alternative .param
  | classdef : Alternative .classdef
  | decorated : Alternative .decorated
  | decorator : Alternative .decorator
  | suiteInline : Alternative .suite
  | suiteBlock : Alternative .suite
  | testlist : Alternative .testlist
  | testTuple : Alternative .testlist
  | exprlist : Alternative .exprlist
  | exprTuple : Alternative .exprlist
  | test : Alternative .test
  | ternary : Alternative .test
  | testLambdef : Alternative .test
  | lambdef : Alternative .lambdef
  | orTest : Alternative .orTest
  | andTest : Alternative .andTest
  | notOp : Alternative .notTest
  | notTest : Alternative .notTest
  | comparison : Alternative .comparison
  | compRelation : Alternative .compOp
  | compIn : Alternative .compOp
  | compNotIn : Alternative .compOp
  | compIs : Alternative .compOp
  | compIsNot : Alternative .compOp
  | bitorExpr : Alternative .bitorExpr
  | bitxorExpr : Alternative .bitxorExpr
  | bitandExpr : Alternative .bitandExpr
  | shiftExpr : Alternative .shiftExpr
  | shiftOp : Alternative .shiftOp
  | arithExpr : Alternative .arithExpr
  | addOp : Alternative .addOp
  | term : Alternative .term
  | mulStar : Alternative .mulOp
  | mulDivide : Alternative .mulOp
  | factorUnary : Alternative .factor
  | factorPower : Alternative .factor
  | unarySign : Alternative .unaryOp
  | unaryTilde : Alternative .unaryOp
  | power : Alternative .power
  | call : Alternative .atomExpr
  | getitem : Alternative .atomExpr
  | getattr : Alternative .atomExpr
  | atomExpr : Alternative .atomExpr
  | arguments : Alternative .arguments
  | argument : Alternative .argument
  | kwarg : Alternative .argument
  | starArg : Alternative .argument
  | kwstarArg : Alternative .argument
  | subscript : Alternative .subscript
  | sliceFull : Alternative .subscript
  | sliceLower : Alternative .subscript
  | sliceUpper : Alternative .subscript
  | sliceAll : Alternative .subscript
  | emptyTuple : Alternative .atom
  | paren : Alternative .atom
  | tupleDisplay : Alternative .atom
  | emptyList : Alternative .atom
  | listComprehension : Alternative .atom
  | listDisplay : Alternative .atom
  | emptyDict : Alternative .atom
  | dictComprehension : Alternative .atom
  | dictDisplay : Alternative .atom
  | var : Alternative .atom
  | number : Alternative .atom
  | string : Alternative .atom
  | constNone : Alternative .atom
  | constTrue : Alternative .atom
  | constFalse : Alternative .atom
  | compFor : Alternative .compFor
  | compIf : Alternative .compIf
  | dictItem : Alternative .dictItem

abbrev tk (kind : Kind) : Item := .token kind

abbrev ph (n : Nonterminal) : Item := .phrase n

namespace Alternative

/-- What an alternative puts in place of its nonterminal. -/
def body {n : Nonterminal} : Alternative n → List Item
  | fileInput => [.many [.either [tk .newline] [ph .stmt]]]
  | stmtSimple => [ph .simpleStmt]
  | stmtCompound => [ph .compoundStmt]
  | simpleStmt => [ph .smallStmt, .many [tk .separator, ph .smallStmt], tk .newline]
  | smallExpr => [ph .exprStmt]
  | smallPass => [ph .passStmt]
  | smallBreak => [ph .breakStmt]
  | smallContinue => [ph .continueStmt]
  | smallReturn => [ph .returnStmt]
  | smallRaise => [ph .raiseStmt]
  | smallDel => [ph .delStmt]
  | smallAssert => [ph .assertStmt]
  | smallGlobal => [ph .globalStmt]
  | smallNonlocal => [ph .nonlocalStmt]
  | smallImportName => [ph .importName]
  | smallImportFrom => [ph .importFrom]
  | smallEmpty => [ph .emptyStmt]
  | exprStmt => [ph .testlist]
  | assignStmt => [ph .testlist, .plus [tk .assign, ph .testlist]]
  | augassignStmt => [ph .testlist, ph .augassignOp, ph .testlist]
  | augassignOp => [tk .augmented]
  | passStmt => [tk .passWord]
  | breakStmt => [tk .breakWord]
  | continueStmt => [tk .continueWord]
  | returnStmt => [tk .returnWord, .opt [ph .testlist]]
  | raiseStmt => [tk .raiseWord, .opt [ph .test]]
  | delStmt => [tk .delWord, ph .exprlist]
  | assertStmt => [tk .assertWord, ph .test, .opt [tk .comma, ph .test]]
  | globalStmt => [tk .globalWord, tk .name, .many [tk .comma, tk .name]]
  | nonlocalStmt => [tk .nonlocalWord, tk .name, .many [tk .comma, tk .name]]
  | emptyStmt => [tk .emptyStatement]
  | importName =>
    [tk .importWord, ph .dottedAsName, .many [tk .comma, ph .dottedAsName]]
  | dottedAsName => [ph .dottedName, .opt [tk .asWord, tk .name]]
  | importFrom => [tk .fromWord, ph .dottedName, tk .importWord, ph .importAsNames]
  | importFromParen =>
    [tk .fromWord, ph .dottedName, tk .importWord, tk .openParen, ph .importAsNames,
      tk .closeParen]
  | importAsNames => [ph .importAsName, .many [tk .comma, ph .importAsName]]
  | importAsName => [tk .name, .opt [tk .asWord, tk .name]]
  | dottedName => [tk .name, .many [tk .dot, tk .name]]
  | compoundIf => [ph .ifStmt]
  | compoundWhile => [ph .whileStmt]
  | compoundFor => [ph .forStmt]
  | compoundTry => [ph .tryStmt]
  | compoundWith => [ph .withStmt]
  | compoundFuncdef => [ph .funcdef]
  | compoundClassdef => [ph .classdef]
  | compoundDecorated => [ph .decorated]
  | ifStmt =>
    [tk .ifWord, ph .test, tk .colon, ph .suite, .many [ph .elifClause], .opt [ph .elseClause]]
  | elifClause => [tk .elifWord, ph .test, tk .colon, ph .suite]
  | elseClause => [tk .elseWord, tk .colon, ph .suite]
  | whileStmt => [tk .whileWord, ph .test, tk .colon, ph .suite, .opt [ph .elseClause]]
  | forStmt =>
    [tk .forWord, ph .exprlist, tk .inWord, ph .testlist, tk .colon, ph .suite,
      .opt [ph .elseClause]]
  | tryExcept =>
    [tk .tryWord, tk .colon, ph .suite, .plus [ph .exceptClause], .opt [ph .elseClause],
      .opt [ph .finallyClause]]
  | tryFinally => [tk .tryWord, tk .colon, ph .suite, ph .finallyClause]
  | exceptClause =>
    [tk .exceptWord, .opt [ph .test, .opt [tk .asWord, tk .name]], tk .colon, ph .suite]
  | finallyClause => [tk .finallyWord, tk .colon, ph .suite]
  | withStmt =>
    [tk .withWord, ph .withItem, .many [tk .comma, ph .withItem], tk .colon, ph .suite]
  | withItem => [ph .test, .opt [tk .asWord, tk .name]]
  | funcdef =>
    [tk .defWord, tk .name, tk .openParen, .opt [ph .parameters], tk .closeParen, tk .colon,
      ph .suite]
  | parameters => [ph .param, .many [tk .comma, ph .param]]
  | param => [tk .name, .opt [tk .assign, ph .test]]
  | starParam => [tk .star, tk .name]
  | kwstarParam => [tk .doubleStar, tk .name]
  | classdef =>
    [tk .classWord, tk .name, .opt [tk .openParen, .opt [ph .arguments], tk .closeParen],
      tk .colon, ph .suite]
  | decorated => [.plus [ph .decorator], .either [ph .funcdef] [ph .classdef]]
  | decorator =>
    [tk .atSign, ph .dottedName, .opt [tk .openParen, .opt [ph .arguments], tk .closeParen],
      tk .newline]
  | suiteInline => [ph .simpleStmt]
  | suiteBlock => [tk .newline, tk .indent, .plus [ph .stmt], tk .dedent]
  | testlist => [ph .test]
  | testTuple => [ph .test, .plus [tk .comma, ph .test]]
  | exprlist => [ph .bitorExpr]
  | exprTuple => [ph .bitorExpr, .plus [tk .comma, ph .bitorExpr]]
  | test => [ph .orTest]
  | ternary => [ph .orTest, tk .ifWord, ph .orTest, tk .elseWord, ph .test]
  | testLambdef => [ph .lambdef]
  | lambdef => [tk .lambdaWord, .opt [ph .parameters], tk .colon, ph .test]
  | orTest => [ph .andTest, .many [tk .orWord, ph .andTest]]
  | andTest => [ph .notTest, .many [tk .andWord, ph .notTest]]
  | notOp => [tk .notWord, ph .notTest]
  | notTest => [ph .comparison]
  | comparison => [ph .bitorExpr, .many [ph .compOp, ph .bitorExpr]]
  | compRelation => [tk .relation]
  | compIn => [tk .inWord]
  | compNotIn => [tk .notWord, tk .inWord]
  | compIs => [tk .isWord]
  | compIsNot => [tk .isWord, tk .notWord]
  | bitorExpr => [ph .bitxorExpr, .many [tk .bar, ph .bitxorExpr]]
  | bitxorExpr => [ph .bitandExpr, .many [tk .caret, ph .bitandExpr]]
  | bitandExpr => [ph .shiftExpr, .many [tk .ampersand, ph .shiftExpr]]
  | shiftExpr => [ph .arithExpr, .many [ph .shiftOp, ph .arithExpr]]
  | shiftOp => [tk .shift]
  | arithExpr => [ph .term, .many [ph .addOp, ph .term]]
  | addOp => [tk .sign]
  | term => [ph .factor, .many [ph .mulOp, ph .factor]]
  | mulStar => [tk .star]
  | mulDivide => [tk .divide]
  | factorUnary => [ph .unaryOp, ph .factor]
  | factorPower => [ph .power]
  | unarySign => [tk .sign]
  | unaryTilde => [tk .tilde]
  | power => [ph .atomExpr, .opt [tk .doubleStar, ph .factor]]
  | call => [ph .atomExpr, tk .openParen, .opt [ph .arguments], tk .closeParen]
  | getitem => [ph .atomExpr, tk .openBracket, ph .subscript, tk .closeBracket]
  | getattr => [ph .atomExpr, tk .dot, tk .name]
  | atomExpr => [ph .atom]
  | arguments => [ph .argument, .many [tk .comma, ph .argument]]
  | argument => [ph .test]
  | kwarg => [ph .test, tk .assign, ph .test]
  | starArg => [tk .star, ph .test]
  | kwstarArg => [tk .doubleStar, ph .test]
  | subscript => [ph .test]
  | sliceFull => [ph .test, tk .colon, ph .test]
  | sliceLower => [ph .test, tk .colon]
  | sliceUpper => [tk .colon, ph .test]
  | sliceAll => [tk .colon]
  | emptyTuple => [tk .openParen, tk .closeParen]
  | paren => [tk .openParen, ph .test, tk .closeParen]
  | tupleDisplay => [tk .openParen, ph .test, .plus [tk .comma, ph .test], tk .closeParen]
  | emptyList => [tk .openBracket, tk .closeBracket]
  | listComprehension => [tk .openBracket, ph .test, ph .compFor, tk .closeBracket]
  | listDisplay => [tk .openBracket, ph .test, .many [tk .comma, ph .test], tk .closeBracket]
  | emptyDict => [tk .openBrace, tk .closeBrace]
  | dictComprehension => [tk .openBrace, ph .dictItem, ph .compFor, tk .closeBrace]
  | dictDisplay =>
    [tk .openBrace, ph .dictItem, .many [tk .comma, ph .dictItem], tk .closeBrace]
  | var => [tk .name]
  | number => [tk .number]
  | string => [.plus [.either [tk .string] [tk .longString]]]
  | constNone => [tk .noneWord]
  | constTrue => [tk .trueWord]
  | constFalse => [tk .falseWord]
  | compFor => [tk .forWord, ph .exprlist, tk .inWord, ph .orTest, .opt [ph .compIf]]
  | compIf => [tk .ifWord, ph .orTest]
  | dictItem => [ph .test, tk .colon, ph .test]

end Alternative

/-! ## Derivations -/

mutual

/-- A derivation of tokens from an item. -/
inductive Derivation : Item → Type where
  | leaf {kind : Kind} (t : Token) (fits : t.kind = kind) : Derivation (.token kind)
  | node {n : Nonterminal} (a : Alternative n) (parts : Derivations a.body) :
    Derivation (.phrase n)
  | absent {body : List Item} : Derivation (.opt body)
  | present {body : List Item} (parts : Derivations body) : Derivation (.opt body)
  | done {body : List Item} : Derivation (.many body)
  | more {body : List Item} (parts : Derivations body) (rest : Derivation (.many body)) :
    Derivation (.many body)
  | plus {body : List Item} (parts : Derivations body) (rest : Derivation (.many body)) :
    Derivation (.plus body)
  | left {left right : List Item} (parts : Derivations left) : Derivation (.either left right)
  | right {left right : List Item} (parts : Derivations right) : Derivation (.either left right)

inductive Derivations : List Item → Type where
  | nil : Derivations []
  | cons {x : Item} {xs : List Item} (head : Derivation x) (tail : Derivations xs) :
    Derivations (x :: xs)

end

mutual

/-- The tokens that are derived, in order, put before others. -/
def Derivation.prepend {x : Item} : Derivation x → List Token → List Token
  | .leaf t _, rest => t :: rest
  | .node _ parts, rest | .present parts, rest | .left parts, rest | .right parts, rest =>
    parts.prepend rest
  | .absent, rest | .done, rest => rest
  | .more parts others, rest | .plus parts others, rest => parts.prepend (others.prepend rest)

def Derivations.prepend {xs : List Item} : Derivations xs → List Token → List Token
  | .nil, rest => rest
  | .cons head tail, rest => head.prepend (tail.prepend rest)

end

def Derivation.tokens {x : Item} (d : Derivation x) : List Token := d.prepend []

def Derivations.tokens {xs : List Item} (ds : Derivations xs) : List Token := ds.prepend []

/-! ## What is built -/

/-- What a nonterminal stands for. -/
def Nonterminal.Value : Nonterminal → Type
  | .fileInput => Build Node
  | .stmt | .simpleStmt | .smallStmt | .exprStmt | .passStmt | .breakStmt | .continueStmt
  | .returnStmt | .raiseStmt | .delStmt | .assertStmt | .globalStmt | .nonlocalStmt | .emptyStmt
  | .importName | .importFrom | .compoundStmt | .ifStmt | .elseClause | .whileStmt | .forStmt
  | .tryStmt | .finallyClause | .withStmt | .decorated | .suite => Build (List Node)
  | .augassignOp | .compOp | .shiftOp | .addOp | .mulOp | .unaryOp => String
  | .dottedAsName | .importAsName => Node
  | .importAsNames => List Node
  | .dottedName => String × List String
  | .elifClause => Grammar.Expr × Build (List Node)
  | .exceptClause | .withItem | .param | .decorator | .argument | .subscript => Build Node
  | .funcdef | .classdef => Grammar.Definition
  | .parameters | .arguments => List (Build Node)
  | .testlist | .exprlist | .test | .lambdef | .orTest | .andTest | .notTest | .comparison
  | .bitorExpr | .bitxorExpr | .bitandExpr | .shiftExpr | .arithExpr | .term | .factor | .power
  | .atomExpr | .atom | .compIf => Grammar.Expr
  | .compFor => Grammar.CompFor
  | .dictItem => Grammar.Expr × Grammar.Expr

mutual

def Item.Value : Item → Type
  | .token _ => Token
  | .phrase n => n.Value
  | .opt body => Option (Values body)
  | .many body => List (Values body)
  | .plus body => Values body × List (Values body)
  | .either left right => Values left ⊕ Values right

/-- The values of a row of items, each with its place. -/
def Values : List Item → Type
  | [] => Unit
  | x :: xs => Located x.Value × Values xs

end

/-- What stands between brackets that may be missing or empty. -/
def argumentsOf :
    Option (Values [tk .openParen, .opt [ph .arguments], tk .closeParen]) → List (Build Node)
  | some (_, ⟨_, some (arguments, _)⟩, _) => arguments.value
  | _ => []

def parametersOf : Option (Values [ph .parameters]) → List (Build Node)
  | some (parameters, _) => parameters.value
  | none => []

def elseOf : Option (Values [ph .elseClause]) → Build (List Node)
  | some (body, _) => body.value
  | none => .ok []

def finallyOf : Option (Values [ph .finallyClause]) → Build (List Node)
  | some (body, _) => body.value
  | none => .ok []

def aliasOf (v : Option (Values [tk .asWord, tk .name])) : Option Token :=
  v.map fun (_, name, _) => name.value

/-- Operators of one level, taken together from the left. One operand alone is just itself. -/
def foldLeft (span : Span) (first : Expr) (more : List (String × Expr)) : Expr :=
  if more.isEmpty then first
  else
    { node := do
        more.foldlM (fun left (op, e) => do return .make span (.binOp op) [[left], [← e.node]])
          (← first.node) }

/-- The last operand is the value, and the ones before it are assigned to from right to left. -/
def foldAssign (span : Span) (first : Expr) (more : List Expr) : Build Node := do
  (first :: more).dropLast.foldrM
    (fun target value => do return .make span (.assign "=") [[← target.node], [value]])
    (← ((first :: more).getLastD first).node)

/-- Each clause is an `if` whose `else` body holds the clauses behind it; the last one has that of
the whole statement. -/
def foldElif (clauses : List (Located (Expr × Build (List Node)))) (orelse : Build (List Node)) :
    Build (List Node) := do
  clauses.foldrM
    (fun clause orelse => do
      return [.make clause.span .ifBranch [[← clause.value.1.node], ← clause.value.2, orelse]])
    (← orelse)

/-- What an alternative builds from the values of its items; the span is that of its tokens. -/
def Alternative.build {n : Nonterminal} (a : Alternative n) (span : Span) :
    Values a.body → n.Value :=
  match a with
  | fileInput => fun (lines, _) => show Build Node from do
    let statements := lines.value.filterMap fun
      | (⟨_, .inl _⟩, _) => none
      | (⟨_, .inr (statement, _)⟩, _) => some statement.value
    return .make span .module [← concat statements]
  | stmtSimple | stmtCompound | suiteInline => fun (body, _) => body.value
  | simpleStmt => fun (first, more, _) =>
    concat (first.value :: more.value.map fun (_, statement, _) => statement.value)
  | smallExpr | smallPass | smallBreak | smallContinue | smallReturn | smallRaise | smallDel
  | smallAssert | smallGlobal | smallNonlocal | smallImportName | smallImportFrom
  | smallEmpty => fun (body, _) => body.value
  | exprStmt => fun (value, _) => show Build (List Node) from do
    return [.make span .exprStmt [[← value.value.node]]]
  | assignStmt => fun (first, more, _) => show Build (List Node) from do
    let (second, others) := more.value
    return [← foldAssign span first.value ((second :: others).map fun (_, e, _) => e.value)]
  | augassignStmt => fun (target, op, value, _) => show Build (List Node) from do
    let target ← target.value.node
    let value ← value.value.node
    return [.make span (.assign op.value) [[target], [value]]]
  | augassignOp | compRelation | shiftOp | addOp | mulStar | mulDivide | unarySign
  | unaryTilde => fun (op, _) => op.value.text
  | passStmt => fun _ => .ok [.make span (.empty "pass") []]
  | breakStmt => fun _ => .ok [.make span .breakStmt []]
  | continueStmt => fun _ => .ok [.make span .continueStmt []]
  | returnStmt => fun (_, value, _) => show Build (List Node) from do
    return [.make span .returnStmt [← optional (value.value.map fun (e, _) => e.value)]]
  | raiseStmt => fun (_, value, _) => show Build (List Node) from do
    return [.make span .raiseStmt [← optional (value.value.map fun (e, _) => e.value)]]
  | delStmt => fun (_, target, _) => show Build (List Node) from do
    return [deletion span (← target.value.node)]
  | assertStmt => fun (_, condition, message, _) => show Build (List Node) from do
    let condition ← condition.value.node
    let message ← optional (message.value.map fun (_, e, _) => e.value)
    return [.make span .assertStmt [[condition], message]]
  | globalStmt => fun (_, first, more, _) =>
    .ok [declarationOf span "global" first.value (more.value.map fun (_, name, _) => name.value)]
  | nonlocalStmt => fun (_, first, more, _) =>
    .ok [declarationOf span "nonlocal" first.value (more.value.map fun (_, name, _) => name.value)]
  | emptyStmt => fun _ => .ok [.make span (.empty ";") []]
  | importName => fun (_, first, more, _) =>
    .ok (first.value :: more.value.map fun (_, node, _) => node.value)
  | dottedAsName => fun (path, asName, _) =>
    let asName := aliasOf asName.value
    .make span
      (.importModule (path.value.1 :: path.value.2) (asName.map Token.text)
        (asName.map Token.span)) []
  | importFrom => fun (_, path, _, members, _) =>
    .ok [.make span (.importMembers (path.value.1 :: path.value.2)) [members.value]]
  | importFromParen => fun (_, path, _, _, members, _) =>
    .ok [.make span (.importMembers (path.value.1 :: path.value.2)) [members.value]]
  | importAsNames => fun (first, more, _) =>
    first.value :: more.value.map fun (_, node, _) => node.value
  | importAsName => fun (name, asName, _) =>
    .make span (.importedName name.value.text ((aliasOf asName.value).map Token.text)) []
  | dottedName => fun (first, more, _) =>
    (first.value.text, more.value.map fun (_, name, _) => name.value.text)
  | compoundIf | compoundWhile | compoundFor | compoundTry | compoundWith
  | compoundDecorated => fun (body, _) => body.value
  | compoundFuncdef | compoundClassdef => fun (d, _) => show Build (List Node) from do
    return [← Definition.node d.value []]
  | ifStmt => fun (_, condition, _, body, clauses, orelse, _) => show Build (List Node) from do
    let orelse ← foldElif (clauses.value.map Prod.fst) (elseOf orelse.value)
    let condition ← condition.value.node
    let body ← body.value
    return [.make span .ifBranch [[condition], body, orelse]]
  | elifClause => fun (_, condition, _, body, _) => (condition.value, body.value)
  | elseClause | finallyClause => fun (_, _, body, _) => body.value
  | whileStmt => fun (_, condition, _, body, orelse, _) => show Build (List Node) from do
    let condition ← condition.value.node
    let body ← body.value
    let orelse ← elseOf orelse.value
    return [.make span .whileLoop [[condition], body, orelse]]
  | forStmt => fun (_, target, _, iterable, _, body, orelse, _) =>
    show Build (List Node) from do
    let target ← target.value.node
    let iterable ← iterable.value.node
    let body ← body.value
    let orelse ← elseOf orelse.value
    return [.make span .forIn [[target], [iterable], body, orelse]]
  | tryExcept => fun (_, _, body, handlers, orelse, final, _) =>
    show Build (List Node) from do
    let (first, others) := handlers.value
    let body ← body.value
    let handlers ← Grammar.sequence ((first :: others).map fun (handler, _) => handler.value)
    let orelse ← elseOf orelse.value
    let final ← finallyOf final.value
    return [.make span .tryBlock [body, handlers, orelse, final]]
  | tryFinally => fun (_, _, body, final, _) => show Build (List Node) from do
    let body ← body.value
    let final ← final.value
    return [.make span .tryBlock [body, [], [], final]]
  | exceptClause => fun (_, head, _, body, _) => show Build Node from do
    let type ← optional (head.value.map fun (type, _) => type.value)
    let binder := head.value.bind fun (_, asName, _) => aliasOf asName.value
    let binders := binder.toList.map fun t => Node.make t.span (.varDef t.text t.span) [[]]
    return .make span .handler [type, binders, ← body.value]
  | withStmt => fun (_, first, more, _, body, _) => show Build (List Node) from do
    let items ← Grammar.sequence (first.value :: more.value.map fun (_, item, _) => item.value)
    let body ← body.value
    return [.make span .withBlock [items, body]]
  | withItem => fun (value, asName, _) => show Build Node from do
    let value ← value.value.node
    match aliasOf asName.value with
    | none => return value
    | some t => return .make span (.varDef t.text t.span) [[value]]
  | funcdef => fun (_, name, _, params, _, _, body, _) =>
    ⟨span, .functionDef name.value.text name.span, parametersOf params.value, body.value⟩
  | parameters => fun (first, more, _) =>
    first.value :: more.value.map fun (_, p, _) => p.value
  | param => fun (name, default, _) => show Build Node from do
    let default ← optional (default.value.map fun (_, e, _) => e.value)
    return .make name.span (.param name.value.text "") [default]
  | starParam => fun (_, name, _) => .ok (.make name.span (.param name.value.text "*") [[]])
  | kwstarParam => fun (_, name, _) => .ok (.make name.span (.param name.value.text "**") [[]])
  | classdef => fun (_, name, bases, _, body, _) =>
    ⟨span, .classDef name.value.text name.span, argumentsOf bases.value, body.value⟩
  | decorated => fun (decorators, definition, _) => show Build (List Node) from do
    let (first, others) := decorators.value
    let decorators ← Grammar.sequence ((first :: others).map fun (d, _) => d.value)
    let d : Definition := match definition.value with
      | .inl (function, _) => function.value
      | .inr (class_, _) => class_.value
    return [← d.node decorators]
  | decorator => fun (_, path, args, _, _) => show Build Node from do
    return .make span (.decorator path.value.1) [← Grammar.sequence (argumentsOf args.value)]
  | suiteBlock => fun (_, _, statements, _, _) =>
    let (first, others) := statements.value
    concat ((first :: others).map fun (statement, _) => statement.value)
  | testlist | exprlist | test | testLambdef | notTest | factorPower | atomExpr =>
    fun (value, _) => value.value
  | testTuple | exprTuple => fun (first, more, _) =>
    let (second, others) := more.value
    { node := arrayOf span (first.value :: (second :: others).map fun (_, e, _) => e.value) }
  | ternary => fun (body, _, condition, _, orelse, _) => show Expr from
    { node := do
        let body ← body.value.node
        let condition ← condition.value.node
        let orelse ← orelse.value.node
        return .make span .ternary [[body], [condition], [orelse]] }
  | lambdef => fun (_, params, _, body, _) => show Expr from
    { node := do
        let params ← Grammar.sequence (parametersOf params.value)
        return .make span .lambda [params, [← body.value.node]] }
  | orTest => fun (first, more, _) =>
    boolChain "or" span first.value (more.value.map fun (_, e, _) => e.value)
  | andTest => fun (first, more, _) =>
    boolChain "and" span first.value (more.value.map fun (_, e, _) => e.value)
  | notOp => fun (_, operand, _) => show Expr from
    { node := return .make span (.unaryOp "not") [[← operand.value.node]] }
  | comparison => fun (first, more, _) =>
    compareChain span first.value (more.value.map fun (op, e, _) => (op.value, e.value))
  | compIn => fun _ => "in"
  | compNotIn => fun _ => "not in"
  | compIs => fun _ => "is"
  | compIsNot => fun _ => "is not"
  | bitorExpr | bitxorExpr | bitandExpr => fun (first, more, _) =>
    foldLeft span first.value (more.value.map fun (op, e, _) => (op.value.text, e.value))
  | shiftExpr | arithExpr | term => fun (first, more, _) =>
    foldLeft span first.value (more.value.map fun (op, e, _) => (op.value, e.value))
  | factorUnary => fun (op, operand, _) => show Expr from
    { node := return .make span (.unaryOp op.value) [[← operand.value.node]] }
  | power => fun (base, exponent, _) =>
    match (exponent.value : Option (Values [tk .doubleStar, ph .factor])) with
    | none => base.value
    | some (_, exponent, _) => show Expr from
      { node := do
          let left ← base.value.node
          let right ← exponent.value.node
          return .make span (.binOp "**") [[left], [right]] }
  | call => fun (function, _, args, _) => show Expr from
    { node := do
        let function ← function.value.node
        let args ← Grammar.sequence <|
          match (args.value : Option (Values [ph .arguments])) with
          | some (args, _) => args.value
          | none => []
        return .make span .call [[function], args] }
  | getitem => fun (value, _, i, _) => show Expr from
    { node := do
        let value ← value.value.node
        return .make span .subscript [[value], [← i.value]] }
  | getattr => fun (value, _, name, _) => show Expr from
    { node := return .make span (.attribute name.value.text) [[← value.value.node]] }
  | arguments => fun (first, more, _) =>
    first.value :: more.value.map fun (_, arg, _) => arg.value
  | argument | subscript => fun (value, _) => value.value.node
  | kwarg => fun (key, _, value, _) => show Build Node from
    match key.value.identifier with
    | none => .error key.span
    | some name => do return .make span (.keywordArg name) [[← value.value.node]]
  | starArg => fun (_, value, _) => show Build Node from do
    return .make span (.unaryOp "*") [[← value.value.node]]
  | kwstarArg => fun (_, value, _) => show Build Node from do
    return .make span (.unaryOp "**") [[← value.value.node]]
  | sliceFull => fun (lower, _, upper, _) => slice span (some lower.value) (some upper.value)
  | sliceLower => fun (lower, _, _) => slice span (some lower.value) none
  | sliceUpper => fun (_, upper, _) => slice span none (some upper.value)
  | sliceAll => fun _ => slice span none none
  | emptyTuple | emptyList => fun _ => { node := arrayOf span [] }
  | paren => fun (_, inner, _, _) => { node := inner.value.node }
  | tupleDisplay => fun (_, first, more, _, _) =>
    let (second, others) := more.value
    { node := arrayOf span (first.value :: (second :: others).map fun (_, e, _) => e.value) }
  | listComprehension => fun (_, element, c, _, _) =>
    { node := Grammar.comprehension span element.value none c.value }
  | listDisplay => fun (_, first, more, _, _) =>
    { node := arrayOf span (first.value :: more.value.map fun (_, e, _) => e.value) }
  | emptyDict => fun _ => { node := dictOf span [] }
  | dictComprehension => fun (_, item, c, _, _) =>
    { node := Grammar.comprehension span item.value.1 (some item.value.2) c.value }
  | dictDisplay => fun (_, first, more, _, _) =>
    { node := dictOf span (first.value :: more.value.map fun (_, item, _) => item.value) }
  | var => fun (name, _) => Expr.ofName name
  | number => fun (t, _) => .plain span (.literal (.raw t.value.text))
  | string => fun (strings, _) =>
    let text : Values [.either [tk .string] [tk .longString]] → String := fun
      | (⟨_, .inl (t, _)⟩, _) | (⟨_, .inr (t, _)⟩, _) => t.value.text
    let (first, others) := strings.value
    literalStrings span (text first) (others.map text)
  | constNone => fun _ => .plain span (.literal .none)
  | constTrue => fun _ => .plain span (.literal (.bool true))
  | constFalse => fun _ => .plain span (.literal (.bool false))
  | compFor => fun (_, target, _, iterable, condition, _) =>
    ⟨target.value, iterable.value, condition.value.map fun (e, _) => e.value⟩
  | compIf => fun (_, e, _) => e.value
  | dictItem => fun (key, _, value, _) => (key.value, value.value)

/-- From the first token to the last. -/
def spanOf (tokens : List Token) : Span :=
  tokens.foldr (fun t span => t.span.cover span) .unknown

mutual

def Derivation.value {x : Item} : Derivation x → x.Value
  | .leaf t _ => t
  | .node a parts => a.build (spanOf parts.tokens) parts.values
  | .absent => none
  | .present parts => some parts.values
  | .done => []
  | .more parts rest => parts.values :: rest.value
  | .plus parts rest => (parts.values, rest.value)
  | .left parts => .inl parts.values
  | .right parts => .inr parts.values

def Derivations.values {xs : List Item} : Derivations xs → Values xs
  | .nil => ()
  | .cons head tail => (⟨spanOf head.tokens, head.value⟩, tail.values)

end

end ScopeLint.Ebnf
