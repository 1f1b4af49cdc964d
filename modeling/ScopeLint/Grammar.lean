import ScopeLint.Token

/-!
The grammar. Every rule is written so that the next token alone tells which production to take:
alternatives that begin alike are factored, and repetitions are lists that end in an empty
production. Precedence climbs from `orTest` down to `atom`, one rule to a level.
-/
namespace ScopeLint.Grammar

inductive Rule where
  | file | lines
  | statement | suite | statements | simple | smalls | small
  | assignments | moreAssignments
  | optTestlist | optTest | assertMessage | moreNames
  | moduleImport | moreModuleImports | members | moreMembers | member | optAlias
  | dotted | moreDotted
  | elifs | elif | optElse | tryTail | handlers | handler | handlerHead | optFinally
  | withItem | moreWithItems
  | decorators | decorator | definition | optBases
  | optParams | moreParams | param | optDefault
  | optArguments | moreArguments | argument | optKeyword
  | testlist | moreTests | exprlist | moreExprs
  | test | optTernary
  | orTest | moreOr | andTest | moreAnd | notTest
  | comparison | moreCompare | compareOp | optNot
  | bitOr | moreBitOr | bitXor | moreBitXor | bitAnd | moreBitAnd
  | shiftExpr | moreShift | arith | moreArith | term | moreTerm | mulOp
  | factor | power | optPower
  | primary | trailers | trailer | subscript | optUpper | optSlice
  | atom | parenTail | listTail | listRest | dictTail | dictRest | dictItem | moreDictItems
  | compFor | optCondition | moreStrings
deriving DecidableEq, Repr

inductive Symbol where
  | token (kind : Kind)
  | rule (r : Rule)
deriving DecidableEq, Repr

/-- The productions of each rule. -/
inductive Production : Rule → Type where
  | file : Production .file
  | linesEnd : Production .lines
  | linesBlank : Production .lines
  | linesMore : Production .lines
  | statementSimple : Production .statement
  | statementIf : Production .statement
  | statementWhile : Production .statement
  | statementFor : Production .statement
  | statementTry : Production .statement
  | statementWith : Production .statement
  | statementDefinition : Production .statement
  | statementDecorated : Production .statement
  | suiteInline : Production .suite
  | suiteBlock : Production .suite
  | statementsEnd : Production .statements
  | statementsMore : Production .statements
  | simple : Production .simple
  | smallsEnd : Production .smalls
  | smallsMore : Production .smalls
  | smallExpr : Production .small
  | smallPass : Production .small
  | smallBreak : Production .small
  | smallContinue : Production .small
  | smallReturn : Production .small
  | smallRaise : Production .small
  | smallDel : Production .small
  | smallAssert : Production .small
  | smallGlobal : Production .small
  | smallNonlocal : Production .small
  | smallImport : Production .small
  | smallFrom : Production .small
  | smallEmpty : Production .small
  | assignmentsNone : Production .assignments
  | assignmentsPlain : Production .assignments
  | assignmentsAugmented : Production .assignments
  | moreAssignmentsEnd : Production .moreAssignments
  | moreAssignmentsMore : Production .moreAssignments
  | optTestlistNone : Production .optTestlist
  | optTestlistSome : Production .optTestlist
  | optTestNone : Production .optTest
  | optTestSome : Production .optTest
  | assertMessageNone : Production .assertMessage
  | assertMessageSome : Production .assertMessage
  | moreNamesEnd : Production .moreNames
  | moreNamesMore : Production .moreNames
  | moduleImport : Production .moduleImport
  | moreModuleImportsEnd : Production .moreModuleImports
  | moreModuleImportsMore : Production .moreModuleImports
  | membersBare : Production .members
  | membersParen : Production .members
  | moreMembersEnd : Production .moreMembers
  | moreMembersMore : Production .moreMembers
  | member : Production .member
  | optAliasNone : Production .optAlias
  | optAliasSome : Production .optAlias
  | dotted : Production .dotted
  | moreDottedEnd : Production .moreDotted
  | moreDottedMore : Production .moreDotted
  | elifsEnd : Production .elifs
  | elifsMore : Production .elifs
  | elif : Production .elif
  | optElseNone : Production .optElse
  | optElseSome : Production .optElse
  | tryTailFinally : Production .tryTail
  | tryTailHandlers : Production .tryTail
  | handlersEnd : Production .handlers
  | handlersMore : Production .handlers
  | handler : Production .handler
  | handlerHeadNone : Production .handlerHead
  | handlerHeadSome : Production .handlerHead
  | optFinallyNone : Production .optFinally
  | optFinallySome : Production .optFinally
  | withItem : Production .withItem
  | moreWithItemsEnd : Production .moreWithItems
  | moreWithItemsMore : Production .moreWithItems
  | decoratorsEnd : Production .decorators
  | decoratorsMore : Production .decorators
  | decorator : Production .decorator
  | definitionFunction : Production .definition
  | definitionClass : Production .definition
  | optBasesNone : Production .optBases
  | optBasesSome : Production .optBases
  | optParamsNone : Production .optParams
  | optParamsSome : Production .optParams
  | moreParamsEnd : Production .moreParams
  | moreParamsMore : Production .moreParams
  | paramPlain : Production .param
  | paramStar : Production .param
  | paramDoubleStar : Production .param
  | optDefaultNone : Production .optDefault
  | optDefaultSome : Production .optDefault
  | optArgumentsNone : Production .optArguments
  | optArgumentsSome : Production .optArguments
  | moreArgumentsEnd : Production .moreArguments
  | moreArgumentsMore : Production .moreArguments
  | argumentPlain : Production .argument
  | argumentStar : Production .argument
  | argumentDoubleStar : Production .argument
  | optKeywordNone : Production .optKeyword
  | optKeywordSome : Production .optKeyword
  | testlist : Production .testlist
  | moreTestsEnd : Production .moreTests
  | moreTestsMore : Production .moreTests
  | exprlist : Production .exprlist
  | moreExprsEnd : Production .moreExprs
  | moreExprsMore : Production .moreExprs
  | testValue : Production .test
  | testLambda : Production .test
  | optTernaryNone : Production .optTernary
  | optTernarySome : Production .optTernary
  | orTest : Production .orTest
  | moreOrEnd : Production .moreOr
  | moreOrMore : Production .moreOr
  | andTest : Production .andTest
  | moreAndEnd : Production .moreAnd
  | moreAndMore : Production .moreAnd
  | notTestNot : Production .notTest
  | notTestComparison : Production .notTest
  | comparison : Production .comparison
  | moreCompareEnd : Production .moreCompare
  | moreCompareMore : Production .moreCompare
  | compareOpRelation : Production .compareOp
  | compareOpIn : Production .compareOp
  | compareOpNotIn : Production .compareOp
  | compareOpIs : Production .compareOp
  | optNotNone : Production .optNot
  | optNotSome : Production .optNot
  | bitOr : Production .bitOr
  | moreBitOrEnd : Production .moreBitOr
  | moreBitOrMore : Production .moreBitOr
  | bitXor : Production .bitXor
  | moreBitXorEnd : Production .moreBitXor
  | moreBitXorMore : Production .moreBitXor
  | bitAnd : Production .bitAnd
  | moreBitAndEnd : Production .moreBitAnd
  | moreBitAndMore : Production .moreBitAnd
  | shiftExpr : Production .shiftExpr
  | moreShiftEnd : Production .moreShift
  | moreShiftMore : Production .moreShift
  | arith : Production .arith
  | moreArithEnd : Production .moreArith
  | moreArithMore : Production .moreArith
  | term : Production .term
  | moreTermEnd : Production .moreTerm
  | moreTermMore : Production .moreTerm
  | mulOpStar : Production .mulOp
  | mulOpDivide : Production .mulOp
  | factorSign : Production .factor
  | factorTilde : Production .factor
  | factorPower : Production .factor
  | power : Production .power
  | optPowerNone : Production .optPower
  | optPowerSome : Production .optPower
  | primary : Production .primary
  | trailersEnd : Production .trailers
  | trailersMore : Production .trailers
  | trailerCall : Production .trailer
  | trailerIndex : Production .trailer
  | trailerAttribute : Production .trailer
  | subscriptTest : Production .subscript
  | subscriptColon : Production .subscript
  | optSliceNone : Production .optSlice
  | optSliceSome : Production .optSlice
  | optUpperNone : Production .optUpper
  | optUpperSome : Production .optUpper
  | atomParen : Production .atom
  | atomList : Production .atom
  | atomDict : Production .atom
  | atomName : Production .atom
  | atomNumber : Production .atom
  | atomString : Production .atom
  | atomLongString : Production .atom
  | atomNone : Production .atom
  | atomTrue : Production .atom
  | atomFalse : Production .atom
  | parenTailEmpty : Production .parenTail
  | parenTailTests : Production .parenTail
  | listTailEmpty : Production .listTail
  | listTailTests : Production .listTail
  | listRestItems : Production .listRest
  | listRestFor : Production .listRest
  | dictTailEmpty : Production .dictTail
  | dictTailItems : Production .dictTail
  | dictRestItems : Production .dictRest
  | dictRestFor : Production .dictRest
  | dictItem : Production .dictItem
  | moreDictItemsEnd : Production .moreDictItems
  | moreDictItemsMore : Production .moreDictItems
  | compFor : Production .compFor
  | optConditionNone : Production .optCondition
  | optConditionSome : Production .optCondition
  | moreStringsEnd : Production .moreStrings
  | moreStringsShort : Production .moreStrings
  | moreStringsLong : Production .moreStrings
deriving Repr

abbrev tok (kind : Kind) : Symbol := .token kind

abbrev sub (r : Rule) : Symbol := .rule r

namespace Production

/-- What a production puts in place of its rule. -/
def symbols {r : Rule} : Production r → List Symbol
  | file => [sub .lines]
  | linesEnd => []
  | linesBlank => [tok .newline, sub .lines]
  | linesMore => [sub .statement, sub .lines]
  | statementSimple => [sub .simple]
  | statementIf =>
    [tok .ifWord, sub .test, tok .colon, sub .suite, sub .elifs, sub .optElse]
  | statementWhile => [tok .whileWord, sub .test, tok .colon, sub .suite, sub .optElse]
  | statementFor =>
    [tok .forWord, sub .exprlist, tok .inWord, sub .testlist, tok .colon, sub .suite, sub .optElse]
  | statementTry => [tok .tryWord, tok .colon, sub .suite, sub .tryTail]
  | statementWith =>
    [tok .withWord, sub .withItem, sub .moreWithItems, tok .colon, sub .suite]
  | statementDefinition => [sub .definition]
  | statementDecorated => [sub .decorator, sub .decorators, sub .definition]
  | suiteInline => [sub .simple]
  | suiteBlock => [tok .newline, tok .indent, sub .statement, sub .statements, tok .dedent]
  | statementsEnd => []
  | statementsMore => [sub .statement, sub .statements]
  | simple => [sub .small, sub .smalls, tok .newline]
  | smallsEnd => []
  | smallsMore => [tok .separator, sub .small, sub .smalls]
  | smallExpr => [sub .testlist, sub .assignments]
  | smallPass => [tok .passWord]
  | smallBreak => [tok .breakWord]
  | smallContinue => [tok .continueWord]
  | smallReturn => [tok .returnWord, sub .optTestlist]
  | smallRaise => [tok .raiseWord, sub .optTest]
  | smallDel => [tok .delWord, sub .exprlist]
  | smallAssert => [tok .assertWord, sub .test, sub .assertMessage]
  | smallGlobal => [tok .globalWord, tok .name, sub .moreNames]
  | smallNonlocal => [tok .nonlocalWord, tok .name, sub .moreNames]
  | smallImport => [tok .importWord, sub .moduleImport, sub .moreModuleImports]
  | smallFrom => [tok .fromWord, sub .dotted, tok .importWord, sub .members]
  | smallEmpty => [tok .emptyStatement]
  | assignmentsNone => []
  | assignmentsPlain => [tok .assign, sub .testlist, sub .moreAssignments]
  | assignmentsAugmented => [tok .augmented, sub .testlist]
  | moreAssignmentsEnd => []
  | moreAssignmentsMore => [tok .assign, sub .testlist, sub .moreAssignments]
  | optTestlistNone => []
  | optTestlistSome => [sub .testlist]
  | optTestNone => []
  | optTestSome => [sub .test]
  | assertMessageNone => []
  | assertMessageSome => [tok .comma, sub .test]
  | moreNamesEnd => []
  | moreNamesMore => [tok .comma, tok .name, sub .moreNames]
  | moduleImport => [sub .dotted, sub .optAlias]
  | moreModuleImportsEnd => []
  | moreModuleImportsMore => [tok .comma, sub .moduleImport, sub .moreModuleImports]
  | membersBare => [sub .member, sub .moreMembers]
  | membersParen => [tok .openParen, sub .member, sub .moreMembers, tok .closeParen]
  | moreMembersEnd => []
  | moreMembersMore => [tok .comma, sub .member, sub .moreMembers]
  | member => [tok .name, sub .optAlias]
  | optAliasNone => []
  | optAliasSome => [tok .asWord, tok .name]
  | dotted => [tok .name, sub .moreDotted]
  | moreDottedEnd => []
  | moreDottedMore => [tok .dot, tok .name, sub .moreDotted]
  | elifsEnd => []
  | elifsMore => [sub .elif, sub .elifs]
  | elif => [tok .elifWord, sub .test, tok .colon, sub .suite]
  | optElseNone => []
  | optElseSome => [tok .elseWord, tok .colon, sub .suite]
  | tryTailFinally => [tok .finallyWord, tok .colon, sub .suite]
  | tryTailHandlers => [sub .handler, sub .handlers, sub .optElse, sub .optFinally]
  | handlersEnd => []
  | handlersMore => [sub .handler, sub .handlers]
  | handler => [tok .exceptWord, sub .handlerHead, tok .colon, sub .suite]
  | handlerHeadNone => []
  | handlerHeadSome => [sub .test, sub .optAlias]
  | optFinallyNone => []
  | optFinallySome => [tok .finallyWord, tok .colon, sub .suite]
  | withItem => [sub .test, sub .optAlias]
  | moreWithItemsEnd => []
  | moreWithItemsMore => [tok .comma, sub .withItem, sub .moreWithItems]
  | decoratorsEnd => []
  | decoratorsMore => [sub .decorator, sub .decorators]
  | decorator => [tok .atSign, sub .dotted, sub .optBases, tok .newline]
  | definitionFunction =>
    [tok .defWord, tok .name, tok .openParen, sub .optParams, tok .closeParen, tok .colon,
      sub .suite]
  | definitionClass => [tok .classWord, tok .name, sub .optBases, tok .colon, sub .suite]
  | optBasesNone => []
  | optBasesSome => [tok .openParen, sub .optArguments, tok .closeParen]
  | optParamsNone => []
  | optParamsSome => [sub .param, sub .moreParams]
  | moreParamsEnd => []
  | moreParamsMore => [tok .comma, sub .param, sub .moreParams]
  | paramPlain => [tok .name, sub .optDefault]
  | paramStar => [tok .star, tok .name]
  | paramDoubleStar => [tok .doubleStar, tok .name]
  | optDefaultNone => []
  | optDefaultSome => [tok .assign, sub .test]
  | optArgumentsNone => []
  | optArgumentsSome => [sub .argument, sub .moreArguments]
  | moreArgumentsEnd => []
  | moreArgumentsMore => [tok .comma, sub .argument, sub .moreArguments]
  | argumentPlain => [sub .test, sub .optKeyword]
  | argumentStar => [tok .star, sub .test]
  | argumentDoubleStar => [tok .doubleStar, sub .test]
  | optKeywordNone => []
  | optKeywordSome => [tok .assign, sub .test]
  | testlist => [sub .test, sub .moreTests]
  | moreTestsEnd => []
  | moreTestsMore => [tok .comma, sub .test, sub .moreTests]
  | exprlist => [sub .bitOr, sub .moreExprs]
  | moreExprsEnd => []
  | moreExprsMore => [tok .comma, sub .bitOr, sub .moreExprs]
  | testValue => [sub .orTest, sub .optTernary]
  | testLambda => [tok .lambdaWord, sub .optParams, tok .colon, sub .test]
  | optTernaryNone => []
  | optTernarySome => [tok .ifWord, sub .orTest, tok .elseWord, sub .test]
  | orTest => [sub .andTest, sub .moreOr]
  | moreOrEnd => []
  | moreOrMore => [tok .orWord, sub .andTest, sub .moreOr]
  | andTest => [sub .notTest, sub .moreAnd]
  | moreAndEnd => []
  | moreAndMore => [tok .andWord, sub .notTest, sub .moreAnd]
  | notTestNot => [tok .notWord, sub .notTest]
  | notTestComparison => [sub .comparison]
  | comparison => [sub .bitOr, sub .moreCompare]
  | moreCompareEnd => []
  | moreCompareMore => [sub .compareOp, sub .bitOr, sub .moreCompare]
  | compareOpRelation => [tok .relation]
  | compareOpIn => [tok .inWord]
  | compareOpNotIn => [tok .notWord, tok .inWord]
  | compareOpIs => [tok .isWord, sub .optNot]
  | optNotNone => []
  | optNotSome => [tok .notWord]
  | bitOr => [sub .bitXor, sub .moreBitOr]
  | moreBitOrEnd => []
  | moreBitOrMore => [tok .bar, sub .bitXor, sub .moreBitOr]
  | bitXor => [sub .bitAnd, sub .moreBitXor]
  | moreBitXorEnd => []
  | moreBitXorMore => [tok .caret, sub .bitAnd, sub .moreBitXor]
  | bitAnd => [sub .shiftExpr, sub .moreBitAnd]
  | moreBitAndEnd => []
  | moreBitAndMore => [tok .ampersand, sub .shiftExpr, sub .moreBitAnd]
  | shiftExpr => [sub .arith, sub .moreShift]
  | moreShiftEnd => []
  | moreShiftMore => [tok .shift, sub .arith, sub .moreShift]
  | arith => [sub .term, sub .moreArith]
  | moreArithEnd => []
  | moreArithMore => [tok .sign, sub .term, sub .moreArith]
  | term => [sub .factor, sub .moreTerm]
  | moreTermEnd => []
  | moreTermMore => [sub .mulOp, sub .factor, sub .moreTerm]
  | mulOpStar => [tok .star]
  | mulOpDivide => [tok .divide]
  | factorSign => [tok .sign, sub .factor]
  | factorTilde => [tok .tilde, sub .factor]
  | factorPower => [sub .power]
  | power => [sub .primary, sub .optPower]
  | optPowerNone => []
  | optPowerSome => [tok .doubleStar, sub .factor]
  | primary => [sub .atom, sub .trailers]
  | trailersEnd => []
  | trailersMore => [sub .trailer, sub .trailers]
  | trailerCall => [tok .openParen, sub .optArguments, tok .closeParen]
  | trailerIndex => [tok .openBracket, sub .subscript, tok .closeBracket]
  | trailerAttribute => [tok .dot, tok .name]
  | subscriptTest => [sub .test, sub .optSlice]
  | subscriptColon => [tok .colon, sub .optUpper]
  | optSliceNone => []
  | optSliceSome => [tok .colon, sub .optUpper]
  | optUpperNone => []
  | optUpperSome => [sub .test]
  | atomParen => [tok .openParen, sub .parenTail]
  | atomList => [tok .openBracket, sub .listTail]
  | atomDict => [tok .openBrace, sub .dictTail]
  | atomName => [tok .name]
  | atomNumber => [tok .number]
  | atomString => [tok .string, sub .moreStrings]
  | atomLongString => [tok .longString, sub .moreStrings]
  | atomNone => [tok .noneWord]
  | atomTrue => [tok .trueWord]
  | atomFalse => [tok .falseWord]
  | parenTailEmpty => [tok .closeParen]
  | parenTailTests => [sub .test, sub .moreTests, tok .closeParen]
  | listTailEmpty => [tok .closeBracket]
  | listTailTests => [sub .test, sub .listRest]
  | listRestItems => [sub .moreTests, tok .closeBracket]
  | listRestFor => [sub .compFor, tok .closeBracket]
  | dictTailEmpty => [tok .closeBrace]
  | dictTailItems => [sub .dictItem, sub .dictRest]
  | dictRestItems => [sub .moreDictItems, tok .closeBrace]
  | dictRestFor => [sub .compFor, tok .closeBrace]
  | dictItem => [sub .test, tok .colon, sub .test]
  | moreDictItemsEnd => []
  | moreDictItemsMore => [tok .comma, sub .dictItem, sub .moreDictItems]
  | compFor => [tok .forWord, sub .exprlist, tok .inWord, sub .orTest, sub .optCondition]
  | optConditionNone => []
  | optConditionSome => [tok .ifWord, sub .orTest]
  | moreStringsEnd => []
  | moreStringsShort => [tok .string, sub .moreStrings]
  | moreStringsLong => [tok .longString, sub .moreStrings]

end Production
end ScopeLint.Grammar
