import ScopeLint.Grammar

/-!
Prediction: the production of a rule that the next token calls for. A rule that no production of
the next token fits may still be predicted; the mismatch then shows at the same token, deeper down.
-/
namespace ScopeLint.Grammar

def predictStatement : Option Kind → Production .statement
  | some .ifWord => .statementIf
  | some .whileWord => .statementWhile
  | some .forWord => .statementFor
  | some .tryWord => .statementTry
  | some .withWord => .statementWith
  | some .defWord => .statementDefinition
  | some .classWord => .statementDefinition
  | some .atSign => .statementDecorated
  | _ => .statementSimple

def predictSmall : Option Kind → Production .small
  | some .passWord => .smallPass
  | some .breakWord => .smallBreak
  | some .continueWord => .smallContinue
  | some .returnWord => .smallReturn
  | some .raiseWord => .smallRaise
  | some .delWord => .smallDel
  | some .assertWord => .smallAssert
  | some .globalWord => .smallGlobal
  | some .nonlocalWord => .smallNonlocal
  | some .importWord => .smallImport
  | some .fromWord => .smallFrom
  | some .emptyStatement => .smallEmpty
  | _ => .smallExpr

def predictAtom : Option Kind → Option (Production .atom)
  | some .openParen => some .atomParen
  | some .openBracket => some .atomList
  | some .openBrace => some .atomDict
  | some .name => some .atomName
  | some .number => some .atomNumber
  | some .string => some .atomString
  | some .longString => some .atomLongString
  | some .noneWord => some .atomNone
  | some .trueWord => some .atomTrue
  | some .falseWord => some .atomFalse
  | _ => none

def predictCompareOp : Option Kind → Option (Production .compareOp)
  | some .relation => some .compareOpRelation
  | some .inWord => some .compareOpIn
  | some .notWord => some .compareOpNotIn
  | some .isWord => some .compareOpIs
  | _ => none

def predictTrailer : Option Kind → Option (Production .trailer)
  | some .openParen => some .trailerCall
  | some .openBracket => some .trailerIndex
  | some .dot => some .trailerAttribute
  | _ => none

/-- The kinds that begin an operand of `bitOr`. -/
def startsOperand : Kind → Bool
  | .openParen | .openBracket | .openBrace | .name | .number | .string | .longString
  | .noneWord | .trueWord | .falseWord | .sign | .tilde => true
  | _ => false

/-- The kinds that begin a `test`. -/
def startsTest (kind : Kind) : Bool :=
  startsOperand kind || kind = .notWord || kind = .lambdaWord

def startsParam : Kind → Bool
  | .name | .star | .doubleStar => true
  | _ => false

def startsCompare : Kind → Bool
  | .relation | .inWord | .notWord | .isWord => true
  | _ => false

def startsTrailer : Kind → Bool
  | .openParen | .openBracket | .dot => true
  | _ => false

def predict (r : Rule) (next : Option Kind) : Option (Production r) :=
  let sees (kind : Kind) : Bool := next = some kind
  match r with
  | .file => some .file
  | .lines => some <|
    if next.isNone then .linesEnd else if sees .newline then .linesBlank else .linesMore
  | .statement => some (predictStatement next)
  | .suite => some (if sees .newline then .suiteBlock else .suiteInline)
  | .statements => some (if sees .dedent then .statementsEnd else .statementsMore)
  | .simple => some .simple
  | .smalls => some (if sees .separator then .smallsMore else .smallsEnd)
  | .small => some (predictSmall next)
  | .assignments => some <|
    if sees .assign then .assignmentsPlain
    else if sees .augmented then .assignmentsAugmented else .assignmentsNone
  | .moreAssignments => some (if sees .assign then .moreAssignmentsMore else .moreAssignmentsEnd)
  | .optTestlist => some (if next.any startsTest then .optTestlistSome else .optTestlistNone)
  | .optTest => some (if next.any startsTest then .optTestSome else .optTestNone)
  | .assertMessage => some (if sees .comma then .assertMessageSome else .assertMessageNone)
  | .moreNames => some (if sees .comma then .moreNamesMore else .moreNamesEnd)
  | .moduleImport => some .moduleImport
  | .moreModuleImports => some <|
    if sees .comma then .moreModuleImportsMore else .moreModuleImportsEnd
  | .members => some (if sees .openParen then .membersParen else .membersBare)
  | .moreMembers => some (if sees .comma then .moreMembersMore else .moreMembersEnd)
  | .member => some .member
  | .optAlias => some (if sees .asWord then .optAliasSome else .optAliasNone)
  | .dotted => some .dotted
  | .moreDotted => some (if sees .dot then .moreDottedMore else .moreDottedEnd)
  | .elifs => some (if sees .elifWord then .elifsMore else .elifsEnd)
  | .elif => some .elif
  | .optElse => some (if sees .elseWord then .optElseSome else .optElseNone)
  | .tryTail => some (if sees .finallyWord then .tryTailFinally else .tryTailHandlers)
  | .handlers => some (if sees .exceptWord then .handlersMore else .handlersEnd)
  | .handler => some .handler
  | .handlerHead => some (if sees .colon then .handlerHeadNone else .handlerHeadSome)
  | .optFinally => some (if sees .finallyWord then .optFinallySome else .optFinallyNone)
  | .withItem => some .withItem
  | .moreWithItems => some (if sees .comma then .moreWithItemsMore else .moreWithItemsEnd)
  | .decorators => some (if sees .atSign then .decoratorsMore else .decoratorsEnd)
  | .decorator => some .decorator
  | .definition => some (if sees .classWord then .definitionClass else .definitionFunction)
  | .optBases => some (if sees .openParen then .optBasesSome else .optBasesNone)
  | .optParams => some (if next.any startsParam then .optParamsSome else .optParamsNone)
  | .moreParams => some (if sees .comma then .moreParamsMore else .moreParamsEnd)
  | .param => some <|
    if sees .star then .paramStar
    else if sees .doubleStar then .paramDoubleStar else .paramPlain
  | .optDefault => some (if sees .assign then .optDefaultSome else .optDefaultNone)
  | .optArguments => some (if sees .closeParen then .optArgumentsNone else .optArgumentsSome)
  | .moreArguments => some (if sees .comma then .moreArgumentsMore else .moreArgumentsEnd)
  | .argument => some <|
    if sees .star then .argumentStar
    else if sees .doubleStar then .argumentDoubleStar else .argumentPlain
  | .optKeyword => some (if sees .assign then .optKeywordSome else .optKeywordNone)
  | .testlist => some .testlist
  | .moreTests => some (if sees .comma then .moreTestsMore else .moreTestsEnd)
  | .exprlist => some .exprlist
  | .moreExprs => some (if sees .comma then .moreExprsMore else .moreExprsEnd)
  | .test => some (if sees .lambdaWord then .testLambda else .testValue)
  | .optTernary => some (if sees .ifWord then .optTernarySome else .optTernaryNone)
  | .orTest => some .orTest
  | .moreOr => some (if sees .orWord then .moreOrMore else .moreOrEnd)
  | .andTest => some .andTest
  | .moreAnd => some (if sees .andWord then .moreAndMore else .moreAndEnd)
  | .notTest => some (if sees .notWord then .notTestNot else .notTestComparison)
  | .comparison => some .comparison
  | .moreCompare => some (if next.any startsCompare then .moreCompareMore else .moreCompareEnd)
  | .compareOp => predictCompareOp next
  | .optNot => some (if sees .notWord then .optNotSome else .optNotNone)
  | .bitOr => some .bitOr
  | .moreBitOr => some (if sees .bar then .moreBitOrMore else .moreBitOrEnd)
  | .bitXor => some .bitXor
  | .moreBitXor => some (if sees .caret then .moreBitXorMore else .moreBitXorEnd)
  | .bitAnd => some .bitAnd
  | .moreBitAnd => some (if sees .ampersand then .moreBitAndMore else .moreBitAndEnd)
  | .shiftExpr => some .shiftExpr
  | .moreShift => some (if sees .shift then .moreShiftMore else .moreShiftEnd)
  | .arith => some .arith
  | .moreArith => some (if sees .sign then .moreArithMore else .moreArithEnd)
  | .term => some .term
  | .moreTerm => some (if sees .star || sees .divide then .moreTermMore else .moreTermEnd)
  | .mulOp => some (if sees .star then .mulOpStar else .mulOpDivide)
  | .factor => some <|
    if sees .sign then .factorSign else if sees .tilde then .factorTilde else .factorPower
  | .power => some .power
  | .optPower => some (if sees .doubleStar then .optPowerSome else .optPowerNone)
  | .primary => some .primary
  | .trailers => some (if next.any startsTrailer then .trailersMore else .trailersEnd)
  | .trailer => predictTrailer next
  | .subscript => some (if sees .colon then .subscriptColon else .subscriptTest)
  | .optSlice => some (if sees .colon then .optSliceSome else .optSliceNone)
  | .optUpper => some (if sees .closeBracket then .optUpperNone else .optUpperSome)
  | .atom => predictAtom next
  | .parenTail => some (if sees .closeParen then .parenTailEmpty else .parenTailTests)
  | .listTail => some (if sees .closeBracket then .listTailEmpty else .listTailTests)
  | .listRest => some (if sees .forWord then .listRestFor else .listRestItems)
  | .dictTail => some (if sees .closeBrace then .dictTailEmpty else .dictTailItems)
  | .dictRest => some (if sees .forWord then .dictRestFor else .dictRestItems)
  | .dictItem => some .dictItem
  | .moreDictItems => some (if sees .comma then .moreDictItemsMore else .moreDictItemsEnd)
  | .compFor => some .compFor
  | .optCondition => some (if sees .ifWord then .optConditionSome else .optConditionNone)
  | .moreStrings => some <|
    if sees .string then .moreStringsShort
    else if sees .longString then .moreStringsLong else .moreStringsEnd

end ScopeLint.Grammar
