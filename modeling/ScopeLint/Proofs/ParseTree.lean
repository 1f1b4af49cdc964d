import ScopeLint.Proofs.Ebnf

/-! # Parse trees

A derivation is handed over as a tree of another kind. Its nodes are labelled by the
alternatives that have a name of their own, and otherwise by their nonterminals. Words and
punctuation are left out, except under operators; statements are put in place of the phrases
that only tell their kinds apart; and a phrase that adds nothing to the one child it has is that
child. What such a tree looks like its type does not say: a node has any number of children of
any kind. -/
namespace ScopeLint

/-- The name of a node of a parse tree. -/
inductive Label where
  | fileInput | simpleStmt
  | exprStmt | assignStmt | augassignStmt | augassignOp | passStmt | breakStmt | continueStmt
  | returnStmt | raiseStmt | delStmt | assertStmt | globalStmt | nonlocalStmt | emptyStmt
  | importName | dottedAsName | importFrom | importAsNames | importAsName | dottedName
  | ifStmt | elifClause | elseClause | whileStmt | forStmt
  | tryStmt | exceptClause | finallyClause | withStmt | withItem
  | funcdef | parameters | param | starParam | kwstarParam | classdef | decorated | decorator
  | suite
  | testlist | exprlist | tuple | test | ternary | lambdef | orTest | andTest | notTest | notOp
  | comparison | compOp | bitorExpr | bitxorExpr | bitandExpr | shiftExpr | shiftOp | arithExpr
  | addOp | term | mulOp | factor | unaryOp | power
  | atomExpr | call | getitem | getattr
  | arguments | argument | kwarg | starArg | kwstarArg
  | subscript | sliceFull | sliceLower | sliceUpper | sliceAll
  | emptyTuple | paren | tupleDisplay | emptyList | comprehension | listDisplay
  | emptyDict | dictComprehension | dictDisplay
  | var | number | string | constNone | constTrue | constFalse
  | compFor | compIf | dictItem
deriving DecidableEq, Repr

inductive ParseTree where
  | token (t : Token)
  | tree (label : Label) (span : Span) (children : List ParseTree)
  /-- Stands for an item that is left out, where such places are kept. -/
  | missing

def ParseTree.span : ParseTree → Span
  | token t => t.span
  | tree _ span _ => span
  | missing => .unknown

/-- The kinds of tokens that have a name in the grammar and not only a text. -/
def Kind.isNamed : Kind → Bool
  | .name | .number | .string | .longString | .emptyStatement => true
  | _ => false

namespace Ebnf

/-- What becomes of a phrase in a parse tree. -/
inductive Outline where
  /-- Its children take its place. -/
  | spliced
  /-- It is a node, unless it has one child to take its place. -/
  | thin (label : Label)
  | node (label : Label)

namespace Outline

def wrap (span : Span) (children : List ParseTree) : Outline → List ParseTree
  | spliced => children
  | thin label => match children with
    | [child] => [child]
    | _ => [.tree label span children]
  | node label => [.tree label span children]

/-- Whether a child that is alone takes the place of the phrase. -/
def yieldsChild : Outline → Bool
  | spliced | thin _ => true
  | node _ => false

end Outline

namespace Alternative

def outline {n : Nonterminal} : Alternative n → Outline
  | fileInput => .node .fileInput
  | stmtSimple | stmtCompound => .spliced
  | simpleStmt => .node .simpleStmt
  | smallExpr | smallPass | smallBreak | smallContinue | smallReturn | smallRaise | smallDel
  | smallAssert | smallGlobal | smallNonlocal | smallImportName | smallImportFrom
  | smallEmpty => .spliced
  | exprStmt => .node .exprStmt
  | assignStmt => .node .assignStmt
  | augassignStmt => .node .augassignStmt
  | augassignOp => .node .augassignOp
  | passStmt => .node .passStmt
  | breakStmt => .node .breakStmt
  | continueStmt => .node .continueStmt
  | returnStmt => .node .returnStmt
  | raiseStmt => .node .raiseStmt
  | delStmt => .node .delStmt
  | assertStmt => .node .assertStmt
  | globalStmt => .node .globalStmt
  | nonlocalStmt => .node .nonlocalStmt
  | emptyStmt => .node .emptyStmt
  | importName => .node .importName
  | dottedAsName => .node .dottedAsName
  | importFrom | importFromParen => .node .importFrom
  | importAsNames => .node .importAsNames
  | importAsName => .node .importAsName
  | dottedName => .node .dottedName
  | compoundIf | compoundWhile | compoundFor | compoundTry | compoundWith | compoundFuncdef
  | compoundClassdef | compoundDecorated => .spliced
  | ifStmt => .node .ifStmt
  | elifClause => .node .elifClause
  | elseClause => .node .elseClause
  | whileStmt => .node .whileStmt
  | forStmt => .node .forStmt
  | tryExcept | tryFinally => .node .tryStmt
  | exceptClause => .node .exceptClause
  | finallyClause => .node .finallyClause
  | withStmt => .node .withStmt
  | withItem => .node .withItem
  | funcdef => .node .funcdef
  | parameters => .node .parameters
  | param => .node .param
  | starParam => .node .starParam
  | kwstarParam => .node .kwstarParam
  | classdef => .node .classdef
  | decorated => .node .decorated
  | decorator => .node .decorator
  | suiteInline | suiteBlock => .node .suite
  | testlist => .thin .testlist
  | exprlist => .thin .exprlist
  | testTuple | exprTuple => .node .tuple
  | test | testLambdef => .thin .test
  | ternary => .node .ternary
  | lambdef => .node .lambdef
  | orTest => .thin .orTest
  | andTest => .thin .andTest
  | notOp => .node .notOp
  | notTest => .thin .notTest
  | comparison => .thin .comparison
  | compRelation | compIn | compNotIn | compIs | compIsNot => .node .compOp
  | bitorExpr => .thin .bitorExpr
  | bitxorExpr => .thin .bitxorExpr
  | bitandExpr => .thin .bitandExpr
  | shiftExpr => .thin .shiftExpr
  | shiftOp => .node .shiftOp
  | arithExpr => .thin .arithExpr
  | addOp => .node .addOp
  | term => .thin .term
  | mulStar | mulDivide => .node .mulOp
  | factorUnary | factorPower => .thin .factor
  | unarySign | unaryTilde => .node .unaryOp
  | power => .thin .power
  | call => .node .call
  | getitem => .node .getitem
  | getattr => .node .getattr
  | atomExpr => .thin .atomExpr
  | arguments => .node .arguments
  | argument => .thin .argument
  | kwarg => .node .kwarg
  | starArg => .node .starArg
  | kwstarArg => .node .kwstarArg
  | subscript => .thin .subscript
  | sliceFull => .node .sliceFull
  | sliceLower => .node .sliceLower
  | sliceUpper => .node .sliceUpper
  | sliceAll => .node .sliceAll
  | emptyTuple => .node .emptyTuple
  | paren => .node .paren
  | tupleDisplay => .node .tupleDisplay
  | emptyList => .node .emptyList
  | listComprehension => .node .comprehension
  | listDisplay => .node .listDisplay
  | emptyDict => .node .emptyDict
  | dictComprehension => .node .dictComprehension
  | dictDisplay => .node .dictDisplay
  | var => .node .var
  | number => .node .number
  | string => .node .string
  | constNone => .node .constNone
  | constTrue => .node .constTrue
  | constFalse => .node .constFalse
  | compFor => .node .compFor
  | compIf => .node .compIf
  | dictItem => .node .dictItem

/-- The operators, which keep their words. -/
def keepsWords {n : Nonterminal} : Alternative n → Bool
  | augassignOp | compRelation | compIn | compNotIn | compIs | compIsNot | shiftOp | addOp
  | mulStar | mulDivide | unarySign | unaryTilde => true
  | _ => false

end Alternative

mutual

/-- The children that a derivation gives to the node above it; `words` are kept by operators. -/
def Derivation.trees {x : Item} (words : Bool) : Derivation x → List ParseTree
  | @Derivation.leaf kind t _ => if words || kind.isNamed then [.token t] else []
  | .node a parts => a.outline.wrap (spanOf parts.tokens) (parts.trees a.keepsWords)
  | .absent | .done => []
  | .present parts | .left parts | .right parts => parts.trees words
  | .more parts rest | .plus parts rest => parts.trees words ++ rest.trees words

def Derivations.trees {xs : List Item} (words : Bool) : Derivations xs → List ParseTree
  | .nil => []
  | .cons head tail => head.trees words ++ tail.trees words

end

mutual

/-- How many phrases stand one in the other at most. -/
def Derivation.depth {x : Item} : Derivation x → Nat
  | .leaf _ _ | .absent | .done => 0
  | .node _ parts => parts.depth + 1
  | .present parts | .left parts | .right parts => parts.depth
  | .more parts rest | .plus parts rest => max parts.depth rest.depth

def Derivations.depth {xs : List Item} : Derivations xs → Nat
  | .nil => 0
  | .cons head tail => max head.depth tail.depth

end

end Ebnf
end ScopeLint
