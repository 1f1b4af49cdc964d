import ScopeLint.Proofs.ParseTree
import ScopeLint.SyntaxError

/-! # Syntax trees from parse trees

The builder takes a parse tree apart by its labels. It asks for children by number and by name,
for the text of tokens and the children of nodes, and fails where the tree has something else
there. It calls itself once for every level of the tree, and fails as well where the calls are
nested deeper than a limit. -/
namespace ScopeLint

/-- Why no syntax tree is built. -/
inductive Failure where
  /-- The source is at fault. -/
  | syntaxError (e : SyntaxError)
  /-- Calls are nested deeper than the limit. -/
  | tooDeep
  | unexpectedStatement (label : Label)
  | unexpectedCompound (label : Label)
  | unexpectedExpression (label : Label)
  | unexpectedToken (kind : Kind)
  /-- An expression is neither a token nor a node. -/
  | noTree
  /-- A token has no children, and a node no text. -/
  | noSuchField
  | noSuchChild
  /-- There are more or fewer children than are asked for together. -/
  | wrongNumber
deriving DecidableEq, Repr

namespace TreeBuilder

abbrev Result := Except Failure

/-- A node of a parse tree. -/
structure Branch where
  label : Label
  span : Span
  children : List ParseTree

def Branch.tree (b : Branch) : ParseTree := .tree b.label b.span b.children

/-! ## Looking at parse trees -/

def childrenOf : ParseTree → Result (List ParseTree)
  | .tree _ _ children => .ok children
  | _ => .error .noSuchField

def wordOf : ParseTree → Result String
  | .token t => .ok t.text
  | _ => .error .noSuchField

def nth {α : Type} (xs : List α) (i : Nat) : Result α :=
  match xs[i]? with
  | some x => .ok x
  | none => .error .noSuchChild

def last {α : Type} (xs : List α) : Result α :=
  match xs.getLast? with
  | some x => .ok x
  | none => .error .noSuchChild

def branches (children : List ParseTree) : List Branch :=
  children.filterMap fun
    | .tree label span children => some ⟨label, span, children⟩
    | _ => none

def labelled (label : Label) (children : List ParseTree) : List Branch :=
  (branches children).filter (·.label = label)

def names (children : List ParseTree) : List Token :=
  children.filterMap fun
    | .token t => if t.kind = .name then some t else none
    | _ => none

/-- The token of an operator. -/
def operator (op : ParseTree) : Result String := do wordOf (← nth (← childrenOf op) 0)

/-- The words of a comparison, which may be two. -/
def comparisonOp (op : ParseTree) : Result String := do
  return " ".intercalate (← (← childrenOf op).mapM wordOf)

/-- The first, the third and so on. -/
def everySecond {α : Type} : List α → List α
  | [] => []
  | [x] => [x]
  | x :: _ :: rest => x :: everySecond rest

/-! ## Expressions -/

section Expressions

variable (build : ParseTree → Result Node)

def optional : Option ParseTree → Result (List Node)
  | none => return []
  | some tree => return [← build tree]

def param (item : Branch) : Result Node := do
  let name ← nth (names item.children) 0
  match item.label with
  | .starParam => return .make name.span (.param name.text "*") [[]]
  | .kwstarParam => return .make name.span (.param name.text "**") [[]]
  | _ =>
    let default ← optional build ((branches item.children).head?.map Branch.tree)
    return .make name.span (.param name.text "") [default]

def params : Option ParseTree → Result (List Node)
  | none => return []
  | some tree => do (branches (← childrenOf tree)).mapM (param build)

/-- A keyword argument has to be named by an identifier. -/
def argument : ParseTree → Result Node
  | .tree .kwarg span children => do
    match ← nth children 0 with
    | .tree .var _ inner =>
      let name ← wordOf (← nth inner 0)
      let value ← build (← nth children 1)
      return .make span (.keywordArg name) [[value]]
    | key => .error (.syntaxError (.keywordName key.span))
  | .tree .starArg span children => do
    let value ← build (← nth children 0)
    return .make span (.unaryOp "*") [[value]]
  | .tree .kwstarArg span children => do
    let value ← build (← nth children 0)
    return .make span (.unaryOp "**") [[value]]
  | tree => build tree

def arguments : Option ParseTree → Result (List Node)
  | none => return []
  | some tree => do (← childrenOf tree).mapM (argument build)

/-- Every operator applies to all that is left of it. -/
def foldLeft (span : Span) (operands : List ParseTree) (ops : List String) : Result Node := do
  let first ← build (← nth operands 0)
  (ops.zip operands.tail).foldlM
    (fun left (op, operand) => do return .make span (.binOp op) [[left], [← build operand]]) first

/-- A comparison stays one node, however many operands it has. -/
def comparison (span : Span) (operands ops : List ParseTree) : Result Node := do
  let ops ← ops.mapM comparisonOp
  let left ← build (← nth operands 0)
  let others ← operands.tail.mapM build
  return .make span (.compare ops) [[left], others]

def condition : Option Branch → Result (List Node)
  | none => return []
  | some clause => do return [← build (← nth clause.children 0)]

def comprehension (span : Span) (element : Result Node) (value : Result (List Node))
    (clause : ParseTree) : Result Node := do
  let parts ← childrenOf clause
  let condition := (labelled .compIf parts).head?
  let element ← element
  let value ← value
  let target ← build (← nth parts 0)
  let iterable ← build (← nth parts 1)
  let condition ← TreeBuilder.condition build condition
  return .make span .comprehension [[target], [iterable], condition, [element], value]

/-- One call of the builder for an expression; `build` is the call for what is inside. -/
def expression : ParseTree → Result Node
  | .token t =>
    if t.kind = .name then .ok (.make t.span (.name t.text) [])
    else .error (.unexpectedToken t.kind)
  | .missing => .error .noTree
  | .tree label span children =>
    match label with
    | .var => do return .make span (.name (← wordOf (← nth children 0))) []
    | .number => do return .make span (.literal (.raw (← wordOf (← nth children 0)))) []
    | .string => do return .make span (.literal (.raw (String.join (← children.mapM wordOf)))) []
    | .constNone => .ok (.make span (.literal .none) [])
    | .constTrue => .ok (.make span (.literal (.bool true)) [])
    | .constFalse => .ok (.make span (.literal (.bool false)) [])
    | .paren => do build (← nth children 0)
    | .tuple | .tupleDisplay | .listDisplay => do
      return .make span .array [← children.mapM build]
    | .emptyTuple | .emptyList => .ok (.make span .array [[]])
    | .emptyDict => .ok (.make span .dict [])
    | .dictDisplay => do
      let items := labelled .dictItem children
      let keys ← items.mapM fun item => do build (← nth item.children 0)
      let values ← items.mapM fun item => do build (← nth item.children 1)
      return .make span .dict ((keys.zip values).map fun (key, value) => [key, value])
    | .comprehension => do
      let clause ← nth children 1
      comprehension build span (do build (← nth children 0)) (pure []) clause
    | .dictComprehension => match children with
      | [item, clause] =>
        comprehension build span (do build (← nth (← childrenOf item) 0))
          (do pure [← build (← nth (← childrenOf item) 1)]) clause
      | _ => .error .wrongNumber
    | .call => do
      let function ← build (← nth children 0)
      return .make span .call [[function], ← arguments build children[1]?]
    | .getitem => do
      let value ← build (← nth children 0)
      let inner ← build (← nth children 1)
      return .make span .subscript [[value], [inner]]
    | .getattr => do
      let value ← build (← nth children 0)
      let name ← wordOf (← nth children 1)
      return .make span (.attribute name) [[value]]
    | .sliceFull => do
      let lower ← build (← nth children 0)
      let upper ← build (← nth children 1)
      return .make span .slice [[lower], [upper]]
    | .sliceLower => do
      let lower ← build (← nth children 0)
      return .make span .slice [[lower], []]
    | .sliceUpper => do
      let upper ← build (← nth children 0)
      return .make span .slice [[], [upper]]
    | .sliceAll => .ok (.make span .slice [[], []])
    | .ternary => do
      let body ← build (← nth children 0)
      let test ← build (← nth children 1)
      let orelse ← build (← nth children 2)
      return .make span .ternary [[body], [test], [orelse]]
    | .lambdef => do
      let params ← params build (if 1 < children.length then children[0]? else none)
      let body ← build (← last children)
      return .make span .lambda [params, [body]]
    | .orTest => do return .make span (.boolOp "or") [← children.mapM build]
    | .andTest => do return .make span (.boolOp "and") [← children.mapM build]
    | .notOp => do
      let operand ← build (← nth children 0)
      return .make span (.unaryOp "not") [[operand]]
    | .comparison => comparison build span (everySecond children) (everySecond children.tail)
    | .bitorExpr => foldLeft build span children (.replicate (children.length - 1) "|")
    | .bitxorExpr => foldLeft build span children (.replicate (children.length - 1) "^")
    | .bitandExpr => foldLeft build span children (.replicate (children.length - 1) "&")
    | .shiftExpr | .arithExpr | .term => do
      foldLeft build span (everySecond children) (← (everySecond children.tail).mapM operator)
    | .factor => do
      let op ← operator (← nth children 0)
      let operand ← build (← nth children 1)
      return .make span (.unaryOp op) [[operand]]
    | .power => do
      let left ← build (← nth children 0)
      let right ← build (← nth children 1)
      return .make span (.binOp "**") [[left], [right]]
    | label => .error (.unexpectedExpression label)

end Expressions

/-- The syntax tree of an expression, with `limit` calls one in the other at most. -/
def expr : (limit : Nat) → ParseTree → Result Node
  | 0, _ => .error .tooDeep
  | limit + 1, tree => expression (expr limit) tree

/-! ## Statements -/

def dotted (b : Branch) : List String := (names b.children).map Token.text

def moduleImport (item : Branch) : Result Node := do
  let path := dotted (← nth (labelled .dottedName item.children) 0)
  let asName := (names item.children).head?
  return .make item.span (.importModule path (asName.map Token.text) (asName.map Token.span)) []

def member (item : Branch) : Result Node := do
  let asName := (names item.children)[1]?
  let name ← nth (names item.children) 0
  return .make item.span (.importedName name.text (asName.map Token.text)) []

def declaration (keyword : String) (b : Branch) : Node :=
  .make b.span (.declaration keyword ((names b.children).map fun t => (t.text, t.span))) []

section Statements

variable (build : ParseTree → Result Node) (suite : ParseTree → Result (List Node))

/-- `a = b = v` assigns to `b` and then, with that assignment as its value, to `a`. -/
def assignment (span : Span) (operands : List ParseTree) : Result Node := do
  operands.dropLast.foldrM
    (fun target value => do return .make span (.assign "=") [[← build target], [value]])
    (← build (← last operands))

def smallStatement (b : Branch) : Result (List Node) :=
  match b.label with
  | .exprStmt => do return [.make b.span .exprStmt [[← build (← nth b.children 0)]]]
  | .assignStmt => do return [← assignment build b.span b.children]
  | .augassignStmt => do
    let op ← nth b.children 1
    let target ← build (← nth b.children 0)
    let op ← operator op
    let value ← build (← nth b.children 2)
    return [.make b.span (.assign op) [[target], [value]]]
  | .passStmt => .ok [.make b.span (.empty "pass") []]
  | .emptyStmt => .ok [.make b.span (.empty ";") []]
  | .breakStmt => .ok [.make b.span .breakStmt []]
  | .continueStmt => .ok [.make b.span .continueStmt []]
  | .returnStmt => do return [.make b.span .returnStmt [← optional build b.children[0]?]]
  | .raiseStmt => do return [.make b.span .raiseStmt [← optional build b.children[0]?]]
  | .assertStmt => do
    let test ← build (← nth b.children 0)
    let message ← optional build b.children[1]?
    return [.make b.span .assertStmt [[test], message]]
  | .globalStmt => .ok [declaration "global" b]
  | .nonlocalStmt => .ok [declaration "nonlocal" b]
  | .delStmt => do
    let target ← build (← nth b.children 0)
    let targets := if target.form = .array then target.children else [target]
    return [.make b.span .delStmt [targets]]
  | .importName => (labelled .dottedAsName b.children).mapM moduleImport
  | .importFrom => do
    let path := dotted (← nth (labelled .dottedName b.children) 0)
    let members ← nth (labelled .importAsNames b.children) 0
    let members ← (labelled .importAsName members.children).mapM member
    return [.make b.span (.importMembers path) [members]]
  | label => .error (.unexpectedStatement label)

/-- The body of a clause that may be missing. -/
def clauseBody : Option Branch → Result (List Node)
  | none => return []
  | some clause => do suite (← nth (labelled .suite clause.children) 0).tree

def handler (b : Branch) : Result Node := do
  let type := (branches b.children).head?.filter (·.label ≠ .suite)
  let binder := (names b.children).head?
  let type ← optional build (type.map Branch.tree)
  let binders := binder.toList.map fun t => Node.make t.span (.varDef t.text t.span) [[]]
  let body ← suite (← nth (labelled .suite b.children) 0).tree
  return .make b.span .handler [type, binders, body]

def withItem (b : Branch) : Result Node := do
  let value ← build (← nth b.children 0)
  match (names b.children).head? with
  | none => return value
  | some t => return .make b.span (.varDef t.text t.span) [[value]]

def function (decorators : List Node) (b : Branch) : Result Node := do
  let name ← nth (names b.children) 0
  let params ← params build ((labelled .parameters b.children).head?.map Branch.tree)
  let body ← suite (← nth (labelled .suite b.children) 0).tree
  return .make b.span (.functionDef name.text name.span) [decorators, params, body]

def classOf (decorators : List Node) (b : Branch) : Result Node := do
  let name ← nth (names b.children) 0
  let bases ← arguments build ((labelled .arguments b.children).head?.map Branch.tree)
  let body ← suite (← nth (labelled .suite b.children) 0).tree
  return .make b.span (.classDef name.text name.span) [decorators, bases, body]

def decorator (b : Branch) : Result Node := do
  let path := dotted (← nth (labelled .dottedName b.children) 0)
  let arguments := (labelled .arguments b.children).head?
  let name ← nth path 0
  return .make b.span (.decorator name) [← TreeBuilder.arguments build (arguments.map Branch.tree)]

/-- An `elif` is an `if` in the place of the `else` body before it. -/
def elifClause (clause : Branch) (orelse : List Node) : Result (List Node) := do
  let test ← build (← nth clause.children 0)
  let body ← suite (← nth clause.children 1)
  return [.make clause.span .ifBranch [[test], body, orelse]]

def compoundStatement (b : Branch) : Result Node :=
  match b.label with
  | .ifStmt => do
    let orelse ← clauseBody suite (labelled .elseClause b.children).head?
    let orelse ← (labelled .elifClause b.children).foldrM (elifClause build suite) orelse
    let test ← build (← nth b.children 0)
    let body ← suite (← nth b.children 1)
    return .make b.span .ifBranch [[test], body, orelse]
  | .whileStmt => do
    let test ← build (← nth b.children 0)
    let body ← suite (← nth b.children 1)
    let orelse ← clauseBody suite (labelled .elseClause b.children).head?
    return .make b.span .whileLoop [[test], body, orelse]
  | .forStmt => do
    let target ← build (← nth b.children 0)
    let iterable ← build (← nth b.children 1)
    let body ← suite (← nth b.children 2)
    let orelse ← clauseBody suite (labelled .elseClause b.children).head?
    return .make b.span .forIn [[target], [iterable], body, orelse]
  | .tryStmt => do
    let body ← suite (← nth b.children 0)
    let handlers ← (labelled .exceptClause b.children).mapM (handler build suite)
    let orelse ← clauseBody suite (labelled .elseClause b.children).head?
    let final ← clauseBody suite (labelled .finallyClause b.children).head?
    return .make b.span .tryBlock [body, handlers, orelse, final]
  | .withStmt => do
    let items ← (labelled .withItem b.children).mapM (withItem build)
    let body ← suite (← nth (labelled .suite b.children) 0).tree
    return .make b.span .withBlock [items, body]
  | .funcdef => function build suite [] b
  | .classdef => classOf build suite [] b
  | .decorated => do
    let decorators ← (labelled .decorator b.children).mapM (decorator build)
    let target ← last (branches b.children)
    if target.label = .funcdef then function build suite decorators target
    else classOf build suite decorators target
  | label => .error (.unexpectedCompound label)

/-- What a child of a block comes to. A token there is passed over. -/
def statement : ParseTree → Result (List Node)
  | .tree .simpleStmt _ children => do
    return (← (branches children).mapM (smallStatement build)).flatten
  | .tree label span children => do
    return [← compoundStatement build suite ⟨label, span, children⟩]
  | _ => .ok []

end Statements

/-- The statements of a block, with `limit` calls one in the other at most. -/
def statements : (limit : Nat) → List ParseTree → Result (List Node)
  | 0, _ => .error .tooDeep
  | limit + 1, children => do
    let block (tree : ParseTree) : Result (List Node) := do
      statements limit (← childrenOf tree)
    return (← children.mapM (statement (expr limit) block)).flatten

def suite (limit : Nat) (tree : ParseTree) : Result (List Node) := do
  statements limit (← childrenOf tree)

/-- The module of a whole tree. -/
def moduleOf (limit : Nat) (tree : ParseTree) : Result Node := do
  return .make tree.span .module [← suite limit tree]

end TreeBuilder

/-- The module that the builder makes of the parse tree of a file, with its nodes told apart. -/
def Ebnf.Derivation.image (limit : Nat) (d : Derivation (ph .fileInput)) : Except Failure Node := do
  let tree ← TreeBuilder.nth (d.trees false) 0
  return (← TreeBuilder.moduleOf limit tree).number

end ScopeLint
