import ScopeLint.Grammar.Derivation
import ScopeLint.Node

/-!
The meaning of a derivation: the syntax tree it stands for. Each production turns the meanings of
its symbols into its own, so a tree is read from the leaves up.

A keyword argument whose name is no identifier has no meaning. Which one is reported, if there are
several, is decided by the order in which a production asks for its parts: mostly from left to
right, but the branches of an `if` from the last to its first, an assigned value before its targets,
and the keys of a dictionary before its values.
-/
namespace ScopeLint.Grammar

/-- A value, or the place of a keyword argument that is not named by an identifier. -/
abbrev Build := Except Span

/-- A value with the stretch of tokens it was read from. -/
structure Located (α : Type) where
  span : Span
  value : α

/-- An expression. It is an identifier if it was written as one name and nothing else. -/
structure Expr where
  identifier : Option String := none
  node : Build Node

inductive Assignments where
  | none
  | plain (next : Expr) (more : List Expr)
  | augmented (op : String) (value : Expr)

/-- A definition before its decorators are known; the head holds parameters or bases. -/
structure Definition where
  span : Span
  form : Form
  head : List (Build Node)
  body : Build (List Node)

structure TryTail where
  handlers : List (Build Node)
  orelse : Build (List Node)
  final : Build (List Node)

inductive Trailer where
  | call (arguments : List (Build Node))
  | index (inner : Build Node)
  | attribute (name : String)

structure CompFor where
  target : Expr
  iterable : Expr
  condition : Option Expr

/-- What a rule means. -/
def Rule.Meaning : Rule → Type
  | .file => Build Node
  | .lines | .statements | .smalls => List (Build (List Node))
  | .statement | .suite | .simple | .small => Build (List Node)
  | .assignments => Assignments
  | .moreAssignments => List Expr
  | .optTestlist | .optTest | .assertMessage => Option Expr
  | .moreNames => List Token
  | .moduleImport | .member => Node
  | .moreModuleImports | .members | .moreMembers => List Node
  | .optAlias => Option Token
  | .dotted => String × List String
  | .moreDotted => List String
  | .elifs => List (Located (Expr × Build (List Node)))
  | .elif => Expr × Build (List Node)
  | .optElse | .optFinally => Build (List Node)
  | .tryTail => TryTail
  | .handlers | .moreWithItems | .decorators => List (Build Node)
  | .handler | .withItem | .decorator => Build Node
  | .handlerHead => Option (Expr × Option Token)
  | .definition => Definition
  | .optBases | .optParams | .moreParams | .optArguments | .moreArguments => List (Build Node)
  | .param | .argument => Build Node
  | .optDefault | .optKeyword => Option Expr
  | .testlist | .exprlist | .test => Expr
  | .moreTests | .moreExprs => List Expr
  | .optTernary => Option (Expr × Expr)
  | .orTest | .andTest | .notTest | .comparison => Expr
  | .moreOr | .moreAnd => List Expr
  | .moreCompare => List (String × Expr)
  | .compareOp => String
  | .optNot => Bool
  | .bitOr | .bitXor | .bitAnd | .shiftExpr | .arith | .term | .factor | .power => Expr
  | .moreBitOr | .moreBitXor | .moreBitAnd | .moreShift | .moreArith | .moreTerm =>
    List (String × Expr)
  | .mulOp => String
  | .optPower => Option Expr
  | .primary | .atom => Expr
  | .trailers => List (Located Trailer)
  | .trailer => Trailer
  | .subscript => Build Node
  | .optSlice => Option (Option Expr)
  | .optUpper => Option Expr
  | .parenTail => Option (Expr × List Expr)
  | .listTail => Option (Expr × (List Expr ⊕ CompFor))
  | .listRest => List Expr ⊕ CompFor
  | .dictTail => Option ((Expr × Expr) × (List (Expr × Expr) ⊕ CompFor))
  | .dictRest => List (Expr × Expr) ⊕ CompFor
  | .dictItem => Expr × Expr
  | .moreDictItems => List (Expr × Expr)
  | .compFor => CompFor
  | .optCondition => Option Expr
  | .moreStrings => List String

def Symbol.Meaning : Symbol → Type
  | .token _ => Token
  | .rule r => r.Meaning

/-- The meanings of a list of symbols, each with its place. -/
def Meanings : List Symbol → Type
  | [] => Unit
  | s :: ss => Located s.Meaning × Meanings ss

/-- Asks for every value, from left to right. -/
def sequence {α : Type} : List (Build α) → Build (List α)
  | [] => return []
  | x :: xs => do
    let value ← x
    let values ← sequence xs
    return value :: values

def concat (xs : List (Build (List Node))) : Build (List Node) :=
  return (← sequence xs).flatten

def nodes (es : List Expr) : Build (List Node) := sequence (es.map Expr.node)

/-- A value that may be missing, as a part of a node. -/
def optional : Option Expr → Build (List Node)
  | none => return []
  | some e => return [← e.node]

/-- An expression without parts. -/
def Expr.plain (span : Span) (form : Form) : Expr := { node := .ok (.make span form []) }

def Expr.ofName (t : Located Token) : Expr :=
  { identifier := some t.value.text, node := .ok (.make t.span (.name t.value.text) []) }

def arrayOf (span : Span) (es : List Expr) : Build Node :=
  return .make span .array [← nodes es]

/-- Expressions with commas between them; one alone is just itself. -/
def commaList (span : Span) (first : Expr) (more : List Expr) : Expr :=
  if more.isEmpty then first else { node := arrayOf span (first :: more) }

def boolChain (op : String) (span : Span) (first : Expr) (more : List Expr) : Expr :=
  if more.isEmpty then first
  else { node := return .make span (.boolOp op) [← nodes (first :: more)] }

/-- Operators of one level group to the left, and every group has the span of the whole chain. -/
def binaryFrom (span : Span) (left : Node) : List (String × Expr) → Build Node
  | [] => return left
  | (op, e) :: more => do
    let right ← e.node
    binaryFrom span (.make span (.binOp op) [[left], [right]]) more

def binaryChain (span : Span) (first : Expr) (more : List (String × Expr)) : Expr :=
  if more.isEmpty then first
  else { node := do binaryFrom span (← first.node) more }

def compareChain (span : Span) (first : Expr) (more : List (String × Expr)) : Expr :=
  if more.isEmpty then first
  else
    { node := do
        let left ← first.node
        let operands ← nodes (more.map Prod.snd)
        return .make span (.compare (more.map Prod.fst)) [[left], operands] }

/-- `a = b = v` assigns to `b` and then, with that assignment as its value, to `a`. -/
def assignChain (span : Span) (first : Expr) : List Expr → Build Node
  | [] => first.node
  | next :: more => do
    let value ← assignChain span next more
    let target ← first.node
    return .make span (.assign "=") [[target], [value]]

/-- An `elif` is an `if` in the place of the `else` body before it. -/
def elifChain (orelse : Build (List Node)) :
    List (Located (Expr × Build (List Node))) → Build (List Node)
  | [] => orelse
  | clause :: more => do
    let orelse ← elifChain orelse more
    let test ← clause.value.1.node
    let body ← clause.value.2
    return [.make clause.span .ifBranch [[test], body, orelse]]

/-- Calls, subscripts and attributes apply to everything on their left. -/
def trailerChain (start : Span) (node : Node) : List (Located Trailer) → Build Node
  | [] => return node
  | ⟨place, trailer⟩ :: more => do
    let span := start.cover place
    let applied ← match trailer with
      | .call arguments => do pure (.make span .call [[node], ← sequence arguments])
      | .index i => do pure (.make span .subscript [[node], [← i]])
      | .attribute name => pure (.make span (.attribute name) [[node]])
    trailerChain start applied more

def comprehension (span : Span) (element : Expr) (value : Option Expr) (c : CompFor) :
    Build Node := do
  let element ← element.node
  let value ← optional value
  let target ← c.target.node
  let iterable ← c.iterable.node
  let condition ← optional c.condition
  return .make span .comprehension [[target], [iterable], condition, [element], value]

def dictOf (span : Span) (items : List (Expr × Expr)) : Build Node := do
  let keys ← nodes (items.map Prod.fst)
  let values ← nodes (items.map Prod.snd)
  return .make span .dict ((keys.zip values).map fun (k, v) => [k, v])

def Definition.node (d : Definition) (decorators : List Node) : Build Node := do
  let head ← sequence d.head
  let body ← d.body
  return .make d.span d.form [decorators, head, body]

def literalStrings (span : Span) (first : String) (more : List String) : Expr :=
  .plain span (.literal (.raw (String.join (first :: more))))

def declarationOf (span : Span) (keyword : String) (first : Token) (more : List Token) : Node :=
  .make span (.declaration keyword ((first :: more).map fun t => (t.text, t.span))) []

/-- `del` takes the elements of a list one by one. -/
def deletion (span : Span) (target : Node) : Node :=
  .make span .delStmt [if target.form = .array then target.children else [target]]

def slice (span : Span) (lower upper : Option Expr) : Build Node := do
  let lower ← optional lower
  let upper ← optional upper
  return .make span .slice [lower, upper]

/-- What a production makes of its symbols; the span is that of all its tokens. -/
def Production.meaning {r : Rule} (p : Production r) (span : Span) :
    Meanings p.symbols → r.Meaning :=
  match p with
  | file => fun (lines, _) => show Build Node from do
    return .make span .module [← concat lines.value]
  | linesEnd => fun _ => []
  | linesBlank => fun (_, lines, _) => lines.value
  | linesMore => fun (first, lines, _) => first.value :: lines.value
  | statementSimple => fun (body, _) => body.value
  | statementIf => fun (_, test, _, body, elifs, orelse, _) => show Build (List Node) from do
    let orelse ← elifChain orelse.value elifs.value
    let test ← test.value.node
    let body ← body.value
    return [.make span .ifBranch [[test], body, orelse]]
  | statementWhile => fun (_, test, _, body, orelse, _) => show Build (List Node) from do
    let test ← test.value.node
    let body ← body.value
    let orelse ← orelse.value
    return [.make span .whileLoop [[test], body, orelse]]
  | statementFor => fun (_, target, _, iterable, _, body, orelse, _) =>
    show Build (List Node) from do
    let target ← target.value.node
    let iterable ← iterable.value.node
    let body ← body.value
    let orelse ← orelse.value
    return [.make span .forIn [[target], [iterable], body, orelse]]
  | statementTry => fun (_, _, body, tail, _) => show Build (List Node) from do
    let body ← body.value
    let handlers ← sequence tail.value.handlers
    let orelse ← tail.value.orelse
    let final ← tail.value.final
    return [.make span .tryBlock [body, handlers, orelse, final]]
  | statementWith => fun (_, first, more, _, body, _) => show Build (List Node) from do
    let items ← sequence (first.value :: more.value)
    let body ← body.value
    return [.make span .withBlock [items, body]]
  | statementDefinition => fun (d, _) => show Build (List Node) from do
    return [← Definition.node d.value []]
  | statementDecorated => fun (first, more, d, _) => show Build (List Node) from do
    let decorators ← sequence (first.value :: more.value)
    return [← Definition.node d.value decorators]
  | suiteInline => fun (body, _) => body.value
  | suiteBlock => fun (_, _, first, more, _, _) => concat (first.value :: more.value)
  | statementsEnd => fun _ => []
  | statementsMore => fun (first, more, _) => first.value :: more.value
  | simple => fun (first, more, _, _) => concat (first.value :: more.value)
  | smallsEnd => fun _ => []
  | smallsMore => fun (_, first, more, _) => first.value :: more.value
  | smallExpr => fun (first, rest, _) => show Build (List Node) from
    match (rest.value : Assignments) with
    | .none => do return [.make span .exprStmt [[← first.value.node]]]
    | .plain next more => do return [← assignChain span first.value (next :: more)]
    | .augmented op value => do
      let target ← first.value.node
      let value ← value.node
      return [.make span (.assign op) [[target], [value]]]
  | smallPass => fun _ => .ok [.make span (.empty "pass") []]
  | smallBreak => fun _ => .ok [.make span .breakStmt []]
  | smallContinue => fun _ => .ok [.make span .continueStmt []]
  | smallReturn => fun (_, value, _) => show Build (List Node) from do
    return [.make span .returnStmt [← optional value.value]]
  | smallRaise => fun (_, value, _) => show Build (List Node) from do
    return [.make span .raiseStmt [← optional value.value]]
  | smallDel => fun (_, target, _) => show Build (List Node) from do
    return [deletion span (← target.value.node)]
  | smallAssert => fun (_, test, message, _) => show Build (List Node) from do
    let test ← test.value.node
    let message ← optional message.value
    return [.make span .assertStmt [[test], message]]
  | smallGlobal => fun (_, first, more, _) =>
    .ok [declarationOf span "global" first.value more.value]
  | smallNonlocal => fun (_, first, more, _) =>
    .ok [declarationOf span "nonlocal" first.value more.value]
  | smallImport => fun (_, first, more, _) => .ok (first.value :: more.value)
  | smallFrom => fun (_, path, _, members, _) =>
    .ok [.make span (.importMembers (path.value.1 :: path.value.2)) [members.value]]
  | smallEmpty => fun _ => .ok [.make span (.empty ";") []]
  | assignmentsNone => fun _ => .none
  | assignmentsPlain => fun (_, next, more, _) => .plain next.value more.value
  | assignmentsAugmented => fun (op, value, _) => .augmented op.value.text value.value
  | moreAssignmentsEnd => fun _ => []
  | moreAssignmentsMore => fun (_, next, more, _) => next.value :: more.value
  | optTestlistNone => fun _ => none
  | optTestlistSome => fun (value, _) => some value.value
  | optTestNone => fun _ => none
  | optTestSome => fun (value, _) => some value.value
  | assertMessageNone => fun _ => none
  | assertMessageSome => fun (_, value, _) => some value.value
  | moreNamesEnd => fun _ => []
  | moreNamesMore => fun (_, name, more, _) => name.value :: more.value
  | moduleImport => fun (path, asName, _) =>
    let asName : Option Token := asName.value
    .make span
      (.importModule (path.value.1 :: path.value.2) (asName.map Token.text)
        (asName.map Token.span)) []
  | moreModuleImportsEnd => fun _ => []
  | moreModuleImportsMore => fun (_, next, more, _) => next.value :: more.value
  | membersBare => fun (first, more, _) => first.value :: more.value
  | membersParen => fun (_, first, more, _, _) => first.value :: more.value
  | moreMembersEnd => fun _ => []
  | moreMembersMore => fun (_, first, more, _) => first.value :: more.value
  | member => fun (name, asName, _) =>
    let asName : Option Token := asName.value
    .make span (.importedName name.value.text (asName.map Token.text)) []
  | optAliasNone => fun _ => none
  | optAliasSome => fun (_, name, _) => some name.value
  | dotted => fun (name, more, _) => (name.value.text, more.value)
  | moreDottedEnd => fun _ => []
  | moreDottedMore => fun (_, name, more, _) => name.value.text :: more.value
  | elifsEnd => fun _ => []
  | elifsMore => fun (first, more, _) => first :: more.value
  | elif => fun (_, test, _, body, _) => (test.value, body.value)
  | optElseNone => fun _ => .ok []
  | optElseSome => fun (_, _, body, _) => body.value
  | tryTailFinally => fun (_, _, body, _) => ⟨[], .ok [], body.value⟩
  | tryTailHandlers => fun (first, more, orelse, final, _) =>
    ⟨first.value :: more.value, orelse.value, final.value⟩
  | handlersEnd => fun _ => []
  | handlersMore => fun (first, more, _) => first.value :: more.value
  | handler => fun (_, head, _, body, _) => show Build Node from do
    let type ← optional (head.value.map Prod.fst)
    let binder := head.value.bind Prod.snd
    let binders := binder.toList.map fun t => Node.make t.span (.varDef t.text t.span) [[]]
    return .make span .handler [type, binders, ← body.value]
  | handlerHeadNone => fun _ => none
  | handlerHeadSome => fun (type, asName, _) => some (type.value, asName.value)
  | optFinallyNone => fun _ => .ok []
  | optFinallySome => fun (_, _, body, _) => body.value
  | withItem => fun (value, asName, _) => show Build Node from do
    let value ← value.value.node
    match (asName.value : Option Token) with
    | none => return value
    | some t => return .make span (.varDef t.text t.span) [[value]]
  | moreWithItemsEnd => fun _ => []
  | moreWithItemsMore => fun (_, first, more, _) => first.value :: more.value
  | decoratorsEnd => fun _ => []
  | decoratorsMore => fun (first, more, _) => first.value :: more.value
  | decorator => fun (_, path, arguments, _, _) => show Build Node from do
    return .make span (.decorator path.value.1) [← sequence arguments.value]
  | definitionFunction => fun (_, name, _, params, _, _, body, _) =>
    ⟨span, .functionDef name.value.text name.span, params.value, body.value⟩
  | definitionClass => fun (_, name, bases, _, body, _) =>
    ⟨span, .classDef name.value.text name.span, bases.value, body.value⟩
  | optBasesNone => fun _ => []
  | optBasesSome => fun (_, arguments, _, _) => arguments.value
  | optParamsNone => fun _ => []
  | optParamsSome => fun (first, more, _) => first.value :: more.value
  | moreParamsEnd => fun _ => []
  | moreParamsMore => fun (_, first, more, _) => first.value :: more.value
  | paramPlain => fun (name, default, _) => show Build Node from do
    return .make name.span (.param name.value.text "") [← optional default.value]
  | paramStar => fun (_, name, _) => .ok (.make name.span (.param name.value.text "*") [[]])
  | paramDoubleStar => fun (_, name, _) =>
    .ok (.make name.span (.param name.value.text "**") [[]])
  | optDefaultNone => fun _ => none
  | optDefaultSome => fun (_, value, _) => some value.value
  | optArgumentsNone => fun _ => []
  | optArgumentsSome => fun (first, more, _) => first.value :: more.value
  | moreArgumentsEnd => fun _ => []
  | moreArgumentsMore => fun (_, first, more, _) => first.value :: more.value
  | argumentPlain => fun (key, value, _) => show Build Node from
    match (value.value : Option Expr) with
    | none => key.value.node
    | some value => match key.value.identifier with
      | none => .error key.span
      | some name => do return .make span (.keywordArg name) [[← value.node]]
  | argumentStar => fun (_, value, _) => show Build Node from do
    return .make span (.unaryOp "*") [[← value.value.node]]
  | argumentDoubleStar => fun (_, value, _) => show Build Node from do
    return .make span (.unaryOp "**") [[← value.value.node]]
  | optKeywordNone => fun _ => none
  | optKeywordSome => fun (_, value, _) => some value.value
  | testlist => fun (first, more, _) => commaList span first.value more.value
  | moreTestsEnd => fun _ => []
  | moreTestsMore => fun (_, first, more, _) => first.value :: more.value
  | exprlist => fun (first, more, _) => commaList span first.value more.value
  | moreExprsEnd => fun _ => []
  | moreExprsMore => fun (_, first, more, _) => first.value :: more.value
  | testValue => fun (value, ternary, _) =>
    match (ternary.value : Option (Expr × Expr)) with
    | none => value.value
    | some (test, orelse) => show Expr from
      { node := do
          let body ← value.value.node
          let test ← test.node
          let orelse ← orelse.node
          return .make span .ternary [[body], [test], [orelse]] }
  | testLambda => fun (_, params, _, body, _) => show Expr from
    { node := do
        let params ← sequence params.value
        return .make span .lambda [params, [← body.value.node]] }
  | optTernaryNone => fun _ => none
  | optTernarySome => fun (_, test, _, orelse, _) => some (test.value, orelse.value)
  | orTest => fun (first, more, _) => boolChain "or" span first.value more.value
  | moreOrEnd => fun _ => []
  | moreOrMore => fun (_, first, more, _) => first.value :: more.value
  | andTest => fun (first, more, _) => boolChain "and" span first.value more.value
  | moreAndEnd => fun _ => []
  | moreAndMore => fun (_, first, more, _) => first.value :: more.value
  | notTestNot => fun (_, operand, _) => show Expr from
    { node := return .make span (.unaryOp "not") [[← operand.value.node]] }
  | notTestComparison => fun (value, _) => value.value
  | comparison => fun (first, more, _) => compareChain span first.value more.value
  | moreCompareEnd => fun _ => []
  | moreCompareMore => fun (op, operand, more, _) => (op.value, operand.value) :: more.value
  | compareOpRelation => fun (op, _) => op.value.text
  | compareOpIn => fun _ => "in"
  | compareOpNotIn => fun _ => "not in"
  | compareOpIs => fun (_, negated, _) =>
    match (negated.value : Bool) with
    | true => "is not"
    | false => "is"
  | optNotNone => fun _ => false
  | optNotSome => fun _ => true
  | bitOr => fun (first, more, _) => binaryChain span first.value more.value
  | moreBitOrEnd => fun _ => []
  | moreBitOrMore => fun (op, first, more, _) => (op.value.text, first.value) :: more.value
  | bitXor => fun (first, more, _) => binaryChain span first.value more.value
  | moreBitXorEnd => fun _ => []
  | moreBitXorMore => fun (op, first, more, _) => (op.value.text, first.value) :: more.value
  | bitAnd => fun (first, more, _) => binaryChain span first.value more.value
  | moreBitAndEnd => fun _ => []
  | moreBitAndMore => fun (op, first, more, _) => (op.value.text, first.value) :: more.value
  | shiftExpr => fun (first, more, _) => binaryChain span first.value more.value
  | moreShiftEnd => fun _ => []
  | moreShiftMore => fun (op, first, more, _) => (op.value.text, first.value) :: more.value
  | arith => fun (first, more, _) => binaryChain span first.value more.value
  | moreArithEnd => fun _ => []
  | moreArithMore => fun (op, first, more, _) => (op.value.text, first.value) :: more.value
  | term => fun (first, more, _) => binaryChain span first.value more.value
  | moreTermEnd => fun _ => []
  | moreTermMore => fun (op, first, more, _) => (op.value, first.value) :: more.value
  | mulOpStar => fun (op, _) => op.value.text
  | mulOpDivide => fun (op, _) => op.value.text
  | factorSign => fun (op, operand, _) => show Expr from
    { node := return .make span (.unaryOp op.value.text) [[← operand.value.node]] }
  | factorTilde => fun (op, operand, _) => show Expr from
    { node := return .make span (.unaryOp op.value.text) [[← operand.value.node]] }
  | factorPower => fun (value, _) => value.value
  | power => fun (base, exponent, _) =>
    match (exponent.value : Option Expr) with
    | none => base.value
    | some exponent => show Expr from
      { node := do
          let left ← base.value.node
          let right ← exponent.node
          return .make span (.binOp "**") [[left], [right]] }
  | optPowerNone => fun _ => none
  | optPowerSome => fun (_, value, _) => some value.value
  | primary => fun (base, trailers, _) => show Expr from
    if (trailers.value : List (Located Trailer)).isEmpty then base.value
    else { node := do trailerChain base.span (← base.value.node) trailers.value }
  | trailersEnd => fun _ => []
  | trailersMore => fun (first, more, _) => first :: more.value
  | trailerCall => fun (_, arguments, _, _) => .call arguments.value
  | trailerIndex => fun (_, i, _, _) => .index i.value
  | trailerAttribute => fun (_, name, _) => .attribute name.value.text
  | subscriptTest => fun (lower, upper, _) => show Build Node from
    match (upper.value : Option (Option Expr)) with
    | none => lower.value.node
    | some upper => slice span (some lower.value) upper
  | subscriptColon => fun (_, upper, _) => slice span none upper.value
  | optSliceNone => fun _ => none
  | optSliceSome => fun (_, upper, _) => some upper.value
  | optUpperNone => fun _ => none
  | optUpperSome => fun (value, _) => some value.value
  | atomParen => fun (_, tail, _) => show Expr from
    match (tail.value : Option (Expr × List Expr)) with
    | none => { node := arrayOf span [] }
    | some (inner, []) => { node := inner.node }
    | some (first, more) => { node := arrayOf span (first :: more) }
  | atomList => fun (_, tail, _) => show Expr from
    match (tail.value : Option (Expr × (List Expr ⊕ CompFor))) with
    | none => { node := arrayOf span [] }
    | some (first, .inl more) => { node := arrayOf span (first :: more) }
    | some (element, .inr c) => { node := Grammar.comprehension span element none c }
  | atomDict => fun (_, tail, _) => show Expr from
    match (tail.value : Option ((Expr × Expr) × (List (Expr × Expr) ⊕ CompFor))) with
    | none => { node := dictOf span [] }
    | some (first, .inl more) => { node := dictOf span (first :: more) }
    | some ((key, value), .inr c) => { node := Grammar.comprehension span key (some value) c }
  | atomName => fun (name, _) => Expr.ofName name
  | atomNumber => fun (number, _) => .plain span (.literal (.raw number.value.text))
  | atomString => fun (first, more, _) => literalStrings span first.value.text more.value
  | atomLongString => fun (first, more, _) => literalStrings span first.value.text more.value
  | atomNone => fun _ => .plain span (.literal .none)
  | atomTrue => fun _ => .plain span (.literal (.bool true))
  | atomFalse => fun _ => .plain span (.literal (.bool false))
  | parenTailEmpty => fun _ => none
  | parenTailTests => fun (first, more, _, _) => some (first.value, more.value)
  | listTailEmpty => fun _ => none
  | listTailTests => fun (first, rest, _) => some (first.value, rest.value)
  | listRestItems => fun (more, _, _) => .inl more.value
  | listRestFor => fun (c, _, _) => .inr c.value
  | dictTailEmpty => fun _ => none
  | dictTailItems => fun (first, rest, _) => some (first.value, rest.value)
  | dictRestItems => fun (more, _, _) => .inl more.value
  | dictRestFor => fun (c, _, _) => .inr c.value
  | dictItem => fun (key, _, value, _) => (key.value, value.value)
  | moreDictItemsEnd => fun _ => []
  | moreDictItemsMore => fun (_, first, more, _) => first.value :: more.value
  | compFor => fun (_, target, _, iterable, condition, _) =>
    ⟨target.value, iterable.value, condition.value⟩
  | optConditionNone => fun _ => none
  | optConditionSome => fun (_, value, _) => some value.value
  | moreStringsEnd => fun _ => []
  | moreStringsShort => fun (first, more, _) => first.value.text :: more.value
  | moreStringsLong => fun (first, more, _) => first.value.text :: more.value

mutual

/-- The meaning of a tree and the place of its tokens. -/
def Tree.meaning {s : Symbol} : Tree s → Located s.Meaning
  | .leaf t _ => ⟨t.span, t⟩
  | .node p children =>
    let (span, values) := children.meanings
    ⟨span, p.meaning span values⟩

def Forest.meanings {ss : List Symbol} : Forest ss → Span × Meanings ss
  | .nil => (.unknown, ())
  | .cons head tail =>
    let first := head.meaning
    let (span, values) := tail.meanings
    (first.span.cover span, first, values)

end

end ScopeLint.Grammar
