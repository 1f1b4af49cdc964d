import ScopeLint.Grammar.Meaning
import ScopeLint.Proofs.Moved
import ScopeLint.Proofs.Relocation

/-! # Meanings at other places

What a production builds has its places from the tokens and looks at no place and
no line end, so that tokens at other places build the same tree at other places. -/
namespace ScopeLint

def Token.relocate (move : Position → Position) (t : Token) : Token :=
  { t with start := move t.start, stop := move t.stop }

namespace Grammar

variable (move : Position → Position)

/-! ## Parts of a meaning -/

def Build.relocate {α β : Type} (f : α → β) : Build α → Build β
  | .ok a => .ok (f a)
  | .error span => .error (span.relocate move)

def Located.relocate {α β : Type} (f : α → β) (l : Located α) : Located β :=
  ⟨l.span.relocate move, f l.value⟩

/-- A node that has no identity yet. -/
abbrev place : Node → Node := Node.relocate (fun i => i) move

def Expr.relocate (e : Expr) : Expr := { e with node := e.node.relocate move (place move) }

abbrev placeList : Build (List Node) → Build (List Node) :=
  Build.relocate move (List.map (place move))

def Assignments.relocate : Assignments → Assignments
  | .none => .none
  | .plain next more => .plain (next.relocate move) (more.map (Expr.relocate move))
  | .augmented op value => .augmented op (value.relocate move)

def Definition.relocate (d : Definition) : Definition where
  span := d.span.relocate move
  form := d.form.relocate move
  head := d.head.map (Build.relocate move (place move))
  body := placeList move d.body

def TryTail.relocate (t : TryTail) : TryTail where
  handlers := t.handlers.map (Build.relocate move (place move))
  orelse := placeList move t.orelse
  final := placeList move t.final

def Trailer.relocate : Trailer → Trailer
  | .call arguments => .call (arguments.map (Build.relocate move (place move)))
  | .index inner => .index (inner.relocate move (place move))
  | .attribute name => .attribute name

def CompFor.relocate (c : CompFor) : CompFor where
  target := c.target.relocate move
  iterable := c.iterable.relocate move
  condition := c.condition.map (Expr.relocate move)

def Rule.relocate : (r : Rule) → r.Meaning → r.Meaning
  | .file => Build.relocate move (place move)
  | .lines | .statements | .smalls => List.map (placeList move)
  | .statement | .suite | .simple | .small => placeList move
  | .assignments => Assignments.relocate move
  | .moreAssignments => List.map (Expr.relocate move)
  | .optTestlist | .optTest | .assertMessage => Option.map (Expr.relocate move)
  | .moreNames => List.map (Token.relocate move)
  | .moduleImport | .member => place move
  | .moreModuleImports | .members | .moreMembers => List.map (place move)
  | .optAlias => Option.map (Token.relocate move)
  | .dotted => fun path => path
  | .moreDotted => fun words => words
  | .elifs =>
    List.map (Located.relocate move (Prod.map (Expr.relocate move) (placeList move)))
  | .elif => Prod.map (Expr.relocate move) (placeList move)
  | .optElse | .optFinally => placeList move
  | .tryTail => TryTail.relocate move
  | .handlers | .moreWithItems | .decorators => List.map (Build.relocate move (place move))
  | .handler | .withItem | .decorator => Build.relocate move (place move)
  | .handlerHead => Option.map (Prod.map (Expr.relocate move) (Option.map (Token.relocate move)))
  | .definition => Definition.relocate move
  | .optBases | .optParams | .moreParams | .optArguments | .moreArguments =>
    List.map (Build.relocate move (place move))
  | .param | .argument => Build.relocate move (place move)
  | .optDefault | .optKeyword => Option.map (Expr.relocate move)
  | .testlist | .exprlist | .test => Expr.relocate move
  | .moreTests | .moreExprs => List.map (Expr.relocate move)
  | .optTernary => Option.map (Prod.map (Expr.relocate move) (Expr.relocate move))
  | .orTest | .andTest | .notTest | .comparison => Expr.relocate move
  | .moreOr | .moreAnd => List.map (Expr.relocate move)
  | .moreCompare => List.map (Prod.map (fun op => op) (Expr.relocate move))
  | .compareOp => fun op => op
  | .optNot => fun negated => negated
  | .bitOr | .bitXor | .bitAnd | .shiftExpr | .arith | .term | .factor | .power =>
    Expr.relocate move
  | .moreBitOr | .moreBitXor | .moreBitAnd | .moreShift | .moreArith | .moreTerm =>
    List.map (Prod.map (fun op => op) (Expr.relocate move))
  | .mulOp => fun op => op
  | .optPower => Option.map (Expr.relocate move)
  | .primary | .atom => Expr.relocate move
  | .trailers => List.map (Located.relocate move (Trailer.relocate move))
  | .trailer => Trailer.relocate move
  | .subscript => Build.relocate move (place move)
  | .optSlice => Option.map (Option.map (Expr.relocate move))
  | .optUpper => Option.map (Expr.relocate move)
  | .parenTail => Option.map (Prod.map (Expr.relocate move) (List.map (Expr.relocate move)))
  | .listTail => Option.map (Prod.map (Expr.relocate move)
      (Sum.map (List.map (Expr.relocate move)) (CompFor.relocate move)))
  | .listRest => Sum.map (List.map (Expr.relocate move)) (CompFor.relocate move)
  | .dictTail => Option.map (Prod.map (Prod.map (Expr.relocate move) (Expr.relocate move))
      (Sum.map (List.map (Prod.map (Expr.relocate move) (Expr.relocate move)))
        (CompFor.relocate move)))
  | .dictRest => Sum.map (List.map (Prod.map (Expr.relocate move) (Expr.relocate move)))
      (CompFor.relocate move)
  | .dictItem => Prod.map (Expr.relocate move) (Expr.relocate move)
  | .moreDictItems => List.map (Prod.map (Expr.relocate move) (Expr.relocate move))
  | .compFor => CompFor.relocate move
  | .optCondition => Option.map (Expr.relocate move)
  | .moreStrings => fun texts => texts

def Symbol.relocate : (s : Symbol) → s.Meaning → s.Meaning
  | .token _ => Token.relocate move
  | .rule r => r.relocate move

def Meanings.relocate : {ss : List Symbol} → Meanings ss → Meanings ss
  | [], values => values
  | s :: _, values => (values.1.relocate move (s.relocate move), Meanings.relocate values.2)

/-! ## What the productions are made of -/

section

variable {α β γ : Type}

@[simp] theorem Build.relocate_pure (f : α → β) (a : α) :
    Build.relocate move f (pure a) = pure (f a) := rfl

@[simp] theorem Build.relocate_bind (f : β → γ) (x : Build α) (k : α → Build β) :
    Build.relocate move f (x >>= k) =
      x.mapError (Span.relocate move) >>= fun a => Build.relocate move f (k a) := by
  cases x <;> rfl

@[simp] theorem Build.bind_relocate (f : α → β) (x : Build α) (k : β → Build γ) :
    Build.relocate move f x >>= k = x.mapError (Span.relocate move) >>= fun a => k (f a) := by
  cases x <;> rfl

@[simp] theorem Build.relocate_map (f : β → γ) (g : α → β) (x : Build α) :
    Build.relocate move f (g <$> x) = (fun a => f (g a)) <$> x.mapError (Span.relocate move) := by
  cases x <;> rfl

@[simp] theorem Build.map_relocate (f : α → β) (g : β → γ) (x : Build α) :
    g <$> Build.relocate move f x = (fun a => g (f a)) <$> x.mapError (Span.relocate move) := by
  cases x <;> rfl

@[simp] theorem sequence_relocate (f : α → β) (xs : List (Build α)) :
    sequence (xs.map (Build.relocate move f)) =
      Build.relocate move (List.map f) (sequence xs) := by
  induction xs with
  | nil => rfl
  | cons x xs ih => simp [sequence, ih]

end

@[simp] theorem place_make (span : Span) (form : Form) (parts : List (List Node)) :
    place move (.make span form parts) =
      .make (span.relocate move) (form.relocate move) (parts.map (List.map (place move))) := by
  rw [place, Node.make, Node.relocate, Node.relocateParts_eq_map]
  rfl

@[simp] theorem Expr.node_relocate (e : Expr) :
    (e.relocate move).node = e.node.relocate move (place move) := rfl

@[simp] theorem concat_relocate (xs : List (Build (List Node))) :
    concat (xs.map (placeList move)) = placeList move (concat xs) := by
  simp [concat, List.map_flatten]

@[simp] theorem nodes_relocate (es : List Expr) :
    nodes (es.map (Expr.relocate move)) = placeList move (nodes es) := by
  have hnodes : (es.map (Expr.relocate move)).map Expr.node =
      (es.map Expr.node).map (Build.relocate move (place move)) := by
    simp
  rw [nodes, hnodes, sequence_relocate, nodes]

@[simp] theorem optional_relocate (e : Option Expr) :
    optional (e.map (Expr.relocate move)) = placeList move (optional e) := by
  cases e with
  | none => rfl
  | some e => simp [optional]

@[simp] theorem arrayOf_relocate (span : Span) (es : List Expr) :
    arrayOf (span.relocate move) (es.map (Expr.relocate move)) =
      Build.relocate move (place move) (arrayOf span es) := by
  simp [arrayOf, Form.relocate]

@[simp] theorem Expr.relocate_ofNode (node : Build Node) :
    Expr.relocate move { node } = { node := node.relocate move (place move) } := rfl

@[simp] theorem commaList_relocate (span : Span) (first : Expr) (more : List Expr) :
    commaList (span.relocate move) (first.relocate move) (more.map (Expr.relocate move)) =
      (commaList span first more).relocate move := by
  cases more with
  | nil => rfl
  | cons next more =>
    have harray := arrayOf_relocate move span (first :: next :: more)
    simp only [List.map_cons] at harray
    simp [commaList, harray]

@[simp] theorem boolChain_relocate (op : String) (span : Span) (first : Expr) (more : List Expr) :
    boolChain op (span.relocate move) (first.relocate move) (more.map (Expr.relocate move)) =
      (boolChain op span first more).relocate move := by
  cases more with
  | nil => rfl
  | cons next more =>
    have hnodes := nodes_relocate move (first :: next :: more)
    simp only [List.map_cons] at hnodes
    simp [boolChain, hnodes, Form.relocate]

theorem binaryFrom_relocate (span : Span) (left : Node) (more : List (String × Expr)) :
    binaryFrom (span.relocate move) (place move left)
        (more.map (Prod.map (fun op => op) (Expr.relocate move))) =
      Build.relocate move (place move) (binaryFrom span left more) := by
  induction more generalizing left with
  | nil => rfl
  | cons next more ih =>
    have hstep : ∀ right, Node.make (span.relocate move) (.binOp next.1)
        [[place move left], [place move right]] =
          place move (.make span (.binOp next.1) [[left], [right]]) := by
      intro right
      simp [Form.relocate]
    simp only [List.map_cons, binaryFrom, Prod.map_fst, Prod.map_snd, Expr.node_relocate,
      Build.bind_relocate, Build.relocate_bind, hstep, ih]

@[simp] theorem binaryChain_relocate (span : Span) (first : Expr) (more : List (String × Expr)) :
    binaryChain (span.relocate move) (first.relocate move)
        (more.map (Prod.map (fun op => op) (Expr.relocate move))) =
      (binaryChain span first more).relocate move := by
  cases more with
  | nil => rfl
  | cons next more =>
    have hfrom := fun left => binaryFrom_relocate move span left (next :: more)
    simp only [List.map_cons] at hfrom
    simp [binaryChain, hfrom]

@[simp] theorem compareChain_relocate (span : Span) (first : Expr) (more : List (String × Expr)) :
    compareChain (span.relocate move) (first.relocate move)
        (more.map (Prod.map (fun op => op) (Expr.relocate move))) =
      (compareChain span first more).relocate move := by
  cases more with
  | nil => rfl
  | cons next more =>
    have hops : ((next :: more).map (Prod.map (fun op => op) (Expr.relocate move))).map Prod.fst =
        (next :: more).map Prod.fst := by
      simp
    have hoperands : ((next :: more).map
        (Prod.map (fun op => op) (Expr.relocate move))).map Prod.snd =
        ((next :: more).map Prod.snd).map (Expr.relocate move) := by
      simp
    rw [compareChain, compareChain, hoperands, hops, nodes_relocate]
    simp [Form.relocate]

theorem assignChain_relocate (span : Span) (first : Expr) (more : List Expr) :
    assignChain (span.relocate move) (first.relocate move) (more.map (Expr.relocate move)) =
      Build.relocate move (place move) (assignChain span first more) := by
  induction more generalizing first with
  | nil => rfl
  | cons next more ih => simp [assignChain, ih, Form.relocate]

@[simp] theorem elifChain_relocate (orelse : Build (List Node))
    (clauses : List (Located (Expr × Build (List Node)))) :
    elifChain (placeList move orelse)
        (clauses.map (Located.relocate move (Prod.map (Expr.relocate move) (placeList move)))) =
      placeList move (elifChain orelse clauses) := by
  induction clauses with
  | nil => rfl
  | cons clause clauses ih => simp [elifChain, ih, Located.relocate, Form.relocate]

theorem trailerChain_relocate (start : Span) (node : Node) (trailers : List (Located Trailer)) :
    trailerChain (start.relocate move) (place move node)
        (trailers.map (Located.relocate move (Trailer.relocate move))) =
      Build.relocate move (place move) (trailerChain start node trailers) := by
  induction trailers generalizing node with
  | nil => rfl
  | cons trailer more ih =>
    obtain ⟨span, trailer⟩ := trailer
    -- the chain goes on from the node with the trailer applied to it
    have hnext : ∀ form parts, form.relocate move = form →
        trailerChain (start.relocate move)
            (.make ((start.relocate move).cover (span.relocate move)) form
              (parts.map (List.map (place move))))
            (more.map (Located.relocate move (Trailer.relocate move))) =
          Build.relocate move (place move)
            (trailerChain start (.make (start.cover span) form parts) more) := by
      intro form parts hform
      rw [← ih, place_make, hform, Span.relocate_cover]
    rcases trailer with arguments | inner | name
    · simp only [List.map_cons, Located.relocate, Trailer.relocate, trailerChain,
        sequence_relocate]
      cases sequence arguments with
      | error e => rfl
      | ok values => exact hnext .call [[node], values] rfl
    · cases inner with
      | error e => rfl
      | ok value => exact hnext .subscript [[node], [value]] rfl
    · exact hnext (.attribute name) [[node]] rfl

@[simp] theorem comprehension_relocate (span : Span) (element : Expr) (value : Option Expr)
    (c : CompFor) :
    comprehension (span.relocate move) (element.relocate move)
        (value.map (Expr.relocate move)) (c.relocate move) =
      Build.relocate move (place move) (comprehension span element value c) := by
  simp [comprehension, CompFor.relocate, Form.relocate]

@[simp] theorem dictOf_relocate (span : Span) (items : List (Expr × Expr)) :
    dictOf (span.relocate move)
        (items.map (Prod.map (Expr.relocate move) (Expr.relocate move))) =
      Build.relocate move (place move) (dictOf span items) := by
  have hkeys : (items.map (Prod.map (Expr.relocate move) (Expr.relocate move))).map Prod.fst =
      (items.map Prod.fst).map (Expr.relocate move) := by
    simp
  have hvalues : (items.map (Prod.map (Expr.relocate move) (Expr.relocate move))).map Prod.snd =
      (items.map Prod.snd).map (Expr.relocate move) := by
    simp
  rw [dictOf, hkeys, hvalues, nodes_relocate, nodes_relocate, dictOf]
  simp [Form.relocate, List.zip_map, Function.comp_def]

@[simp] theorem Definition.node_relocate (d : Definition) (decorators : List Node) :
    (d.relocate move).node (decorators.map (place move)) =
      Build.relocate move (place move) (d.node decorators) := by
  simp [Definition.node, Definition.relocate]

@[simp] theorem declarationOf_relocate (span : Span) (keyword : String) (first : Token)
    (more : List Token) :
    declarationOf (span.relocate move) keyword (first.relocate move)
        (more.map (Token.relocate move)) =
      place move (declarationOf span keyword first more) := by
  rw [declarationOf, ← List.map_cons, List.map_map, declarationOf, place_make, Form.relocate,
    List.map_map]
  rfl

@[simp] theorem deletion_relocate (span : Span) (target : Node) :
    deletion (span.relocate move) (place move target) = place move (deletion span target) := by
  simp only [deletion, place_make, Node.form_relocate, Form.relocate_eq_array_iff,
    Node.children_relocate]
  split <;> rfl

@[simp] theorem slice_relocate (span : Span) (lower upper : Option Expr) :
    slice (span.relocate move) (lower.map (Expr.relocate move)) (upper.map (Expr.relocate move)) =
      Build.relocate move (place move) (slice span lower upper) := by
  simp [slice, Form.relocate]

/-! ## Productions -/

section

variable {move}

/-- Two computations that ask for the same part, each at its own place. -/
theorem Build.bind_congr {α α' β β' : Type} {f : α → α'} {g : β → β'} {x : Build α}
    {x' : Build α'} {k : α → Build β} {k' : α' → Build β'} (hx : x' = Build.relocate move f x)
    (h : ∀ a, k' (f a) = Build.relocate move g (k a)) :
    (x' >>= k') = Build.relocate move g (x >>= k) := by
  rw [hx]
  cases x with
  | error e => rfl
  | ok a => exact h a

theorem Build.pure_make {form : Form} (hform : form.relocate move = form) (span : Span)
    (parts : List (List Node)) :
    (pure (.make (span.relocate move) form (parts.map (List.map (place move)))) : Build Node) =
      Build.relocate move (place move) (pure (.make span form parts)) := by
  rw [Build.relocate_pure, place_make, hform]

/-- A statement on its own. -/
theorem Build.pure_singleton {form : Form} (hform : form.relocate move = form) (span : Span)
    (parts : List (List Node)) :
    (pure [.make (span.relocate move) form (parts.map (List.map (place move)))] :
        Build (List Node)) = placeList move (pure [.make span form parts]) := by
  rw [placeList, Build.relocate_pure, List.map_singleton, place_make, hform]

theorem Expr.ofNode_congr {node node' : Build Node}
    (h : node' = Build.relocate move (place move) node) :
    ({ node := node' } : Expr) = Expr.relocate move { node } := by
  rw [h]
  rfl

end

theorem Production.meaning_relocate {r : Rule} (p : Production r) (span : Span)
    (values : Meanings p.symbols) :
    p.meaning (span.relocate move) (values.relocate move) =
      r.relocate move (p.meaning span values) := by
  cases p with
  | file =>
    exact Build.bind_congr (concat_relocate move _) fun body => Build.pure_make rfl span [body]
  | statementIf =>
    refine Build.bind_congr (elifChain_relocate move _ _) fun orelse => ?_
    refine Build.bind_congr rfl fun test => Build.bind_congr rfl fun body => ?_
    exact Build.pure_singleton rfl span [[test], body, orelse]
  | statementWhile =>
    refine Build.bind_congr rfl fun test => Build.bind_congr rfl fun body => ?_
    refine Build.bind_congr rfl fun orelse => ?_
    exact Build.pure_singleton rfl span [[test], body, orelse]
  | statementFor =>
    refine Build.bind_congr rfl fun target => Build.bind_congr rfl fun iterable => ?_
    refine Build.bind_congr rfl fun body => Build.bind_congr rfl fun orelse => ?_
    exact Build.pure_singleton rfl span [[target], [iterable], body, orelse]
  | statementTry =>
    refine Build.bind_congr rfl fun body => ?_
    refine Build.bind_congr (sequence_relocate move _ _) fun handlers => ?_
    refine Build.bind_congr rfl fun orelse => Build.bind_congr rfl fun final => ?_
    exact Build.pure_singleton rfl span [body, handlers, orelse, final]
  | statementWith =>
    obtain ⟨_, first, more, _⟩ := values
    refine Build.bind_congr (sequence_relocate move _ (first.value :: more.value)) fun items => ?_
    refine Build.bind_congr rfl fun body => ?_
    exact Build.pure_singleton rfl span [items, body]
  | statementDefinition =>
    obtain ⟨d, _⟩ := values
    exact Build.bind_congr (Definition.node_relocate move d.value []) fun node => rfl
  | statementDecorated =>
    obtain ⟨first, more, d, _⟩ := values
    refine Build.bind_congr (sequence_relocate move _ (first.value :: more.value)) ?_
    intro decorators
    exact Build.bind_congr (Definition.node_relocate move d.value decorators) fun node => rfl
  | suiteBlock =>
    obtain ⟨_, _, first, more, _⟩ := values
    exact concat_relocate move (first.value :: more.value)
  | simple =>
    obtain ⟨first, more, _⟩ := values
    exact concat_relocate move (first.value :: more.value)
  | smallExpr =>
    obtain ⟨first, ⟨_, rest⟩, _⟩ := values
    cases rest with
    | none => exact Build.bind_congr rfl fun value => Build.pure_singleton rfl span [[value]]
    | plain next more =>
      exact Build.bind_congr (assignChain_relocate move span first.value (next :: more))
        fun node => rfl
    | augmented op value =>
      refine Build.bind_congr rfl fun target => Build.bind_congr rfl fun value => ?_
      exact Build.pure_singleton rfl span [[target], [value]]
  | smallReturn | smallRaise =>
    exact Build.bind_congr (optional_relocate move _) fun value =>
      Build.pure_singleton rfl span [value]
  | smallDel =>
    refine Build.bind_congr rfl fun target => ?_
    exact congrArg (fun n => pure [n]) (deletion_relocate move span target)
  | smallAssert =>
    refine Build.bind_congr rfl fun test => Build.bind_congr (optional_relocate move _) ?_
    intro message
    exact Build.pure_singleton rfl span [[test], message]
  | smallGlobal | smallNonlocal =>
    obtain ⟨_, first, more, _⟩ := values
    exact congrArg (fun n => (.ok [n] : Build (List Node)))
      (declarationOf_relocate move span _ first.value more.value)
  | smallFrom =>
    obtain ⟨_, path, _, members, _⟩ := values
    exact Build.pure_singleton rfl span [members.value]
  | moduleImport =>
    obtain ⟨path, ⟨_, asName⟩, _⟩ := values
    cases asName <;> rfl
  | member =>
    obtain ⟨name, ⟨_, asName⟩, _⟩ := values
    cases asName <;> rfl
  | handler =>
    obtain ⟨_, ⟨_, head⟩, _, body, _⟩ := values
    rcases head with _ | ⟨type, binder⟩
    · refine Build.bind_congr (optional_relocate move none) fun type => ?_
      exact Build.bind_congr rfl fun body => Build.pure_make rfl span [type, [], body]
    · refine Build.bind_congr (optional_relocate move (some type)) fun type => ?_
      refine Build.bind_congr rfl fun body => ?_
      cases binder with
      | none => exact Build.pure_make rfl span [type, [], body]
      | some t =>
        exact Build.pure_make rfl span [type, [.make t.span (.varDef t.text t.span) [[]]], body]
  | withItem =>
    obtain ⟨value, ⟨_, asName⟩, _⟩ := values
    refine Build.bind_congr rfl fun value => ?_
    cases asName <;> rfl
  | decorator =>
    exact Build.bind_congr (sequence_relocate move _ _) fun arguments =>
      Build.pure_make rfl span [arguments]
  | paramPlain =>
    obtain ⟨name, _⟩ := values
    exact Build.bind_congr (optional_relocate move _) fun value =>
      Build.pure_make rfl name.span [value]
  | argumentPlain =>
    obtain ⟨⟨_, identifier, _⟩, ⟨_, value⟩, _⟩ := values
    cases value with
    | none => rfl
    | some value =>
      cases identifier with
      | none => rfl
      | some name => exact Build.bind_congr rfl fun value => Build.pure_make rfl span [[value]]
  | argumentStar | argumentDoubleStar =>
    exact Build.bind_congr rfl fun value => Build.pure_make rfl span [[value]]
  | testlist | exprlist => exact commaList_relocate move span _ _
  | testValue =>
    obtain ⟨value, ⟨_, ternary⟩, _⟩ := values
    rcases ternary with _ | ⟨test, orelse⟩
    · rfl
    · refine Expr.ofNode_congr (Build.bind_congr rfl fun body => ?_)
      refine Build.bind_congr rfl fun test => Build.bind_congr rfl fun orelse => ?_
      exact Build.pure_make rfl span [[body], [test], [orelse]]
  | testLambda =>
    refine Expr.ofNode_congr (Build.bind_congr (sequence_relocate move _ _) fun params => ?_)
    exact Build.bind_congr rfl fun body => Build.pure_make rfl span [params, [body]]
  | orTest | andTest => exact boolChain_relocate move _ span _ _
  | notTestNot | factorSign | factorTilde =>
    exact Expr.ofNode_congr (Build.bind_congr rfl fun operand =>
      Build.pure_make rfl span [[operand]])
  | comparison => exact compareChain_relocate move span _ _
  | bitOr | bitXor | bitAnd | shiftExpr | arith | term => exact binaryChain_relocate move span _ _
  | power =>
    obtain ⟨base, ⟨_, exponent⟩, _⟩ := values
    cases exponent with
    | none => rfl
    | some exponent =>
      refine Expr.ofNode_congr (Build.bind_congr rfl fun left => Build.bind_congr rfl ?_)
      intro right
      exact Build.pure_make rfl span [[left], [right]]
  | primary =>
    obtain ⟨base, ⟨_, trailers⟩, _⟩ := values
    cases trailers with
    | nil => rfl
    | cons trailer trailers =>
      exact Expr.ofNode_congr (Build.bind_congr rfl fun node =>
        trailerChain_relocate move base.span node (trailer :: trailers))
  | subscriptTest =>
    obtain ⟨lower, ⟨_, upper⟩, _⟩ := values
    cases upper with
    | none => rfl
    | some upper => exact slice_relocate move span (some lower.value) upper
  | subscriptColon => exact slice_relocate move span none _
  | atomParen =>
    obtain ⟨_, ⟨_, tail⟩, _⟩ := values
    rcases tail with _ | ⟨first, _ | ⟨next, more⟩⟩
    · exact Expr.ofNode_congr (arrayOf_relocate move span [])
    · rfl
    · exact Expr.ofNode_congr (arrayOf_relocate move span (first :: next :: more))
  | atomList =>
    obtain ⟨_, ⟨_, tail⟩, _⟩ := values
    rcases tail with _ | ⟨first, more | c⟩
    · exact Expr.ofNode_congr (arrayOf_relocate move span [])
    · exact Expr.ofNode_congr (arrayOf_relocate move span (first :: more))
    · exact Expr.ofNode_congr (comprehension_relocate move span first none c)
  | atomDict =>
    obtain ⟨_, ⟨_, tail⟩, _⟩ := values
    rcases tail with _ | ⟨first, more | c⟩
    · exact Expr.ofNode_congr (dictOf_relocate move span [])
    · exact Expr.ofNode_congr (dictOf_relocate move span (first :: more))
    · exact Expr.ofNode_congr (comprehension_relocate move span first.1 (some first.2) c)
  | _ => rfl

/-! ## Trees -/

/-- The meaning of a symbol without what a line end holds, at which no production looks. -/
def Symbol.blank : (s : Symbol) → s.Meaning → s.Meaning
  | .token .newline => fun (t : Token) => { t with text := "" }
  | .token _ => fun t => t
  | .rule _ => fun value => value

def Meanings.blank : {ss : List Symbol} → Meanings ss → Meanings ss
  | [], values => values
  | s :: _, values => (⟨values.1.span, s.blank values.1.value⟩, Meanings.blank values.2)

theorem Production.meaning_blank {r : Rule} (p : Production r) (span : Span)
    (values : Meanings p.symbols) : p.meaning span values.blank = p.meaning span values := by
  cases p <;> rfl

variable {move}

theorem blank_of_moved {t t' : Token} (h : t.Moved move t') {kind : Kind} (hkind : t.kind = kind) :
    Symbol.blank (.token kind) t' = Symbol.blank (.token kind) (t.relocate move) := by
  obtain ⟨_, text', _, _⟩ := t'
  obtain ⟨rfl, rfl, rfl, htext, _⟩ := h
  subst hkind
  by_cases hline : t.kind = .newline
  · obtain ⟨kind, _, _, _⟩ := t
    cases hline
    rfl
  · cases htext hline
    rfl

mutual

/-- Tokens at other places derive the same tree, with the same meaning at other places. -/
theorem Tree.exists_moved {s : Symbol} (tree : Tree s) {tokens : List Token}
    (h : List.Forall₂ (Token.Moved move) tree.tokens tokens) :
    ∃ tree' : Tree s, tree'.tokens = tokens ∧
      tree'.meaning.span = tree.meaning.span.relocate move ∧
      s.blank tree'.meaning.value = s.blank (s.relocate move tree.meaning.value) := by
  match tree with
  | .leaf t fits =>
    cases h with
    | @cons _ t' _ _ ht hrest =>
      cases hrest
      refine ⟨.leaf t' (ht.kind.trans fits), rfl, ?_, blank_of_moved ht fits⟩
      simp only [Tree.meaning, Token.span, ht.start, ht.stop]
      rfl
  | .node p children =>
    obtain ⟨children', htokens, hspan, hvalues⟩ := Forest.exists_moved children h
    refine ⟨.node p children', htokens, hspan, ?_⟩
    calc p.meaning children'.meanings.1 children'.meanings.2
        = p.meaning children'.meanings.1 children'.meanings.2.blank := (p.meaning_blank _ _).symm
      _ = p.meaning (children.meanings.1.relocate move) (children.meanings.2.relocate move) := by
        rw [hspan, hvalues, p.meaning_blank]
      _ = _ := p.meaning_relocate move _ _

theorem Forest.exists_moved {ss : List Symbol} (forest : Forest ss) {tokens : List Token}
    (h : List.Forall₂ (Token.Moved move) forest.tokens tokens) :
    ∃ forest' : Forest ss, forest'.tokens = tokens ∧
      forest'.meanings.1 = forest.meanings.1.relocate move ∧
      forest'.meanings.2.blank = (forest.meanings.2.relocate move).blank := by
  match forest with
  | .nil =>
    cases h
    exact ⟨.nil, rfl, rfl, rfl⟩
  | .cons head tail =>
    have hfirst := List.forall₂_take head.tokens.length h
    have hrest := List.forall₂_drop head.tokens.length h
    rw [Forest.tokens, List.take_left] at hfirst
    rw [Forest.tokens, List.drop_left] at hrest
    obtain ⟨head', hhead, hspan, hvalue⟩ := Tree.exists_moved head hfirst
    obtain ⟨tail', htail, hspans, hvalues⟩ := Forest.exists_moved tail hrest
    refine ⟨.cons head' tail', ?_, ?_, ?_⟩
    · rw [Forest.tokens, hhead, htail, List.take_append_drop]
    · simp only [Forest.meanings, hspan, hspans, Span.relocate_cover]
    · simp only [Forest.meanings, Meanings.blank, Meanings.relocate, hspan, hvalue, hvalues]
      rfl

end

end Grammar
end ScopeLint
