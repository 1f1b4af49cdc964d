import ScopeLint.Grammar.Derivation

/-! # The reader finds every derivation

The next token decides between the productions of a rule. `starts`, `nullable`
and `ends` say what a phrase of a rule may begin with, whether it may be empty and
what may stand behind it; one check of each production shows that these tables are
closed and that prediction agrees with them. So the reader retraces any tree from
its tokens, and two trees of the same tokens are one.

A set of kinds is a number with one bit for each of them, which makes the checks
cheap to evaluate. -/
namespace ScopeLint.Grammar

/-- A set of kinds. One more bit stands for the end of the tokens. -/
abbrev Ahead := Nat

namespace Ahead

def bit : Option Kind → Nat
  | some kind => kind.ctorIdx
  | none => 63

def has (set : Ahead) (next : Option Kind) : Bool := set.testBit (bit next)

def only (kinds : List Kind) : Ahead :=
  kinds.foldr (fun kind set => 1 <<< bit (some kind) ||| set) 0

def anything : Ahead := (1 <<< 64) - 1

def except (kinds : List Kind) : Ahead := anything ^^^ only kinds

def subset (a b : Ahead) : Bool := a &&& b == a

/-- Everything that may come next. -/
def options : List (Option Kind) := none :: List.map some [
  .name, .number, .string, .longString, .newline, .indent, .dedent, .separator, .emptyStatement,
  .passWord, .breakWord, .continueWord, .returnWord, .raiseWord, .delWord, .assertWord,
  .globalWord, .nonlocalWord, .importWord, .asWord, .fromWord, .ifWord, .elifWord, .elseWord,
  .whileWord, .forWord, .inWord, .tryWord, .exceptWord, .finallyWord, .withWord, .defWord,
  .classWord, .lambdaWord, .orWord, .andWord, .notWord, .isWord, .noneWord, .trueWord, .falseWord,
  .openParen, .closeParen, .openBracket, .closeBracket, .openBrace, .closeBrace, .comma, .dot,
  .colon, .atSign, .assign, .augmented, .relation, .shift, .sign, .star, .doubleStar, .divide,
  .bar, .caret, .ampersand, .tilde]

theorem mem_options (next : Option Kind) : next ∈ options := by
  cases next with
  | none => exact List.mem_cons_self
  | some kind => cases kind <;> decide

@[simp] theorem has_or (a b : Ahead) (next : Option Kind) :
    has (a ||| b) next = (has a next || has b next) := Nat.testBit_or ..

theorem has_of_subset {a b : Ahead} {next : Option Kind} (h : subset a b = true)
    (ha : has a next = true) : has b next = true := by
  have heq : a &&& b = a := by simpa [subset] using h
  unfold has at ha
  rw [← heq, Nat.testBit_and, Bool.and_eq_true] at ha
  exact ha.2

def atom : Ahead := only [.openParen, .openBracket, .openBrace, .name, .number, .string,
  .longString, .noneWord, .trueWord, .falseWord]

/-- The kinds that begin an operand of `bitOr`. -/
def operand : Ahead := atom ||| only [.sign, .tilde]

def test : Ahead := operand ||| only [.notWord, .lambdaWord]

def small : Ahead := test ||| only [.passWord, .breakWord, .continueWord, .returnWord, .raiseWord,
  .delWord, .assertWord, .globalWord, .nonlocalWord, .importWord, .fromWord, .emptyStatement]

def statement : Ahead := small ||| only [.ifWord, .whileWord, .forWord, .tryWord, .withWord,
  .defWord, .classWord, .atSign]

/-- The kinds that go on with an expression, those that hold on to it the tightest first. -/
def continuing : List (List Kind) := [
  [.string, .longString], [.openParen, .openBracket, .dot], [.doubleStar], [.star, .divide],
  [.sign], [.shift], [.ampersand], [.caret], [.bar], [.relation, .inWord, .notWord, .isWord],
  [.andWord], [.orWord], [.ifWord]]

/-- What may stand behind an expression that takes in the first levels of what continues it: a
kind of the other levels, or one that ends every expression. -/
def behind (levels : Nat) : Ahead := only (continuing.drop levels).flatten ||| only [
  .newline, .separator, .comma, .colon, .assign, .augmented, .asWord, .forWord, .elseWord,
  .closeParen, .closeBracket, .closeBrace]

end Ahead

open Ahead in
/-- What a phrase of the rule may begin with. -/
def Rule.starts : Rule → Ahead
  | .file | .lines => only [.newline] ||| Ahead.statement
  | .statement | .statements => Ahead.statement
  | .suite => only [.newline] ||| Ahead.small
  | .simple | .small => Ahead.small
  | .smalls => only [.separator]
  | .assignments => only [.assign, .augmented]
  | .moreAssignments | .optDefault | .optKeyword => only [.assign]
  | .optTestlist | .optTest | .handlerHead | .withItem | .testlist | .test | .optUpper
  | .dictItem => Ahead.test
  | .assertMessage | .moreNames | .moreModuleImports | .moreMembers | .moreWithItems | .moreParams
  | .moreArguments | .moreTests | .moreExprs | .moreDictItems => only [.comma]
  | .moduleImport | .member | .dotted => only [.name]
  | .members => only [.name, .openParen]
  | .optAlias => only [.asWord]
  | .moreDotted => only [.dot]
  | .elifs | .elif => only [.elifWord]
  | .optElse => only [.elseWord]
  | .tryTail => only [.exceptWord, .finallyWord]
  | .handlers | .handler => only [.exceptWord]
  | .optFinally => only [.finallyWord]
  | .decorators | .decorator => only [.atSign]
  | .definition => only [.defWord, .classWord]
  | .optBases => only [.openParen]
  | .optParams | .param => only [.name, .star, .doubleStar]
  | .optArguments | .argument => Ahead.test ||| only [.star, .doubleStar]
  | .optTernary | .optCondition => only [.ifWord]
  | .orTest | .andTest | .notTest => operand ||| only [.notWord]
  | .moreOr => only [.orWord]
  | .moreAnd => only [.andWord]
  | .exprlist | .comparison | .bitOr | .bitXor | .bitAnd | .shiftExpr | .arith | .term
  | .factor => operand
  | .power | .primary | .atom => Ahead.atom
  | .moreCompare | .compareOp => only [.relation, .inWord, .notWord, .isWord]
  | .optNot => only [.notWord]
  | .moreBitOr => only [.bar]
  | .moreBitXor => only [.caret]
  | .moreBitAnd => only [.ampersand]
  | .moreShift => only [.shift]
  | .moreArith => only [.sign]
  | .moreTerm | .mulOp => only [.star, .divide]
  | .optPower => only [.doubleStar]
  | .trailers | .trailer => only [.openParen, .openBracket, .dot]
  | .subscript => Ahead.test ||| only [.colon]
  | .optSlice => only [.colon]
  | .parenTail => Ahead.test ||| only [.closeParen]
  | .listTail => Ahead.test ||| only [.closeBracket]
  | .listRest => only [.comma, .forWord, .closeBracket]
  | .dictTail => Ahead.test ||| only [.closeBrace]
  | .dictRest => only [.comma, .forWord, .closeBrace]
  | .compFor => only [.forWord]
  | .moreStrings => only [.string, .longString]

/-- Whether a phrase of the rule may be empty. -/
def Rule.nullable : Rule → Bool
  | .file | .lines | .statements | .smalls | .assignments | .moreAssignments | .optTestlist
  | .optTest | .assertMessage | .moreNames | .moreModuleImports | .moreMembers | .optAlias
  | .moreDotted | .elifs | .optElse | .handlers | .handlerHead | .optFinally | .moreWithItems
  | .decorators | .optBases | .optParams | .moreParams | .optDefault | .optArguments
  | .moreArguments | .optKeyword | .moreTests | .moreExprs | .optTernary | .moreOr | .moreAnd
  | .moreCompare | .optNot | .moreBitOr | .moreBitXor | .moreBitAnd | .moreShift | .moreArith
  | .moreTerm | .optPower | .trailers | .optUpper | .optSlice | .moreDictItems | .optCondition
  | .moreStrings => true
  | _ => false

open Ahead in
/-- What may stand behind a phrase of the rule. -/
def Rule.ends : Rule → Ahead
  | .file | .lines => 1 <<< bit none
  | .statements => only [.dedent]
  | .statement => except [.elifWord, .elseWord, .exceptWord, .finallyWord]
  | .suite | .simple | .elif | .handler | .decorator | .definition => anything
  | .elifs => except [.elifWord]
  | .optElse => except [.elseWord]
  | .tryTail => except [.elseWord, .exceptWord, .finallyWord]
  | .handlers => except [.exceptWord]
  | .optFinally => except [.finallyWord]
  | .smalls => only [.newline]
  | .small | .assignments | .moreAssignments | .optTestlist | .optTest | .assertMessage
  | .moreNames | .moreModuleImports | .members => only [.newline, .separator]
  | .moduleImport => only [.comma, .newline, .separator]
  | .member => only [.comma, .newline, .separator, .closeParen]
  | .moreMembers => only [.newline, .separator, .closeParen]
  | .optAlias => except [.asWord]
  | .dotted | .moreDotted => except [.dot]
  | .handlerHead | .moreWithItems => only [.colon]
  | .withItem => only [.comma, .colon]
  | .decorators => except [.atSign]
  | .optBases => only [.newline, .colon]
  | .optParams | .moreParams => only [.closeParen, .colon]
  | .param | .optDefault => only [.comma, .closeParen, .colon]
  | .optArguments | .moreArguments => only [.closeParen]
  | .argument | .optKeyword => only [.comma, .closeParen]
  | .testlist => only [.assign, .augmented, .newline, .separator, .colon]
  | .moreTests =>
    only [.assign, .augmented, .newline, .separator, .colon, .closeParen, .closeBracket]
  | .exprlist | .moreExprs => only [.inWord, .newline, .separator]
  | .test | .optTernary | .dictItem | .compFor | .optCondition => behind 13
  | .orTest | .moreOr => behind 12
  | .andTest | .moreAnd => behind 11
  | .notTest | .comparison | .moreCompare => behind 10
  | .compareOp | .optNot => except [.notWord]
  | .bitOr | .moreBitOr => behind 9
  | .bitXor | .moreBitXor => behind 8
  | .bitAnd | .moreBitAnd => behind 7
  | .shiftExpr | .moreShift => behind 6
  | .arith | .moreArith => behind 5
  | .term | .moreTerm => behind 4
  | .factor | .power | .optPower => behind 3
  | .primary | .trailers => behind 2
  | .atom | .moreStrings => behind 1
  | .mulOp | .trailer | .parenTail | .listTail | .listRest | .dictTail | .dictRest => anything
  | .subscript | .optSlice | .optUpper => only [.closeBracket]
  | .moreDictItems => only [.closeBrace]

/-- A bound on how many productions nest in a phrase of the rule without a token beside them. -/
def Rule.rank : Rule → Nat
  | .file => 28
  | .lines | .statements => 27
  | .statement | .suite => 26
  | .simple => 25
  | .small => 24
  | .optTestlist => 23
  | .testlist | .optArguments | .parenTail | .listTail | .dictTail => 22
  | .argument | .optTest | .handlerHead | .withItem | .subscript | .optUpper | .dictItem => 21
  | .exprlist => 21
  | .test => 20
  | .orTest => 19
  | .andTest => 18
  | .notTest => 17
  | .comparison => 16
  | .bitOr => 15
  | .bitXor => 14
  | .bitAnd => 13
  | .shiftExpr => 12
  | .arith => 11
  | .term => 10
  | .factor => 9
  | .power => 8
  | .primary => 7
  | .atom => 6
  | .members | .moduleImport | .optParams | .decorators | .listRest | .dictRest | .elifs
  | .handlers | .tryTail => 5
  | .member | .dotted | .decorator | .definition | .param | .elif | .handler => 4
  | .moreCompare | .moreTerm | .trailers => 3
  | .compareOp | .trailer | .compFor => 2
  | _ => 1

namespace Symbol

def nullable : Symbol → Bool
  | .token _ => false
  | .rule r => r.nullable

def starts : Symbol → Ahead
  | .token kind => Ahead.only [kind]
  | .rule r => r.starts

def rank : Symbol → Nat
  | .token _ => 0
  | .rule r => r.rank

end Symbol

/-- What may come next where a row of symbols begins and what may stand behind it is known. -/
def ahead (ends : Ahead) : List Symbol → Ahead
  | [] => ends
  | s :: ss => if s.nullable then s.starts ||| ahead ends ss else s.starts

/-- Every rule of a row may stand before the rest of the row. -/
def chained (ends : Ahead) : List Symbol → Bool
  | [] => true
  | .token _ :: ss => chained ends ss
  | .rule r :: ss => (ahead ends ss).subset r.ends && chained ends ss

/-- Every rule of a row has a rank below the bound or a neighbour that takes a token. -/
def shallow (bound : Nat) : (spare : Bool) → List Symbol → Bool
  | _, [] => true
  | _, .token _ :: ss => shallow bound true ss
  | spare, .rule r :: ss =>
    (spare || !ss.all Symbol.nullable || r.rank < bound) && shallow bound (spare || !r.nullable) ss

deriving instance DecidableEq for Production

namespace Production

/-- What one production has to satisfy: the next token calls for it wherever it may stand, its
beginnings are beginnings of its rule, and its parts fit together. -/
def deterministic {r : Rule} (p : Production r) : Bool :=
  (Ahead.options.all fun next =>
      !(ahead r.ends p.symbols).has next || predict r next = some p) &&
    (ahead 0 p.symbols).subset r.starts && (!p.symbols.all Symbol.nullable || r.nullable) &&
    chained r.ends p.symbols && shallow r.rank false p.symbols

theorem deterministic_eq_true {r : Rule} (p : Production r) : p.deterministic = true := by
  cases p <;> decide +kernel

section Checked

variable {r : Rule} (p : Production r)

theorem predict_of_ahead {next : Option Kind} (h : (ahead r.ends p.symbols).has next = true) :
    predict r next = some p := by
  have hcheck := p.deterministic_eq_true
  simp only [deterministic, Bool.and_eq_true, List.all_eq_true] at hcheck
  have hnext := hcheck.1.1.1.1 next (Ahead.mem_options next)
  simpa [h] using hnext

theorem starts_of_ahead {next : Option Kind} (h : (ahead 0 p.symbols).has next = true) :
    r.starts.has next = true := by
  have hcheck := p.deterministic_eq_true
  simp only [deterministic, Bool.and_eq_true] at hcheck
  exact Ahead.has_of_subset hcheck.1.1.1.2 h

theorem nullable_of_symbols (h : p.symbols.all Symbol.nullable = true) : r.nullable = true := by
  have hcheck := p.deterministic_eq_true
  simp only [deterministic, Bool.and_eq_true] at hcheck
  simpa [h] using hcheck.1.1.2

theorem chained_symbols : chained r.ends p.symbols = true := by
  have hcheck := p.deterministic_eq_true
  simp only [deterministic, Bool.and_eq_true] at hcheck
  exact hcheck.1.2

theorem shallow_symbols : shallow r.rank false p.symbols = true := by
  have hcheck := p.deterministic_eq_true
  simp only [deterministic, Bool.and_eq_true] at hcheck
  exact hcheck.2

end Checked

end Production

/-! ## What a tree may begin with -/

/-- The kind of the next token. -/
def next (tokens : List Token) : Option Kind := tokens.head?.map Token.kind

/-- What may come next where a row begins is a beginning of the row, or the row may be empty. -/
theorem ahead_cases {ends : Ahead} {next : Option Kind} (ss : List Symbol)
    (h : (ahead ends ss).has next = true) :
    (ahead 0 ss).has next = true ∨ (ss.all Symbol.nullable = true ∧ ends.has next = true) := by
  induction ss with
  | nil => exact .inr ⟨rfl, h⟩
  | cons s ss ih =>
    unfold ahead at h ⊢
    split at h
    · next hs =>
      rw [if_pos hs]
      simp only [Ahead.has_or, Bool.or_eq_true, List.all_cons, hs, Bool.true_and] at h ⊢
      rcases h with h | h
      · exact .inl (.inl h)
      · exact (ih h).imp_left .inr
    · next hs =>
      rw [if_neg hs]
      exact .inl h

mutual

/-- What stands where a tree begins is a beginning of its symbol, or stands behind an empty one. -/
theorem Tree.has_ahead {s : Symbol} (t : Tree s) {ends : Ahead} {rest : List Token}
    (hrest : ends.has (next rest) = true) :
    (ahead ends [s]).has (next (t.tokens ++ rest)) = true := by
  match t with
  | .leaf t fits =>
    subst fits
    simp [ahead, Symbol.nullable, Symbol.starts, Tree.tokens, next, Ahead.only, Ahead.has]
  | .node (r := r) p children =>
    have hchildren := children.has_ahead hrest
    show (if r.nullable then r.starts ||| ends else r.starts).has _ = true
    rcases ahead_cases p.symbols hchildren with h | ⟨hnull, hend⟩
    · have hstarts := p.starts_of_ahead h
      split
      · rw [Ahead.has_or, Bool.or_eq_true]
        exact .inl hstarts
      · exact hstarts
    · rw [if_pos (p.nullable_of_symbols hnull), Ahead.has_or, Bool.or_eq_true]
      exact .inr hend

theorem Forest.has_ahead {ss : List Symbol} (ts : Forest ss) {ends : Ahead} {rest : List Token}
    (hrest : ends.has (next rest) = true) :
    (ahead ends ss).has (next (ts.tokens ++ rest)) = true := by
  match ts with
  | .nil => exact hrest
  | .cons head tail =>
    rw [Forest.tokens, List.append_assoc]
    exact head.has_ahead (tail.has_ahead hrest)

end

mutual

theorem Tree.nullable_of_tokens {s : Symbol} (t : Tree s) (h : t.tokens = []) :
    s.nullable = true := by
  match t with
  | .leaf _ _ => cases h
  | .node p children => exact p.nullable_of_symbols (children.nullable_of_tokens h)

theorem Forest.nullable_of_tokens {ss : List Symbol} (ts : Forest ss) (h : ts.tokens = []) :
    ss.all Symbol.nullable = true := by
  match ts with
  | .nil => rfl
  | .cons head tail =>
    obtain ⟨hhead, htail⟩ := List.append_eq_nil_iff.mp h
    rw [List.all_cons, head.nullable_of_tokens hhead, tail.nullable_of_tokens htail, Bool.and_true]

end

/-! ## How deep a tree is -/

mutual

def Tree.height {s : Symbol} : Tree s → Nat
  | .leaf _ _ => 0
  | .node _ children => children.height + 1

def Forest.height {ss : List Symbol} : Forest ss → Nat
  | .nil => 0
  | .cons head tail => max head.height tail.height

end

theorem Rule.rank_pos (r : Rule) : 0 < r.rank := by
  cases r <;> decide

theorem Rule.rank_lt (r : Rule) : r.rank < depthPerToken := by
  cases r <;> decide

/-- The first rule of a shallow row nests less deep than the whole row, given how many tokens its
phrase, the phrases behind it and those beside the row take. -/
theorem shallow_rule {r : Rule} {ss : List Symbol} {bound spent first others : Nat} {spare : Bool}
    (hss : shallow bound spare (.rule r :: ss) = true) (hspare : spare = true → 0 < spent)
    (hfirst : first = 0 → r.nullable = true)
    (hothers : others = 0 → ss.all Symbol.nullable = true) :
    depthPerToken * first + r.rank < depthPerToken * (spent + first + others) + bound ∧
      shallow bound (spare || !r.nullable) ss = true ∧
      ((spare || !r.nullable) = true → 0 < spent + first) := by
  simp only [shallow, Bool.and_eq_true, Bool.or_eq_true, Bool.not_eq_true',
    decide_eq_true_eq] at hss
  obtain ⟨hdeep, hrest⟩ := hss
  have hrank := r.rank_lt
  refine ⟨?_, hrest, ?_⟩
  · simp only [depthPerToken] at hrank ⊢
    rcases hdeep with (h | h) | h
    · have := hspare h
      omega
    · have hne : others ≠ 0 := by
        intro h0
        rw [hothers h0] at h
        cases h
      omega
    · omega
  · intro h
    rcases Bool.or_eq_true_iff.mp h with h | h
    · have := hspare h
      omega
    · have hne : first ≠ 0 := by
        intro h0
        rw [hfirst h0] at h
        cases h
      omega

mutual

/-- The fuel of the reader suffices: between two tokens productions nest as their ranks allow. -/
theorem Tree.height_le {s : Symbol} (t : Tree s) :
    t.height ≤ depthPerToken * t.tokens.length + s.rank := by
  match t with
  | .leaf _ _ => exact Nat.zero_le _
  | .node (r := r) p children =>
    have hchildren : children.height < depthPerToken * (0 + children.tokens.length) + r.rank :=
      children.height_lt p.shallow_symbols r.rank_pos (by simp)
    rw [Nat.zero_add] at hchildren
    exact hchildren

/-- `spent` counts tokens beside the row; there are some if one is known to be spare. -/
theorem Forest.height_lt {ss : List Symbol} (ts : Forest ss) {bound spent : Nat} {spare : Bool}
    (hss : shallow bound spare ss = true) (hbound : 0 < bound) (hspare : spare = true → 0 < spent) :
    ts.height < depthPerToken * (spent + ts.tokens.length) + bound := by
  match ss, ts with
  | [], .nil =>
    show 0 < _
    omega
  | .token _ :: ss, .cons (.leaf t _) tail =>
    have htail : tail.height < depthPerToken * (spent + 1 + tail.tokens.length) + bound :=
      tail.height_lt hss hbound (by omega)
    simp only [Forest.height, Tree.height, Forest.tokens, Tree.tokens, List.length_append,
      List.length_singleton, Nat.zero_max]
    rwa [← Nat.add_assoc]
  | .rule r :: ss, .cons head tail =>
    obtain ⟨hdeep, hrest, hspare⟩ := shallow_rule hss hspare
      (fun h => head.nullable_of_tokens (List.length_eq_zero_iff.mp h))
      (fun h => tail.nullable_of_tokens (List.length_eq_zero_iff.mp h))
    have hhead := Nat.lt_of_le_of_lt head.height_le hdeep
    have htail := tail.height_lt hrest hbound hspare
    simp only [Forest.height, Forest.tokens, List.length_append]
    rw [← Nat.add_assoc]
    exact Nat.max_lt.mpr ⟨hhead, htail⟩

end

/-! ## Reading -/

theorem bind_eq_ok {ε α β : Type} {x : Except ε α} {f : α → Except ε β} {b : β} :
    (x >>= f) = .ok b ↔ ∃ a, x = .ok a ∧ f a = .ok b := by
  cases x with
  | error e =>
    constructor
    · intro h
      cases h
    · intro h
      obtain ⟨_, h, _⟩ := h
      cases h
  | ok a =>
    constructor
    · exact fun h => ⟨a, rfl, h⟩
    · intro h
      obtain ⟨_, h, hf⟩ := h
      cases h
      exact hf

theorem bind_eq_error {ε α β : Type} {x : Except ε α} {f : α → Except ε β} {e : ε} :
    (x >>= f) = .error e ↔ x = .error e ∨ ∃ a, x = .ok a ∧ f a = .error e := by
  cases x with
  | error e' =>
    constructor
    · intro h
      cases h
      exact .inl rfl
    · intro h
      rcases h with h | ⟨_, h, _⟩
      · cases h
        rfl
      · cases h
  | ok a =>
    constructor
    · exact fun h => .inr ⟨a, rfl, h⟩
    · intro h
      rcases h with h | ⟨_, h, hf⟩
      · cases h
      · cases h
        exact hf

section Reads

variable {readRule : (r : Rule) → List Token → Except Rejection (Tree (.rule r) × List Token)}

/-- A reader of rules that finds every tree up to a height finds every row of such trees. -/
theorem readForest_tokens {height : Nat} {ends : Ahead} {rest : List Token}
    (hread : ∀ {r : Rule} (t : Tree (.rule r)) (rest : List Token), t.height ≤ height →
      r.ends.has (next rest) = true → readRule r (t.tokens ++ rest) = .ok (t, rest))
    (hrest : ends.has (next rest) = true) :
    ∀ {ss : List Symbol} (ts : Forest ss), ts.height ≤ height → chained ends ss = true →
      readForest readRule ss (ts.tokens ++ rest) = .ok (ts, rest)
  | [], .nil, _, _ => rfl
  | .token _ :: _, .cons (.leaf t fits) tail, hheight, hchained => by
    have htail := readForest_tokens hread hrest tail (Nat.le_trans (Nat.le_max_right ..) hheight)
      hchained
    rw [Forest.tokens, Tree.tokens, List.append_assoc, List.singleton_append, readForest,
      dif_pos fits, htail]
    rfl
  | .rule r :: ss, .cons head tail, hheight, hchained => by
    obtain ⟨hsubset, hchained⟩ := Bool.and_eq_true_iff.mp hchained
    have hhead := hread head (tail.tokens ++ rest) (Nat.le_trans (Nat.le_max_left ..) hheight)
      (Ahead.has_of_subset hsubset (tail.has_ahead hrest))
    have htail := readForest_tokens hread hrest tail (Nat.le_trans (Nat.le_max_right ..) hheight)
      hchained
    rw [Forest.tokens, List.append_assoc, readForest, hhead]
    show (readForest readRule ss (tail.tokens ++ rest) >>= fun y => _) = _
    rw [htail]
    rfl

/-- What is read of a row are its first tokens, if each rule is read so. -/
theorem tokens_of_readForest
    (hread : ∀ {r : Rule} {tokens rest : List Token} {t : Tree (.rule r)},
      readRule r tokens = .ok (t, rest) → t.tokens ++ rest = tokens) :
    ∀ {ss : List Symbol} {tokens rest : List Token} {ts : Forest ss},
      readForest readRule ss tokens = .ok (ts, rest) → ts.tokens ++ rest = tokens
  | [], tokens, rest, ts, h => by
    cases h
    rfl
  | .token kind :: ss, [], rest, ts, h => by cases h
  | .token kind :: ss, t :: tokens, rest, ts, h => by
    rw [readForest] at h
    split at h
    · obtain ⟨⟨tail, left⟩, htail, heq⟩ := bind_eq_ok.mp h
      cases heq
      rw [Forest.tokens, Tree.tokens, List.append_assoc, tokens_of_readForest hread htail]
      rfl
    · cases h
  | .rule r :: ss, tokens, rest, ts, h => by
    rw [readForest] at h
    obtain ⟨⟨head, middle⟩, hhead, h⟩ := bind_eq_ok.mp h
    obtain ⟨⟨tail, left⟩, htail, heq⟩ := bind_eq_ok.mp h
    cases heq
    rw [Forest.tokens, List.append_assoc, tokens_of_readForest hread htail, hread hhead]

end Reads

/-- The reader retraces a tree from its tokens, given fuel for its height and behind them a token
that does not go on with it. -/
theorem readRule_tokens {fuel : Nat} {r : Rule} (t : Tree (.rule r)) (rest : List Token)
    (hfuel : t.height ≤ fuel) (hrest : r.ends.has (next rest) = true) :
    readRule fuel r (t.tokens ++ rest) = .ok (t, rest) := by
  induction fuel generalizing r rest with
  | zero =>
    cases t with
    | node p children => cases hfuel
  | succ fuel ih =>
    cases t with
    | node p children =>
      have hpredict : predict r (next (children.tokens ++ rest)) = some p :=
        p.predict_of_ahead (children.has_ahead hrest)
      have hchildren := readForest_tokens (fun t rest => ih t rest) hrest children
        (Nat.le_of_succ_le_succ hfuel) p.chained_symbols
      rw [next] at hpredict
      rw [Tree.tokens, readRule, hpredict]
      show (readForest (readRule fuel) p.symbols (children.tokens ++ rest) >>= fun y => _) = _
      rw [hchildren]
      rfl

theorem tokens_of_readRule {fuel : Nat} {r : Rule} {tokens rest : List Token} {t : Tree (.rule r)}
    (h : readRule fuel r tokens = .ok (t, rest)) : t.tokens ++ rest = tokens := by
  induction fuel generalizing r tokens rest with
  | zero => cases h
  | succ fuel ih =>
    rw [readRule] at h
    split at h
    · cases h
    · next p _ =>
      obtain ⟨⟨children, left⟩, hchildren, heq⟩ := bind_eq_ok.mp h
      cases heq
      exact tokens_of_readForest ih hchildren

/-- The reader accepts exactly the derivable token lists, and answers with their derivation. -/
theorem read_eq_ok_iff {tokens : List Token} {t : Tree (.rule .file)} :
    read tokens = .ok t ↔ t.tokens = tokens := by
  constructor
  · intro h
    obtain ⟨⟨tree, rest⟩, hread, heq⟩ := bind_eq_ok.mp h
    cases rest with
    | nil =>
      cases heq
      rw [← tokens_of_readRule hread, List.append_nil]
    | cons x rest => cases heq
  · intro h
    have hheight : t.height ≤ depthPerToken * (tokens.length + 1) := by
      have hle := t.height_le
      have hrank := Rule.rank_lt .file
      rw [h] at hle
      simp only [Symbol.rank] at hle
      rw [Nat.mul_add, Nat.mul_one]
      omega
    have hread := readRule_tokens t [] hheight (by decide)
    rw [List.append_nil, h] at hread
    rw [read, hread]
    rfl

end ScopeLint.Grammar
