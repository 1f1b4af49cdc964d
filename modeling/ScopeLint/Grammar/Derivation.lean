import ScopeLint.Grammar.Predict

/-!
Derivations: trees whose leaves are tokens and whose inner nodes are productions, so that the type
of a tree says what it derives. `read` finds the derivation of a token list, or the first token that
no derivation can go on with.
-/
namespace ScopeLint.Grammar

mutual

inductive Tree : Symbol → Type where
  | leaf {kind : Kind} (t : Token) (fits : t.kind = kind) : Tree (.token kind)
  | node {r : Rule} (p : Production r) (children : Forest p.symbols) : Tree (.rule r)

inductive Forest : List Symbol → Type where
  | nil : Forest []
  | cons {s : Symbol} {ss : List Symbol} (head : Tree s) (tail : Forest ss) : Forest (s :: ss)

end

mutual

/-- The tokens that a tree derives, in order. -/
def Tree.tokens {s : Symbol} : Tree s → List Token
  | .leaf t _ => [t]
  | .node _ children => children.tokens

def Forest.tokens {ss : List Symbol} : Forest ss → List Token
  | .nil => []
  | .cons head tail => head.tokens ++ tail.tokens

end

/-- The token that cannot be accepted; none stands for the end of the tokens. -/
abbrev Rejection := Option Token

def readForest
    (readRule : (r : Rule) → List Token → Except Rejection (Tree (.rule r) × List Token)) :
    (ss : List Symbol) → List Token → Except Rejection (Forest ss × List Token)
  | [], tokens => .ok (.nil, tokens)
  | .token _ :: _, [] => .error none
  | .token kind :: ss, t :: tokens =>
    if fits : t.kind = kind then do
      let (tail, rest) ← readForest readRule ss tokens
      return (.cons (.leaf t fits) tail, rest)
    else .error (some t)
  | .rule r :: ss, tokens => do
    let (head, rest) ← readRule r tokens
    let (tail, rest) ← readForest readRule ss rest
    return (.cons head tail, rest)

/-- Reads one rule; the fuel bounds how deep productions nest. -/
def readRule : (fuel : Nat) → (r : Rule) → List Token →
    Except Rejection (Tree (.rule r) × List Token)
  | 0, _, tokens => .error tokens.head?
  | fuel + 1, r, tokens =>
    match predict r (tokens.head?.map Token.kind) with
    | none => .error tokens.head?
    | some p => do
      let (children, rest) ← readForest (readRule fuel) p.symbols tokens
      return (.node p children, rest)

/-- No more than this many productions nest without taking a token. -/
def depthPerToken : Nat := 32

/-- The derivation of all the tokens. -/
def read (tokens : List Token) : Except Rejection (Tree (.rule .file)) := do
  let (tree, rest) ← readRule (depthPerToken * (tokens.length + 1)) .file tokens
  match rest with
  | [] => return tree
  | t :: _ => .error (some t)

end ScopeLint.Grammar
