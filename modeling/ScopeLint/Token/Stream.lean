import ScopeLint.Token

/-!
Token streams. Reading stops at the first fault, and the tokens before it stay.
-/
namespace ScopeLint

inductive Fault where
  /-- No lexeme starts with this character. -/
  | badCharacter (c : Char) (place : Position)
  /-- A line goes back to an indentation that no open block has. -/
  | badDedent (found expected : Nat)
  /-- A closing bracket with no bracket open. -/
  | unmatchedCloser
deriving DecidableEq, Repr

structure Stream where
  tokens : List Token
  fault : Option Fault
deriving DecidableEq, Repr

namespace Stream

def done : Stream := ⟨[], none⟩

def failed (f : Fault) : Stream := ⟨[], some f⟩

def cons (t : Token) (s : Stream) : Stream := { s with tokens := t :: s.tokens }

def prepend (ts : List Token) (s : Stream) : Stream := { s with tokens := ts ++ s.tokens }

end Stream
end ScopeLint
