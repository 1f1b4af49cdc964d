/-!
Sets of identities, kept as the bits of a number.
-/
namespace ScopeLint

structure IdSet where
  bits : Nat := 0
deriving DecidableEq, Repr, Inhabited

namespace IdSet

def empty : IdSet := {}

def contains (s : IdSet) (id : Nat) : Bool := s.bits.testBit id

def insert (s : IdSet) (id : Nat) : IdSet := ⟨s.bits ||| 1 <<< id⟩

def insertAll (s : IdSet) (ids : List Nat) : IdSet := ids.foldl insert s

@[simp] theorem contains_empty (id : Nat) : empty.contains id = false := by
  simp [empty, contains]

@[simp] theorem contains_insert (s : IdSet) (i j : Nat) :
    (s.insert i).contains j = (s.contains j || decide (i = j)) := by
  simp [insert, contains, Nat.testBit_or, Nat.one_shiftLeft, Nat.testBit_two_pow]

@[simp] theorem contains_insertAll (s : IdSet) (ids : List Nat) (j : Nat) :
    (s.insertAll ids).contains j = (s.contains j || decide (j ∈ ids)) := by
  induction ids generalizing s with
  | nil => simp [insertAll]
  | cons i rest ih =>
    have step : s.insertAll (i :: rest) = (s.insert i).insertAll rest := rfl
    simp [step, ih, Bool.or_assoc, eq_comm]

end IdSet
end ScopeLint
