import ScopeLint.Span

/-!
Syntax trees. A node has a form, which holds the words and names it carries, and parts: the lists
of its children, in the order in which they are visited.
-/
namespace ScopeLint

inductive Literal where
  /-- A number or the strings side by side, as written. -/
  | raw (text : String)
  | none
  | bool (value : Bool)
deriving DecidableEq, Repr

inductive Form where
  /-- Parts: body. -/
  | module
  | name (name : String)
  /-- Parts: default. -/
  | param (name star : String)
  /-- Parts: arguments. The name is the first of the dotted path. -/
  | decorator (name : String)
  /-- Parts: decorators, parameters, body. -/
  | functionDef (name : String) (nameSpan : Span)
  /-- Parts: parameters, body. -/
  | lambda
  /-- Parts: decorators, bases, body. -/
  | classDef (name : String) (nameSpan : Span)
  | importedName (name : String) (asName : Option String)
  | importModule (path : List String) (asName : Option String) (asSpan : Option Span)
  /-- Parts: members, which do the binding. -/
  | importMembers (path : List String)
  /-- Parts: target, value. -/
  | assign (op : String)
  /-- Parts: value. -/
  | varDef (name : String) (nameSpan : Span)
  /-- Parts: target, iterable, condition, element, value (of a dictionary entry). -/
  | comprehension
  /-- Parts: target, iterable, body, else body. -/
  | forIn
  /-- Parts: test, body, else body. -/
  | whileLoop
  /-- Parts: test, body, else body. -/
  | ifBranch
  /-- Parts: body, handlers, else body, final body. -/
  | tryBlock
  /-- Parts: type, binder, body. -/
  | handler
  /-- Parts: items, body. -/
  | withBlock
  | empty (marker : String)
  /-- Parts: value. -/
  | exprStmt
  /-- Parts: value. -/
  | returnStmt
  /-- Parts: exception. -/
  | raiseStmt
  /-- Parts: test, message. -/
  | assertStmt
  | declaration (keyword : String) (names : List (String × Span))
  | breakStmt
  | continueStmt
  /-- Parts: targets. -/
  | delStmt
  /-- Parts: function, arguments. -/
  | call
  /-- Parts: value. -/
  | keywordArg (name : String)
  /-- Parts: value. -/
  | attribute (attr : String)
  /-- Parts: value, index. -/
  | subscript
  /-- Parts: lower, upper. -/
  | slice
  /-- Parts: left, right. -/
  | binOp (op : String)
  /-- Parts: operand. -/
  | unaryOp (op : String)
  /-- Parts: values. -/
  | boolOp (op : String)
  /-- Parts: left, the operands after it. -/
  | compare (ops : List String)
  /-- Parts: body, test, else value. -/
  | ternary
  /-- Parts: elements. -/
  | array
  /-- Parts: one for each entry, its key and its value. -/
  | dict
  | literal (value : Literal)
deriving DecidableEq, Repr

/-- The identity tells nodes of one tree apart: two places with the same identity hold the same
node, and a walk visits it once. -/
inductive Node where
  | mk (id : Nat) (span : Span) (form : Form) (parts : List (List Node))

namespace Node

def id : Node → Nat
  | mk id _ _ _ => id

def span : Node → Span
  | mk _ span _ _ => span

def form : Node → Form
  | mk _ _ form _ => form

def parts : Node → List (List Node)
  | mk _ _ _ parts => parts

def children (n : Node) : List Node := n.parts.flatten

/-- A node of a tree that is still being built. -/
def make (span : Span) (form : Form) (parts : List (List Node)) : Node := mk 0 span form parts

instance : Inhabited Node := ⟨make .unknown (.empty "") []⟩

mutual

/-- Gives identities in preorder, from `next` on, and the first one left over. -/
def numberFrom (next : Nat) : Node → Node × Nat
  | mk _ span form parts =>
    let (parts, after) := numberParts (next + 1) parts
    (mk next span form parts, after)

def numberParts (next : Nat) : List (List Node) → List (List Node) × Nat
  | [] => ([], next)
  | part :: parts =>
    let (part, after) := numberPart next part
    let (parts, after) := numberParts after parts
    (part :: parts, after)

def numberPart (next : Nat) : List Node → List Node × Nat
  | [] => ([], next)
  | n :: rest =>
    let (n, after) := numberFrom next n
    let (rest, after) := numberPart after rest
    (n :: rest, after)

end

/-- The tree with every node told apart. -/
def number (n : Node) : Node := (n.numberFrom 0).1

mutual

/-- Every node with its depth, parents before children. -/
def preorder (depth : Nat) : Node → List (Nat × Node)
  | mk id span form parts => (depth, mk id span form parts) :: preorderParts (depth + 1) parts

def preorderParts (depth : Nat) : List (List Node) → List (Nat × Node)
  | [] => []
  | part :: parts => preorderPart depth part ++ preorderParts depth parts

def preorderPart (depth : Nat) : List Node → List (Nat × Node)
  | [] => []
  | n :: rest => preorder depth n ++ preorderPart depth rest

end

end Node
end ScopeLint
