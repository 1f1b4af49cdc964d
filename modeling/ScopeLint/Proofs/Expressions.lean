import ScopeLint.Proofs.WellFormed

/-! # What stands in an expression

An expression holds expressions only, the parameters of a lambda apart. The same is
true of a parameter, which may hold a default, of an augmented assignment and of a
name that is given a value. No statement stands in any of them, and no module in
anything. -/
namespace ScopeLint

namespace Form

/-- The forms of expressions, and of what else stands in the brackets of a call or an index. -/
def isExpression : Form → Bool
  | .name _ | .lambda | .comprehension | .call | .keywordArg _ | .attribute _ | .subscript | .slice
  | .binOp _ | .unaryOp _ | .boolOp _ | .compare _ | .ternary | .array | .dict | .literal _ => true
  | _ => false

def isParam : Form → Bool
  | .param .. => true
  | _ => false

def isModule : Form → Bool
  | .module => true
  | _ => false

/-- The forms inside a module that hold more than expressions. -/
def holdsStatements : Form → Bool
  | .module | .varDef .. => false
  | .assign op => op = "="
  | form => !(form.isExpression || form.isParam)

/-- Whether a node of this form may hold one of that form, as far as expressions and modules go. -/
def admits (form child : Form) : Bool :=
  child.isExpression || (form.isModule || form.holdsStatements) && !child.isModule ||
    decide (form = .lambda) && child.isParam

/-- What holds expressions takes them. -/
theorem admits_expression (form : Form) {child : Form} (h : child.isExpression = true) :
    form.admits child = true := by
  simp [admits, h]

/-- What holds statements takes all that stands inside a module. -/
theorem admits_inner {form child : Form} (hform : (form.isModule || form.holdsStatements) = true)
    (h : child.isModule = false) : form.admits child = true := by
  simp [admits, hform, h]

theorem isModule_of_isExpression {form : Form} (h : form.isExpression = true) :
    form.isModule = false := by
  cases form <;> first | rfl | cases h

theorem isModule_of_holdsStatements {form : Form} (h : form.holdsStatements = true) :
    form.isModule = false := by
  cases form <;> first | rfl | cases h

/-- Nothing holds a module. -/
theorem isModule_of_admits {form child : Form} (h : form.admits child = true) :
    child.isModule = false := by
  cases child <;> simp_all [admits, isExpression, isParam, isModule]

/-- Apart from a lambda, an expression takes nothing else. -/
theorem isExpression_of_admits {form child : Form} (hform : form.isExpression = true)
    (hscope : form.opensScope = false) (h : form.admits child = true) :
    child.isExpression = true := by
  cases form <;> simp_all [admits, holdsStatements, isExpression, isModule, opensScope]

end Form

namespace Node

/-- Every node of the tree holds only what its form admits. -/
inductive Arranged : Node → Prop where
  | mk {id : Nat} {span : Span} {form : Form} {parts : List (List Node)}
    (here : ∀ part ∈ parts, ∀ n ∈ part, form.admits n.form = true)
    (inner : ∀ part ∈ parts, ∀ n ∈ part, Arranged n) : Arranged (.mk id span form parts)

theorem Arranged.admits {n : Node} (h : n.Arranged) {part : List Node} (hpart : part ∈ n.parts)
    {c : Node} (hc : c ∈ part) : n.form.admits c.form = true := by
  cases h with
  | mk here _ => exact here part hpart c hc

theorem Arranged.part {n : Node} (h : n.Arranged) {part : List Node} (hpart : part ∈ n.parts)
    {c : Node} (hc : c ∈ part) : c.Arranged := by
  cases h with
  | mk _ inner => exact inner part hpart c hc

/-! ## Numbering keeps what stands where -/

theorem form_numberFrom (n : Node) (next : Nat) : (n.numberFrom next).1.form = n.form := by
  cases n
  rfl

theorem mem_numberPart {next : Nat} {part : List Node} {c : Node}
    (hc : c ∈ (numberPart next part).1) : ∃ n ∈ part, ∃ k, c = (n.numberFrom k).1 := by
  induction part generalizing next with
  | nil => cases hc
  | cons n rest ih =>
    rcases List.mem_cons.mp hc with rfl | hc
    · exact ⟨n, List.mem_cons_self, next, rfl⟩
    · obtain ⟨m, hm, hnumber⟩ := ih hc
      exact ⟨m, List.mem_cons_of_mem _ hm, hnumber⟩

theorem mem_numberParts {next : Nat} {parts : List (List Node)} {part : List Node}
    (hpart : part ∈ (numberParts next parts).1) {c : Node} (hc : c ∈ part) :
    ∃ old ∈ parts, ∃ n ∈ old, ∃ k, c = (n.numberFrom k).1 := by
  induction parts generalizing next with
  | nil => cases hpart
  | cons first rest ih =>
    rcases List.mem_cons.mp hpart with rfl | hpart
    · exact ⟨first, List.mem_cons_self, mem_numberPart hc⟩
    · obtain ⟨old, hold, hnumber⟩ := ih hpart
      exact ⟨old, List.mem_cons_of_mem _ hold, hnumber⟩

theorem Arranged.numberFrom {n : Node} (h : n.Arranged) (next : Nat) :
    (n.numberFrom next).1.Arranged := by
  induction h generalizing next with
  | mk here _ ih =>
    refine .mk ?_ ?_
    · intro part hpart c hc
      obtain ⟨old, hold, n, hn, k, rfl⟩ := mem_numberParts hpart hc
      rw [form_numberFrom]
      exact here old hold n hn
    · intro part hpart c hc
      obtain ⟨old, hold, n, hn, k, rfl⟩ := mem_numberParts hpart hc
      exact ih old hold n hn k

end Node

end ScopeLint
