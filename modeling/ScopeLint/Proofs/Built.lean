import ScopeLint.Parse
import ScopeLint.Proofs.Expressions

/-! # Derivations mean well-formed trees

For every rule, `Rule.Sound` says of what the rule means that all nodes in it are
well-formed, that the names they carry stand where tokens of that name stand, and
that expressions hold expressions. Every production keeps this, whatever its symbols
mean, so every derivation of a file means a well-formed module, if it has a meaning
at all. -/
namespace ScopeLint

/-- The names that a form binds or uses, imports and decorators apart, stand where `stands` says.
A form without a place of its own for its name stands there itself. -/
def Form.Named (stands : String → Span → Prop) (span : Span) : Form → Prop
  | .name word | .param word _ => stands word span
  | .functionDef word place | .classDef word place | .varDef word place => stands word place
  | .declaration _ names => ∀ entry ∈ names, stands entry.1 entry.2
  | _ => True

/-- A well-formed tree with all its names at their places. -/
def Node.Sited (stands : String → Span → Prop) : Node → Prop :=
  Node.Each fun span form counts => form.fits counts = true ∧ form.Named stands span

theorem Node.Sited.wellFormed {stands : String → Span → Prop} {n : Node} (h : n.Sited stands) :
    n.WellFormed :=
  wellFormed_iff.mpr (Each.imp h fun _ _ _ h => h.1)

/-- The same inside a module, with expressions where expressions belong. -/
structure Node.Grown (stands : String → Span → Prop) (n : Node) : Prop where
  sited : n.Sited stands
  arranged : n.Arranged
  inner : n.form.isModule = false

end ScopeLint

namespace ScopeLint.Grammar

open Node (Grown)

/-- All of a list. -/
def Every {α : Type} (P : α → Prop) (xs : List α) : Prop := ∀ x ∈ xs, P x

/-- The value, if there is one. -/
def Built {α : Type} (P : α → Prop) (x : Build α) : Prop := ∀ a, x = .ok a → P a

section

variable {α β : Type} {P : α → Prop} {Q : β → Prop}

theorem every_nil : Every P [] := by simp [Every]

theorem every_cons {x : α} {xs : List α} (hx : P x) (hxs : Every P xs) : Every P (x :: xs) := by
  intro y hy
  rcases List.mem_cons.mp hy with rfl | hy
  · exact hx
  · exact hxs y hy

theorem every_singleton {x : α} (hx : P x) : Every P [x] := every_cons hx every_nil

theorem built_pure {a : α} (h : P a) : Built P (pure a) := by
  rintro b ⟨⟩
  exact h

theorem Built.imp {P Q : α → Prop} {x : Build α} (h : Built P x) (hPQ : ∀ a, P a → Q a) :
    Built Q x := fun a ha => hPQ a (h a ha)

theorem Every.imp {P Q : α → Prop} {xs : List α} (h : Every P xs) (hPQ : ∀ a, P a → Q a) :
    Every Q xs := fun a ha => hPQ a (h a ha)

theorem Built.bind {x : Build α} {f : α → Build β} (h : Built P x)
    (hf : ∀ a, P a → Built Q (f a)) : Built Q (x >>= f) := by
  cases x with
  | error span => rintro b ⟨⟩
  | ok a => exact hf a (h a rfl)

theorem built_sequence {xs : List (Build α)} (h : Every (Built P) xs) :
    Built (fun values => Every P values ∧ values.length = xs.length) (sequence xs) := by
  induction xs with
  | nil => exact built_pure ⟨every_nil, rfl⟩
  | cons x xs ih =>
    refine (h x List.mem_cons_self).bind fun value hvalue => ?_
    refine (ih fun y hy => h y (List.mem_cons_of_mem _ hy)).bind fun values hvalues => ?_
    exact built_pure ⟨every_cons hvalue hvalues.1, congrArg (· + 1) hvalues.2⟩

end

/-! ## What rules mean -/

section

variable (stands : String → Span → Prop)

def Operand (n : Node) : Prop := n.Grown stands ∧ n.form.isExpression = true

def Parameter (n : Node) : Prop := n.Grown stands ∧ n.form.isParam = true

def Expr.Sound (e : Expr) : Prop := Built (Operand stands) e.node

def Assignments.Sound : Assignments → Prop
  | .none => True
  | .plain next more => next.Sound stands ∧ Every (Expr.Sound stands) more
  | .augmented _ value => value.Sound stands

/-- The form of a definition takes decorators, parameters or bases, and a body. -/
structure Definition.Sound (d : Definition) : Prop where
  form : ∀ decorators head body, d.form.fits [decorators, head, body] = true
  statements : d.form.holdsStatements = true
  named : d.form.Named stands d.span
  head : Every (Built (Grown stands)) d.head
  body : Built (Every (Grown stands)) d.body

structure TryTail.Sound (t : TryTail) : Prop where
  handlers : Every (Built (Grown stands)) t.handlers
  orelse : Built (Every (Grown stands)) t.orelse
  final : Built (Every (Grown stands)) t.final

def Trailer.Sound : Trailer → Prop
  | .call arguments => Every (Built (Operand stands)) arguments
  | .index inner => Built (Operand stands) inner
  | .attribute _ => True

structure CompFor.Sound (c : CompFor) : Prop where
  target : c.target.Sound stands
  iterable : c.iterable.Sound stands
  condition : ∀ e ∈ c.condition, e.Sound stands

/-- All nodes in what a rule means are well-formed, with their names at their places, and
expressions are expressions. -/
def Rule.Sound : (r : Rule) → r.Meaning → Prop
  | .file => Built fun n => n.Sited stands ∧ n.Arranged ∧ n.form = .module
  | .lines | .statements | .smalls => Every (Built (Every (Grown stands)))
  | .statement | .suite | .simple | .small | .optElse | .optFinally => Built (Every (Grown stands))
  | .assignments => Assignments.Sound stands
  | .moreAssignments | .moreTests | .moreExprs | .moreOr | .moreAnd => Every (Expr.Sound stands)
  | .optTestlist | .optTest | .assertMessage | .optDefault | .optKeyword | .optPower | .optUpper
  | .optCondition => fun o : Option Expr => ∀ e ∈ o, e.Sound stands
  | .moreNames => Every fun t : Token => stands t.text t.span
  | .optAlias => fun o : Option Token => ∀ t ∈ o, stands t.text t.span
  | .dotted | .moreDotted | .compareOp | .optNot | .mulOp | .moreStrings => fun _ => True
  | .moduleImport | .member => Grown stands
  | .moreModuleImports | .moreMembers => Every (Grown stands)
  | .members => fun members : List Node => 0 < members.length ∧ Every (Grown stands) members
  | .elif => fun c : Expr × Build (List Node) => c.1.Sound stands ∧ Built (Every (Grown stands)) c.2
  | .elifs => Every fun c : Located (Expr × Build (List Node)) =>
    c.value.1.Sound stands ∧ Built (Every (Grown stands)) c.value.2
  | .tryTail => TryTail.Sound stands
  | .handlers | .moreWithItems | .decorators => Every (Built (Grown stands))
  | .handler | .withItem | .decorator => Built (Grown stands)
  | .optParams | .moreParams => Every (Built (Parameter stands))
  | .param => Built (Parameter stands)
  | .optBases | .optArguments | .moreArguments => Every (Built (Operand stands))
  | .argument | .subscript => Built (Operand stands)
  | .handlerHead => fun o : Option (Expr × Option Token) =>
    ∀ h ∈ o, h.1.Sound stands ∧ ∀ t ∈ h.2, stands t.text t.span
  | .definition => Definition.Sound stands
  | .testlist | .exprlist | .test | .orTest | .andTest | .notTest | .comparison | .bitOr | .bitXor
  | .bitAnd | .shiftExpr | .arith | .term | .factor | .power | .primary | .atom =>
    Expr.Sound stands
  | .optTernary => fun o : Option (Expr × Expr) => ∀ e ∈ o, e.1.Sound stands ∧ e.2.Sound stands
  | .moreCompare | .moreBitOr | .moreBitXor | .moreBitAnd | .moreShift | .moreArith | .moreTerm =>
    Every fun operand : String × Expr => operand.2.Sound stands
  | .trailers => Every fun t : Located Trailer => t.value.Sound stands
  | .trailer => Trailer.Sound stands
  | .optSlice => fun o : Option (Option Expr) => ∀ upper ∈ o, ∀ e ∈ upper, e.Sound stands
  | .parenTail => fun o : Option (Expr × List Expr) =>
    ∀ tail ∈ o, tail.1.Sound stands ∧ Every (Expr.Sound stands) tail.2
  | .listRest => Sum.elim (Every (Expr.Sound stands)) (CompFor.Sound stands)
  | .listTail => fun o : Option (Expr × (List Expr ⊕ CompFor)) =>
    ∀ tail ∈ o, tail.1.Sound stands ∧
      Sum.elim (Every (Expr.Sound stands)) (CompFor.Sound stands) tail.2
  | .dictItem => fun item : Expr × Expr => item.1.Sound stands ∧ item.2.Sound stands
  | .moreDictItems => Every fun item : Expr × Expr => item.1.Sound stands ∧ item.2.Sound stands
  | .dictRest =>
    Sum.elim (Every fun item => item.1.Sound stands ∧ item.2.Sound stands) (CompFor.Sound stands)
  | .dictTail => fun o : Option ((Expr × Expr) × (List (Expr × Expr) ⊕ CompFor)) =>
    ∀ tail ∈ o, (tail.1.1.Sound stands ∧ tail.1.2.Sound stands) ∧
      Sum.elim (Every fun item => item.1.Sound stands ∧ item.2.Sound stands) (CompFor.Sound stands)
        tail.2
  | .compFor => CompFor.Sound stands

/-- A token that is a name stands at its place. -/
def Symbol.Sound : (s : Symbol) → Located s.Meaning → Prop
  | .token kind => fun t : Located Token =>
    kind = .name → t.span = t.value.span ∧ stands t.value.text t.value.span
  | .rule r => fun m => r.Sound stands m.value

def Meanings.Sound : {ss : List Symbol} → Meanings ss → Prop
  | [], _ => True
  | s :: _, (first, rest) => s.Sound stands first ∧ Meanings.Sound rest

end

variable {stands : String → Span → Prop}

/-! ## The pieces that meanings are made of -/

/-- A name stands where its token is located. -/
theorem stands_name {t : Located Token} (h : Symbol.Sound stands (.token .name) t) :
    stands t.value.text t.span := by
  obtain ⟨hspan, hstands⟩ := h rfl
  rw [hspan]
  exact hstands

theorem built_concat {xs : List (Build (List Node))} (h : Every (Built (Every (Grown stands))) xs) :
    Built (Every (Grown stands)) (concat xs) := by
  refine (built_sequence h).bind fun values hvalues => built_pure ?_
  intro n hn
  obtain ⟨part, hpart, hn⟩ := List.mem_flatten.mp hn
  exact hvalues.1 part hpart n hn

section

variable {span : Span} {form : Form} {parts : List (List Node)}
  (hfits : form.fits (parts.map List.length) = true) (hnamed : form.Named stands span)
include hfits hnamed

/-- A node is well-formed if its parts are, and fit its form. -/
theorem grown_of_admits (hinner : form.isModule = false)
    (hadmits : Every (Every fun n => form.admits n.form = true) parts)
    (hparts : Every (Every (Grown stands)) parts) : (Node.make span form parts).Grown stands :=
  ⟨.mk ⟨hfits, hnamed⟩ fun part hpart n hn => (hparts part hpart n hn).sited,
    .mk hadmits fun part hpart n hn => (hparts part hpart n hn).arranged, hinner⟩

theorem grown_statement (hform : form.holdsStatements = true)
    (hparts : Every (Every (Grown stands)) parts) : (Node.make span form parts).Grown stands := by
  refine grown_of_admits hfits hnamed (Form.isModule_of_holdsStatements hform) ?_ hparts
  exact fun part hpart n hn =>
    Form.admits_inner (Bool.or_eq_true_iff.mpr (.inr hform)) (hparts part hpart n hn).inner

/-- Expressions may stand everywhere. -/
theorem grown_operands (hinner : form.isModule = false)
    (hparts : Every (Every (Operand stands)) parts) : (Node.make span form parts).Grown stands :=
  grown_of_admits hfits hnamed hinner
    (fun part hpart n hn => form.admits_expression (hparts part hpart n hn).2)
    (fun part hpart n hn => (hparts part hpart n hn).1)

theorem operand_make (hform : form.isExpression = true)
    (hparts : Every (Every (Operand stands)) parts) : Operand stands (.make span form parts) :=
  ⟨grown_operands hfits hnamed (Form.isModule_of_isExpression hform) hparts, hform⟩

end

theorem built_nodes {es : List Expr} (h : Every (Expr.Sound stands) es) :
    Built (fun ns => Every (Operand stands) ns ∧ ns.length = es.length) (nodes es) := by
  have hnodes : Every (Built (Operand stands)) (es.map Expr.node) := by
    intro x hx
    obtain ⟨e, he, rfl⟩ := List.mem_map.mp hx
    exact h e he
  have hsequence := built_sequence hnodes
  rwa [List.length_map] at hsequence

theorem built_optional {o : Option Expr} (h : ∀ e ∈ o, e.Sound stands) :
    Built (fun ns => Every (Operand stands) ns ∧ ns.length ≤ 1) (optional o) := by
  cases o with
  | none => exact built_pure ⟨every_nil, Nat.zero_le 1⟩
  | some e => exact (h e rfl).bind fun n hn => built_pure ⟨every_singleton hn, Nat.le_refl 1⟩

theorem sound_plain {span : Span} {form : Form} (h : form.fits [] = true)
    (hnamed : form.Named stands span) (hform : form.isExpression = true) :
    (Expr.plain span form).Sound stands :=
  built_pure (operand_make h hnamed hform every_nil)

theorem built_arrayOf {span : Span} {es : List Expr} (h : Every (Expr.Sound stands) es) :
    Built (Operand stands) (arrayOf span es) :=
  (built_nodes h).bind fun _ hns =>
    built_pure (operand_make rfl trivial rfl (every_singleton hns.1))

theorem sound_commaList {span : Span} {first : Expr} {more : List Expr}
    (hfirst : first.Sound stands) (hmore : Every (Expr.Sound stands) more) :
    (commaList span first more).Sound stands := by
  unfold commaList
  split
  · exact hfirst
  · exact built_arrayOf (every_cons hfirst hmore)

theorem sound_boolChain {op : String} {span : Span} {first : Expr} {more : List Expr}
    (hfirst : first.Sound stands) (hmore : Every (Expr.Sound stands) more) :
    (boolChain op span first more).Sound stands := by
  unfold boolChain
  split
  · exact hfirst
  · refine (built_nodes (every_cons hfirst hmore)).bind fun ns hns => ?_
    exact built_pure (operand_make rfl trivial rfl (every_singleton hns.1))

theorem operand_binOp {span : Span} {op : String} {left right : Node} (hleft : Operand stands left)
    (hright : Operand stands right) : Operand stands (.make span (.binOp op) [[left], [right]]) :=
  operand_make rfl trivial rfl
    (every_cons (every_singleton hleft) (every_singleton (every_singleton hright)))

theorem built_binaryFrom {span : Span} {left : Node} {more : List (String × Expr)}
    (hleft : Operand stands left) (hmore : Every (fun operand => operand.2.Sound stands) more) :
    Built (Operand stands) (binaryFrom span left more) := by
  induction more generalizing left with
  | nil => exact built_pure hleft
  | cons operand more ih =>
    refine (hmore operand List.mem_cons_self).bind fun right hright => ?_
    exact ih (operand_binOp hleft hright) fun x hx => hmore x (List.mem_cons_of_mem _ hx)

theorem sound_binaryChain {span : Span} {first : Expr} {more : List (String × Expr)}
    (hfirst : first.Sound stands) (hmore : Every (fun operand => operand.2.Sound stands) more) :
    (binaryChain span first more).Sound stands := by
  unfold binaryChain
  split
  · exact hfirst
  · exact hfirst.bind fun left hleft => built_binaryFrom hleft hmore

theorem sound_compareChain {span : Span} {first : Expr} {more : List (String × Expr)}
    (hfirst : first.Sound stands) (hmore : Every (fun operand => operand.2.Sound stands) more) :
    (compareChain span first more).Sound stands := by
  unfold compareChain
  split
  · exact hfirst
  · have hoperands : Every (Expr.Sound stands) (more.map Prod.snd) := by
      intro e he
      obtain ⟨operand, hoperand, rfl⟩ := List.mem_map.mp he
      exact hmore operand hoperand
    refine hfirst.bind fun left hleft => (built_nodes hoperands).bind fun ns hns => ?_
    have hcount : ns.length = (more.map Prod.fst).length := by
      rw [hns.2, List.length_map, List.length_map]
    exact built_pure (operand_make (decide_eq_true hcount) trivial rfl
      (every_cons (every_singleton hleft) (every_singleton hns.1)))

theorem built_assignChain {span : Span} {first : Expr} {more : List Expr}
    (hfirst : first.Sound stands) (hmore : Every (Expr.Sound stands) more) :
    Built (Grown stands) (assignChain span first more) := by
  induction more generalizing first with
  | nil => exact Built.imp hfirst fun _ hn => hn.1
  | cons next more ih =>
    refine (ih (hmore next List.mem_cons_self) fun x hx => hmore x (List.mem_cons_of_mem _ hx)).bind
      fun value hvalue => hfirst.bind fun target htarget => built_pure ?_
    exact grown_statement rfl trivial rfl
      (every_cons (every_singleton htarget.1) (every_singleton (every_singleton hvalue)))

theorem built_branch {span : Span} {test : Expr} {body orelse : Build (List Node)}
    (htest : test.Sound stands) (hbody : Built (Every (Grown stands)) body)
    (horelse : Built (Every (Grown stands)) orelse) :
    Built (Every (Grown stands)) (do
      let orelse ← orelse
      let test ← test.node
      let body ← body
      return [.make span .ifBranch [[test], body, orelse]]) := by
  refine horelse.bind fun orelse ho => htest.bind fun test ht => hbody.bind fun body hb => ?_
  exact built_pure (every_singleton (grown_statement rfl trivial rfl
    (every_cons (every_singleton ht.1) (every_cons hb (every_singleton ho)))))

theorem built_elifChain {orelse : Build (List Node)}
    {clauses : List (Located (Expr × Build (List Node)))}
    (horelse : Built (Every (Grown stands)) orelse)
    (hclauses : Every
      (fun c => c.value.1.Sound stands ∧ Built (Every (Grown stands)) c.value.2) clauses) :
    Built (Every (Grown stands)) (elifChain orelse clauses) := by
  induction clauses with
  | nil => exact horelse
  | cons clause more ih =>
    obtain ⟨htest, hbody⟩ := hclauses clause List.mem_cons_self
    exact built_branch htest hbody (ih fun c hc => hclauses c (List.mem_cons_of_mem _ hc))

theorem built_trailerChain {start : Span} {node : Node} {trailers : List (Located Trailer)}
    (hnode : Operand stands node) (htrailers : Every (fun t => t.value.Sound stands) trailers) :
    Built (Operand stands) (trailerChain start node trailers) := by
  induction trailers generalizing node with
  | nil => exact built_pure hnode
  | cons trailer more ih =>
    have hmore : ∀ applied : Node, Operand stands applied →
        Built (Operand stands) (trailerChain start applied more) :=
      fun _ happlied => ih happlied fun t ht => htrailers t (List.mem_cons_of_mem _ ht)
    have htrailer := htrailers trailer List.mem_cons_self
    obtain ⟨place, arguments | inner | name⟩ := trailer
    · refine (built_sequence htrailer).bind fun ns hns => hmore _ ?_
      exact operand_make rfl trivial rfl
        (every_cons (every_singleton hnode) (every_singleton hns.1))
    · refine Built.bind htrailer fun n hn => hmore _ ?_
      exact operand_make rfl trivial rfl
        (every_cons (every_singleton hnode) (every_singleton (every_singleton hn)))
    · exact hmore _ (operand_make rfl trivial rfl (every_singleton (every_singleton hnode)))

theorem built_comprehension {span : Span} {element : Expr} {value : Option Expr} {c : CompFor}
    (helement : element.Sound stands) (hvalue : ∀ e ∈ value, e.Sound stands) (hc : c.Sound stands) :
    Built (Operand stands) (comprehension span element value c) := by
  refine helement.bind fun element he => (built_optional hvalue).bind fun value hv => ?_
  refine hc.target.bind fun target ht => hc.iterable.bind fun iterable hi => ?_
  refine (built_optional hc.condition).bind fun condition hcond => built_pure ?_
  refine operand_make
    (Bool.and_eq_true_iff.mpr ⟨decide_eq_true hcond.2, decide_eq_true hv.2⟩) trivial rfl ?_
  exact every_cons (every_singleton ht) (every_cons (every_singleton hi)
    (every_cons hcond.1 (every_cons (every_singleton he) (every_singleton hv.1))))

theorem built_dictOf {span : Span} {items : List (Expr × Expr)}
    (h : Every (fun item => item.1.Sound stands ∧ item.2.Sound stands) items) :
    Built (Operand stands) (dictOf span items) := by
  have hkeys : Every (Expr.Sound stands) (items.map Prod.fst) := by
    intro e he
    obtain ⟨item, hitem, rfl⟩ := List.mem_map.mp he
    exact (h item hitem).1
  have hvalues : Every (Expr.Sound stands) (items.map Prod.snd) := by
    intro e he
    obtain ⟨item, hitem, rfl⟩ := List.mem_map.mp he
    exact (h item hitem).2
  refine (built_nodes hkeys).bind fun keys hk => (built_nodes hvalues).bind fun values hv => ?_
  refine built_pure (operand_make ?_ trivial rfl ?_)
  · show List.all (List.map List.length _) (· = 2) = true
    simp
  · intro part hpart
    obtain ⟨⟨key, value⟩, hmem, rfl⟩ := List.mem_map.mp hpart
    obtain ⟨hkey, hvalue⟩ := List.of_mem_zip hmem
    exact every_cons (hk.1 key hkey) (every_singleton (hv.1 value hvalue))

theorem Definition.Sound.node {d : Definition} (h : d.Sound stands) {decorators : List Node}
    (hdecorators : Every (Grown stands) decorators) : Built (Grown stands) (d.node decorators) := by
  refine (built_sequence h.head).bind fun head hhead => h.body.bind fun body hbody => ?_
  exact built_pure (grown_statement (h.form _ _ _) h.named h.statements
    (every_cons hdecorators (every_cons hhead.1 (every_singleton hbody))))

theorem grown_deletion {span : Span} {target : Node} (h : target.Grown stands) :
    (deletion span target).Grown stands := by
  refine grown_statement rfl trivial rfl (every_singleton ?_)
  split
  · intro c hc
    obtain ⟨part, hpart, hmem⟩ := List.mem_flatten.mp hc
    exact ⟨h.sited.children hc, h.arranged.part hpart hmem,
      Form.isModule_of_admits (h.arranged.admits hpart hmem)⟩
  · exact every_singleton h

theorem grown_declarationOf {span : Span} {keyword : String} {first : Token} {more : List Token}
    (hfirst : stands first.text first.span)
    (hmore : Every (fun t : Token => stands t.text t.span) more) :
    (declarationOf span keyword first more).Grown stands := by
  refine grown_operands rfl ?_ rfl every_nil
  intro entry hentry
  obtain ⟨t, ht, rfl⟩ := List.mem_map.mp hentry
  rcases List.mem_cons.mp ht with rfl | ht
  · exact hfirst
  · exact hmore t ht

/-- The name that a handler gives to what it catches. -/
theorem grown_binders {binder : Option Token} (h : ∀ t ∈ binder, stands t.text t.span) :
    Every (Grown stands)
        (binder.toList.map fun t => Node.make t.span (.varDef t.text t.span) [[]]) ∧
      (binder.toList.map fun t => Node.make t.span (.varDef t.text t.span) [[]]).length ≤ 1 := by
  cases binder with
  | none => exact ⟨every_nil, Nat.zero_le 1⟩
  | some t =>
    refine ⟨every_singleton (grown_operands rfl (h t rfl) rfl ?_), Nat.le_refl 1⟩
    exact every_singleton every_nil

/-- A lambda holds parameters besides its body. -/
theorem operand_lambda {span : Span} {params : List Node} {body : Node}
    (hparams : Every (Parameter stands) params) (hbody : Operand stands body) :
    Operand stands (.make span .lambda [params, [body]]) := by
  refine ⟨grown_of_admits rfl trivial rfl ?_ ?_, rfl⟩
  · refine every_cons (hparams.imp fun n hn => ?_) (every_singleton (every_singleton ?_))
    · simp [Form.admits, hn.2]
    · exact Form.lambda.admits_expression hbody.2
  · exact every_cons (hparams.imp fun _ hn => hn.1)
      (every_singleton (every_singleton hbody.1))

theorem built_slice {span : Span} {lower upper : Option Expr} (hlower : ∀ e ∈ lower, e.Sound stands)
    (hupper : ∀ e ∈ upper, e.Sound stands) : Built (Operand stands) (slice span lower upper) := by
  refine (built_optional hlower).bind fun lower hl => ?_
  refine (built_optional hupper).bind fun upper hu => ?_
  refine built_pure (operand_make
    (Bool.and_eq_true_iff.mpr ⟨decide_eq_true hl.2, decide_eq_true hu.2⟩) trivial rfl ?_)
  exact every_cons hl.1 (every_singleton hu.1)

/-! ## Productions -/

/-- A production keeps soundness, from the meanings of its symbols to its own. -/
theorem Production.sound_meaning {r : Rule} (p : Production r) (span : Span)
    (ms : Meanings p.symbols) (h : ms.Sound stands) : r.Sound stands (p.meaning span ms) := by
  cases p with
  -- nothing there
  | linesEnd | statementsEnd | smallsEnd | moreAssignmentsEnd | moreModuleImportsEnd
  | moreMembersEnd | elifsEnd | handlersEnd | moreWithItemsEnd | decoratorsEnd | optBasesNone
  | optParamsNone | moreParamsEnd | optArgumentsNone | moreArgumentsEnd | moreTestsEnd
  | moreExprsEnd | moreNamesEnd | moreOrEnd | moreAndEnd | moreCompareEnd | moreBitOrEnd
  | moreBitXorEnd | moreBitAndEnd | moreShiftEnd | moreArithEnd | moreTermEnd | trailersEnd
  | moreDictItemsEnd =>
    exact every_nil
  | optTestlistNone | optTestNone | assertMessageNone | handlerHeadNone | optDefaultNone
  | optKeywordNone | optAliasNone | optTernaryNone | optPowerNone | optSliceNone | optUpperNone
  | parenTailEmpty | listTailEmpty | dictTailEmpty | optConditionNone =>
    rintro _ ⟨⟩
  | optElseNone | optFinallyNone => exact built_pure every_nil
  | assignmentsNone | dotted | moreDottedEnd | moreDottedMore | compareOpRelation | compareOpIn
  | compareOpNotIn | compareOpIs | optNotNone | optNotSome | mulOpStar | mulOpDivide
  | moreStringsEnd | moreStringsShort | moreStringsLong => trivial
  -- what a symbol means, as it is
  | statementSimple | suiteInline | notTestComparison | factorPower =>
    obtain ⟨hvalue, _⟩ := h
    exact hvalue
  | linesBlank | optBasesSome =>
    obtain ⟨_, hvalue, _⟩ := h
    exact hvalue
  | optElseSome | optFinallySome =>
    obtain ⟨_, _, hvalue, _⟩ := h
    exact hvalue
  | optTestlistSome | optTestSome | optUpperSome =>
    obtain ⟨hvalue, _⟩ := h
    rintro _ ⟨⟩
    exact hvalue
  | assertMessageSome | optDefaultSome | optKeywordSome | optPowerSome | optSliceSome
  | optConditionSome =>
    obtain ⟨_, hvalue, _⟩ := h
    rintro _ ⟨⟩
    exact hvalue
  -- lists
  | linesMore | statementsMore | elifsMore | handlersMore | decoratorsMore | trailersMore
  | optParamsSome | optArgumentsSome =>
    obtain ⟨hfirst, hmore, _⟩ := h
    exact every_cons hfirst hmore
  | moreNamesMore =>
    obtain ⟨_, hfirst, hmore, _⟩ := h
    exact every_cons (hfirst rfl).2 hmore
  | optAliasSome =>
    obtain ⟨_, hname, _⟩ := h
    rintro _ ⟨⟩
    exact (hname rfl).2
  | smallsMore | moreAssignmentsMore | moreModuleImportsMore | moreMembersMore | moreWithItemsMore
  | moreParamsMore | moreArgumentsMore | moreTestsMore | moreExprsMore | moreOrMore | moreAndMore
  | moreCompareMore | moreBitOrMore | moreBitXorMore | moreBitAndMore | moreShiftMore
  | moreArithMore | moreTermMore | moreDictItemsMore =>
    obtain ⟨_, hfirst, hmore, _⟩ := h
    exact every_cons hfirst hmore
  | simple =>
    obtain ⟨hfirst, hmore, _⟩ := h
    exact built_concat (every_cons hfirst hmore)
  | suiteBlock =>
    obtain ⟨_, _, hfirst, hmore, _⟩ := h
    exact built_concat (every_cons hfirst hmore)
  -- statements
  | file =>
    obtain ⟨hlines, _⟩ := h
    refine (built_concat hlines).bind fun body hbody => built_pure ⟨?_, ?_, rfl⟩
    · exact .mk ⟨rfl, trivial⟩ (every_singleton fun n hn => (hbody n hn).sited)
    · exact .mk (every_singleton fun n hn => Form.admits_inner rfl (hbody n hn).inner)
        (every_singleton fun n hn => (hbody n hn).arranged)
  | statementIf =>
    obtain ⟨_, htest, _, hbody, helifs, horelse, _⟩ := h
    exact built_branch htest hbody (built_elifChain horelse helifs)
  | statementWhile =>
    obtain ⟨_, htest, _, hbody, horelse, _⟩ := h
    refine Built.bind htest fun test ht => Built.bind hbody fun body hb => ?_
    refine Built.bind horelse fun orelse ho => ?_
    refine built_pure (every_singleton (grown_statement rfl trivial rfl ?_))
    exact every_cons (every_singleton ht.1) (every_cons hb (every_singleton ho))
  | statementFor =>
    obtain ⟨_, htarget, _, hiterable, _, hbody, horelse, _⟩ := h
    refine Built.bind htarget fun target ht => Built.bind hiterable fun iterable hi => ?_
    refine Built.bind hbody fun body hb => Built.bind horelse fun orelse ho => ?_
    refine built_pure (every_singleton (grown_statement rfl trivial rfl ?_))
    exact every_cons (every_singleton ht.1)
      (every_cons (every_singleton hi.1) (every_cons hb (every_singleton ho)))
  | statementTry =>
    obtain ⟨_, _, hbody, htail, _⟩ := h
    refine Built.bind hbody fun body hb => ?_
    refine (built_sequence htail.handlers).bind fun handlers hh => ?_
    refine htail.orelse.bind fun orelse ho => htail.final.bind fun final hf => ?_
    refine built_pure (every_singleton (grown_statement rfl trivial rfl ?_))
    exact every_cons hb (every_cons hh.1 (every_cons ho (every_singleton hf)))
  | statementWith =>
    obtain ⟨_, hfirst, hmore, _, hbody, _⟩ := h
    refine (built_sequence (every_cons hfirst hmore)).bind fun items hi => ?_
    have hcount : 0 < items.length := hi.2 ▸ Nat.succ_pos _
    refine Built.bind hbody fun body hb => built_pure (every_singleton ?_)
    exact grown_statement (decide_eq_true hcount) trivial rfl
      (every_cons hi.1 (every_singleton hb))
  | statementDefinition =>
    obtain ⟨hdefinition, _⟩ := h
    exact (Definition.Sound.node hdefinition every_nil).bind fun n hn =>
      built_pure (every_singleton hn)
  | statementDecorated =>
    obtain ⟨hfirst, hmore, hdefinition, _⟩ := h
    refine (built_sequence (every_cons hfirst hmore)).bind fun decorators hd => ?_
    exact (Definition.Sound.node hdefinition hd.1).bind fun n hn =>
      built_pure (every_singleton hn)
  | smallExpr =>
    obtain ⟨hfirst, hrest, _⟩ := h
    obtain ⟨first, ⟨place, rest⟩, _⟩ := ms
    cases rest with
    | none =>
      exact Built.bind hfirst fun n hn => built_pure (every_singleton (grown_operands rfl
        trivial rfl (every_singleton (every_singleton hn))))
    | plain next more =>
      exact (built_assignChain hfirst (every_cons hrest.1 hrest.2)).bind fun n hn =>
        built_pure (every_singleton hn)
    | augmented op value =>
      refine Built.bind hfirst fun target ht => Built.bind hrest fun value hv => ?_
      exact built_pure (every_singleton (grown_operands rfl trivial rfl
        (every_cons (every_singleton ht) (every_singleton (every_singleton hv)))))
  | smallPass | smallBreak | smallContinue | smallEmpty =>
    exact built_pure (every_singleton (grown_operands rfl trivial rfl every_nil))
  | smallReturn | smallRaise =>
    obtain ⟨_, hvalue, _⟩ := h
    refine (built_optional hvalue).bind fun value hv => built_pure (every_singleton ?_)
    exact grown_operands (decide_eq_true hv.2) trivial rfl (every_singleton hv.1)
  | smallDel =>
    obtain ⟨_, htarget, _⟩ := h
    exact Built.bind htarget fun target ht =>
      built_pure (every_singleton (grown_deletion ht.1))
  | smallAssert =>
    obtain ⟨_, htest, hmessage, _⟩ := h
    refine Built.bind htest fun test ht => (built_optional hmessage).bind fun message hm => ?_
    refine built_pure (every_singleton (grown_operands (decide_eq_true hm.2) trivial rfl ?_))
    exact every_cons (every_singleton ht) (every_singleton hm.1)
  | smallGlobal | smallNonlocal =>
    obtain ⟨_, hfirst, hmore, _⟩ := h
    exact built_pure (every_singleton (grown_declarationOf (hfirst rfl).2 hmore))
  | smallImport =>
    obtain ⟨_, hfirst, hmore, _⟩ := h
    exact built_pure (every_cons hfirst hmore)
  | smallFrom =>
    obtain ⟨_, _, _, ⟨hcount, hmembers⟩, _⟩ := h
    exact built_pure (every_singleton (grown_statement (decide_eq_true hcount) trivial
      rfl (every_singleton hmembers)))
  | assignmentsPlain =>
    obtain ⟨_, hnext, hmore, _⟩ := h
    exact ⟨hnext, hmore⟩
  | assignmentsAugmented =>
    obtain ⟨_, hvalue, _⟩ := h
    exact hvalue
  | moduleImport | member => exact grown_operands rfl trivial rfl every_nil
  | membersBare =>
    obtain ⟨hfirst, hmore, _⟩ := h
    exact ⟨Nat.succ_pos _, every_cons hfirst hmore⟩
  | membersParen =>
    obtain ⟨_, hfirst, hmore, _⟩ := h
    exact ⟨Nat.succ_pos _, every_cons hfirst hmore⟩
  | elif =>
    obtain ⟨_, htest, _, hbody, _⟩ := h
    exact ⟨htest, hbody⟩
  | tryTailFinally =>
    obtain ⟨_, _, hbody, _⟩ := h
    exact ⟨every_nil, built_pure every_nil, hbody⟩
  | tryTailHandlers =>
    obtain ⟨hfirst, hmore, horelse, hfinal, _⟩ := h
    exact ⟨every_cons hfirst hmore, horelse, hfinal⟩
  | handler =>
    obtain ⟨_, hhead, _, hbody, _⟩ := h
    obtain ⟨_, ⟨_, head⟩, _, body, _⟩ := ms
    have htype : ∀ e ∈ Option.map Prod.fst head, e.Sound stands := by
      intro e he
      obtain ⟨clause, hclause, rfl⟩ := Option.map_eq_some_iff.mp he
      exact (hhead clause hclause).1
    refine (built_optional htype).bind fun type ht => Built.bind hbody fun body hb => ?_
    have hbinder : ∀ t ∈ Option.bind head Prod.snd, stands t.text t.span := by
      intro t ht
      obtain ⟨clause, hclause, ht⟩ := Option.bind_eq_some_iff.mp ht
      exact (hhead clause hclause).2 t ht
    obtain ⟨hbinders, hcount⟩ := grown_binders hbinder
    refine built_pure (grown_statement
      (Bool.and_eq_true_iff.mpr ⟨decide_eq_true ht.2, decide_eq_true hcount⟩) trivial
      rfl ?_)
    exact every_cons (ht.1.imp fun _ hn => hn.1) (every_cons hbinders (every_singleton hb))
  | handlerHeadSome =>
    obtain ⟨htype, hbinder, _⟩ := h
    rintro _ ⟨⟩
    exact ⟨htype, hbinder⟩
  | withItem =>
    obtain ⟨hvalue, hbinder, _⟩ := h
    obtain ⟨value, ⟨place, asName⟩, _⟩ := ms
    refine Built.bind hvalue fun n hn => ?_
    cases asName with
    | none => exact built_pure hn.1
    | some t =>
      exact built_pure
        (grown_operands rfl (hbinder t rfl) rfl (every_singleton (every_singleton hn)))
  | decorator =>
    obtain ⟨_, _, harguments, _⟩ := h
    exact (built_sequence harguments).bind fun ns hns =>
      built_pure (grown_operands rfl trivial rfl (every_singleton hns.1))
  | definitionFunction =>
    obtain ⟨_, hname, _, hparams, _, _, hbody, _⟩ := h
    have hhead := Every.imp hparams fun _ hparam => hparam.imp fun _ hn => hn.1
    exact ⟨fun _ _ _ => rfl, rfl, stands_name hname, hhead, hbody⟩
  | definitionClass =>
    obtain ⟨_, hname, hbases, _, hbody, _⟩ := h
    have hhead := Every.imp hbases fun _ hbase => hbase.imp fun _ hn => hn.1
    exact ⟨fun _ _ _ => rfl, rfl, stands_name hname, hhead, hbody⟩
  | paramPlain =>
    obtain ⟨hname, hdefault, _⟩ := h
    exact (built_optional hdefault).bind fun ns hns => built_pure ⟨grown_operands
      (decide_eq_true hns.2) (stands_name hname) rfl (every_singleton hns.1), rfl⟩
  | paramStar | paramDoubleStar =>
    obtain ⟨_, hname, _⟩ := h
    exact built_pure ⟨grown_operands rfl (stands_name hname) rfl (every_singleton every_nil), rfl⟩
  | argumentPlain =>
    obtain ⟨hkey, hvalue, _⟩ := h
    obtain ⟨⟨place, identifier, node⟩, ⟨_, value⟩, _⟩ := ms
    cases value with
    | none => exact hkey
    | some value =>
      cases identifier with
      | none => rintro _ ⟨⟩
      | some name =>
        exact Built.bind (hvalue value rfl) fun n hn =>
          built_pure (operand_make rfl trivial rfl (every_singleton (every_singleton hn)))
  -- expressions
  | argumentStar | argumentDoubleStar | notTestNot | factorSign | factorTilde =>
    obtain ⟨_, hvalue, _⟩ := h
    exact Built.bind hvalue fun n hn =>
      built_pure (operand_make rfl trivial rfl (every_singleton (every_singleton hn)))
  | testlist | exprlist =>
    obtain ⟨hfirst, hmore, _⟩ := h
    exact sound_commaList hfirst hmore
  | testValue =>
    obtain ⟨hvalue, hternary, _⟩ := h
    obtain ⟨value, ⟨_, ternary⟩, _⟩ := ms
    cases ternary with
    | none => exact hvalue
    | some ternary =>
      obtain ⟨htest, horelse⟩ := hternary ternary rfl
      refine Built.bind hvalue fun body hb => Built.bind htest fun test ht => ?_
      refine Built.bind horelse fun orelse ho => built_pure (operand_make rfl trivial rfl ?_)
      exact every_cons (every_singleton hb)
        (every_cons (every_singleton ht) (every_singleton (every_singleton ho)))
  | testLambda =>
    obtain ⟨_, hparams, _, hbody, _⟩ := h
    refine Built.bind (built_sequence hparams) fun params hp => Built.bind hbody fun body hb => ?_
    exact built_pure (operand_lambda hp.1 hb)
  | optTernarySome =>
    obtain ⟨_, htest, _, horelse, _⟩ := h
    rintro _ ⟨⟩
    exact ⟨htest, horelse⟩
  | orTest | andTest =>
    obtain ⟨hfirst, hmore, _⟩ := h
    exact sound_boolChain hfirst hmore
  | comparison =>
    obtain ⟨hfirst, hmore, _⟩ := h
    exact sound_compareChain hfirst hmore
  | bitOr | bitXor | bitAnd | shiftExpr | arith | term =>
    obtain ⟨hfirst, hmore, _⟩ := h
    exact sound_binaryChain hfirst hmore
  | power =>
    obtain ⟨hbase, hexponent, _⟩ := h
    obtain ⟨base, ⟨_, exponent⟩, _⟩ := ms
    cases exponent with
    | none => exact hbase
    | some exponent =>
      exact Built.bind hbase fun left hl => Built.bind (hexponent exponent rfl) fun right hr =>
        built_pure (operand_binOp hl hr)
  | primary =>
    obtain ⟨hbase, htrailers, _⟩ := h
    obtain ⟨base, ⟨_, trailers⟩, _⟩ := ms
    cases trailers with
    | nil => exact hbase
    | cons first more => exact Built.bind hbase fun n hn => built_trailerChain hn htrailers
  | trailerCall | trailerIndex =>
    obtain ⟨_, hinner, _⟩ := h
    exact hinner
  | trailerAttribute => trivial
  | subscriptTest =>
    obtain ⟨hlower, hupper, _⟩ := h
    obtain ⟨lower, ⟨_, upper⟩, _⟩ := ms
    cases upper with
    | none => exact hlower
    | some upper =>
      refine built_slice ?_ (hupper upper rfl)
      rintro _ ⟨⟩
      exact hlower
  | subscriptColon =>
    obtain ⟨_, hupper, _⟩ := h
    exact built_slice (by rintro _ ⟨⟩) hupper
  -- brackets
  | atomParen =>
    obtain ⟨_, htail, _⟩ := h
    obtain ⟨_, ⟨_, tail⟩, _⟩ := ms
    rcases tail with _ | ⟨first, _ | ⟨second, more⟩⟩
    · exact built_arrayOf every_nil
    · exact (htail _ rfl).1
    · obtain ⟨hfirst, hmore⟩ := htail _ rfl
      exact built_arrayOf (every_cons hfirst hmore)
  | atomList =>
    obtain ⟨_, htail, _⟩ := h
    obtain ⟨_, ⟨_, tail⟩, _⟩ := ms
    rcases tail with _ | ⟨first, more | c⟩
    · exact built_arrayOf every_nil
    · obtain ⟨hfirst, hmore⟩ := htail _ rfl
      exact built_arrayOf (every_cons hfirst hmore)
    · obtain ⟨hfirst, hc⟩ := htail _ rfl
      exact built_comprehension hfirst (by rintro _ ⟨⟩) hc
  | atomDict =>
    obtain ⟨_, htail, _⟩ := h
    obtain ⟨_, ⟨_, tail⟩, _⟩ := ms
    rcases tail with _ | ⟨⟨key, value⟩, more | c⟩
    · exact built_dictOf every_nil
    · obtain ⟨hfirst, hmore⟩ := htail _ rfl
      exact built_dictOf (every_cons hfirst hmore)
    · obtain ⟨⟨hkey, hvalue⟩, hc⟩ := htail _ rfl
      refine built_comprehension hkey ?_ hc
      rintro _ ⟨⟩
      exact hvalue
  | atomName =>
    obtain ⟨hname, _⟩ := h
    exact built_pure (operand_make rfl (stands_name hname) rfl every_nil)
  | atomNumber | atomString | atomLongString | atomNone | atomTrue | atomFalse =>
    exact sound_plain rfl trivial rfl
  | parenTailTests =>
    obtain ⟨hfirst, hmore, _⟩ := h
    rintro _ ⟨⟩
    exact ⟨hfirst, hmore⟩
  | listTailTests | dictTailItems =>
    obtain ⟨hfirst, hrest, _⟩ := h
    rintro _ ⟨⟩
    exact ⟨hfirst, hrest⟩
  | listRestItems | listRestFor | dictRestItems | dictRestFor =>
    obtain ⟨hinner, _⟩ := h
    exact hinner
  | dictItem =>
    obtain ⟨hkey, _, hvalue, _⟩ := h
    exact ⟨hkey, hvalue⟩
  | compFor =>
    obtain ⟨_, htarget, _, hiterable, hcondition, _⟩ := h
    exact ⟨htarget, hiterable, hcondition⟩

mutual

theorem Tree.sound_meaning {s : Symbol} (t : Tree s)
    (h : ∀ u ∈ t.tokens, u.kind = .name → stands u.text u.span) : s.Sound stands t.meaning := by
  match t with
  | .leaf u fits => exact fun hkind => ⟨rfl, h u (by simp [Tree.tokens]) (fits.trans hkind)⟩
  | .node p children => exact p.sound_meaning _ _ (Forest.sound_meanings children h)

theorem Forest.sound_meanings {ss : List Symbol} (f : Forest ss)
    (h : ∀ u ∈ f.tokens, u.kind = .name → stands u.text u.span) : f.meanings.2.Sound stands := by
  match f with
  | .nil => trivial
  | .cons head tail =>
    have hhead := fun u hu => h u (List.mem_append_left _ hu)
    have htail := fun u hu => h u (List.mem_append_right _ hu)
    exact ⟨Tree.sound_meaning head hhead, Forest.sound_meanings tail htail⟩

end

end ScopeLint.Grammar

namespace ScopeLint

theorem read_of_parse {source : String} {root : Node} (h : parse source = .ok root) :
    ∃ tree node, Grammar.read (tokenize (endLine source.toList)).tokens = .ok tree ∧
      tree.meaning.value = .ok node ∧ root = node.number := by
  unfold parse at h
  dsimp only at h
  split at h
  · cases h
  · cases h
  · cases h
  · next tree hread _ =>
    split at h
    · cases h
    · next node hnode =>
      cases h
      exact ⟨tree, node, hread, hnode, rfl⟩

theorem fault_of_parse {source : String} {root : Node} (h : parse source = .ok root) :
    (tokenize (endLine source.toList)).fault = none := by
  unfold parse at h
  dsimp only at h
  split at h
  · cases h
  · cases h
  · cases h
  · next hfault => exact hfault

theorem parsed_of_map {α : Type} {code : String} {f : Node → α} {x : α}
    (h : (parse code).toOption.map f = some x) : ∃ root, parse code = .ok root ∧ f root = x := by
  cases hparse : parse code with
  | error e =>
    rw [hparse] at h
    cases h
  | ok root =>
    rw [hparse] at h
    exact ⟨root, rfl, Option.some.inj h⟩

/-- What parses is a well-formed module. -/
theorem wellFormed_parse {source : String} {root : Node} (h : parse source = .ok root) :
    root.form = .module ∧ root.WellFormed := by
  obtain ⟨tree, node, _, hnode, rfl⟩ := read_of_parse h
  have hsound : Grammar.Symbol.Sound (fun _ _ => True) (.rule .file) tree.meaning :=
    tree.sound_meaning fun _ _ _ => trivial
  obtain ⟨hsited, _, hform⟩ := hsound node hnode
  exact ⟨(Node.form_number node).trans hform, Node.Sited.wellFormed (hsited.numberFrom 0)⟩

/-- In what parses, expressions hold expressions, and nothing holds a module. -/
theorem arranged_parse {source : String} {root : Node} (h : parse source = .ok root) :
    root.Arranged := by
  obtain ⟨tree, node, _, hnode, rfl⟩ := read_of_parse h
  have hsound : Grammar.Symbol.Sound (fun _ _ => True) (.rule .file) tree.meaning :=
    tree.sound_meaning fun _ _ _ => trivial
  exact (hsound node hnode).2.1.numberFrom 0

/-- What parses can be walked. -/
theorem walk_parse_ok {source : String} {root : Node} (h : parse source = .ok root)
    (filename : String) : ∃ w, walk root filename = .ok w := by
  obtain ⟨hform, hwell⟩ := wellFormed_parse h
  refine walk_module_ok hform (fun p hp => ?_) filename
  exact Form.namesImport_of_fits (hwell.of_mem_preorder hp).fits

end ScopeLint
