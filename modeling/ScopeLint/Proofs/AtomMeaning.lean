import ScopeLint.Proofs.Atoms
import ScopeLint.Proofs.Built

/-! # Derivations keep their atoms

A derivation takes some of its tokens for names and literals; `Tree.atoms` has them in order. For
every rule, `Rule.Shows` says of what the rule means that its nodes show exactly the given atoms, as
they are written. Every production keeps this, whatever its symbols mean, so a module shows the
atoms of its derivation: none is lost, repeated or moved. -/
namespace ScopeLint

def Token.atom (t : Token) : Atom :=
  if t.kind = .name then .name t.text t.span else .literal (some t.start)

namespace Grammar

/-! ## The atoms of a derivation -/

/-- What a production makes of the tokens below it. -/
inductive Role where
  /-- Its first token is an atom; strings after it belong to the same one. -/
  | atom
  /-- If there is a value, what stands before it is no expression but the name it is passed by. -/
  | argument
  /-- It has the atoms of its symbols. -/
  | plain
deriving DecidableEq

def Production.role {r : Rule} : Production r → Role
  | .atomName | .atomNumber | .atomString | .atomLongString | .atomNone | .atomTrue
  | .atomFalse => .atom
  | .argumentPlain => .argument
  | _ => .plain

mutual

/-- The tokens that a derivation takes for names and literals. -/
def Tree.atoms {s : Symbol} : Tree s → List Token
  | .leaf _ _ => []
  | .node p children =>
    match p.role with
    | .atom => children.tokens.take 1
    | .argument => children.argumentAtoms
    | .plain => children.atoms

def Forest.atoms {ss : List Symbol} : Forest ss → List Token
  | .nil => []
  | .cons head tail => head.atoms ++ tail.atoms

/-- The name that a value is passed by is left out, and nothing else is. -/
def Forest.argumentAtoms {ss : List Symbol} : Forest ss → List Token
  | .nil => []
  | .cons key value =>
    (if value.tokens = [] then key.atoms else key.atoms.drop 1) ++ value.atoms

end

/-- The tokens that a derivation takes for names. -/
def Tree.variables {s : Symbol} (t : Tree s) : List Token := t.atoms.filter fun t => t.kind = .name

/-! ## What rules mean -/

section

variable {α β : Type}

/-- Values one after the other, each with its own atoms. -/
def Row (P : List Atom → α → Prop) : List Atom → List α → Prop
  | atoms, [] => atoms = []
  | atoms, x :: xs => ∃ here later, atoms = here ++ later ∧ P here x ∧ Row P later xs

/-- A value that may be missing. -/
def Perhaps (P : List Atom → α → Prop) (atoms : List Atom) : Option α → Prop
  | none => atoms = []
  | some x => P atoms x

/-- A value and one after it. -/
def Then (P : List Atom → α → Prop) (Q : List Atom → β → Prop) (atoms : List Atom) (x : α × β) :
    Prop :=
  ∃ here later, atoms = here ++ later ∧ P here x.1 ∧ Q later x.2

/-- A value of which only a part has atoms. -/
abbrev In (part : α → β) (P : List Atom → β → Prop) (atoms : List Atom) (x : α) : Prop :=
  P atoms (part x)

/-- One value or the other. -/
def Either (P : List Atom → α → Prop) (Q : List Atom → β → Prop) (atoms : List Atom) :
    α ⊕ β → Prop :=
  Sum.elim (P atoms) (Q atoms)

end

/-- A node that shows these atoms. -/
def Single (atoms : List Atom) (x : Build Node) : Prop := Built (fun n => n.atoms = atoms) x

/-- Nodes that show these atoms. -/
def Several (atoms : List Atom) (x : Build (List Node)) : Prop :=
  Built (fun ns => ns.flatMap Node.atoms = atoms) x

/-- An expression that shows these atoms. If it is an identifier, there is just one. -/
structure Expr.Shows (atoms : List Atom) (e : Expr) : Prop where
  node : Single atoms e.node
  identifier : e.identifier ≠ none → atoms.length = 1

def Assignments.Shows (atoms : List Atom) : Assignments → Prop
  | .none => atoms = []
  | .plain next more => Row Expr.Shows atoms (next :: more)
  | .augmented _ value => value.Shows atoms

structure Definition.Shows (atoms : List Atom) (d : Definition) : Prop where
  form : d.form.isPlain = true
  inner : Then (Row Single) Several atoms (d.head, d.body)

def TryTail.Shows (atoms : List Atom) (t : TryTail) : Prop :=
  Then (Row Single) (Then Several Several) atoms (t.handlers, t.orelse, t.final)

def Trailer.Shows (atoms : List Atom) : Trailer → Prop
  | .call arguments => Row Single atoms arguments
  | .index inner => Single atoms inner
  | .attribute _ => atoms = []

def CompFor.Shows (atoms : List Atom) (c : CompFor) : Prop :=
  Then Expr.Shows (Then Expr.Shows (Perhaps Expr.Shows)) atoms (c.target, c.iterable, c.condition)

/-- What a rule means shows these atoms. -/
def Rule.Shows : (r : Rule) → List Atom → r.Meaning → Prop
  | .file | .handler | .withItem | .decorator | .param | .argument | .subscript => Single
  | .lines | .statements | .smalls => Row Several
  | .statement | .suite | .simple | .small | .optElse | .optFinally => Several
  | .assignments => Assignments.Shows
  | .moreAssignments | .moreTests | .moreExprs | .moreOr | .moreAnd => Row Expr.Shows
  | .optTestlist | .optTest | .assertMessage | .optDefault | .optKeyword | .optPower | .optUpper
  | .optCondition => Perhaps Expr.Shows
  | .moreNames | .optAlias | .dotted | .moreDotted | .compareOp | .optNot | .mulOp
  | .moreStrings => fun atoms _ => atoms = []
  | .moduleImport | .member => fun atoms (n : Node) => n.atoms = atoms
  | .moreModuleImports | .members | .moreMembers => fun atoms (ns : List Node) =>
    ns.flatMap Node.atoms = atoms
  | .elif => Then Expr.Shows Several
  | .elifs => Row (In Located.value (Then Expr.Shows Several))
  | .tryTail => TryTail.Shows
  | .handlers | .moreWithItems | .decorators | .optBases | .optParams | .moreParams
  | .optArguments | .moreArguments => Row Single
  | .handlerHead => Perhaps (In Prod.fst Expr.Shows)
  | .definition => Definition.Shows
  | .testlist | .exprlist | .test | .orTest | .andTest | .notTest | .comparison | .bitOr | .bitXor
  | .bitAnd | .shiftExpr | .arith | .term | .factor | .power | .primary | .atom => Expr.Shows
  | .optTernary => Perhaps (Then Expr.Shows Expr.Shows)
  | .moreCompare | .moreBitOr | .moreBitXor | .moreBitAnd | .moreShift | .moreArith | .moreTerm =>
    Row (In Prod.snd Expr.Shows)
  | .trailers => Row (In Located.value Trailer.Shows)
  | .trailer => Trailer.Shows
  | .optSlice => Perhaps (Perhaps Expr.Shows)
  | .parenTail => Perhaps (Then Expr.Shows (Row Expr.Shows))
  | .listRest => Either (Row Expr.Shows) CompFor.Shows
  | .listTail => Perhaps (Then Expr.Shows (Either (Row Expr.Shows) CompFor.Shows))
  | .dictItem => Then Expr.Shows Expr.Shows
  | .moreDictItems => Row (Then Expr.Shows Expr.Shows)
  | .dictRest => Either (Row (Then Expr.Shows Expr.Shows)) CompFor.Shows
  | .dictTail =>
    Perhaps (Then (Then Expr.Shows Expr.Shows)
      (Either (Row (Then Expr.Shows Expr.Shows)) CompFor.Shows))
  | .compFor => CompFor.Shows

/-- Meanings in a row, each with its own atoms. A token by itself has none. -/
def Meanings.Shows : (atoms : List Atom) → {ss : List Symbol} → Meanings ss → Prop
  | atoms, [], _ => atoms = []
  | atoms, .token _ :: _, (_, rest) => rest.Shows atoms
  | atoms, .rule r :: _, (first, rest) =>
    ∃ here later, atoms = here ++ later ∧ r.Shows here first.value ∧ rest.Shows later

/-! ## Building blocks -/

section

variable {atoms here later : List Atom} {span : Span}

theorem single_make {form : Form} {parts : List (List Node)} (hform : form.isPlain = true)
    (hparts : parts.flatten.flatMap Node.atoms = atoms) :
    Single atoms (pure (.make span form parts)) :=
  built_pure ((Node.atoms_make hform).trans hparts)

theorem several_make {form : Form} {parts : List (List Node)} (hform : form.isPlain = true)
    (hparts : parts.flatten.flatMap Node.atoms = atoms) :
    Several atoms (pure [.make span form parts]) := by
  refine built_pure ?_
  rw [List.flatMap_singleton, Node.atoms_make hform, hparts]

theorem Single.several {x : Build Node} (h : Single atoms x) :
    Several atoms (do return [← x]) :=
  Built.bind h fun n hn => built_pure (by rw [List.flatMap_singleton, hn])

theorem several_nil : Several [] (pure []) := built_pure rfl

theorem several_sequence {xs : List (Build Node)} (h : Row Single atoms xs) :
    Several atoms (sequence xs) := by
  induction xs generalizing atoms with
  | nil =>
    cases h
    exact several_nil
  | cons x xs ih =>
    obtain ⟨here, later, rfl, hx, hxs⟩ := h
    refine Built.bind hx fun n hn => Built.bind (ih hxs) fun ns hns => built_pure ?_
    rw [List.flatMap_cons, hn, hns]

theorem several_concat {xs : List (Build (List Node))} (h : Row Several atoms xs) :
    Several atoms (concat xs) := by
  refine Built.bind (P := fun values => values.flatten.flatMap Node.atoms = atoms) ?_
    fun values hvalues => built_pure hvalues
  induction xs generalizing atoms with
  | nil =>
    cases h
    exact built_pure rfl
  | cons x xs ih =>
    obtain ⟨here, later, rfl, hx, hxs⟩ := h
    refine Built.bind hx fun ns hns => Built.bind (ih hxs) fun values hvalues => built_pure ?_
    rw [List.flatten_cons, List.flatMap_append, hns, hvalues]

theorem several_nodes {es : List Expr} (h : Row Expr.Shows atoms es) :
    Several atoms (nodes es) := by
  refine several_sequence ?_
  induction es generalizing atoms with
  | nil => exact h
  | cons e es ih =>
    obtain ⟨here, later, rfl, he, hes⟩ := h
    exact ⟨here, later, rfl, he.node, ih hes⟩

theorem several_optional {o : Option Expr} (h : Perhaps Expr.Shows atoms o) :
    Several atoms (optional o) := by
  cases o with
  | none =>
    cases h
    exact several_nil
  | some e => exact h.node.several

/-- An expression that is no identifier. -/
theorem Expr.shows_of_node {x : Build Node} (h : Single atoms x) :
    Expr.Shows atoms { node := x } :=
  ⟨h, fun hne => absurd rfl hne⟩

theorem row_cons {α : Type} {P : List Atom → α → Prop} {x : α} {xs : List α} (hx : P here x)
    (hxs : Row P later xs) : Row P (here ++ later) (x :: xs) :=
  ⟨here, later, rfl, hx, hxs⟩

/-! ## Chains and brackets -/

theorem single_arrayOf {es : List Expr} (h : Row Expr.Shows atoms es) :
    Single atoms (arrayOf span es) :=
  Built.bind (several_nodes h) fun ns hns => single_make rfl (by simp [hns])

theorem shows_commaList {first : Expr} {more : List Expr} (hfirst : first.Shows here)
    (hmore : Row Expr.Shows later more) : (commaList span first more).Shows (here ++ later) := by
  cases more with
  | nil =>
    cases hmore
    simpa [commaList] using hfirst
  | cons e es => exact Expr.shows_of_node (single_arrayOf (row_cons hfirst hmore))

theorem shows_boolChain {op : String} {first : Expr} {more : List Expr}
    (hfirst : first.Shows here) (hmore : Row Expr.Shows later more) :
    (boolChain op span first more).Shows (here ++ later) := by
  cases more with
  | nil =>
    cases hmore
    simpa [boolChain] using hfirst
  | cons e es =>
    refine Expr.shows_of_node (Built.bind (several_nodes (row_cons hfirst hmore)) fun ns hns => ?_)
    exact single_make rfl (by simp [hns])

theorem single_binaryFrom {left : Node} {more : List (String × Expr)} (hleft : left.atoms = here)
    (hmore : Row (In Prod.snd Expr.Shows) later more) :
    Single (here ++ later) (binaryFrom span left more) := by
  induction more generalizing left here later with
  | nil =>
    cases hmore
    exact built_pure (by rw [hleft, List.append_nil])
  | cons operand more ih =>
    obtain ⟨right, later, rfl, hright, hmore⟩ := hmore
    refine Built.bind hright.node fun n hn => ?_
    rw [← List.append_assoc]
    exact ih ((Node.atoms_make rfl).trans (by simp [hleft, hn])) hmore

theorem shows_binaryChain {first : Expr} {more : List (String × Expr)}
    (hfirst : first.Shows here) (hmore : Row (In Prod.snd Expr.Shows) later more) :
    (binaryChain span first more).Shows (here ++ later) := by
  cases more with
  | nil =>
    cases hmore
    simpa [binaryChain] using hfirst
  | cons e es =>
    exact Expr.shows_of_node (Built.bind hfirst.node fun n hn => single_binaryFrom hn hmore)

theorem row_operands {more : List (String × Expr)} (h : Row (In Prod.snd Expr.Shows) atoms more) :
    Row Expr.Shows atoms (more.map Prod.snd) := by
  induction more generalizing atoms with
  | nil => exact h
  | cons operand more ih =>
    obtain ⟨here, later, rfl, hoperand, hmore⟩ := h
    exact row_cons hoperand (ih hmore)

theorem shows_compareChain {first : Expr} {more : List (String × Expr)}
    (hfirst : first.Shows here) (hmore : Row (In Prod.snd Expr.Shows) later more) :
    (compareChain span first more).Shows (here ++ later) := by
  cases more with
  | nil =>
    cases hmore
    simpa [compareChain] using hfirst
  | cons e es =>
    refine Expr.shows_of_node (Built.bind hfirst.node fun n hn => ?_)
    refine Built.bind (several_nodes (row_operands hmore)) fun ns hns => ?_
    exact single_make rfl (by simp [hn, hns])

theorem single_assignChain {first : Expr} {more : List Expr} (hfirst : first.Shows here)
    (hmore : Row Expr.Shows later more) :
    Single (here ++ later) (assignChain span first more) := by
  induction more generalizing first here later with
  | nil =>
    cases hmore
    rw [List.append_nil]
    exact hfirst.node
  | cons next more ih =>
    obtain ⟨here', later, rfl, hnext, hmore⟩ := hmore
    refine Built.bind (ih hnext hmore) fun value hvalue => ?_
    refine Built.bind hfirst.node fun target htarget => single_make rfl ?_
    simp [htarget, hvalue]

theorem several_branch {test : Expr} {body orelse : Build (List Node)}
    {first second third : List Atom} (htest : test.Shows first) (hbody : Several second body)
    (horelse : Several third orelse) :
    Several (first ++ (second ++ third)) (do
      let orelse ← orelse
      let test ← test.node
      let body ← body
      return [.make span .ifBranch [[test], body, orelse]]) := by
  refine Built.bind horelse fun orelse ho => Built.bind htest.node fun test ht => ?_
  exact Built.bind hbody fun body hb => several_make rfl (by simp [ht, hb, ho])

theorem several_elifChain {orelse : Build (List Node)}
    {clauses : List (Located (Expr × Build (List Node)))}
    (hclauses : Row (In Located.value (Then Expr.Shows Several)) here clauses)
    (horelse : Several later orelse) :
    Several (here ++ later) (elifChain orelse clauses) := by
  induction clauses generalizing here with
  | nil =>
    cases hclauses
    exact horelse
  | cons clause more ih =>
    obtain ⟨_, rest, rfl, ⟨first, second, rfl, htest, hbody⟩, hmore⟩ := hclauses
    rw [List.append_assoc, List.append_assoc]
    exact several_branch htest hbody (ih hmore)

theorem single_trailerChain {start : Span} {node : Node} {trailers : List (Located Trailer)}
    (hnode : node.atoms = here) (htrailers : Row (In Located.value Trailer.Shows) later trailers) :
    Single (here ++ later) (trailerChain start node trailers) := by
  induction trailers generalizing node here later with
  | nil =>
    cases htrailers
    exact built_pure (by rw [hnode, List.append_nil])
  | cons t more ih =>
    obtain ⟨own, later, rfl, htrailer, hmore⟩ := htrailers
    have happly : ∀ applied : Node, applied.atoms = here ++ own →
        Single (here ++ (own ++ later)) (trailerChain start applied more) := by
      intro applied happlied
      rw [← List.append_assoc]
      exact ih happlied hmore
    obtain ⟨place, arguments | inner | name⟩ := t
    · refine Built.bind (several_sequence htrailer) fun ns hns => happly _ ?_
      exact (Node.atoms_make rfl).trans (by simp [hnode, hns])
    · refine Built.bind htrailer fun n hn => happly _ ?_
      exact (Node.atoms_make rfl).trans (by simp [hnode, hn])
    · cases htrailer
      exact happly _ ((Node.atoms_make rfl).trans (by simp [hnode]))

theorem single_comprehension {element : Expr} {value : Option Expr} {c : CompFor}
    (h : Then (Then Expr.Shows (Perhaps Expr.Shows)) CompFor.Shows atoms ((element, value), c)) :
    Single atoms (comprehension span element value c) := by
  obtain ⟨_, _, rfl, ⟨first, second, rfl, helement, hvalue⟩, target, _, rfl, htarget, iterable,
    condition, rfl, hiterable, hcondition⟩ := h
  refine Built.bind helement.node fun element he => ?_
  refine Built.bind (several_optional hvalue) fun value hv => ?_
  refine Built.bind htarget.node fun target ht => Built.bind hiterable.node fun iterable hi => ?_
  refine Built.bind (several_optional hcondition) fun condition hc => built_pure ?_
  rw [Node.atoms_eq]
  simp [Node.make, Node.atom?, Node.form, Node.written, Node.parts, Form.written, he, hv, ht, hi,
    hc]

/-- The keys are asked for before the values, so their atoms are taken apart first. -/
theorem exists_entries {items : List (Expr × Expr)}
    (h : Row (Then Expr.Shows Expr.Shows) atoms items) :
    ∃ keys values : List (List Atom),
      atoms = (keys.zip values).flatMap (fun entry => entry.1 ++ entry.2) ∧
      Built (fun ks => ks.map Node.atoms = keys) (nodes (items.map Prod.fst)) ∧
      Built (fun vs => vs.map Node.atoms = values) (nodes (items.map Prod.snd)) := by
  induction items generalizing atoms with
  | nil =>
    cases h
    exact ⟨[], [], rfl, built_pure rfl, built_pure rfl⟩
  | cons item items ih =>
    obtain ⟨_, _, rfl, ⟨key, value, rfl, hkey, hvalue⟩, hitems⟩ := h
    obtain ⟨keys, values, rfl, hkeys, hvalues⟩ := ih hitems
    refine ⟨key :: keys, value :: values, by simp, ?_, ?_⟩
    · refine Built.bind hkey.node fun k hk => hkeys.bind fun ks hks => built_pure ?_
      rw [List.map_cons, hk, hks]
    · refine Built.bind hvalue.node fun v hv => hvalues.bind fun vs hvs => built_pure ?_
      rw [List.map_cons, hv, hvs]

theorem single_dictOf {items : List (Expr × Expr)}
    (h : Row (Then Expr.Shows Expr.Shows) atoms items) : Single atoms (dictOf span items) := by
  obtain ⟨keys, values, rfl, hkeys, hvalues⟩ := exists_entries h
  refine hkeys.bind fun ks hks => hvalues.bind fun vs hvs => single_make rfl ?_
  rw [← hks, ← hvs, List.zip_map, List.flatMap_map, ← List.flatMap_def, List.flatMap_assoc]
  simp [Prod.map]

theorem Definition.Shows.node {d : Definition} (h : d.Shows later) {decorators : List Node}
    (hdecorators : decorators.flatMap Node.atoms = here) :
    Single (here ++ later) (d.node decorators) := by
  obtain ⟨hform, _, _, rfl, hhead, hbody⟩ := h
  refine Built.bind (several_sequence hhead) fun head hh => Built.bind hbody fun body hb => ?_
  exact single_make hform (by simp [hdecorators, hh, hb])

theorem atoms_deletion (target : Node) : (deletion span target).atoms = target.atoms := by
  unfold deletion
  rw [Node.atoms_make rfl]
  split
  · next hform =>
    obtain ⟨id, place, form, parts⟩ := target
    cases hform
    rw [Node.atoms_eq]
    simp [Node.atom?, Node.form, Node.written, Form.written, Node.children]
  · simp

theorem single_slice {lower upper : Option Expr} (hlower : Perhaps Expr.Shows here lower)
    (hupper : Perhaps Expr.Shows later upper) :
    Single (here ++ later) (slice span lower upper) := by
  refine Built.bind (several_optional hlower) fun lower hl => ?_
  exact Built.bind (several_optional hupper) fun upper hu => single_make rfl (by simp [hl, hu])

end

/-! ## Productions -/

/-- The last of a row has all the atoms that are left. -/
theorem alone {P : List Atom → Prop} {atoms : List Atom}
    (h : ∃ here later, atoms = here ++ later ∧ P here ∧ later = []) : P atoms := by
  obtain ⟨here, later, rfl, hp, rfl⟩ := h
  rwa [List.append_nil]

/-- A production shows the atoms of its symbols. -/
theorem Production.shows_meaning {r : Rule} (p : Production r) (hrole : p.role = .plain)
    (span : Span) (ms : Meanings p.symbols) {atoms : List Atom} (h : ms.Shows atoms) :
    r.Shows atoms (p.meaning span ms) := by
  cases p with
  | atomName | atomNumber | atomString | atomLongString | atomNone | atomTrue | atomFalse
  | argumentPlain => cases hrole
  -- nothing there
  | linesEnd | statementsEnd | smallsEnd | handlersEnd | moreWithItemsEnd | optParamsNone
  | moreParamsEnd | decoratorsEnd | optBasesNone | optArgumentsNone | moreArgumentsEnd | moreOrEnd
  | moreAndEnd | moreCompareEnd | moreBitOrEnd | moreBitXorEnd | moreBitAndEnd | moreShiftEnd
  | moreArithEnd | moreTermEnd | trailersEnd | moreDictItemsEnd | optTestlistNone | optTestNone
  | assertMessageNone | handlerHeadNone | optDefaultNone | optKeywordNone | optAliasNone
  | optTernaryNone | optPowerNone | optSliceNone | optUpperNone | parenTailEmpty | listTailEmpty
  | dictTailEmpty | optConditionNone | assignmentsNone | moreAssignmentsEnd | moreTestsEnd
  | moreExprsEnd | moreDottedEnd | moreNamesEnd | elifsEnd | moreStringsEnd | compareOpRelation
  | compareOpIn | compareOpNotIn | optNotNone | optNotSome | mulOpStar | mulOpDivide
  | trailerAttribute | optAliasSome => exact h
  | moreModuleImportsEnd | moreMembersEnd => exact Eq.symm h
  | optElseNone | optFinallyNone =>
    cases h
    exact several_nil
  -- what a symbol means, as it is
  | statementSimple | suiteInline | notTestComparison | factorPower | linesBlank | optBasesSome
  | optElseSome | optFinallySome | optTestlistSome | optTestSome | optUpperSome | assertMessageSome
  | optDefaultSome | optKeywordSome | optPowerSome | optConditionSome | optSliceSome | trailerCall
  | trailerIndex | listRestItems | listRestFor | dictRestItems | dictRestFor
  | assignmentsAugmented => exact alone h
  | moreNamesMore | moreDottedMore | dotted | moreStringsShort | moreStringsLong | compareOpIs =>
    obtain ⟨_, _, rfl, rfl, rfl⟩ := h
    rfl
  -- a first and what comes after it
  | linesMore | statementsMore | smallsMore | handlersMore | moreWithItemsMore | optParamsSome
  | moreParamsMore | decoratorsMore | optArgumentsSome | moreArgumentsMore | trailersMore
  | elifsMore | moreAssignmentsMore | moreTestsMore | moreExprsMore | moreOrMore | moreAndMore
  | moreBitOrMore | moreBitXorMore | moreBitAndMore | moreShiftMore | moreArithMore
  | moreDictItemsMore | assignmentsPlain | elif | dictItem | optTernarySome | parenTailTests
  | listTailTests | dictTailItems =>
    obtain ⟨here, later, rfl, hfirst, hmore⟩ := h
    exact ⟨here, later, rfl, hfirst, alone hmore⟩
  | moreCompareMore | moreTermMore =>
    obtain ⟨_, _, rfl, rfl, here, later, rfl, hfirst, hmore⟩ := h
    exact ⟨here, later, rfl, hfirst, alone hmore⟩
  | moreModuleImportsMore | moreMembersMore | membersBare | membersParen =>
    obtain ⟨here, later, rfl, hfirst, hmore⟩ := h
    exact congrArg₂ List.append hfirst (alone hmore)
  | compFor =>
    obtain ⟨_, _, rfl, htarget, _, _, rfl, hiterable, hcondition⟩ := h
    exact ⟨_, _, rfl, htarget, _, _, rfl, hiterable, alone hcondition⟩
  -- statements
  | file =>
    refine Built.bind (several_concat (alone h)) fun body hb => ?_
    exact single_make rfl (by simp [hb])
  | simple | suiteBlock =>
    obtain ⟨here, later, rfl, hfirst, hmore⟩ := h
    exact several_concat ⟨here, later, rfl, hfirst, alone hmore⟩
  | statementIf =>
    obtain ⟨_, _, rfl, htest, _, _, rfl, hbody, _, _, rfl, helifs, horelse⟩ := h
    exact several_branch htest hbody (several_elifChain helifs (alone horelse))
  | statementWhile =>
    obtain ⟨_, _, rfl, htest, _, _, rfl, hbody, _, _, rfl, horelse, rfl⟩ := h
    refine Built.bind (Expr.Shows.node htest) fun test ht => Built.bind hbody fun body hb => ?_
    exact Built.bind horelse fun orelse ho => several_make rfl (by simp [ht, hb, ho])
  | statementFor =>
    obtain ⟨_, _, rfl, htarget, _, _, rfl, hiterable, _, _, rfl, hbody, _, _, rfl, horelse,
      rfl⟩ := h
    refine Built.bind (Expr.Shows.node htarget) fun target ht => ?_
    refine Built.bind (Expr.Shows.node hiterable) fun iterable hi => ?_
    refine Built.bind hbody fun body hb => Built.bind horelse fun orelse ho => ?_
    exact several_make rfl (by simp [ht, hi, hb, ho])
  | statementTry =>
    obtain ⟨_, _, rfl, hbody, _, _, rfl, ⟨_, _, rfl, hhandlers, _, _, rfl, horelse, hfinal⟩,
      rfl⟩ := h
    refine Built.bind hbody fun body hb => ?_
    refine Built.bind (several_sequence hhandlers) fun handlers hh => ?_
    refine Built.bind horelse fun orelse ho => Built.bind hfinal fun final hf => ?_
    exact several_make rfl (by simp [hb, hh, ho, hf])
  | statementWith =>
    obtain ⟨_, _, rfl, hfirst, _, _, rfl, hmore, _, _, rfl, hbody, rfl⟩ := h
    refine Built.bind (several_sequence (row_cons hfirst hmore)) fun items hi => ?_
    exact Built.bind hbody fun body hb => several_make rfl (by simp [hi, hb])
  | statementDefinition =>
    exact (Definition.Shows.node (alone h) rfl).several
  | statementDecorated =>
    obtain ⟨_, _, rfl, hfirst, _, _, rfl, hmore, hdefinition⟩ := h
    rw [← List.append_assoc]
    refine Built.bind (several_sequence (row_cons hfirst hmore)) fun decorators hd => ?_
    exact (Definition.Shows.node (alone hdefinition) hd).several
  | smallExpr =>
    obtain ⟨first, ⟨place, rest⟩, _⟩ := ms
    obtain ⟨_, _, rfl, hfirst, _, _, rfl, hrest, rfl⟩ := h
    rw [List.append_nil]
    cases rest with
    | none =>
      cases hrest
      exact Built.bind (Expr.Shows.node hfirst) fun n hn => several_make rfl (by simp [hn])
    | plain next more => exact (single_assignChain hfirst hrest).several
    | augmented op value =>
      refine Built.bind (Expr.Shows.node hfirst) fun target ht => ?_
      exact Built.bind (Expr.Shows.node hrest) fun value hv => several_make rfl (by simp [ht, hv])
  | smallPass | smallBreak | smallContinue | smallEmpty =>
    cases h
    exact several_make rfl rfl
  | smallReturn | smallRaise =>
    refine Built.bind (several_optional (alone h)) fun value hv => ?_
    exact several_make rfl (by simp [hv])
  | smallDel =>
    obtain ⟨_, _, rfl, htarget, rfl⟩ := h
    refine Built.bind (Expr.Shows.node htarget) fun target ht => built_pure ?_
    simp [atoms_deletion, ht]
  | smallAssert =>
    obtain ⟨_, _, rfl, htest, _, _, rfl, hmessage, rfl⟩ := h
    refine Built.bind (Expr.Shows.node htest) fun test ht => ?_
    refine Built.bind (several_optional hmessage) fun message hm => ?_
    exact several_make rfl (by simp [ht, hm])
  | smallGlobal | smallNonlocal =>
    obtain ⟨_, _, rfl, rfl, rfl⟩ := h
    exact several_make rfl rfl
  | smallImport =>
    obtain ⟨here, later, rfl, hfirst, hmore⟩ := h
    exact built_pure (congrArg₂ List.append hfirst (alone hmore))
  | smallFrom =>
    obtain ⟨_, _, rfl, rfl, _, _, rfl, hmembers, rfl⟩ := h
    rw [List.nil_append, List.append_nil]
    exact several_make rfl
      ((congrArg (List.flatMap Node.atoms) (List.append_nil _)).trans hmembers)
  | moduleImport =>
    obtain ⟨_, _, rfl, rfl, _, _, rfl, rfl, rfl⟩ := h
    exact Node.atoms_make rfl
  | member =>
    obtain ⟨_, _, rfl, rfl, rfl⟩ := h
    exact Node.atoms_make rfl
  | tryTailFinally => exact ⟨[], atoms, rfl, rfl, [], atoms, rfl, several_nil, alone h⟩
  | tryTailHandlers =>
    obtain ⟨_, _, rfl, hfirst, _, _, rfl, hmore, _, _, rfl, horelse, hfinal⟩ := h
    exact ⟨_, _, (List.append_assoc _ _ _).symm, row_cons hfirst hmore, _, _, rfl, horelse,
      alone hfinal⟩
  | handler =>
    obtain ⟨_, ⟨_, head⟩, _, body, _⟩ := ms
    obtain ⟨type, _, rfl, hhead, _, _, rfl, hbody, rfl⟩ := h
    have htype : Perhaps Expr.Shows type (Option.map Prod.fst head) := by
      cases head <;> exact hhead
    have hbinder : ∀ t : Token, (Node.make t.span (.varDef t.text t.span) [[]]).atoms = [] :=
      fun t => Node.atoms_make rfl
    refine Built.bind (several_optional htype) fun type ht => Built.bind hbody fun body hb => ?_
    exact single_make rfl (by simp [ht, hb, hbinder])
  | handlerHeadSome =>
    obtain ⟨_, _, rfl, htype, _, _, rfl, rfl, rfl⟩ := h
    rw [List.append_nil, List.append_nil]
    exact htype
  | withItem =>
    obtain ⟨value, ⟨_, asName⟩, _⟩ := ms
    obtain ⟨_, _, rfl, hvalue, _, _, rfl, rfl, rfl⟩ := h
    refine Built.bind (Expr.Shows.node hvalue) fun n hn => ?_
    cases asName with
    | none => exact built_pure (by simp [hn])
    | some t => exact single_make rfl (by simp [hn])
  | decorator =>
    obtain ⟨_, _, rfl, rfl, harguments⟩ := h
    refine Built.bind (several_sequence (alone harguments)) fun ns hns => ?_
    exact single_make rfl (by simp [hns])
  | definitionFunction | definitionClass =>
    obtain ⟨_, _, rfl, hhead, hbody⟩ := h
    exact ⟨rfl, _, _, rfl, hhead, alone hbody⟩
  | paramPlain =>
    exact Built.bind (several_optional (alone h)) fun ns hns => single_make rfl (by simp [hns])
  | paramStar | paramDoubleStar =>
    cases h
    exact single_make rfl rfl
  -- expressions
  | argumentStar | argumentDoubleStar =>
    obtain ⟨_, _, rfl, hvalue, rfl⟩ := h
    exact Built.bind (Expr.Shows.node hvalue) fun n hn => single_make rfl (by simp [hn])
  | notTestNot | factorSign | factorTilde =>
    obtain ⟨_, _, rfl, hvalue, rfl⟩ := h
    exact Expr.shows_of_node (Built.bind (Expr.Shows.node hvalue) fun n hn =>
      single_make rfl (by simp [hn]))
  | testlist | exprlist =>
    obtain ⟨_, _, rfl, hfirst, hmore⟩ := h
    exact shows_commaList hfirst (alone hmore)
  | testValue =>
    obtain ⟨value, ⟨_, ternary⟩, _⟩ := ms
    obtain ⟨_, _, rfl, hvalue, _, _, rfl, hternary, rfl⟩ := h
    rw [List.append_nil]
    cases ternary with
    | none =>
      cases hternary
      rw [List.append_nil]
      exact hvalue
    | some ternary =>
      obtain ⟨_, _, rfl, htest, horelse⟩ := hternary
      refine Expr.shows_of_node (Built.bind (Expr.Shows.node hvalue) fun body hb => ?_)
      refine Built.bind htest.node fun test ht => Built.bind horelse.node fun orelse ho => ?_
      exact single_make rfl (by simp [hb, ht, ho])
  | testLambda =>
    obtain ⟨_, _, rfl, hparams, _, _, rfl, hbody, rfl⟩ := h
    refine Expr.shows_of_node (Built.bind (several_sequence hparams) fun params hp => ?_)
    exact Built.bind (Expr.Shows.node hbody) fun body hb => single_make rfl (by simp [hp, hb])
  | orTest | andTest =>
    obtain ⟨_, _, rfl, hfirst, hmore⟩ := h
    exact shows_boolChain hfirst (alone hmore)
  | comparison =>
    obtain ⟨_, _, rfl, hfirst, hmore⟩ := h
    exact shows_compareChain hfirst (alone hmore)
  | bitOr | bitXor | bitAnd | shiftExpr | arith | term =>
    obtain ⟨_, _, rfl, hfirst, hmore⟩ := h
    exact shows_binaryChain hfirst (alone hmore)
  | power =>
    obtain ⟨base, ⟨_, exponent⟩, _⟩ := ms
    obtain ⟨_, _, rfl, hbase, _, _, rfl, hexponent, rfl⟩ := h
    rw [List.append_nil]
    cases exponent with
    | none =>
      cases hexponent
      rw [List.append_nil]
      exact hbase
    | some exponent =>
      refine Expr.shows_of_node (Built.bind (Expr.Shows.node hbase) fun left hl => ?_)
      exact Built.bind (Expr.Shows.node hexponent) fun right hr =>
        single_make rfl (by simp [hl, hr])
  | primary =>
    obtain ⟨base, ⟨_, trailers⟩, _⟩ := ms
    obtain ⟨_, _, rfl, hbase, _, _, rfl, htrailers, rfl⟩ := h
    rw [List.append_nil]
    cases trailers with
    | nil =>
      cases htrailers
      rw [List.append_nil]
      exact hbase
    | cons first more =>
      exact Expr.shows_of_node (Built.bind (Expr.Shows.node hbase) fun n hn =>
        single_trailerChain hn htrailers)
  | subscriptTest =>
    obtain ⟨lower, ⟨_, upper⟩, _⟩ := ms
    obtain ⟨_, _, rfl, hlower, _, _, rfl, hupper, rfl⟩ := h
    rw [List.append_nil]
    cases upper with
    | none =>
      cases hupper
      rw [List.append_nil]
      exact Expr.Shows.node hlower
    | some upper => exact single_slice hlower hupper
  | subscriptColon =>
    have hlower : Perhaps Expr.Shows [] none := rfl
    exact single_slice hlower (alone h)
  -- brackets
  | atomParen =>
    obtain ⟨_, ⟨_, tail⟩, _⟩ := ms
    obtain ⟨_, _, rfl, htail, rfl⟩ := h
    rw [List.append_nil]
    rcases tail with _ | ⟨first, _ | ⟨second, more⟩⟩
    · exact Expr.shows_of_node (single_arrayOf htail)
    · obtain ⟨_, _, rfl, hfirst, rfl⟩ := htail
      rw [List.append_nil]
      exact Expr.shows_of_node hfirst.node
    · exact Expr.shows_of_node (single_arrayOf htail)
  | atomList =>
    obtain ⟨_, ⟨_, tail⟩, _⟩ := ms
    obtain ⟨_, _, rfl, htail, rfl⟩ := h
    rw [List.append_nil]
    rcases tail with _ | ⟨first, more | c⟩
    · exact Expr.shows_of_node (single_arrayOf htail)
    · exact Expr.shows_of_node (single_arrayOf htail)
    · obtain ⟨_, _, rfl, hfirst, hc⟩ := htail
      refine Expr.shows_of_node (single_comprehension ⟨_, _, rfl, ⟨_, [], ?_, hfirst, rfl⟩, hc⟩)
      rw [List.append_nil]
  | atomDict =>
    obtain ⟨_, ⟨_, tail⟩, _⟩ := ms
    obtain ⟨_, _, rfl, htail, rfl⟩ := h
    rw [List.append_nil]
    rcases tail with _ | ⟨⟨key, value⟩, more | c⟩
    · exact Expr.shows_of_node (single_dictOf htail)
    · exact Expr.shows_of_node (single_dictOf htail)
    · exact Expr.shows_of_node (single_comprehension htail)

/-! ## Derivations -/

/-- Every rule in the forest means something that shows its atoms. -/
def Forest.Shown : {ss : List Symbol} → Forest ss → Prop
  | [], .nil => True
  | .token _ :: _, .cons _ tail => tail.Shown
  | .rule r :: _, .cons head tail =>
    r.Shows (head.atoms.map Token.atom) head.meaning.value ∧ tail.Shown

theorem Forest.Shown.shows_meanings {ss : List Symbol} {f : Forest ss} (h : f.Shown) :
    f.meanings.2.Shows (f.atoms.map Token.atom) := by
  match ss, f with
  | [], .nil => rfl
  | .token _ :: _, .cons (.leaf _ _) tail => exact shows_meanings (f := tail) h
  | .rule r :: _, .cons head tail =>
    exact ⟨_, _, List.map_append, h.1, shows_meanings h.2⟩

theorem shows_plain {t : Token} {value : Literal} {span : Span} (hkind : t.kind ≠ .name)
    (hspan : span.start = some t.start) : (Expr.plain span (.literal value)).Shows [t.atom] := by
  refine Expr.shows_of_node (built_pure ?_)
  rw [Node.atoms_eq, Token.atom, if_neg hkind, ← hspan]
  rfl

/-- A name or a literal shows its first token. -/
theorem Production.shows_atom {r : Rule} (p : Production r) (hrole : p.role = .atom)
    (children : Forest p.symbols) : r.Shows ((children.tokens.take 1).map Token.atom)
      (p.meaning children.meanings.1 children.meanings.2) := by
  cases p with
  | atomName =>
    match children with
    | .cons (.leaf t fits) .nil =>
      refine ⟨built_pure ?_, fun _ => rfl⟩
      show _ = [t.atom]
      rw [Node.atoms_eq, Token.atom, if_pos fits]
      rfl
  | atomNumber | atomString | atomLongString | atomNone | atomTrue | atomFalse =>
    match children with
    | .cons (.leaf t fits) tail => exact shows_plain (by rw [fits]; decide) rfl
  | _ => cases hrole

theorem map_argumentAtoms {s s' : Symbol} (key : Tree s) (value : Tree s') :
    (Forest.argumentAtoms (.cons key (.cons value .nil))).map Token.atom =
      (key.atoms.map Token.atom).drop (if value.tokens = [] then 0 else 1) ++
        value.atoms.map Token.atom := by
  simp only [Forest.argumentAtoms, Forest.tokens, Forest.atoms, List.append_nil, List.map_append]
  split
  · rw [List.drop_zero]
  · rw [List.map_drop]

/-- A value that is passed by name is named by one identifier and nothing else. -/
theorem single_keyword {key value : Expr} {span place : Span} {here later : List Atom}
    (hkey : key.Shows here) (hvalue : value.Shows later) :
    Single (here.drop 1 ++ later) (match key.identifier with
      | none => .error place
      | some name => do return .make span (.keywordArg name) [[← value.node]]) := by
  obtain ⟨identifier, node⟩ := key
  cases identifier with
  | none => nofun
  | some name =>
    have hlength : here.length = 1 := hkey.identifier nofun
    rw [List.drop_of_length_le (Nat.le_of_eq hlength)]
    exact Built.bind hvalue.node fun n hn => single_make rfl (by simp [hn])

/-- An argument shows its value and, unless it is passed by name, what stands for it. -/
theorem Production.shows_argument {r : Rule} (p : Production r) (hrole : p.role = .argument)
    (children : Forest p.symbols) (h : children.Shown) :
    r.Shows (children.argumentAtoms.map Token.atom)
      (p.meaning children.meanings.1 children.meanings.2) := by
  cases p with
  | argumentPlain =>
    match children, h with
    | .cons key (.cons (.node .optKeywordNone .nil) .nil), ⟨hkey, _⟩ =>
      refine (congrArg (Single · _) (map_argumentAtoms key _)).mpr ?_
      exact (congrArg (Single · _) (List.append_nil _)).mpr (Expr.Shows.node hkey)
    | .cons key (.cons (.node .optKeywordSome (.cons (.leaf t fits) (.cons value .nil))) .nil),
        ⟨hkey, hvalue, _⟩ =>
      refine (congrArg (Single · _) (map_argumentAtoms key _)).mpr ?_
      exact single_keyword hkey hvalue
  | _ => cases hrole

theorem shows_node {r : Rule} (p : Production r) {children : Forest p.symbols}
    (h : children.Shown) : r.Shows ((Tree.node p children).atoms.map Token.atom)
      (Tree.node p children).meaning.value := by
  rw [Tree.atoms]
  cases hrole : p.role with
  | atom => exact p.shows_atom hrole children
  | argument => exact p.shows_argument hrole children h
  | plain => exact p.shows_meaning hrole _ _ h.shows_meanings

theorem Forest.shown {ss : List Symbol} (f : Forest ss) : f.Shown := by
  match f with
  | .nil => trivial
  | .cons (.leaf _ _) tail => exact Forest.shown tail
  | .cons (.node p children) tail => exact ⟨shows_node p (Forest.shown children), Forest.shown tail⟩

theorem Tree.shows_meaning {r : Rule} (t : Tree (.rule r)) :
    r.Shows (t.atoms.map Token.atom) t.meaning.value := by
  cases t with
  | node p children => exact shows_node p children.shown

end Grammar
end ScopeLint
