import ScopeLint.Proofs.Built
import ScopeLint.Proofs.Ordering

/-! # Derivations bind names in the order of their tokens

What a rule means binds its names in the order in which the derivation holds the
tokens of these names. Every production keeps this, whatever its symbols mean, so
every derivation of a file means a module whose scopes are all filled in the order
of the tokens. -/
namespace ScopeLint.Grammar


open Node (InOrder)

/-! ## What rules mean -/

section

variable (names : Places)

def Expr.Quiet (e : Expr) : Prop := Built (Node.Quiet names) e.node

def Expr.Value (e : Expr) : Prop := Built (Node.Value names) e.node

/-- Expressions whose targets are in order, one after the other. -/
def Values : Places → List Expr → Prop
  | _, [] => True
  | names, e :: es => ∃ here later, (here ++ later).Sublist names ∧ e.Value here ∧ Values later es

def Assignments.Ordered : Assignments → Prop
  | .none => True
  | .plain next more => Values names (next :: more)
  | .augmented _ value => value.Quiet names

/-- The name is bound around; what the head and the body bind is bound inside. -/
structure Definition.Ordered (d : Definition) : Prop where
  named : ∃ word place, (d.form = .functionDef word place ∨ d.form = .classDef word place) ∧
    [place.place?].Sublist names
  inner : ∃ head body, (head ++ body).Sublist names ∧ Built (InOrder head) (sequence d.head) ∧
    Built (InOrder body) d.body

def TryTail.Ordered (t : TryTail) : Prop :=
  ∃ handlers orelse final, (handlers ++ (orelse ++ final)).Sublist names ∧
    Built (InOrder handlers) (sequence t.handlers) ∧ Built (InOrder orelse) t.orelse ∧
    Built (InOrder final) t.final

def Trailer.Quiet : Trailer → Prop
  | .call arguments => Every (Built (Node.Quiet names)) arguments
  | .index inner => Built (Node.Quiet names) inner
  | .attribute _ => True

structure CompFor.Ordered (c : CompFor) : Prop where
  target : c.target.Value names
  iterable : c.iterable.Quiet names
  condition : ∀ e ∈ c.condition, e.Quiet names

/-- What a rule means binds names in order; the span is that of its tokens. -/
def Rule.Ordered : (r : Rule) → Span → r.Meaning → Prop
  | .file => fun _ => Built (Node.Ordered names)
  | .lines | .statements | .smalls => fun _ statements => Built (InOrder names) (concat statements)
  | .statement | .suite | .simple | .small | .optElse | .optFinally => fun _ =>
    Built (InOrder names)
  | .assignments => fun _ => Assignments.Ordered names
  | .moreAssignments | .moreTests | .moreExprs => fun _ => Values names
  | .moreOr | .moreAnd => fun _ => Every (Expr.Quiet names)
  | .optTestlist | .optTest | .assertMessage | .optDefault | .optKeyword | .optPower | .optUpper
  | .optCondition => fun _ (o : Option Expr) => ∀ e ∈ o, e.Quiet names
  | .moreNames => fun _ (tokens : List Token) =>
    (tokens.map fun t => some t.start).Sublist names
  | .optAlias => fun _ (o : Option Token) => ∀ t ∈ o, [some t.start].Sublist names
  | .dotted => fun span _ => ∃ p, span.place? = some p ∧ [some p].Sublist names
  | .moreDotted | .compareOp | .optNot | .mulOp | .moreStrings => fun _ _ => True
  | .moduleImport | .member => fun _ => Node.Ordered names
  | .moreModuleImports | .members | .moreMembers => fun _ => InOrder names
  | .elif => fun _ (c : Expr × Build (List Node)) =>
    c.1.Quiet names ∧ Built (InOrder names) c.2
  | .elifs => fun _ clauses => ∀ later orelse, Built (InOrder later) orelse →
    Built (InOrder (names ++ later)) (elifChain orelse clauses)
  | .tryTail => fun _ => TryTail.Ordered names
  | .handlers | .moreWithItems | .optParams | .moreParams => fun _ xs =>
    Built (InOrder names) (sequence xs)
  | .decorators | .optBases | .optArguments | .moreArguments => fun _ =>
    Every (Built (Node.Quiet names))
  | .handler | .withItem | .param => fun _ => Built (Node.Ordered names)
  | .decorator | .argument | .subscript => fun _ => Built (Node.Quiet names)
  | .handlerHead => fun _ (o : Option (Expr × Option Token)) =>
    ∀ h ∈ o, h.1.Quiet names ∧ ∀ t ∈ h.2, [some t.start].Sublist names
  | .definition => fun _ => Definition.Ordered names
  | .testlist | .exprlist | .test | .orTest | .andTest | .notTest | .comparison | .bitOr | .bitXor
  | .bitAnd | .shiftExpr | .arith | .term | .factor | .power | .primary | .atom => fun _ =>
    Expr.Value names
  | .optTernary => fun _ (o : Option (Expr × Expr)) => ∀ e ∈ o, e.1.Quiet names ∧ e.2.Quiet names
  | .moreCompare | .moreBitOr | .moreBitXor | .moreBitAnd | .moreShift | .moreArith | .moreTerm =>
    fun _ => Every fun operand : String × Expr => operand.2.Quiet names
  | .trailers => fun _ => Every fun t : Located Trailer => t.value.Quiet names
  | .trailer => fun _ => Trailer.Quiet names
  | .optSlice => fun _ (o : Option (Option Expr)) => ∀ upper ∈ o, ∀ e ∈ upper, e.Quiet names
  | .parenTail => fun _ (o : Option (Expr × List Expr)) => ∀ tail ∈ o,
    Values names (tail.1 :: tail.2)
  | .listRest => fun _ => Sum.elim (Values names) (CompFor.Ordered names)
  | .listTail => fun _ (o : Option (Expr × (List Expr ⊕ CompFor))) => ∀ tail ∈ o,
    Sum.elim (fun more => Values names (tail.1 :: more))
      (fun c => tail.1.Quiet names ∧ c.Ordered names) tail.2
  | .dictItem => fun _ (item : Expr × Expr) => item.1.Quiet names ∧ item.2.Quiet names
  | .moreDictItems => fun _ =>
    Every fun item : Expr × Expr => item.1.Quiet names ∧ item.2.Quiet names
  | .dictRest => fun _ =>
    Sum.elim (Every fun item => item.1.Quiet names ∧ item.2.Quiet names) (CompFor.Ordered names)
  | .dictTail => fun _ (o : Option ((Expr × Expr) × (List (Expr × Expr) ⊕ CompFor))) =>
    ∀ tail ∈ o, (tail.1.1.Quiet names ∧ tail.1.2.Quiet names) ∧
      Sum.elim (Every fun item => item.1.Quiet names ∧ item.2.Quiet names) (CompFor.Ordered names)
        tail.2
  | .compFor => fun _ => CompFor.Ordered names

/-- A name starts where its token does. -/
def Symbol.Ordered : (s : Symbol) → Located s.Meaning → Prop
  | .token kind => fun t : Located Token =>
    kind = .name → t.span = t.value.span ∧ [some t.value.start].Sublist names
  | .rule r => fun m => r.Ordered names m.span m.value

end

/-- Meanings in a row, each with its own names. -/
def Meanings.Ordered : (names : Places) → {ss : List Symbol} → Meanings ss → Prop
  | _, [], _ => True
  | names, s :: _, (first, rest) => ∃ here later, names = here ++ later ∧
    s.Ordered here first ∧ Meanings.Ordered later rest

/-- The same with the names of all of them for each. -/
def Meanings.OrderedAll (names : Places) : {ss : List Symbol} → Meanings ss → Prop
  | [], _ => True
  | s :: _, (first, rest) => s.Ordered names first ∧ rest.OrderedAll names

/-- The place of meanings in a row. -/
def Meanings.extent : {ss : List Symbol} → Meanings ss → Span
  | [], _ => .unknown
  | _ :: _, (first, rest) => first.span.cover rest.extent

variable {names more : Places}

/-! ## More names -/

section

variable (hmore : names.Sublist more)

include hmore

theorem built_quiet_mono {x : Build Node} (h : Built (Node.Quiet names) x) :
    Built (Node.Quiet more) x := h.imp fun _ hn => hn.mono hmore

theorem built_inOrder_mono {x : Build (List Node)} (h : Built (InOrder names) x) :
    Built (InOrder more) x := h.imp fun _ hn => hn.mono hmore

theorem Expr.Quiet.mono {e : Expr} (h : e.Quiet names) : e.Quiet more :=
  built_quiet_mono hmore h

theorem Values.mono {es : List Expr} (h : Values names es) : Values more es := by
  cases es with
  | nil => trivial
  | cons e es =>
    obtain ⟨here, later, hsub, hvalues⟩ := h
    exact ⟨here, later, hsub.trans hmore, hvalues⟩

theorem Trailer.Quiet.mono {t : Trailer} (h : t.Quiet names) : t.Quiet more := by
  cases t with
  | call arguments => exact Every.imp h fun _ => built_quiet_mono hmore
  | index inner => exact built_quiet_mono hmore h
  | «attribute» name => trivial

theorem CompFor.Ordered.mono {c : CompFor} (h : c.Ordered names) : c.Ordered more :=
  ⟨Built.imp h.target fun _ hn => hn.mono hmore, h.iterable.mono hmore,
    fun e he => (h.condition e he).mono hmore⟩

theorem Rule.Ordered.mono {r : Rule} {span : Span} {m : r.Meaning} (h : r.Ordered names span m) :
    r.Ordered more span m := by
  have hquiet : ∀ {e : Expr}, e.Quiet names → e.Quiet more := fun h => h.mono hmore
  have hpair : ∀ {a b : Expr}, a.Quiet names ∧ b.Quiet names → a.Quiet more ∧ b.Quiet more :=
    fun h => ⟨hquiet h.1, hquiet h.2⟩
  cases r with
  | file | handler | withItem | param => exact Built.imp h fun _ hn => hn.mono hmore
  | lines | statements | smalls | statement | suite | simple | small | optElse | optFinally
  | handlers | moreWithItems | optParams | moreParams => exact built_inOrder_mono hmore h
  | assignments =>
    cases m with
    | none => trivial
    | plain next rest => exact Values.mono hmore h
    | augmented op value => exact hquiet h
  | moreAssignments | moreTests | moreExprs => exact Values.mono hmore h
  | moreOr | moreAnd => exact Every.imp h fun _ => hquiet
  | optTestlist | optTest | assertMessage | optDefault | optKeyword | optPower | optUpper
  | optCondition => exact fun e he => hquiet (h e he)
  | moreNames => exact List.Sublist.trans h hmore
  | dotted =>
    obtain ⟨p, hstart, hp⟩ := h
    exact ⟨p, hstart, hp.trans hmore⟩
  | optAlias => exact fun t ht => (h t ht).trans hmore
  | moreDotted | compareOp | optNot | mulOp | moreStrings => trivial
  | moduleImport | member => exact Node.Ordered.mono h hmore
  | moreModuleImports | members | moreMembers => exact InOrder.mono h hmore
  | elif => exact ⟨hquiet h.1, built_inOrder_mono hmore h.2⟩
  | elifs =>
    intro later orelse horelse
    exact built_inOrder_mono (hmore.append_right later) (h later orelse horelse)
  | tryTail =>
    obtain ⟨handlers, orelse, final, hsub, hparts⟩ := h
    exact ⟨handlers, orelse, final, hsub.trans hmore, hparts⟩
  | decorators | optBases | optArguments | moreArguments =>
    exact Every.imp h fun _ => built_quiet_mono hmore
  | decorator | argument | subscript => exact built_quiet_mono hmore h
  | handlerHead =>
    exact fun head hh => ⟨hquiet (h head hh).1, fun t ht => ((h head hh).2 t ht).trans hmore⟩
  | definition =>
    obtain ⟨⟨word, place, hform, hplace⟩, head, body, hsub, hparts⟩ := h
    exact ⟨⟨word, place, hform, hplace.trans hmore⟩, head, body, hsub.trans hmore, hparts⟩
  | testlist | exprlist | test | orTest | andTest | notTest | comparison | bitOr | bitXor | bitAnd
  | shiftExpr | arith | term | factor | power | primary | atom =>
    exact Built.imp h fun _ hn => hn.mono hmore
  | optTernary => exact fun e he => hpair (h e he)
  | moreCompare | moreBitOr | moreBitXor | moreBitAnd | moreShift | moreArith | moreTerm =>
    exact Every.imp h fun _ => hquiet
  | trailers => exact Every.imp h fun _ ht => Trailer.Quiet.mono hmore ht
  | trailer => exact Trailer.Quiet.mono hmore h
  | optSlice => exact fun upper hu e he => hquiet (h upper hu e he)
  | parenTail => exact fun tail ht => (h tail ht).mono hmore
  | listRest =>
    cases m with
    | inl rest => exact Values.mono hmore h
    | inr c => exact CompFor.Ordered.mono hmore h
  | listTail =>
    intro tail ht
    have htail := h tail ht
    obtain ⟨first, rest | c⟩ := tail
    · exact Values.mono hmore htail
    · exact ⟨hquiet htail.1, htail.2.mono hmore⟩
  | dictItem => exact hpair h
  | moreDictItems => exact Every.imp h fun _ => hpair
  | dictRest =>
    cases m with
    | inl rest => exact Every.imp h fun _ => hpair
    | inr c => exact CompFor.Ordered.mono hmore h
  | dictTail =>
    intro tail ht
    have htail := h tail ht
    obtain ⟨first, rest | c⟩ := tail
    · exact ⟨hpair htail.1, Every.imp htail.2 fun _ => hpair⟩
    · exact ⟨hpair htail.1, CompFor.Ordered.mono hmore htail.2⟩
  | compFor => exact CompFor.Ordered.mono hmore h

theorem Symbol.Ordered.mono {s : Symbol} {m : Located s.Meaning} (h : s.Ordered names m) :
    s.Ordered more m := by
  cases s with
  | token kind => exact fun hkind => ⟨(h hkind).1, (h hkind).2.trans hmore⟩
  | rule r => exact Rule.Ordered.mono hmore h

end

theorem Meanings.Ordered.all {ss : List Symbol} {names : Places} {ms : Meanings ss}
    (h : ms.Ordered names) : ms.OrderedAll names := by
  have hall : ∀ {ss : List Symbol} {here names : Places} {ms : Meanings ss}, ms.Ordered here →
      here.Sublist names → ms.OrderedAll names := by
    intro ss
    induction ss with
    | nil => exact fun _ _ => trivial
    | cons s ss ih =>
      rintro _ names ⟨first, rest⟩ ⟨here, later, rfl, hfirst, hrest⟩ hsub
      exact ⟨hfirst.mono ((List.sublist_append_left _ _).trans hsub),
        ih hrest ((List.sublist_append_right _ _).trans hsub)⟩
  exact hall h (List.Sublist.refl _)

/-! ## The pieces that meanings are made of -/

theorem Expr.Value.quiet {e : Expr} (h : e.Value names) : e.Quiet names :=
  Built.imp h fun _ hn => hn.toQuiet

theorem quiet_sequence {xs : List (Build Node)} (h : Every (Built (Node.Quiet names)) xs) :
    Built (Every (Node.Quiet names)) (sequence xs) :=
  (built_sequence h).imp fun _ hns => hns.1

theorem quiet_nodes {es : List Expr} (h : Every (Expr.Quiet names) es) :
    Built (Every (Node.Quiet names)) (nodes es) := by
  refine quiet_sequence fun x hx => ?_
  obtain ⟨e, he, rfl⟩ := List.mem_map.mp hx
  exact h e he

theorem quiet_optional {o : Option Expr} (h : ∀ e ∈ o, e.Quiet names) :
    Built (Every (Node.Quiet names)) (optional o) := by
  cases o with
  | none => exact built_pure every_nil
  | some e => exact (h e rfl).bind fun n hn => built_pure (every_singleton hn)

theorem values_cons {e : Expr} {es : List Expr} (h : e.Value names) (hes : Values more es) :
    Values (names ++ more) (e :: es) := ⟨names, more, List.Sublist.refl _, h, hes⟩

theorem built_values {es : List Expr} (h : Values names es) :
    Built (fun ns => Every (Node.Quiet names) ns ∧ (ns.flatMap Node.targets).Sublist names)
      (nodes es) := by
  induction es generalizing names with
  | nil => exact built_pure ⟨every_nil, List.nil_sublist _⟩
  | cons e es ih =>
    obtain ⟨here, later, hsub, he, hes⟩ := h
    refine Built.bind he fun n hn => Built.bind (ih hes) fun ns hns => built_pure ?_
    refine ⟨every_cons ?_ ?_, ?_⟩
    · exact hn.toQuiet.mono ((List.sublist_append_left _ _).trans hsub)
    · exact hns.1.imp fun _ hm => hm.mono ((List.sublist_append_right _ _).trans hsub)
    · exact (hn.targets.append hns.2).trans hsub

theorem built_array {span : Span} {es : List Expr} (h : Values names es) :
    Built (Node.Value names) (arrayOf span es) :=
  (built_values h).bind fun _ hns => built_pure (Node.value_array hns.1 hns.2)

theorem value_commaList {span : Span} {first : Expr} {rest : List Expr}
    (hfirst : first.Value names) (hrest : Values more rest) :
    (commaList span first rest).Value (names ++ more) := by
  unfold commaList
  split
  · exact Built.imp hfirst fun _ hn => hn.mono (List.sublist_append_left _ _)
  · exact built_array (values_cons hfirst hrest)

theorem value_boolChain {op : String} {span : Span} {first : Expr} {rest : List Expr}
    (hfirst : first.Value names) (hrest : Every (Expr.Quiet names) rest) :
    (boolChain op span first rest).Value names := by
  unfold boolChain
  split
  · exact hfirst
  · refine (quiet_nodes (every_cons hfirst.quiet hrest)).bind fun ns hns => ?_
    exact built_pure (Node.value_make rfl rfl (every_singleton hns))

theorem built_binary {span : Span} {left : Node} {rest : List (String × Expr)}
    (hleft : left.Value names) (hrest : Every (fun operand => operand.2.Quiet names) rest) :
    Built (Node.Value names) (binaryFrom span left rest) := by
  induction rest generalizing left with
  | nil => exact built_pure hleft
  | cons operand rest ih =>
    refine Built.bind (hrest operand List.mem_cons_self) fun right hright => ?_
    refine ih (Node.value_make rfl rfl ?_) fun x hx => hrest x (List.mem_cons_of_mem _ hx)
    exact every_cons (every_singleton hleft.toQuiet) (every_singleton (every_singleton hright))

theorem value_binaryChain {span : Span} {first : Expr} {rest : List (String × Expr)}
    (hfirst : first.Value names) (hrest : Every (fun operand => operand.2.Quiet names) rest) :
    (binaryChain span first rest).Value names := by
  unfold binaryChain
  split
  · exact hfirst
  · exact Built.bind hfirst fun left hleft => built_binary hleft hrest

theorem value_compareChain {span : Span} {first : Expr} {rest : List (String × Expr)}
    (hfirst : first.Value names) (hrest : Every (fun operand => operand.2.Quiet names) rest) :
    (compareChain span first rest).Value names := by
  unfold compareChain
  split
  · exact hfirst
  · have hoperands : Every (Expr.Quiet names) (rest.map Prod.snd) := by
      intro e he
      obtain ⟨operand, hoperand, rfl⟩ := List.mem_map.mp he
      exact hrest operand hoperand
    refine Built.bind hfirst fun left hleft => (quiet_nodes hoperands).bind fun ns hns => ?_
    exact built_pure (Node.value_make rfl rfl
      (every_cons (every_singleton hleft.toQuiet) (every_singleton hns)))

/-- An assignment binds its target and then what its value binds. -/
theorem ordered_assign {span : Span} {op : String} {target value : Node}
    (htarget : target.Value names) (hvalue : value.Ordered more) :
    (Node.make span (.assign op) [[target], [value]]).Ordered (names ++ more) :=
  Node.ordered_target rfl rfl htarget (Node.fitsParts_singleton (Node.inOrder_singleton hvalue))

theorem built_assigns {span : Span} {first : Expr} {rest : List Expr}
    (h : Values names (first :: rest)) :
    Built (Node.Ordered names) (assignChain span first rest) := by
  induction rest generalizing names first with
  | nil =>
    obtain ⟨here, later, hsub, hfirst, _⟩ := h
    exact Built.imp hfirst fun _ hn =>
      hn.toQuiet.ordered.mono ((List.sublist_append_left _ _).trans hsub)
  | cons next rest ih =>
    obtain ⟨here, later, hsub, hfirst, hrest⟩ := h
    refine Built.bind (ih hrest) fun value hvalue => Built.bind hfirst fun target htarget => ?_
    exact built_pure ((ordered_assign htarget hvalue).mono hsub)

theorem inOrder_branch {all : Places} {span : Span} {test : Expr}
    {body orelse : Build (List Node)} (hsub : (names ++ more).Sublist all)
    (htest : test.Quiet all) (hbody : Built (InOrder names) body)
    (horelse : Built (InOrder more) orelse) :
    Built (InOrder all) (do
      let orelse ← orelse
      let test ← test.node
      let body ← body
      return [.make span .ifBranch [[test], body, orelse]]) := by
  refine horelse.bind fun orelse ho => Built.bind htest fun test ht => hbody.bind fun body hb => ?_
  refine built_pure (Node.inOrder_singleton (Node.ordered_make rfl ?_))
  exact Node.fitsParts_quiet_cons (every_singleton ht)
    ((Node.fitsParts_cons hb (Node.fitsParts_singleton ho)).mono hsub)

theorem built_trailers {start : Span} {node : Node} {trailers : List (Located Trailer)}
    (hnode : node.Value names) (htrailers : Every (fun t => t.value.Quiet names) trailers) :
    Built (Node.Value names) (trailerChain start node trailers) := by
  induction trailers generalizing node with
  | nil => exact built_pure hnode
  | cons trailer rest ih =>
    have hrest : ∀ applied : Node, applied.Value names →
        Built (Node.Value names) (trailerChain start applied rest) :=
      fun _ happlied => ih happlied fun t ht => htrailers t (List.mem_cons_of_mem _ ht)
    have hhere := every_singleton hnode.toQuiet
    have htrailer := htrailers trailer List.mem_cons_self
    obtain ⟨place, arguments | inner | name⟩ := trailer
    · refine (quiet_sequence htrailer).bind fun ns hns => hrest _ ?_
      exact Node.value_make rfl rfl (every_cons hhere (every_singleton hns))
    · refine Built.bind htrailer fun n hn => hrest _ ?_
      exact Node.value_make rfl rfl (every_cons hhere (every_singleton (every_singleton hn)))
    · exact hrest _ (Node.value_make rfl rfl (every_singleton hhere))

/-- A comprehension opens a scope and binds its target there. -/
theorem value_comprehension {span : Span} {element : Expr} {value : Option Expr} {c : CompFor}
    (helement : element.Quiet names) (hvalue : ∀ e ∈ value, e.Quiet names)
    (hc : c.Ordered names) : Built (Node.Value names) (comprehension span element value c) := by
  refine Built.bind helement fun element he => (quiet_optional hvalue).bind fun value hv => ?_
  refine Built.bind hc.target fun target ht => Built.bind hc.iterable fun iterable hi => ?_
  refine (quiet_optional hc.condition).bind fun condition hcond => built_pure ?_
  have hquiet : Every (Every (Node.Quiet names)) [[target], [iterable], condition, [element],
      value] :=
    every_cons (every_singleton ht.toQuiet) (every_cons (every_singleton hi)
      (every_cons hcond (every_cons (every_singleton he) (every_singleton hv))))
  refine Node.value_opener rfl rfl rfl ?_
  rw [Node.flowParts_of_quiet hquiet, List.append_nil]
  refine ⟨?_, (Node.fitsParts_of_quiet hquiet).scopes⟩
  exact List.Sublist.trans (Node.starts_targetEvents_sublist rfl) ht.targets

theorem value_dict {span : Span} {items : List (Expr × Expr)}
    (h : Every (fun item => item.1.Quiet names ∧ item.2.Quiet names) items) :
    Built (Node.Value names) (dictOf span items) := by
  have hkeys : Every (Expr.Quiet names) (items.map Prod.fst) := by
    intro e he
    obtain ⟨item, hitem, rfl⟩ := List.mem_map.mp he
    exact (h item hitem).1
  have hvalues : Every (Expr.Quiet names) (items.map Prod.snd) := by
    intro e he
    obtain ⟨item, hitem, rfl⟩ := List.mem_map.mp he
    exact (h item hitem).2
  refine (quiet_nodes hkeys).bind fun keys hk => (quiet_nodes hvalues).bind fun values hv => ?_
  refine built_pure (Node.value_make rfl rfl ?_)
  intro part hpart
  obtain ⟨⟨key, value⟩, hmem, rfl⟩ := List.mem_map.mp hpart
  obtain ⟨hkey, hvalue⟩ := List.of_mem_zip hmem
  exact every_cons (hk key hkey) (every_singleton (hv value hvalue))

theorem Definition.Ordered.node {d : Definition} (h : d.Ordered names) {decorators : List Node}
    (hdecorators : Every (Node.Quiet names) decorators) :
    Built (Node.Ordered names) (d.node decorators) := by
  obtain ⟨⟨word, place, hform, hplace⟩, head, body, hsub, hhead, hbody⟩ := h
  refine hhead.bind fun head hhead => hbody.bind fun body hbody => built_pure ?_
  have hparts := Node.fitsParts_quiet_cons hdecorators
    ((Node.fitsParts_cons hhead (Node.fitsParts_singleton hbody)).mono hsub)
  rcases hform with hform | hform <;> rw [hform] <;>
    exact Node.ordered_opener rfl hplace hparts

theorem quiet_deletion {span : Span} {target : Node} (h : target.Quiet names) :
    (deletion span target).Quiet names := by
  refine Node.quiet_make rfl (every_singleton ?_)
  split
  · next hform => exact fun c hc => h.children hform hc
  · exact every_singleton h

theorem place?_span (t : Token) : t.span.place? = some t.start := rfl

theorem ordered_declaration {span : Span} {keyword : String} {first : Token} {rest : List Token}
    (h : ((first :: rest).map fun t => some t.start).Sublist names) :
    (declarationOf span keyword first rest).Ordered names := by
  refine Node.ordered_binder_quiet rfl ?_ every_nil
  have hlevel : Node.Level (declarationOf span keyword first rest).events :=
    Node.level_of_actions (Node.isAction_events_declaration rfl)
  have hown : starts (declarationOf span keyword first rest).events =
      (first :: rest).map fun t => some t.start := by
    simp [declarationOf, Node.make, Node.events, Node.form, starts, List.filterMap_map,
      Function.comp_def, Event.boundAt?, place?_span]
  show (starts (declarationOf span keyword first rest).outward).Sublist names
  rw [Node.outward_of_level hlevel, hown]
  exact h

theorem ordered_varDef {span place : Span} {word : String} {value : List Node}
    (h : [place.place?].Sublist names) (hvalue : Every (Node.Quiet names) value) :
    (Node.make span (.varDef word place) [value]).Ordered names :=
  Node.ordered_binder_quiet rfl h (every_singleton hvalue)

/-- The name that a handler gives to what it catches. -/
theorem inOrder_binders {binder : Option Token} (h : ∀ t ∈ binder, [some t.start].Sublist names) :
    InOrder names (binder.toList.map fun t => Node.make t.span (.varDef t.text t.span) [[]]) := by
  cases binder with
  | none => exact Node.inOrder_nil names
  | some t => exact Node.inOrder_singleton (ordered_varDef (h t rfl) every_nil)

/-- An import binds its other name, or else stands for itself. -/
theorem ordered_moduleImport {span : Span} {first : String} {rest : List String}
    {asName : Option Token} (hspan : [span.place?].Sublist names)
    (hname : ∀ t ∈ asName, [some t.start].Sublist names) :
    (Node.make span (.importModule (first :: rest) (asName.map Token.text)
      (asName.map Token.span)) []).Ordered names := by
  refine Node.ordered_binder_quiet rfl ?_ every_nil
  cases hword : Node.word? (asName.map Token.text) with
  | none => simpa [Node.make, Node.outward, Node.events, Node.form, Node.span, hword, starts,
      Event.isEntry, Event.boundAt?] using hspan
  | some other =>
    cases asName with
    | none => cases hword
    | some t =>
      rw [Option.map_some] at hword
      simpa [Node.make, Node.outward, Node.events, Node.form, hword, starts,
        Event.isEntry, Event.boundAt?, place?_span] using hname t rfl

theorem start_cover {a b : Span} {p : Position} (h : a.place? = some p) :
    (a.cover b).place? = some p := by
  obtain ⟨stop, hstop, hstart⟩ := Option.bind_eq_some_iff.mp h
  cases hb : b.stop <;> simp [Span.place?, Span.cover, hstop, hstart, hb]

theorem value_slice {span : Span} {lower upper : Option Expr}
    (hlower : ∀ e ∈ lower, e.Quiet names) (hupper : ∀ e ∈ upper, e.Quiet names) :
    Built (Node.Quiet names) (slice span lower upper) := by
  refine (quiet_optional hlower).bind fun lower hl => ?_
  refine (quiet_optional hupper).bind fun upper hu => built_pure ?_
  exact Node.quiet_make rfl (every_cons hl (every_singleton hu))

theorem inOrder_concat {x : Build (List Node)} {xs : List (Build (List Node))}
    (hx : Built (InOrder names) x) (hxs : Built (InOrder more) (concat xs)) :
    Built (InOrder (names ++ more)) (concat (x :: xs)) := by
  refine Built.bind (P := fun values => InOrder (names ++ more) values.flatten) ?_
    fun values hvalues => built_pure hvalues
  refine hx.bind fun value hvalue => Built.bind (P := fun values => InOrder more values.flatten) ?_
    fun values hvalues => built_pure (hvalue.append hvalues)
  intro values hvalues
  exact hxs values.flatten (by simp [concat, hvalues, bind, Except.bind, pure, Except.pure])

theorem inOrder_sequence {x : Build Node} {xs : List (Build Node)}
    (hx : Built (Node.Ordered names) x) (hxs : Built (InOrder more) (sequence xs)) :
    Built (InOrder (names ++ more)) (sequence (x :: xs)) :=
  hx.bind fun _ hvalue => hxs.bind fun _ hvalues => built_pure (Node.inOrder_cons hvalue hvalues)

/-! ## Productions -/

section

variable {here later rest : Places}

/-- What comes later is still there. -/
theorem skip (h : rest.Sublist later) : rest.Sublist (here ++ later) :=
  h.trans (List.sublist_append_right _ _)

theorem keep (h : rest.Sublist later) : (here ++ rest).Sublist (here ++ later) :=
  h.append_left here

theorem take : here.Sublist (here ++ later) := List.sublist_append_left _ _

end

/-- A name starts where its token is located. -/
theorem start_name {t : Located Token} (h : Symbol.Ordered names (.token .name) t) :
    [t.span.place?].Sublist names := by
  obtain ⟨hspan, hstart⟩ := h rfl
  rw [hspan]
  exact hstart

/-- A production keeps names in order, from the meanings of its symbols to its own. -/
theorem Production.ordered_meaning {r : Rule} (p : Production r) (ms : Meanings p.symbols)
    (h : ms.Ordered names) : r.Ordered names ms.extent (p.meaning ms.extent ms) := by
  have hall := h.all
  cases p with
  -- nothing there
  | linesEnd | statementsEnd | smallsEnd | optElseNone | optFinallyNone | handlersEnd
  | moreWithItemsEnd | optParamsNone | moreParamsEnd => exact built_pure (Node.inOrder_nil names)
  | moreModuleImportsEnd | moreMembersEnd => exact Node.inOrder_nil names
  | decoratorsEnd | optBasesNone | optArgumentsNone | moreArgumentsEnd | moreOrEnd | moreAndEnd
  | moreCompareEnd | moreBitOrEnd | moreBitXorEnd | moreBitAndEnd | moreShiftEnd | moreArithEnd
  | moreTermEnd | trailersEnd | moreDictItemsEnd =>
    exact every_nil
  | optTestlistNone | optTestNone | assertMessageNone | handlerHeadNone | optDefaultNone
  | optKeywordNone | optAliasNone | optTernaryNone | optPowerNone | optSliceNone | optUpperNone
  | parenTailEmpty | listTailEmpty | dictTailEmpty | optConditionNone =>
    rintro _ ⟨⟩
  | assignmentsNone | moreAssignmentsEnd | moreTestsEnd | moreExprsEnd | moreDottedEnd
  | moreDottedMore | compareOpRelation | compareOpIn | compareOpNotIn | compareOpIs | optNotNone
  | optNotSome | mulOpStar | mulOpDivide | moreStringsEnd | moreStringsShort | moreStringsLong
  | trailerAttribute => trivial
  | moreNamesEnd => exact List.nil_sublist _
  -- what a symbol means, as it is
  | statementSimple | suiteInline | notTestComparison | factorPower =>
    obtain ⟨hvalue, _⟩ := hall
    exact hvalue
  | linesBlank | optBasesSome =>
    obtain ⟨_, hvalue, _⟩ := hall
    exact hvalue
  | optElseSome | optFinallySome =>
    obtain ⟨_, _, hvalue, _⟩ := hall
    exact hvalue
  | optTestlistSome | optTestSome | optUpperSome =>
    obtain ⟨hvalue, _⟩ := hall
    rintro _ ⟨⟩
    exact Expr.Value.quiet hvalue
  | assertMessageSome | optDefaultSome | optKeywordSome | optPowerSome | optConditionSome =>
    obtain ⟨_, hvalue, _⟩ := hall
    rintro _ ⟨⟩
    exact Expr.Value.quiet hvalue
  | optSliceSome =>
    obtain ⟨_, hvalue, _⟩ := hall
    rintro _ ⟨⟩
    exact hvalue
  | optAliasSome =>
    obtain ⟨_, hname, _⟩ := hall
    rintro _ ⟨⟩
    exact (hname rfl).2
  | trailerCall | trailerIndex =>
    obtain ⟨_, hinner, _⟩ := hall
    exact hinner
  | listRestItems | listRestFor | dictRestItems | dictRestFor =>
    obtain ⟨hinner, _⟩ := hall
    exact hinner
  -- lists
  | decoratorsMore | optArgumentsSome | trailersMore =>
    obtain ⟨hfirst, hmore, _⟩ := hall
    exact every_cons hfirst hmore
  | moreArgumentsMore | moreDictItemsMore =>
    obtain ⟨_, hfirst, hmore, _⟩ := hall
    exact every_cons hfirst hmore
  | moreOrMore | moreAndMore | moreCompareMore | moreBitOrMore | moreBitXorMore | moreBitAndMore
  | moreShiftMore | moreArithMore | moreTermMore =>
    obtain ⟨_, hfirst, hmore, _⟩ := hall
    exact every_cons (Expr.Value.quiet hfirst) hmore
  | linesMore | statementsMore =>
    obtain ⟨_, _, rfl, hfirst, _, later, rfl, hmore, _⟩ := h
    exact built_inOrder_mono (keep take) (inOrder_concat hfirst hmore)
  | smallsMore =>
    obtain ⟨_, _, rfl, _, _, _, rfl, hfirst, _, later, rfl, hmore, _⟩ := h
    exact built_inOrder_mono (skip (keep take)) (inOrder_concat hfirst hmore)
  | simple =>
    obtain ⟨_, _, rfl, hfirst, _, later, rfl, hmore, _⟩ := h
    exact built_inOrder_mono (keep take) (inOrder_concat hfirst hmore)
  | suiteBlock =>
    obtain ⟨_, _, rfl, _, _, _, rfl, _, _, _, rfl, hfirst, _, later, rfl, hmore, _⟩ := h
    exact built_inOrder_mono (skip (skip (keep take))) (inOrder_concat hfirst hmore)
  | handlersMore | optParamsSome =>
    obtain ⟨_, _, rfl, hfirst, _, later, rfl, hmore, _⟩ := h
    exact built_inOrder_mono (keep take) (inOrder_sequence hfirst hmore)
  | moreWithItemsMore | moreParamsMore =>
    obtain ⟨_, _, rfl, _, _, _, rfl, hfirst, _, later, rfl, hmore, _⟩ := h
    exact built_inOrder_mono (skip (keep take)) (inOrder_sequence hfirst hmore)
  | moreAssignmentsMore | moreTestsMore | moreExprsMore =>
    obtain ⟨_, _, rfl, _, _, _, rfl, hfirst, _, later, rfl, hmore, _⟩ := h
    exact Values.mono (skip (keep take)) (values_cons hfirst hmore)
  | moreModuleImportsMore | moreMembersMore =>
    obtain ⟨_, _, rfl, _, _, _, rfl, hfirst, _, later, rfl, hmore, _⟩ := h
    exact (Node.inOrder_cons hfirst hmore).mono (skip (keep take))
  | membersBare =>
    obtain ⟨_, _, rfl, hfirst, _, later, rfl, hmore, _⟩ := h
    exact (Node.inOrder_cons hfirst hmore).mono (keep take)
  | membersParen =>
    obtain ⟨_, _, rfl, _, _, _, rfl, hfirst, _, later, rfl, hmore, _⟩ := h
    exact (Node.inOrder_cons hfirst hmore).mono (skip (keep take))
  | moreNamesMore =>
    obtain ⟨_, _, rfl, _, _, _, rfl, hfirst, _, later, rfl, hmore, _⟩ := h
    exact skip (((hfirst rfl).2.append hmore).trans (keep take))
  -- statements
  | file =>
    obtain ⟨hlines, _⟩ := hall
    refine Built.bind hlines fun body hbody => built_pure ?_
    exact Node.ordered_opener rfl (List.nil_sublist _) (Node.fitsParts_singleton hbody)
  | statementIf =>
    obtain ⟨_, htest, _⟩ := hall
    obtain ⟨_, _, rfl, _, _, _, rfl, _, _, _, rfl, _, _, _, rfl, hbody, _, _, rfl, helifs,
      _, later, rfl, horelse, _⟩ := h
    refine inOrder_branch ?_ (Expr.Value.quiet htest) hbody (helifs _ _ horelse)
    exact skip (skip (skip (keep (keep take))))
  | elifsEnd =>
    exact fun later orelse horelse => built_inOrder_mono (List.sublist_append_right _ _) horelse
  | elifsMore =>
    obtain ⟨_, _, rfl, ⟨htest, hbody⟩, _, rest, rfl, hmore, _⟩ := h
    intro later orelse horelse
    refine inOrder_branch ?_ (htest.mono ?_) hbody (hmore later orelse horelse)
    · rw [List.append_assoc, List.append_assoc]
      exact keep (keep (List.sublist_append_right _ _))
    · rw [List.append_assoc]
      exact take
  | elif =>
    obtain ⟨_, htest, _, hbody, _⟩ := hall
    exact ⟨Expr.Value.quiet htest, hbody⟩
  | statementWhile =>
    obtain ⟨_, _, rfl, _, _, _, rfl, htest, _, _, rfl, _, _, _, rfl, hbody, _, later, rfl,
      horelse, _⟩ := h
    refine Built.bind htest fun test ht => Built.bind hbody fun body hb => ?_
    refine Built.bind horelse fun orelse ho => built_pure (Node.inOrder_singleton ?_)
    refine Node.ordered_make rfl (Node.fitsParts_quiet_cons (every_singleton ?_) ?_)
    · exact ht.toQuiet.mono (skip take)
    · exact (Node.fitsParts_cons hb (Node.fitsParts_singleton ho)).mono
        (skip (skip (skip (keep take))))
  | statementFor =>
    obtain ⟨_, _, rfl, _, _, _, rfl, htarget, _, _, rfl, _, _, _, rfl, hiterable, _, _, rfl, _, _,
      _, rfl, hbody, _, later, rfl, horelse, _⟩ := h
    refine Built.bind htarget fun target ht => Built.bind hiterable fun iterable hi => ?_
    refine Built.bind hbody fun body hb => Built.bind horelse fun orelse ho => ?_
    refine built_pure (Node.inOrder_singleton (Node.Ordered.mono ?_ (skip (List.Sublist.refl _))))
    refine Node.ordered_target rfl rfl ht (Node.fitsParts_quiet_cons (every_singleton ?_) ?_)
    · exact hi.toQuiet.mono (skip take)
    · exact (Node.fitsParts_cons hb (Node.fitsParts_singleton ho)).mono
        (skip (skip (skip (keep take))))
  | statementTry =>
    obtain ⟨_, _, rfl, _, _, _, rfl, _, _, _, rfl, hbody, _, later, rfl, htail, _⟩ := h
    obtain ⟨handlers, orelse, final, hsub, hhandlers, horelse, hfinal⟩ := htail
    refine Built.bind hbody fun body hb => hhandlers.bind fun handlers hh => ?_
    refine horelse.bind fun orelse ho => hfinal.bind fun final hf => ?_
    refine built_pure (Node.inOrder_singleton (Node.ordered_make rfl ?_))
    refine (Node.fitsParts_cons hb ((Node.fitsParts_cons hh (Node.fitsParts_cons ho
      (Node.fitsParts_singleton hf))).mono hsub)).mono ?_
    exact skip (skip (keep take))
  | statementWith =>
    obtain ⟨_, _, rfl, _, _, _, rfl, hfirst, _, _, rfl, hmore, _, _, rfl, _, _, later, rfl,
      hbody, _⟩ := h
    refine Built.bind (inOrder_sequence hfirst hmore) fun items hi => ?_
    refine Built.bind hbody fun body hb => built_pure (Node.inOrder_singleton ?_)
    refine Node.ordered_make rfl ((Node.fitsParts_cons hi (Node.fitsParts_singleton hb)).mono ?_)
    rw [List.append_assoc]
    exact skip (keep (keep (skip take)))
  | statementDefinition =>
    obtain ⟨hdefinition, _⟩ := hall
    exact (Definition.Ordered.node hdefinition every_nil).bind fun n hn =>
      built_pure (Node.inOrder_singleton hn)
  | statementDecorated =>
    obtain ⟨hfirst, hmore, hdefinition, _⟩ := hall
    refine (quiet_sequence (every_cons hfirst hmore)).bind fun decorators hd => ?_
    exact (Definition.Ordered.node hdefinition hd).bind fun n hn =>
      built_pure (Node.inOrder_singleton hn)
  | smallExpr =>
    obtain ⟨_, _, rfl, hfirst, _, later, rfl, hrest, _⟩ := h
    obtain ⟨first, ⟨place, rest⟩, _⟩ := ms
    cases rest with
    | none =>
      refine Built.bind hfirst fun n hn => built_pure (Node.inOrder_singleton ?_)
      refine (Node.quiet_make rfl (every_singleton (every_singleton ?_))).ordered
      exact hn.toQuiet.mono take
    | plain next more =>
      refine (built_assigns (values_cons hfirst hrest)).bind fun n hn => ?_
      exact built_pure (Node.inOrder_singleton (hn.mono (keep take)))
    | augmented op value =>
      refine Built.bind hfirst fun target ht => Built.bind hrest fun value hv => ?_
      exact built_pure (Node.inOrder_singleton ((ordered_assign ht hv.ordered).mono (keep take)))
  | smallPass | smallBreak | smallContinue | smallEmpty =>
    exact built_pure (Node.inOrder_singleton (Node.quiet_make rfl every_nil).ordered)
  | smallReturn | smallRaise =>
    obtain ⟨_, hvalue, _⟩ := hall
    refine (quiet_optional hvalue).bind fun value hv => built_pure (Node.inOrder_singleton ?_)
    exact (Node.quiet_make rfl (every_singleton hv)).ordered
  | smallDel =>
    obtain ⟨_, htarget, _⟩ := hall
    exact Built.bind htarget fun target ht =>
      built_pure (Node.inOrder_singleton (quiet_deletion ht.toQuiet).ordered)
  | smallAssert =>
    obtain ⟨_, htest, hmessage, _⟩ := hall
    refine Built.bind htest fun test ht => (quiet_optional hmessage).bind fun message hm => ?_
    refine built_pure (Node.inOrder_singleton (Node.quiet_make rfl ?_).ordered)
    exact every_cons (every_singleton ht.toQuiet) (every_singleton hm)
  | smallGlobal | smallNonlocal =>
    obtain ⟨_, _, rfl, _, _, _, rfl, hfirst, _, later, rfl, hmore, _⟩ := h
    refine built_pure (Node.inOrder_singleton (ordered_declaration ?_))
    exact skip (((hfirst rfl).2.append hmore).trans (keep take))
  | smallImport =>
    obtain ⟨_, _, rfl, _, _, _, rfl, hfirst, _, later, rfl, hmore, _⟩ := h
    exact built_pure ((Node.inOrder_cons hfirst hmore).mono (skip (keep take)))
  | smallFrom =>
    obtain ⟨_, _, _, hmembers, _⟩ := hall
    exact built_pure (Node.inOrder_singleton (Node.ordered_make rfl
      (Node.fitsParts_singleton hmembers)))
  | assignmentsPlain =>
    obtain ⟨_, _, rfl, _, _, _, rfl, hnext, _, later, rfl, hmore, _⟩ := h
    exact Values.mono (skip (keep take)) (values_cons hnext hmore)
  | assignmentsAugmented =>
    obtain ⟨_, hvalue, _⟩ := hall
    exact Expr.Value.quiet hvalue
  | tryTailFinally =>
    obtain ⟨_, _, hbody, _⟩ := hall
    exact ⟨[], [], names, List.Sublist.refl _, built_pure (Node.inOrder_nil _),
      built_pure (Node.inOrder_nil _), hbody⟩
  | tryTailHandlers =>
    obtain ⟨_, _, rfl, hfirst, _, _, rfl, hmore, _, _, rfl, horelse, _, later, rfl, hfinal, _⟩ := h
    refine ⟨_, _, _, ?_, inOrder_sequence hfirst hmore, horelse, hfinal⟩
    rw [List.append_assoc]
    exact keep (keep (keep take))
  | handler =>
    obtain ⟨_, _, rfl, _, caught, _, rfl, hhead, _, _, rfl, _, _, later, rfl, hbody, _⟩ := h
    obtain ⟨_, ⟨_, head⟩, _, body, _⟩ := ms
    have htype : ∀ e ∈ Option.map Prod.fst head, e.Quiet caught := by
      intro e he
      obtain ⟨clause, hclause, rfl⟩ := Option.map_eq_some_iff.mp he
      exact (hhead clause hclause).1
    have hbinder : ∀ t ∈ Option.bind head Prod.snd, [some t.start].Sublist caught := by
      intro t ht
      obtain ⟨clause, hclause, ht⟩ := Option.bind_eq_some_iff.mp ht
      exact (hhead clause hclause).2 t ht
    refine (quiet_optional htype).bind fun type ht => Built.bind hbody fun body hb => ?_
    refine built_pure (Node.ordered_make rfl (Node.fitsParts_quiet_cons ?_ ?_))
    · exact ht.imp fun _ hn => hn.mono (skip take)
    · exact (Node.fitsParts_cons (inOrder_binders hbinder) (Node.fitsParts_singleton hb)).mono
        (skip (keep (skip take)))
  | handlerHeadSome =>
    obtain ⟨htype, hbinder, _⟩ := hall
    rintro _ ⟨⟩
    exact ⟨Expr.Value.quiet htype, hbinder⟩
  | withItem =>
    obtain ⟨hvalue, hbinder, _⟩ := hall
    obtain ⟨value, ⟨place, asName⟩, _⟩ := ms
    refine Built.bind hvalue fun n hn => ?_
    cases asName with
    | none => exact built_pure hn.toQuiet.ordered
    | some t => exact built_pure (ordered_varDef (hbinder t rfl) (every_singleton hn.toQuiet))
  | decorator =>
    obtain ⟨_, _, harguments, _⟩ := hall
    exact (quiet_sequence harguments).bind fun ns hns =>
      built_pure (Node.quiet_make rfl (every_singleton hns))
  | moduleImport =>
    obtain ⟨⟨p, hstart, hp⟩, hbinder, _⟩ := hall
    have hcover : ms.extent.place? = some p := start_cover hstart
    exact ordered_moduleImport (hcover ▸ hp) hbinder
  | member =>
    obtain ⟨hname, _⟩ := hall
    obtain ⟨hspan, hstart⟩ := hname rfl
    have hcover : ms.extent.place? = _ := start_cover (congrArg Span.place? hspan)
    have hown : [ms.extent.place?].Sublist names := hcover ▸ hstart
    exact Node.ordered_binder_quiet rfl hown every_nil
  | dotted =>
    obtain ⟨hname, _⟩ := hall
    obtain ⟨hspan, hstart⟩ := hname rfl
    exact ⟨_, start_cover (congrArg Span.place? hspan), hstart⟩
  | definitionFunction =>
    obtain ⟨_, hname, _⟩ := hall
    obtain ⟨_, _, rfl, _, _, _, rfl, _, _, _, rfl, _, _, _, rfl, hparams, _, _, rfl, _, _, _, rfl,
      _, _, later, rfl, hbody, _⟩ := h
    refine ⟨⟨_, _, .inl rfl, start_name hname⟩, _, _, ?_, hparams, hbody⟩
    exact skip (skip (skip (keep (skip (skip take)))))
  | definitionClass =>
    obtain ⟨_, hname, _⟩ := hall
    obtain ⟨_, _, rfl, _, _, _, rfl, _, _, _, rfl, hbases, _, _, rfl, _, _, later, rfl, hbody,
      _⟩ := h
    refine ⟨⟨_, _, .inr rfl, start_name hname⟩, _, _, ?_,
      (quiet_sequence hbases).imp fun _ => Node.inOrder_of_quiet, hbody⟩
    exact skip (skip (keep (skip take)))
  | paramPlain =>
    obtain ⟨hname, hdefault, _⟩ := hall
    exact (quiet_optional hdefault).bind fun ns hns => built_pure
      (Node.ordered_binder_quiet rfl (start_name hname) (every_singleton hns))
  | paramStar | paramDoubleStar =>
    obtain ⟨_, hname, _⟩ := hall
    exact built_pure
      (Node.ordered_binder_quiet rfl (start_name hname) (every_singleton every_nil))
  -- expressions
  | argumentPlain =>
    obtain ⟨hkey, hvalue, _⟩ := hall
    obtain ⟨⟨place, identifier, node⟩, ⟨_, value⟩, _⟩ := ms
    cases value with
    | none => exact Expr.Value.quiet hkey
    | some value =>
      cases identifier with
      | none => rintro _ ⟨⟩
      | some name =>
        exact Built.bind (hvalue value rfl) fun n hn =>
          built_pure (Node.quiet_make rfl (every_singleton (every_singleton hn)))
  | argumentStar | argumentDoubleStar =>
    obtain ⟨_, hvalue, _⟩ := hall
    exact Built.bind hvalue fun n hn =>
      built_pure (Node.quiet_make rfl (every_singleton (every_singleton hn.toQuiet)))
  | notTestNot | factorSign | factorTilde =>
    obtain ⟨_, hvalue, _⟩ := hall
    exact Built.bind hvalue fun n hn =>
      built_pure (Node.value_make rfl rfl (every_singleton (every_singleton hn.toQuiet)))
  | testlist | exprlist =>
    obtain ⟨_, _, rfl, hfirst, _, later, rfl, hmore, _⟩ := h
    exact Built.imp (value_commaList hfirst hmore) fun _ hn => hn.mono (keep take)
  | testValue =>
    obtain ⟨hvalue, hternary, _⟩ := hall
    obtain ⟨value, ⟨_, ternary⟩, _⟩ := ms
    cases ternary with
    | none => exact hvalue
    | some ternary =>
      obtain ⟨htest, horelse⟩ := hternary ternary rfl
      refine Built.bind hvalue fun body hb => Built.bind htest fun test ht => ?_
      refine Built.bind horelse fun orelse ho => built_pure (Node.value_make rfl rfl ?_)
      exact every_cons (every_singleton hb.toQuiet)
        (every_cons (every_singleton ht) (every_singleton (every_singleton ho)))
  | testLambda =>
    obtain ⟨_, _, rfl, _, _, _, rfl, hparams, _, _, rfl, _, _, later, rfl, hbody, _⟩ := h
    refine Built.bind hparams fun params hp => Built.bind hbody fun body hb => built_pure ?_
    refine Node.value_opener rfl rfl rfl ?_
    have hinner := Node.fitsParts_cons hp
      (Node.fitsParts_singleton (Node.inOrder_of_quiet (every_singleton hb.toQuiet)))
    exact hinner.mono (skip (keep (skip take)))
  | optTernarySome =>
    obtain ⟨_, htest, _, horelse, _⟩ := hall
    rintro _ ⟨⟩
    exact ⟨Expr.Value.quiet htest, Expr.Value.quiet horelse⟩
  | orTest | andTest =>
    obtain ⟨hfirst, hmore, _⟩ := hall
    exact value_boolChain hfirst hmore
  | comparison =>
    obtain ⟨hfirst, hmore, _⟩ := hall
    exact value_compareChain hfirst hmore
  | bitOr | bitXor | bitAnd | shiftExpr | arith | term =>
    obtain ⟨hfirst, hmore, _⟩ := hall
    exact value_binaryChain hfirst hmore
  | power =>
    obtain ⟨hbase, hexponent, _⟩ := hall
    obtain ⟨base, ⟨_, exponent⟩, _⟩ := ms
    cases exponent with
    | none => exact hbase
    | some exponent =>
      refine Built.bind hbase fun left hl => Built.bind (hexponent exponent rfl) fun right hr => ?_
      exact built_pure (Node.value_make rfl rfl (every_cons (every_singleton hl.toQuiet)
        (every_singleton (every_singleton hr))))
  | primary =>
    obtain ⟨hbase, htrailers, _⟩ := hall
    obtain ⟨base, ⟨_, trailers⟩, _⟩ := ms
    cases trailers with
    | nil => exact hbase
    | cons first more => exact Built.bind hbase fun n hn => built_trailers hn htrailers
  | subscriptTest =>
    obtain ⟨hlower, hupper, _⟩ := hall
    obtain ⟨lower, ⟨_, upper⟩, _⟩ := ms
    cases upper with
    | none => exact Expr.Value.quiet hlower
    | some upper =>
      refine value_slice ?_ (hupper upper rfl)
      rintro _ ⟨⟩
      exact Expr.Value.quiet hlower
  | subscriptColon =>
    obtain ⟨_, hupper, _⟩ := hall
    exact value_slice (by rintro _ ⟨⟩) hupper
  -- brackets
  | atomParen =>
    obtain ⟨_, htail, _⟩ := hall
    obtain ⟨_, ⟨_, tail⟩, _⟩ := ms
    rcases tail with _ | ⟨first, _ | ⟨second, more⟩⟩
    · exact built_array trivial
    · obtain ⟨here, later, hsub, hfirst, _⟩ := htail _ rfl
      exact Built.imp hfirst fun _ hn => hn.mono (take.trans hsub)
    · exact built_array (htail _ rfl)
  | atomList =>
    obtain ⟨_, htail, _⟩ := hall
    obtain ⟨_, ⟨_, tail⟩, _⟩ := ms
    rcases tail with _ | ⟨first, more | c⟩
    · exact built_array trivial
    · exact built_array (htail _ rfl)
    · obtain ⟨hfirst, hc⟩ := htail _ rfl
      exact value_comprehension hfirst (by rintro _ ⟨⟩) hc
  | atomDict =>
    obtain ⟨_, htail, _⟩ := hall
    obtain ⟨_, ⟨_, tail⟩, _⟩ := ms
    rcases tail with _ | ⟨⟨key, value⟩, more | c⟩
    · exact value_dict every_nil
    · obtain ⟨hfirst, hmore⟩ := htail _ rfl
      exact value_dict (every_cons hfirst hmore)
    · obtain ⟨⟨hkey, hvalue⟩, hc⟩ := htail _ rfl
      refine value_comprehension hkey ?_ hc
      rintro _ ⟨⟩
      exact hvalue
  | atomName =>
    obtain ⟨hname, _⟩ := hall
    exact built_pure ⟨Node.quiet_make rfl every_nil, start_name hname⟩
  | atomNumber | atomString | atomLongString | atomNone | atomTrue | atomFalse =>
    exact built_pure (Node.value_make rfl rfl every_nil)
  | parenTailTests =>
    obtain ⟨_, _, rfl, hfirst, _, later, rfl, hmore, _⟩ := h
    rintro _ ⟨⟩
    exact Values.mono (keep take) (values_cons hfirst hmore)
  | listTailTests =>
    obtain ⟨_, _, rfl, hfirst, _, later, rfl, hrest, _⟩ := h
    obtain ⟨first, ⟨_, rest⟩, _⟩ := ms
    rintro _ ⟨⟩
    cases rest with
    | inl more => exact Values.mono (keep take) (values_cons hfirst hrest)
    | inr c =>
      exact ⟨(Expr.Value.quiet hfirst).mono take, CompFor.Ordered.mono (skip take) hrest⟩
  | dictTailItems =>
    obtain ⟨hfirst, hrest, _⟩ := hall
    rintro _ ⟨⟩
    exact ⟨hfirst, hrest⟩
  | dictItem =>
    obtain ⟨hkey, _, hvalue, _⟩ := hall
    exact ⟨Expr.Value.quiet hkey, Expr.Value.quiet hvalue⟩
  | compFor =>
    obtain ⟨_, htarget, _, hiterable, hcondition, _⟩ := hall
    exact ⟨htarget, Expr.Value.quiet hiterable, hcondition⟩

/-! ## Derivations -/

/-- Where the names among tokens start. -/
def nameStarts (tokens : List Token) : Places :=
  (tokens.filter fun t => t.kind = .name).map fun t => some t.start

theorem nameStarts_append (first second : List Token) :
    nameStarts (first ++ second) = nameStarts first ++ nameStarts second := by
  simp [nameStarts]

theorem Forest.extent_meanings {ss : List Symbol} (f : Forest ss) :
    f.meanings.2.extent = f.meanings.1 := by
  induction ss with
  | nil =>
    cases f
    rfl
  | cons s ss ih =>
    cases f with
    | cons head tail => exact congrArg head.meaning.span.cover (ih tail)

mutual

theorem Tree.ordered_meaning {s : Symbol} (t : Tree s) :
    s.Ordered (nameStarts t.tokens) t.meaning := by
  match t with
  | .leaf u fits =>
    intro hkind
    refine ⟨rfl, ?_⟩
    simp [Tree.meaning, Tree.tokens, nameStarts, fits.trans hkind]
  | .node p children =>
    have hmeaning := p.ordered_meaning _ (Forest.ordered_meanings children)
    rw [children.extent_meanings] at hmeaning
    exact hmeaning

theorem Forest.ordered_meanings {ss : List Symbol} (f : Forest ss) :
    f.meanings.2.Ordered (nameStarts f.tokens) := by
  match f with
  | .nil => trivial
  | .cons head tail =>
    exact ⟨_, _, nameStarts_append _ _, Tree.ordered_meaning head, Forest.ordered_meanings tail⟩

end

end ScopeLint.Grammar
