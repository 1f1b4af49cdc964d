import ScopeLint.Proofs.Augmented
import ScopeLint.Proofs.Enclosing
import ScopeLint.Proofs.Pointing

/-! # What the flags of a binding tell

A walk gives a binding its flags from the node that makes it, or, for a `with` item,
from the value that the item names. Told from the tree: a name in a scope is bound
by a construct of the language, and the flags are those of the construct. A value
is an expression, so of all constructs only a lambda lends its flag to a name. -/
namespace ScopeLint

/-- The constructs that bind names. -/
inductive Construct where
  | importing
  | classDefinition
  | functionDefinition
  | parameter
  /-- A target of a loop or a comprehension. -/
  | loopTarget
  /-- A `with` item that names a lambda. -/
  | namedLambda
  /-- An assignment, another `with` item, an exception, or a declaration of outer names. -/
  | plain
deriving DecidableEq, Repr

namespace Construct

/-- The flags of a construct, but for those that only come with a place in the text. -/
def traits (c : Construct) : Traits :=
  { isImport := c = .importing
    isClass := c = .classDefinition
    isFunction := c = .functionDefinition ∨ c = .namedLambda
    isFuncArg := c = .parameter }

def isLoop (c : Construct) : Bool := c = .loopTarget

/-- What a binding keeps that is made by a construct, at the top level or not. -/
def record (c : Construct) (top : Bool) (name : String) (span : Span) :
    String × Span × Traits × Bool :=
  (name, span, { c.traits with isToplevel := top }, c.isLoop)

end Construct

/-- The flags that tell constructs apart. -/
def Binding.flags (b : Binding) : List Bool :=
  [b.traits.isImport, b.traits.isClass, b.traits.isFunction, b.traits.isFuncArg, b.isLoop]

theorem Construct.count_flags {c : Construct} {top : Bool} {name : String} {span : Span}
    {b : Binding} (h : b.record = c.record top name span) : b.flags.count true ≤ 1 := by
  simp only [Binding.record, record, Prod.mk.injEq] at h
  obtain ⟨_, _, htraits, hloop⟩ := h
  rw [Binding.flags, htraits, hloop]
  cases c <;> exact Nat.le_of_ble_eq_true rfl

def Event.bound? : Event → Option (String × Span)
  | .bind name span _ _ _ => some (name, span)
  | _ => none

namespace Occurrence

/-- The construct that an identifier is part of where it stands. -/
def construct (o : Occurrence) : Construct :=
  match o.node.form with
  | .importModule .. | .importedName .. => .importing
  | .classDef .. => .classDefinition
  | .functionDef .. => .functionDefinition
  | .param .. => .parameter
  | .name _ => if nameRole o.around = some true then .loopTarget else .plain
  | .varDef .. => if o.node.children.any (·.form = .lambda) then .namedLambda else .plain
  | _ => .plain

/-- The names that a node binds where it stands, each with its place. -/
def bound (o : Occurrence) : List (String × Span) := o.actions.filterMap Event.bound?

end Occurrence

/-! ## What is given a name -/

theorem Form.traits_of_expression {form : Form} (h : form.isExpression = true) :
    form.traits = { isFunction := decide (form = .lambda) } := by
  cases form <;> first | rfl | cases h

theorem Form.parts_of_varDef {name : String} {nameSpan : Span} {parts : List (List Node)}
    (h : (Form.varDef name nameSpan).fits (parts.map List.length) = true) :
    ∃ part, parts = [part] ∧ part.length ≤ 1 := by
  rcases parts with _ | ⟨part, _ | ⟨_, _⟩⟩
  · cases h
  · exact ⟨part, rfl, of_decide_eq_true h⟩
  · cases h

/-- The value of a name is one expression, if it is there. -/
theorem value_of_varDef {n : Node} (hfits : n.WellFormed) (harranged : n.Arranged) {name : String}
    {nameSpan : Span} (hform : n.form = .varDef name nameSpan) :
    n.children = [] ∨ ∃ value, n.children = [value] ∧ value.form.isExpression = true := by
  have hfits := hfits.fits
  rw [hform] at hfits
  obtain ⟨part, hparts, hlength⟩ := Form.parts_of_varDef hfits
  have hchildren : n.children = part := by simp [Node.children, hparts]
  rw [hchildren]
  rcases part with _ | ⟨value, _ | ⟨_, _⟩⟩
  · exact .inl rfl
  · have hadmits := harranged.admits (c := value) (by rw [hparts]; exact List.mem_cons_self)
      List.mem_cons_self
    rw [hform] at hadmits
    refine .inr ⟨value, rfl, ?_⟩
    simpa [Form.admits, Form.isModule, Form.holdsStatements] using hadmits
  · simp at hlength

/-- What a node binds it binds as its construct does. -/
theorem Occurrence.bind_of_mem_actions {o : Occurrence} (hfits : o.node.WellFormed)
    (harranged : o.node.Arranged) {name : String} {span : Span} {traits : Traits}
    {isLoop declared : Bool} (h : .bind name span traits isLoop declared ∈ o.actions) :
    traits = o.construct.traits ∧ isLoop = o.construct.isLoop := by
  cases hform : o.node.form with
  | name word =>
    cases hrole : nameRole o.around with
    | none => simp [actions, hform, hrole] at h
    | some loop =>
      simp only [actions, hform, hrole, List.mem_singleton, Event.bind.injEq] at h
      obtain ⟨_, _, rfl, rfl, _⟩ := h
      cases isLoop <;> simp [construct, hform, hrole, Construct.traits, Construct.isLoop]
  | varDef word place =>
    simp only [actions, hform, List.mem_singleton, Event.bind.injEq] at h
    obtain ⟨_, _, rfl, rfl, _⟩ := h
    rcases value_of_varDef hfits harranged hform with hnone | ⟨value, hvalue, hexpression⟩
    · simp [construct, hform, hnone, Construct.traits, Construct.isLoop]
    · rw [hvalue, List.head?_cons, Option.map_some, Option.getD_some,
        Form.traits_of_expression hexpression]
      by_cases hlambda : value.form = .lambda <;>
        simp [construct, hform, hvalue, hlambda, Construct.traits, Construct.isLoop]
  | importModule path asName asSpan =>
    have hmade : traits = (Form.importModule path asName asSpan).traits ∧ isLoop = false := by
      cases hword : Node.word? asName <;> cases path <;> simp_all [actions]
    obtain ⟨rfl, rfl⟩ := hmade
    simp [construct, hform, Construct.traits, Construct.isLoop, Form.traits]
  | declaration keyword names =>
    simp only [actions, hform, List.mem_map, Event.bind.injEq] at h
    obtain ⟨_, _, _, _, rfl, rfl, _⟩ := h
    simp [construct, hform, Construct.traits, Construct.isLoop]
  | functionDef | classDef | param | importedName =>
    simp only [actions, hform, List.mem_singleton, Event.bind.injEq] at h
    obtain ⟨_, _, rfl, rfl, _⟩ := h
    simp [construct, hform, Construct.traits, Construct.isLoop, Form.traits]
  | _ => simp [actions, hform] at h

theorem Occurrence.records {o : Occurrence} (hfits : o.node.WellFormed)
    (harranged : o.node.Arranged) (top : Bool) :
    o.actions.filterMap (Event.record? top) =
      o.bound.map fun entry => o.construct.record top entry.1 entry.2 := by
  rw [bound, List.map_filterMap]
  refine List.filterMap_congr fun e he => ?_
  cases e with
  | bind name span traits isLoop declared =>
    obtain ⟨rfl, rfl⟩ := bind_of_mem_actions hfits harranged he
    have hclass : (o.construct.traits.isFunction && !o.construct.traits.isClass) =
        o.construct.traits.isFunction := by cases o.construct <;> rfl
    simp [Event.record?, Event.bound?, Construct.record, Binding.declare, hclass]
  | _ => rfl

/-! ## The scope of the module -/

namespace Node

/-- Inside a module there is no other one. -/
theorem Arranged.each_inner {n : Node} (h : n.Arranged) (hn : n.form.isModule = false) :
    n.Each fun _ form _ => form.isModule = false := by
  induction h with
  | mk here _ ih =>
    exact .mk hn fun part hpart c hc =>
      ih part hpart c hc (Form.isModule_of_admits (here part hpart c hc))

theorem Arranged.each_child {n : Node} (h : n.Arranged) {part : List Node} (hpart : part ∈ n.parts)
    {c : Node} (hc : c ∈ part) : c.Each fun _ form _ => form.isModule = false :=
  (h.part hpart hc).each_inner (Form.isModule_of_admits (h.admits hpart hc))

/-- Only a module opens a scope at the top level. -/
theorem isModule_of_enter {n : Node} (h : .enter true ∈ n.events) : n.form.isModule = true := by
  have hactions : ∀ {events : List Event}, (∀ e ∈ events, e.isAction = true) →
      .enter true ∉ events := fun hall hmem => Bool.false_ne_true (hall _ hmem)
  obtain ⟨id, span, form, parts⟩ := n
  cases form with
  | module => rfl
  | assign | forIn => exact absurd h (hactions isAction_targetEvents)
  | comprehension =>
    rcases List.mem_cons.mp h with h | h
    · cases h
    · exact absurd h (hactions isAction_targetEvents)
  | declaration keyword names => exact absurd h (hactions (isAction_events_declaration rfl))
  | empty marker =>
    by_cases hmarker : marker = ";" <;> simp [events, Node.form, hmarker] at h
  | importModule path asName asSpan =>
    cases hword : word? asName <;> cases path <;> simp [events, Node.form, hword] at h
  | _ => simp [events, Node.form] at h

theorem isToplevel_of_walk {root : Node} (hroot : root.form = .module) (harranged : root.Arranged)
    {filename : String} {w : Walk} (hw : walk root filename = .ok w) {i : Nat} {s : Scope}
    (hs : w.arena.scopes[i]? = some s) : s.isToplevel = decide (i = 0) := by
  have hentry := Walk.toplevel_replay (walk_ok_iff.mp hw).1 hs
  obtain ⟨id, span, form, parts⟩ := root
  cases hroot
  rw [trace_mk, IdSet.contains_empty, if_neg Bool.false_ne_true] at hentry
  generalize (IdSet.empty.insert id).insertAll (mk id span .module parts).claims = seen at hentry
  cases i with
  | zero =>
    have htop : Event.enter true = .enter s.isToplevel := Option.some.inj hentry
    exact (Event.enter.inj htop).symm
  | succ i =>
    -- another scope at the top level would belong to a module inside
    refine Bool.eq_false_iff.mpr fun htop => ?_
    have hinner : ((traceParts parts seen).1.filter Event.isEntry)[i]? = some (.enter true) := by
      simpa [events, Node.form, Form.after, Form.opensScope, List.filter_cons, Event.isEntry, htop]
        using hentry
    have hafter : ∀ form : Form, .enter true ∉ form.after := by
      intro form
      cases form <;> simp [Form.after, Form.opensScope, Form.isBranch]
    obtain ⟨p, hp, hevent⟩ :=
      mem_traceParts hafter (List.mem_of_mem_filter (List.mem_of_getElem? hinner)) 1
    obtain ⟨part, hpart, c, hc, hp⟩ := mem_preorderParts.mp hp
    have hmodule := ((harranged.each_child hpart hc).of_mem_preorder hp).here
    rw [isModule_of_enter hevent] at hmodule
    cases hmodule

theorem openers_module {root : Node} (h : root.Whole) (harranged : root.Arranged) {i : Nat}
    {m : Occurrence} (hm : root.openers[i]? = some m) : m.node.form = .module ↔ i = 0 := by
  rw [openers, occurrences_eq,
    List.filter_cons_of_pos (p := fun o : Occurrence => o.node.form.opensScope) h.opensScope] at hm
  cases i with
  | zero =>
    cases hm
    exact iff_of_true h.isModule rfl
  | succ i =>
    refine iff_of_false (fun hform => ?_) (Nat.succ_ne_zero i)
    have hmem := List.mem_of_mem_filter (List.mem_of_getElem? hm)
    obtain ⟨_, part, hpart, c, hc, hmem, _⟩ := mem_occurrencesParts hmem
    have hmodule := ((harranged.each_child hpart hc).of_mem_occurrences hmem).here
    rw [hform] at hmodule
    cases hmodule

end Node

/-- In every scope of a text that parses, the names are bound by the constructs that stand in it,
each once, and a binding has the flags of its construct: it is marked as an import, a class, a
parameter or a loop variable exactly if it is one, as a function exactly if it is one or a `with`
item that names a lambda, and as standing at the top level exactly in the scope of the module. So at
most one of the flags that tell constructs apart is set. -/
theorem flags_tell_constructs {code : String} {root : Node} (hparse : parse code = .ok root)
    (filename : String) :
    ∃ w, walk root filename = .ok w ∧ ∀ i s, w.arena.scopes[i]? = some s →
      ∃ m, root.openers[i]? = some m ∧ (m.node.form = .module ↔ i = 0) ∧
        (s.history.map Binding.record).Perm ((root.inScope m).flatMap fun o =>
          o.bound.map fun entry => o.construct.record (decide (i = 0)) entry.1 entry.2) ∧
        ∀ b ∈ s.history, b.flags.count true ≤ 1 := by
  obtain ⟨w, hw⟩ := walk_parse_ok hparse filename
  have hwhole := Node.whole_parse hparse
  obtain ⟨hroot, hwell⟩ := wellFormed_parse hparse
  have hfits := Node.wellFormed_iff.mp hwell
  have harranged := arranged_parse hparse
  refine ⟨w, hw, fun i s hs => ?_⟩
  have hi : i < root.openers.length := hwhole.size_arena hw ▸ Arena.getElem?_lt hs
  obtain ⟨m, hm⟩ : ∃ m, root.openers[i]? = some m := ⟨_, List.getElem?_eq_getElem hi⟩
  have hrecords : (s.history.map Binding.record).Perm ((root.inScope m).flatMap fun o =>
      o.bound.map fun entry => o.construct.record (decide (i = 0)) entry.1 entry.2) := by
    rw [((Walk.Recalls.replay (walk_ok_iff.mp hw).1).recalls hs).history,
      Node.isToplevel_of_walk hroot harranged hw hs]
    refine ((hwhole.perm_actionsIn hw hm).filterMap _).trans (.of_eq ?_)
    rw [List.filterMap_flatMap]
    refine List.flatMap_congr fun o ho => ?_
    have ho := List.mem_of_mem_filter ho
    exact o.records (Node.wellFormed_iff.mpr (hfits.of_mem_occurrences ho))
      (harranged.of_mem_occurrences ho) _
  refine ⟨m, hm, Node.openers_module hwhole harranged hm, hrecords, fun b hb => ?_⟩
  have hrecord := hrecords.mem_iff.mp (List.mem_map_of_mem hb)
  obtain ⟨o, _, hrecord⟩ := List.mem_flatMap.mp hrecord
  obtain ⟨entry, _, hrecord⟩ := List.mem_map.mp hrecord
  exact Construct.count_flags hrecord.symm

/-- A function in which every construct binds a name. -/
def everyConstruct : String :=
  "def f(a):\n\timport m\n\tfor i in a:\n\t\tz = i\n" ++
    "\twith (lambda: 1) as g:\n\t\tclass C: pass\n\t\tdef n(): pass\n"

theorem flags_of_everyConstruct : ∃ root w s m, parse everyConstruct = .ok root ∧
    walk root "m" = .ok w ∧ w.arena.scopes[1]? = some s ∧ root.openers[1]? = some m ∧
    m.node.form ≠ .module ∧
    ((root.inScope m).flatMap fun o => o.bound.map fun entry => (entry.1, o.construct)) =
      [("a", .parameter), ("m", .importing), ("i", .loopTarget), ("z", .plain), ("g", .namedLambda),
        ("C", .classDefinition), ("n", .functionDefinition)] ∧
    (s.history.map Binding.record).Perm ((root.inScope m).flatMap fun o =>
      o.bound.map fun entry => o.construct.record false entry.1 entry.2) ∧
    ∀ b ∈ s.history, b.flags.count true ≤ 1 := by
  have hfacts : (parse everyConstruct).toOption.map (fun root =>
      ((walk root "m").toOption.map (·.arena.scopes[1]?.isSome),
        root.openers[1]?.map fun m => (root.inScope m).flatMap fun o =>
          o.bound.map fun entry => (entry.1, o.construct))) =
      some (some true, some
        [("a", .parameter), ("m", .importing), ("i", .loopTarget), ("z", .plain),
          ("g", .namedLambda), ("C", .classDefinition), ("n", .functionDefinition)]) := by
    decide +kernel
  obtain ⟨root, hparse, hfacts⟩ := parsed_of_map hfacts
  obtain ⟨hscope, hconstructs⟩ := Prod.mk.inj hfacts
  obtain ⟨w, hw, hflags⟩ := flags_tell_constructs hparse "m"
  rw [hw] at hscope
  obtain ⟨s, hs⟩ := Option.isSome_iff_exists.mp (Option.some.inj hscope)
  obtain ⟨m, hm, hmodule, hrecords, hcount⟩ := hflags 1 s hs
  rw [hm] at hconstructs
  exact ⟨root, w, s, m, hparse, hw, hs, hm, fun hform => Nat.one_ne_zero (hmodule.mp hform),
    Option.some.inj hconstructs, hrecords, hcount⟩

/-- A name that a `with` item gives to a lambda is marked as a function, though no function is
defined in the text. -/
theorem function_without_definition : ∃ root w s,
    parse "with lambda: 1 as f:\n\tpass\n" = .ok root ∧
    (∀ o ∈ root.occurrences [], o.construct ≠ .functionDefinition) ∧
    walk root "m" = .ok w ∧ w.arena.scopes[0]? = some s ∧
    s.history.map (fun b => (b.name, b.traits.isFunction)) = [("f", true)] := by
  have hfacts : (parse "with lambda: 1 as f:\n\tpass\n").toOption.map (fun root =>
      (decide (∀ o ∈ root.occurrences [], o.construct ≠ .functionDefinition),
        (walk root "m").toOption.bind fun w => w.arena.scopes[0]?.map fun s =>
          s.history.map fun b => (b.name, b.traits.isFunction))) =
      some (true, some [("f", true)]) := by decide +kernel
  obtain ⟨root, hparse, hfacts⟩ := parsed_of_map hfacts
  obtain ⟨hconstructs, hscope⟩ := Prod.mk.inj hfacts
  obtain ⟨w, hw⟩ := walk_parse_ok hparse "m"
  rw [hw] at hscope
  obtain ⟨s, hs, hmarks⟩ := Option.map_eq_some_iff.mp hscope
  exact ⟨root, w, s, hparse, of_decide_eq_true hconstructs, hw, hs, hmarks⟩

end ScopeLint
