import ScopeLint.Proofs.Boundary
import ScopeLint.Proofs.History
import ScopeLint.Proofs.Lexical
import ScopeLint.Proofs.Places
import ScopeLint.Proofs.Reading

/-! # Diagnostics point at names

Every action of a walk comes from a node, and the names of nodes stand where they
are written in the source. So a diagnostic about a name, which carries the place
of an action, points at that name. -/
namespace ScopeLint

/-- The names of a parsed module stand where they are written. -/
theorem sited_parse {source : String} {root : Node} (h : parse source = .ok root) :
    root.Sited (WrittenAt source.toList) := by
  obtain ⟨tree, node, hread, hnode, rfl⟩ := read_of_parse h
  have htokens := Grammar.read_eq_ok_iff.mp hread
  have hsound : Grammar.Symbol.Sound (WrittenAt source.toList) (.rule .file) tree.meaning := by
    refine tree.sound_meaning fun t ht hkind => ?_
    rw [htokens] at ht
    exact writtenAt_tokenize ht hkind
  exact (hsound node hnode).1.numberFrom 0

/-! ## Actions come from nodes -/

theorem Walk.event_of_mem_moments {w : Walk} {events : List Event} {m : Walk × Event}
    (h : m ∈ w.moments events) : m.2 ∈ events := by
  induction events generalizing w with
  | nil => cases h
  | cons e events ih =>
    rw [moments] at h
    rcases List.mem_cons.mp h with rfl | h
    · exact List.mem_cons_self
    · split at h
      · exact List.mem_cons_of_mem _ (ih h)
      · cases h

namespace Node

theorem isAction_of_mem_after {form : Form} {e : Event} (h : e ∈ form.after) :
    e.isAction = false := by
  unfold Form.after at h
  split at h
  · rw [List.mem_singleton.mp h]
    rfl
  · split at h
    · rw [List.mem_singleton.mp h]
      rfl
    · cases h

mutual

theorem mem_trace {n : Node} {seen : IdSet} {e : Event} (he : ∀ form : Form, e ∉ form.after)
    (h : e ∈ (n.trace seen).1) (depth : Nat) : ∃ p ∈ n.preorder depth, e ∈ p.2.events := by
  match n with
  | mk id span form parts =>
    rw [trace_mk] at h
    split at h
    · cases h
    · rcases List.mem_append.mp h with h | h
      · rcases List.mem_append.mp h with h | h
        · exact ⟨_, List.mem_cons_self, h⟩
        · obtain ⟨p, hp, h⟩ := mem_traceParts he h (depth + 1)
          exact ⟨p, List.mem_cons_of_mem _ hp, h⟩
      · exact absurd h (he form)

theorem mem_traceParts {parts : List (List Node)} {seen : IdSet} {e : Event}
    (he : ∀ form : Form, e ∉ form.after) (h : e ∈ (traceParts parts seen).1) (depth : Nat) :
    ∃ p ∈ preorderParts depth parts, e ∈ p.2.events := by
  match parts with
  | [] => cases h
  | part :: parts =>
    rcases List.mem_append.mp h with h | h
    · obtain ⟨p, hp, h⟩ := mem_tracePart he h depth
      exact ⟨p, List.mem_append_left _ hp, h⟩
    · obtain ⟨p, hp, h⟩ := mem_traceParts he h depth
      exact ⟨p, List.mem_append_right _ hp, h⟩

theorem mem_tracePart {part : List Node} {seen : IdSet} {e : Event}
    (he : ∀ form : Form, e ∉ form.after) (h : e ∈ (tracePart part seen).1) (depth : Nat) :
    ∃ p ∈ preorderPart depth part, e ∈ p.2.events := by
  match part with
  | [] => cases h
  | n :: rest =>
    rcases List.mem_append.mp h with h | h
    · obtain ⟨p, hp, h⟩ := mem_trace he h depth
      exact ⟨p, List.mem_append_left _ hp, h⟩
    · obtain ⟨p, hp, h⟩ := mem_tracePart he h depth
      exact ⟨p, List.mem_append_right _ hp, h⟩

end

/-- An action in a scope is what some node does before its children. -/
theorem exists_of_mem_actionsIn {root : Node} {filename : String} {i : Nat} {e : Event}
    (h : e ∈ root.actionsIn filename i) : ∃ p ∈ root.preorder 0, e ∈ p.2.events := by
  obtain ⟨m, hm, rfl⟩ := List.mem_map.mp h
  obtain ⟨hm, hin⟩ := List.mem_filter.mp hm
  have haction : m.2.isAction = true := (Bool.and_eq_true_iff.mp hin).1
  refine mem_trace (fun form hafter => ?_) (Walk.event_of_mem_moments hm) 0
  rw [isAction_of_mem_after hafter] at haction
  cases haction

/-! ## What actions a node has -/

theorem mem_boundNames {n node : Node} {name : String} {isLoop : Bool}
    (h : (name, node, isLoop) ∈ n.boundNames) :
    node.form = .name name ∧
      (node ∈ n.children ∨
        ∃ target ∈ n.children, target.form = .array ∧ node ∈ target.children) := by
  have hname : ∀ {m : Node} {found : String × Node}, m.name?.map (·, m) = some found →
      found.2 = m ∧ m.form = .name found.1 := by
    intro m found hfound
    obtain ⟨word, hword, rfl⟩ := Option.map_eq_some_iff.mp hfound
    unfold name? at hword
    split at hword
    · next hform =>
      cases hword
      exact ⟨rfl, hform⟩
    · cases hword
  have htarget : ∀ {target : Node} {found : String × Node}, found ∈ target.targetNames →
      found.2.form = .name found.1 ∧
        (found.2 = target ∨ target.form = .array ∧ found.2 ∈ target.children) := by
    intro target found hfound
    unfold targetNames at hfound
    dsimp only at hfound
    split at hfound
    · next harray =>
      obtain ⟨m, hm, hfound⟩ := List.mem_filterMap.mp hfound
      obtain ⟨rfl, hform⟩ := hname hfound
      exact ⟨hform, .inr ⟨harray, hm⟩⟩
    · obtain ⟨hsame, hform⟩ := hname (Option.mem_toList.mp hfound)
      exact ⟨hsame ▸ hform, .inl hsame⟩
  unfold boundNames at h
  cases hbound : n.boundTarget with
  | none =>
    rw [hbound] at h
    cases h
  | some bound =>
    rw [hbound] at h
    obtain ⟨found, hfound, heq⟩ := List.mem_map.mp h
    cases heq
    obtain ⟨hform, hplace⟩ := htarget hfound
    refine ⟨hform, ?_⟩
    -- a target is the one child in the first part
    have hchild : bound.1 ∈ n.children := by
      unfold boundTarget at hbound
      split at hbound
      · next hparts =>
        split at hbound
        · cases hbound
        · cases hbound
          simp [children, hparts]
      · next hparts =>
        cases hbound
        simp [children, hparts]
      · next hparts =>
        cases hbound
        simp [children, hparts]
      · cases hbound
    rcases hplace with hsame | hin
    · exact .inl (hsame ▸ hchild)
    · exact .inr ⟨bound.1, hchild, hin⟩

theorem bind_of_mem_targetEvents {n : Node} {e : Event} (h : e ∈ n.targetEvents) :
    ∃ name node isLoop, (name, node, isLoop) ∈ n.boundNames ∧
      e = .bind name node.span {} isLoop false := by
  obtain ⟨⟨name, node, isLoop⟩, hbound, rfl⟩ := List.mem_map.mp h
  exact ⟨name, node, isLoop, hbound, rfl⟩

/-- Names and decorators are used, where they stand. -/
theorem use_of_mem_events {n : Node} {name : String} {span : Span}
    (h : .use name span ∈ n.events) :
    (n.form = .name name ∨ n.form = .decorator name) ∧ span = n.span := by
  have htargets : .use name span ∉ n.targetEvents := by
    intro h
    obtain ⟨_, _, _, _, heq⟩ := bind_of_mem_targetEvents h
    cases heq
  obtain ⟨id, place, form, parts⟩ := n
  cases form with
  | name =>
    cases List.mem_singleton.mp h
    exact ⟨.inl rfl, rfl⟩
  | decorator =>
    cases List.mem_singleton.mp h
    exact ⟨.inr rfl, rfl⟩
  | assign | forIn => exact absurd h htargets
  | comprehension =>
    rcases List.mem_cons.mp h with h | h
    · cases h
    · exact absurd h htargets
  | importModule =>
    simp only [events, Node.form] at h
    split at h <;> simp at h
  | empty =>
    simp only [events, Node.form] at h
    split at h <;> simp at h
  | declaration =>
    obtain ⟨_, _, h⟩ := List.mem_map.mp h
    cases h
  | _ => simp [events, Node.form] at h

/-- A name that is bound stands where its node says, an import apart. -/
theorem stands_of_mem_events {stands : String → Span → Prop} {n : Node} (hn : n.Sited stands)
    {name : String} {span : Span} {traits : Traits} {isLoop declared : Bool}
    (h : .bind name span traits isLoop declared ∈ n.events)
    (himport : traits.isImport = false ∨ isLoop = true) : stands name span := by
  have htargets : .bind name span traits isLoop declared ∈ n.targetEvents → stands name span := by
    intro h
    obtain ⟨word, node, _, hbound, heq⟩ := bind_of_mem_targetEvents h
    cases heq
    obtain ⟨hform, hplace⟩ := mem_boundNames hbound
    have hnode : node.Sited stands := by
      rcases hplace with hchild | ⟨target, htarget, _, hchild⟩
      · exact Each.children hn hchild
      · exact (Each.children hn htarget).children hchild
    have hnamed := (Each.here hnode).2
    rw [hform] at hnamed
    exact hnamed
  have hnamed := (Each.here hn).2
  obtain ⟨id, place, form, parts⟩ := n
  cases form with
  | functionDef | classDef =>
    simp only [events, Node.form, List.mem_cons, reduceCtorEq, false_or, List.not_mem_nil,
      or_false] at h
    cases h
    exact hnamed
  | param | varDef =>
    cases List.mem_singleton.mp h
    exact hnamed
  | assign | forIn => exact htargets h
  | comprehension =>
    rcases List.mem_cons.mp h with h | h
    · cases h
    · exact htargets h
  | importModule =>
    simp only [events, Node.form] at h
    split at h
    · cases List.mem_singleton.mp h
      rcases himport with himport | himport <;> cases himport
    · cases List.mem_singleton.mp h
      rcases himport with himport | himport <;> cases himport
    · cases List.mem_singleton.mp h
  | importedName =>
    cases List.mem_singleton.mp h
    rcases himport with himport | himport <;> cases himport
  | declaration keyword names =>
    obtain ⟨entry, hentry, h⟩ := List.mem_map.mp h
    cases h
    exact hnamed entry hentry
  | empty =>
    simp only [events, Node.form] at h
    split at h <;> simp at h
  | _ => simp [events, Node.form] at h

end Node

/-! ## What scopes report about names -/

namespace Scope

variable {past : List (Walk × Event)} {w : Walk} {i : Nat} {s : Scope} {filename : String}
  {d : Diagnostic}

/-- The check of a message tells where it comes from. -/
theorem mem_messages (h : d ∈ s.messages filename) :
    (d ∈ s.undefinedMessages filename ∧ d.ident = Check.undefinedName.ident) ∨
    (d ∈ s.unusedMessages filename ∧
      (d.ident = Check.unusedImport.ident ∨ d.ident = Check.unusedLocal.ident)) ∨
    d ∈ s.shadowedMessages filename ∧ d.ident = Check.loopShadowed.ident := by
  rcases List.mem_append.mp h with h | h
  · rcases List.mem_append.mp h with h | h
    · exact .inl ⟨h, ident_of_undefined h⟩
    · exact .inr (.inl ⟨h, ident_of_unused h⟩)
  · exact .inr (.inr ⟨h, ident_of_shadowed h⟩)

theorem use_of_undefined (hw : w.Recalls past) (hs : w.arena.scopes[i]? = some s)
    (h : d ∈ s.undefinedMessages filename) :
    ∃ span, .use d.name span ∈ actionsIn past i ∧
      d = Diagnostic.make filename .undefinedName d.name span .error none := by
  obtain ⟨⟨name, span⟩, hentry, rfl⟩ := List.mem_map.mp h
  have hanswers := hw.resolves.answers hs
  have hparked := hanswers.parkedOnce.mem_entries_iff.mp hentry
  obtain ⟨⟨before, after, hactions, _⟩, _⟩ := (hanswers.parked name span).mp hparked
  refine ⟨span, ?_, rfl⟩
  rw [hactions]
  exact List.mem_append_right _ List.mem_cons_self

theorem bind_of_unusedLocal (hw : w.Recalls past) (hs : w.arena.scopes[i]? = some s)
    (h : d ∈ s.unusedMessages filename) (hident : d.ident = Check.unusedLocal.ident) :
    ∃ span traits isLoop declared, .bind d.name span traits isLoop declared ∈ actionsIn past i ∧
      traits.isImport = false ∧
      d = Diagnostic.make filename .unusedLocal d.name span .error none := by
  obtain ⟨⟨name, b⟩, hentry, hd⟩ := List.mem_filterMap.mp h
  obtain ⟨⟨_, place⟩, hlisted, hb⟩ := List.mem_filterMap.mp hentry
  obtain ⟨_, hb, heq⟩ := Option.map_eq_some_iff.mp hb
  cases heq
  have hanswers := hw.resolves.answers hs
  have hcurrent := ((hanswers.listed name place).mp
    (hanswers.listedOnce.mem_entries_iff.mp hlisted)).2.1
  obtain ⟨_, hb', hname⟩ := hanswers.tracks.proper.placed hcurrent
  cases hb.symm.trans hb'
  obtain ⟨traits, declared, hbind, himport⟩ :=
    (hw.recalls hs).made (List.mem_of_getElem? hb)
  simp only [unusedReport] at hd
  split at hd
  · cases hd
    exact absurd hident (by simp [Diagnostic.make, Check.ident_inj])
  · next hplain =>
    split at hd
    · cases hd
      refine ⟨b.span, traits, b.isLoop, declared, hname ▸ hbind, ?_, rfl⟩
      rw [← himport]
      exact Bool.eq_false_of_not_eq_true hplain
    · cases hd

theorem bind_of_shadowed (hw : w.Recalls past) (hs : w.arena.scopes[i]? = some s)
    (h : d ∈ s.shadowedMessages filename) :
    ∃ span traits declared line, .bind d.name span traits true declared ∈ actionsIn past i ∧
      d = Diagnostic.make filename .loopShadowed d.name span .error line := by
  obtain ⟨⟨name, previous, current⟩, hentry, hd⟩ := List.mem_filterMap.mp h
  obtain ⟨r, hr, hentry⟩ := List.mem_filterMap.mp hentry
  obtain ⟨_, _, hentry⟩ := Option.bind_eq_some_iff.mp hentry
  obtain ⟨_, hcurrent, hentry⟩ := Option.bind_eq_some_iff.mp hentry
  cases hentry
  obtain ⟨_, hb, hname⟩ := (hw.recalls hs).shadowed r hr
  cases hcurrent.symm.trans hb
  obtain ⟨traits, declared, hbind, _⟩ := (hw.recalls hs).made (List.mem_of_getElem? hcurrent)
  dsimp only at hd
  split at hd
  · next hloop =>
    cases hd
    rw [Bool.and_eq_true] at hloop
    rw [hloop.1, hname] at hbind
    exact ⟨current.span, traits, declared, _, hbind, rfl⟩
  · cases hd

end Scope

/-- The numbers of a diagnostic are those of a place. -/
def Diagnostic.At (d : Diagnostic) (span : Span) : Prop :=
  d.startLine = span.start.map Position.line ∧ d.startCol = span.start.map Position.col ∧
  d.endLine = span.stop.map Position.line ∧ d.endCol = span.stop.map Position.col

/-- A diagnostic points at its name: it starts and ends on one line of the text, and what stands
between the two columns there is the name. -/
def Diagnostic.PointsAtName (text : List Char) (d : Diagnostic) : Prop :=
  ∃ (line : Nat) (left right : List Char),
    (Text.splitAt '\n' text)[line]? = some (left ++ d.name.toList ++ right) ∧
    d.startLine = some (line + 1) ∧ d.startCol = some left.length ∧
    d.endLine = some (line + 1) ∧ d.endCol = some (left.length + d.name.length)

theorem Diagnostic.at_make (filename : String) (check : Check) (name : String) (span : Span)
    (severity : Severity) (line : Option Int) :
    (Diagnostic.make filename check name span severity line).At span :=
  ⟨rfl, rfl, rfl, rfl⟩

theorem Diagnostic.pointsAtName_of_at {text : List Char} {d : Diagnostic} {span : Span}
    (hat : d.At span) (hwritten : WrittenAt text d.name span) : d.PointsAtName text := by
  obtain ⟨line, left, right, hline, rfl⟩ := hwritten
  exact ⟨line, left, right, hline, hat⟩

/-- What is reported of undefined and unused names and of loop variables comes from a scope. -/
theorem Resolve.scope_of_resolve {root : Node} {filename code : String} {builtins : List String}
    {w : Walk} (hw : walk root filename = .ok w) {d : Diagnostic}
    (h : d ∈ resolve w code builtins)
    (hident : d.ident ∉ [Check.functionInBranch, .extraSemicolon, .endSemicolon].map Check.ident) :
    ∃ (i : Nat) (s : Scope), w.arena.scopes[i]? = some s ∧ d ∈ s.messages w.filename := by
  have hcandidate : d ∈ candidates w code := (List.mem_filter.mp (mem_sort.mp h)).1
  rcases List.mem_append.mp hcandidate with hcandidate | hscope
  · refine absurd ?_ hident
    rcases List.mem_append.mp hcandidate with hwalk | hscan
    · obtain ⟨check, hcheck, heq⟩ := Walk.ident_of_walk hw hwalk
      rw [heq]
      exact List.mem_map_of_mem (List.mem_append_left [Check.endSemicolon] hcheck)
    · rw [ident_of_scan hscan]
      decide
  · obtain ⟨place, _, hd⟩ := List.mem_flatMap.mp hscope
    cases hs : w.arena.scopes[place]? with
    | none => simp [hs] at hd
    | some s =>
      rw [hs] at hd
      exact ⟨place, s, hs, hd⟩

/-- A text that parses is linted, and every diagnostic about a name points at it: at a name that is
undefined, unless a decorator uses it, at a local name that is unused, and at a loop variable that
takes over a name. The place of an undefined name is that of a name or of a decorator. -/
theorem diagnostics_point_at_names {code : String} {root : Node} (hparse : parse code = .ok root)
    (filename : String) (builtins : List String) :
    ∃ report, lint code filename builtins = .ok report ∧ ∀ d ∈ report.diagnostics,
      (d.ident = "undef" →
        (∃ p ∈ root.preorder 0,
          (p.2.form = .name d.name ∨ p.2.form = .decorator d.name) ∧ d.At p.2.span) ∧
        ∀ p ∈ root.preorder 0, p.2.form = .name d.name → d.At p.2.span →
          d.PointsAtName code.toList) ∧
      (d.ident = "unused-local" → d.PointsAtName code.toList) ∧
      (d.ident = "loop-shadowed" → d.PointsAtName code.toList) := by
  have hsited := sited_parse hparse
  obtain ⟨w, hw⟩ := walk_parse_ok hparse filename
  obtain ⟨notes, hlint⟩ := lint_of_walk hparse hw builtins
  have hrecalls := Walk.Recalls.replay (walk_ok_iff.mp hw).1
  -- what a binding says is said by a node, and is written in the source
  have hwritten : ∀ {i : Nat} {name : String} {span : Span} {traits : Traits}
      {isLoop declared : Bool}, .bind name span traits isLoop declared ∈ root.actionsIn filename i →
      traits.isImport = false ∨ isLoop = true → WrittenAt code.toList name span := by
    intro i name span traits isLoop declared hbind himport
    obtain ⟨p, hp, hevent⟩ := Node.exists_of_mem_actionsIn hbind
    exact Node.stands_of_mem_events (Node.Each.of_mem_preorder hsited hp) hevent himport
  refine ⟨_, hlint, ?_⟩
  intro d hd
  refine ⟨?_, ?_, ?_⟩
  · intro hident
    refine ⟨?_, ?_⟩
    · obtain ⟨i, s, hs, hd⟩ := Resolve.scope_of_resolve hw hd (by rw [hident]; decide)
      rcases Scope.mem_messages hd with ⟨hd, _⟩ | ⟨_, hi | hi⟩ | ⟨_, hi⟩
      · obtain ⟨span, huse, heq⟩ := Scope.use_of_undefined hrecalls hs hd
        obtain ⟨p, hp, hevent⟩ := Node.exists_of_mem_actionsIn huse
        obtain ⟨hform, rfl⟩ := Node.use_of_mem_events hevent
        refine ⟨p, hp, hform, ?_⟩
        rw [heq]
        exact Diagnostic.at_make _ _ _ _ _ _
      all_goals exact absurd (hi.symm.trans hident) (by decide)
    · intro p hp hform hat
      have hnamed := (Node.Each.here (Node.Each.of_mem_preorder hsited hp)).2
      rw [hform] at hnamed
      exact Diagnostic.pointsAtName_of_at hat hnamed
  · intro hident
    obtain ⟨i, s, hs, hd⟩ := Resolve.scope_of_resolve hw hd (by rw [hident]; decide)
    rcases Scope.mem_messages hd with ⟨_, hi⟩ | ⟨hd, _⟩ | ⟨_, hi⟩
    · exact absurd (hi.symm.trans hident) (by decide)
    · obtain ⟨span, traits, isLoop, declared, hbind, himport, heq⟩ :=
        Scope.bind_of_unusedLocal hrecalls hs hd hident
      refine Diagnostic.pointsAtName_of_at ?_ (hwritten hbind (.inl himport))
      rw [heq]
      exact Diagnostic.at_make _ _ _ _ _ _
    · exact absurd (hi.symm.trans hident) (by decide)
  · intro hident
    obtain ⟨i, s, hs, hd⟩ := Resolve.scope_of_resolve hw hd (by rw [hident]; decide)
    rcases Scope.mem_messages hd with ⟨_, hi⟩ | ⟨_, hi | hi⟩ | ⟨hd, _⟩
    · exact absurd (hi.symm.trans hident) (by decide)
    · exact absurd (hi.symm.trans hident) (by decide)
    · exact absurd (hi.symm.trans hident) (by decide)
    · obtain ⟨span, traits, declared, line, hbind, heq⟩ := Scope.bind_of_shadowed hrecalls hs hd
      refine Diagnostic.pointsAtName_of_at ?_ (hwritten hbind (.inr rfl))
      rw [heq]
      exact Diagnostic.at_make _ _ _ _ _ _

/-- A local name that a loop variable takes over, and a name that nobody defines. -/
def takeover : String := "def f(p):\n\tx = y\n\tfor x in p:\n\t\tpass\n"

theorem diagnostics_point_in_takeover :
    ∃ root report, parse takeover = .ok root ∧ lint takeover "takeover" [] = .ok report ∧
      report.diagnostics.map (fun d => (d.ident, d.name)) =
        [("undef", "y"), ("unused-local", "x"), ("loop-shadowed", "x")] ∧
      ∀ d ∈ report.diagnostics,
        (d.ident = "undef" →
          (∃ p ∈ root.preorder 0,
            (p.2.form = .name d.name ∨ p.2.form = .decorator d.name) ∧ d.At p.2.span) ∧
          ∀ p ∈ root.preorder 0, p.2.form = .name d.name → d.At p.2.span →
            d.PointsAtName takeover.toList) ∧
        (d.ident = "unused-local" → d.PointsAtName takeover.toList) ∧
        (d.ident = "loop-shadowed" → d.PointsAtName takeover.toList) := by
  have hok : (parse takeover).toBool = true := by decide +kernel
  have hlint : (lint takeover "takeover" []).map (fun report =>
      report.diagnostics.map fun d => (d.ident, d.name)) =
      .ok [("undef", "y"), ("unused-local", "x"), ("loop-shadowed", "x")] := by decide +kernel
  cases hparse : parse takeover with
  | error e =>
    rw [hparse] at hok
    cases hok
  | ok root =>
    obtain ⟨report, hreport, hpoints⟩ := diagnostics_point_at_names hparse "takeover" []
    rw [hreport] at hlint
    exact ⟨root, report, rfl, hreport, Except.ok.inj hlint, hpoints⟩

end ScopeLint
