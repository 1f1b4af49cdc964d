import ScopeLint.Proofs.Enclosing
import ScopeLint.Proofs.Replay
import ScopeLint.Proofs.Sorting
import ScopeLint.Proofs.Unshared

/-! # The order of definitions does not matter

In a module of functions and classes every definition is a block of events of its
own. Whatever the order of the blocks, the module binds the same names, and each
block opens the same scopes, which report the same. So another order of the
definitions gives the same diagnostics (`lintTree_definitions_perm`). -/
namespace ScopeLint

/-! ## Modules that report nothing themselves -/

/-- Whether an event binds a name that nothing is ever reported of at the top level. -/
def Event.isPlain : Event → Bool
  | .bind _ _ traits false _ => !traits.isImport
  | _ => false

theorem Scope.messages_eq_nil {s : Scope} (hundefined : s.undefined.entries = [])
    (hhistory : ∀ b ∈ s.history,
      b.traits.isImport = false ∧ b.traits.isToplevel = true ∧ b.isLoop = false)
    (filename : String) : s.messages filename = [] := by
  have hunused : s.unusedMessages filename = [] := by
    refine List.filterMap_eq_nil_iff.mpr ?_
    intro entry hentry
    obtain ⟨⟨name, place⟩, _, hlisted⟩ := List.mem_filterMap.mp hentry
    obtain ⟨b, hb, rfl⟩ := Option.map_eq_some_iff.mp hlisted
    obtain ⟨himport, htop, _⟩ := hhistory b (List.mem_of_getElem? hb)
    simp [unusedReport, himport, htop]
  have hshadowed : s.shadowedMessages filename = [] := by
    refine List.filterMap_eq_nil_iff.mpr ?_
    intro entry hentry
    obtain ⟨r, _, hr⟩ := List.mem_filterMap.mp hentry
    obtain ⟨previous, _, hr⟩ := Option.bind_eq_some_iff.mp hr
    obtain ⟨current, hcurrent, hr⟩ := Option.bind_eq_some_iff.mp hr
    cases hr
    simp [(hhistory current (List.mem_of_getElem? hcurrent)).2.2]
  rw [messages, undefinedMessages, hundefined, hunused, hshadowed]
  rfl

/-- A top level that only binds plain names reports nothing. -/
theorem Walk.messages_plain {filename : String} {events : List Event} {w : Walk}
    (hr : replay { filename } events = .ok w) {i : Nat} {s : Scope}
    (hs : w.arena.scopes[i]? = some s) (htop : s.isToplevel = true)
    (hplain : ∀ e ∈ actionsIn (moments { filename } events) i, e.isPlain = true) :
    s.messages filename = [] := by
  have hrecalls := Recalls.replay hr
  have hanswers := hrecalls.resolves.answers hs
  refine Scope.messages_eq_nil ?_ ?_ filename
  · refine List.eq_nil_iff_forall_not_mem.mpr ?_
    intro entry hentry
    obtain ⟨⟨before, after, hactions, _⟩, _⟩ := (hanswers.parked entry.1 entry.2).mp
      (hanswers.parkedOnce.mem_entries_iff.mp hentry)
    exact absurd (hplain (.use entry.1 entry.2) (by simp [hactions])) (by simp [Event.isPlain])
  · intro b hb
    have hrecord : b.record ∈ (actionsIn (moments { filename } events) i).filterMap
        (Event.record? s.isToplevel) := by
      rw [← (hrecalls.recalls hs).history]
      exact List.mem_map_of_mem hb
    obtain ⟨e, he, hrecord⟩ := List.mem_filterMap.mp hrecord
    have heplain := hplain e he
    cases e with
    | bind name span traits isLoop declared =>
      simp only [Event.record?, Binding.record, Option.some.injEq, Prod.mk.injEq, htop] at hrecord
      obtain ⟨_, _, htraits, hloop⟩ := hrecord
      cases isLoop with
      | false =>
        rw [← htraits, ← hloop]
        simpa [Event.isPlain, Binding.declare] using heplain
      | true => cases heplain
    | _ => cases hrecord

namespace Walk

/-! ## What the scopes of a block report -/

/-- What the scope at an index reports. -/
def messagesAt (w : Walk) (i : Nat) : List Diagnostic :=
  ((w.arena.scopes[i]?).map (·.messages w.filename)).getD []

theorem messagesAt_of_scope {w : Walk} {i : Nat} {s : Scope} (hs : w.arena.scopes[i]? = some s) :
    w.messagesAt i = s.messages w.filename := by
  rw [messagesAt, hs]
  rfl

/-- What the scopes of a block report in a module that binds some names and has no other block. -/
def reports (filename : String) (binds block : List Event) : List Diagnostic :=
  match replay { filename } (enclosed binds block []) with
  | .ok v => (List.range (entryCount block)).flatMap fun k => v.messagesAt (k + 1)
  | .error _ => []

theorem reports_enclosed {before block behind binds : List Event} (hbefore : Block before)
    (hblock : Block block) (hbehind : Block behind) (hruns : Runs block)
    (hbinds : ∀ e ∈ binds, e.isAction = true) {filename : String} {w : Walk}
    (hr : replay { filename } (enclosed before block behind) = .ok w) (hopen : w.opened = [])
    (hbound : ∀ name, Bound name (own before ++ own block ++ own behind) ↔
      Bound name (binds ++ own block)) :
    ((List.range (entryCount block)).flatMap
      fun k => w.messagesAt (shift (entryCount before) (k + 1))).Perm
      (reports filename binds block) := by
  have hlevel : Block binds := block_level (Node.level_of_actions hbinds)
  have hnone : entryCount binds = 0 := by
    refine List.countP_eq_zero.mpr fun e he => ?_
    simp [Event.isEntry_of_isAction (hbinds e he)]
  obtain ⟨v, hv, hvopen⟩ : ∃ v, replay { filename } (enclosed binds block []) = .ok v ∧
      v.opened = [] := by
    have hboth : Runs (binds ++ block ++ []) := by
      have hlist : Runs [binds, block].flatten := runs_flatten
        (by simpa using ⟨hlevel, hblock⟩) (by simpa using ⟨runs_actions hbinds, hruns⟩)
      simpa using hlist
    exact replay_module ((hlevel.append hblock).append .nil) hboth filename
  have hencloses := encloses_enclosed hlevel hblock .nil hv
  have hencloses' := encloses_enclosed hbefore hblock hbehind hr
  rw [hnone] at hencloses
  have hsize : v.arena.size = entryCount block + 1 := by
    have hlocates : Locates { filename } v _ (locate [] 0 (enclosed binds block [])) :=
      replay_locate (orderly_start filename) hv
    rw [hlocates.size, entryCount_locate, entryCount_enclosed, hnone]
    simp [Arena.size, entryCount, Nat.add_comm]
  have hhosts := hencloses.hosts hencloses' hsize (by
    rw [actions_module hbefore hblock hbehind hr, actions_module hlevel hblock .nil hv,
      own_of_actions hbinds]
    simpa [own, locate, doneIn] using hbound)
  rw [reports, hv]
  refine List.Perm.flatMap_left _ fun k hk => ?_
  have hk := List.mem_range.mp hk
  obtain ⟨s, hs⟩ := Arena.exists_scope (a := v.arena) (i := k + 1) (by omega)
  obtain ⟨t, ht⟩ := Arena.exists_scope (a := w.arena) (i := shift (entryCount before) (k + 1)) (by
    have := hencloses'.size
    rw [shift_succ]
    omega)
  have htop : t.isToplevel = s.isToplevel := by
    have heq := (hencloses'.top hk ht).symm.trans (hencloses.top hk hs)
    simpa using heq
  rw [messagesAt_of_scope ht, messagesAt_of_scope hs, (replay_remarks hr).1, (replay_remarks hv).1]
  exact hhosts.messages_perm hv hr hvopen hopen (Nat.succ_pos k) hs ht htop

/-! ## Modules of blocks -/

/-- Events that bind plain names around their scopes, and end the branches that they begin. -/
structure Plain (events : List Event) : Prop where
  block : Block events
  even : begun events = 0
  plain : ∀ e ∈ own events, e.isPlain = true

theorem begun_flatten {blocks : List (List Event)} (h : ∀ b ∈ blocks, Plain b) :
    begun blocks.flatten = 0 := by
  induction blocks with
  | nil => rfl
  | cons b blocks ih =>
    rw [List.flatten_cons, begun_append, (h b List.mem_cons_self).even,
      ih fun b hb => h b (List.mem_cons_of_mem _ hb), Int.add_zero]

theorem remarks_flatten {blocks : List (List Event)} (h : ∀ b ∈ blocks, Plain b)
    (filename : String) (branches : Int) :
    remarks filename branches blocks.flatten = blocks.flatMap (remarks filename branches) := by
  induction blocks with
  | nil => rfl
  | cons b blocks ih =>
    rw [List.flatten_cons, remarks_append, (h b List.mem_cons_self).even, Int.add_zero,
      ih fun b hb => h b (List.mem_cons_of_mem _ hb), List.flatMap_cons]

section Module

variable {blocks : List (List Event)} (hplain : ∀ b ∈ blocks, Plain b) {filename : String}
  {w : Walk} (hr : replay { filename } (enclosed [] blocks.flatten []) = .ok w)
  (hopen : w.opened = [])
include hplain hr

theorem runs_of_module : ∀ b ∈ blocks, Runs b := by
  obtain ⟨u, henter, hrest⟩ := replay_cons_iff.mp hr
  obtain ⟨v, hinner, _⟩ := replay_append_iff.mp hrest
  rw [List.nil_append, List.append_nil] at hinner
  cases henter
  exact runs_of_replay (fun b hb => (hplain b hb).block) rfl hinner

theorem messages_module : w.messages = blocks.flatMap (remarks filename 0) := by
  rw [(replay_remarks hr).2.2, ← remarks_flatten hplain, enclosed, List.nil_append,
    List.append_nil, List.cons_append, remarks, remarks_append]
  simp [Event.remarks, Event.begun, remarks]

theorem branches_module : w.branches = 0 := by
  rw [(replay_remarks hr).2.1, enclosed, List.nil_append, List.append_nil, List.cons_append,
    ← List.singleton_append, begun_append, begun_append, begun_flatten hplain]
  rfl

include hopen

/-- The scopes of the blocks from some block on. -/
theorem messagesAt_from {binds : List Event} (hbinds : ∀ e ∈ binds, e.isAction = true)
    (hbound : ∀ name, Bound name binds ↔ Bound name (blocks.flatMap own))
    (before : List (List Event)) {behind : List (List Event)}
    (hsplit : blocks = before ++ behind) :
    ((List.range' (1 + entryCount before.flatten) (entryCount behind.flatten)).flatMap
      w.messagesAt).Perm (behind.flatMap (reports filename binds)) := by
  induction behind generalizing before with
  | nil => rfl
  | cons b behind ih =>
    have hblock : ∀ {some : List (List Event)}, some ⊆ blocks → Block some.flatten :=
      fun h => block_flatten fun b hb => (hplain b (h hb)).block
    have hfront : before ⊆ blocks := by simp [hsplit]
    have hback : behind ⊆ blocks := by
      intro c hc
      simp [hsplit, hc]
    have hb : b ∈ blocks := by simp [hsplit]
    have henclosed : enclosed [] blocks.flatten [] =
        enclosed before.flatten b behind.flatten := by
      simp [enclosed, hsplit]
    have hown : own before.flatten ++ own b ++ own behind.flatten = blocks.flatMap own := by
      rw [own_flatten fun c hc => (hplain c (hfront hc)).block,
        own_flatten fun c hc => (hplain c (hback hc)).block, hsplit]
      simp
    have hhere := reports_enclosed (hblock hfront) (hplain b hb).block (hblock hback)
      (runs_of_module hplain hr b hb) hbinds (henclosed ▸ hr) hopen (by
        intro name
        rw [hown, ← hbound]
        constructor
        · intro h
          obtain ⟨e, he, hname⟩ := h
          exact ⟨e, List.mem_append_left _ he, hname⟩
        · intro h
          obtain ⟨e, he, hname⟩ := h
          rcases List.mem_append.mp he with he | he
          · exact ⟨e, he, hname⟩
          · exact (hbound name).mpr ⟨e, List.mem_flatMap.mpr ⟨b, hb, he⟩, hname⟩)
    have hrest := ih (before ++ [b]) (by simp [hsplit])
    rw [List.flatten_append, entryCount_append, List.flatten_singleton] at hrest
    rw [List.flatten_cons, entryCount_append, ← List.range'_append_1, List.flatMap_append,
      List.flatMap_cons, Nat.add_assoc]
    refine List.Perm.append ?_ hrest
    have hrange : List.range' (1 + entryCount before.flatten) (entryCount b) =
        (List.range (entryCount b)).map fun k => shift (entryCount before.flatten) (k + 1) := by
      rw [List.range'_eq_map_range]
      refine List.map_congr_left fun k _ => ?_
      rw [shift_succ]
      omega
    rw [hrange, List.flatMap_map]
    exact hhere

theorem scopeMessages_module {binds : List Event} (hbinds : ∀ e ∈ binds, e.isAction = true)
    (hbound : ∀ name, Bound name binds ↔ Bound name (blocks.flatMap own)) :
    (Resolve.scopeMessages w).Perm (blocks.flatMap (reports filename binds)) := by
  have horderly := (orderly_start filename).replay hr
  have hblock := block_flatten fun b hb => (hplain b hb).block
  have hsize : w.arena.size = entryCount blocks.flatten + 1 := by
    have hlocates : Locates { filename } w _ (locate [] 0 (enclosed [] blocks.flatten [])) :=
      replay_locate (orderly_start filename) hr
    rw [hlocates.size, entryCount_locate, entryCount_enclosed]
    simp [Arena.size, entryCount, Nat.add_comm]
  -- the module itself has nothing to report
  have hroot : w.messagesAt 0 = [] := by
    obtain ⟨s, hs⟩ := Arena.exists_scope (a := w.arena) (i := 0) (by omega)
    have htop : s.isToplevel = true := by
      have hentry : some (Event.enter true) = some (.enter s.isToplevel) := toplevel_replay hr hs
      exact (Event.enter.inj (Option.some.inj hentry)).symm
    rw [messagesAt_of_scope hs, (replay_remarks hr).1]
    refine messages_plain hr hs htop ?_
    rw [actions_module .nil hblock .nil hr, own_flatten fun b hb => (hplain b hb).block]
    intro e he
    have he : e ∈ blocks.flatMap own := by simpa [own, locate, doneIn] using he
    obtain ⟨b, hb, he⟩ := List.mem_flatMap.mp he
    exact (hplain b hb).plain e he
  have hfrom := messagesAt_from hplain hr hopen hbinds hbound [] rfl
  refine ((horderly.walked_perm hopen).flatMap_right w.messagesAt).trans ?_
  rw [hsize, List.range_eq_range', List.range'_succ, List.flatMap_cons, hroot, List.nil_append]
  exact hfrom

end Module

end Walk

/-! ## Definitions -/

/-- The forms that define a function or a class. -/
def Form.isDefinition : Form → Bool
  | .functionDef .. | .classDef .. => true
  | _ => false

namespace Node

open Walk

theorem begun_events (n : Node) : Walk.begun n.events = n.form.begun := by
  have hactions : ∀ {events : List Event}, (∀ e ∈ events, e.isAction = true) →
      Walk.begun events = 0 := by
    intro events h
    refine begun_eq_zero fun e he => ?_
    have haction := h e he
    cases e <;> first | rfl | cases haction
  obtain ⟨id, span, form, parts⟩ := n
  cases form with
  | assign | forIn => exact hactions isAction_targetEvents
  | comprehension =>
    have htargets := hactions (mk id span .comprehension parts).isAction_targetEvents
    exact (congrArg (0 + ·) htargets)
  | declaration => exact hactions (isAction_events_declaration rfl)
  | importModule path asName asSpan =>
    simp only [events, Node.form]
    split <;> rfl
  | empty marker =>
    simp only [events, Node.form]
    split <;> rfl
  | _ => rfl

theorem begun_after (form : Form) : Walk.begun form.after = -form.begun := by
  unfold Form.after Form.begun
  cases form <;> rfl

mutual

/-- A tree ends the branches that it begins. -/
theorem begun_trace (n : Node) (seen : IdSet) : Walk.begun (n.trace seen).1 = 0 := by
  match n with
  | mk id span form parts =>
    rw [trace_mk]
    split
    · rfl
    · rw [begun_append, begun_append, begun_events, begun_traceParts, begun_after]
      change form.begun + 0 + -form.begun = 0
      omega

theorem begun_traceParts (parts : List (List Node)) (seen : IdSet) :
    Walk.begun (traceParts parts seen).1 = 0 := by
  match parts with
  | [] => rfl
  | part :: parts =>
    have hboth := Walk.begun_append (tracePart part seen).1
      (traceParts parts (tracePart part seen).2).1
    rw [begun_tracePart, begun_traceParts] at hboth
    exact hboth

theorem begun_tracePart (part : List Node) (seen : IdSet) :
    Walk.begun (tracePart part seen).1 = 0 := by
  match part with
  | [] => rfl
  | n :: rest =>
    have hboth := Walk.begun_append (n.trace seen).1 (tracePart rest (n.trace seen).2).1
    rw [begun_trace, begun_tracePart] at hboth
    exact hboth

end

/-- A definition binds its name, and does the rest in a scope. -/
theorem plain_trace {n : Node} (h : n.form.isDefinition = true) : Plain (n.trace .empty).1 := by
  refine ⟨block_trace n .empty, begun_trace n .empty, ?_⟩
  obtain ⟨id, span, form, parts⟩ := n
  obtain ⟨inner, hinner, before, htrace, hbefore, hplain⟩ : ∃ inner, Block inner ∧ ∃ before,
      ((mk id span form parts).trace .empty).1 = before ++ (.enter false :: inner ++ [.leave]) ∧
      Level before ∧ ∀ e ∈ Walk.own before, e.isPlain = true := by
    rw [trace_mk, IdSet.contains_empty, if_neg Bool.false_ne_true]
    generalize (IdSet.empty.insert id).insertAll (mk id span form parts).claims = seen
    refine ⟨(traceParts parts seen).1, block_traceParts parts seen, ?_⟩
    cases form with
    | functionDef name nameSpan | classDef name nameSpan =>
      refine ⟨[.define name span, .bind name nameSpan _ false false], rfl, ?_, ?_⟩
      · simp [Level, Event.isEntry]
      · intro e he
        rw [List.mem_singleton.mp he]
        rfl
    | _ => cases h
  rw [htrace, Walk.own_append (block_level hbefore), own_scope false hinner, List.append_nil]
  exact hplain

end Node

theorem Resolve.perm_resolve {w w' : Walk} (hfile : w'.filename = w.filename)
    (hmessages : w'.messages.Perm w.messages)
    (hscopes : (scopeMessages w').Perm (scopeMessages w)) (code : String)
    (builtins : List String) : (resolve w' code builtins).Perm (resolve w code builtins) := by
  have hcandidates : (candidates w' code).Perm (candidates w code) := by
    unfold candidates
    rw [hfile]
    exact (hmessages.append_right _).append hscopes
  unfold resolve
  rw [hfile]
  exact (perm_sort _).trans ((hcandidates.filter _).trans (perm_sort _).symm)

/-- Another order of the functions and classes of a module gives the same diagnostics, up to their
order. -/
theorem lintTree_definitions_perm {id : Nat} {span : Span} {body body' : List Node}
    (hdefinitions : ∀ n ∈ body, n.form.isDefinition = true)
    (hunshared : (Node.mk id span .module [body]).ids.Nodup) (hperm : body.Perm body')
    (code filename : String) (builtins : List String) {report : Report}
    (hreport : lintTree (.mk id span .module [body]) code filename builtins = .ok report) :
    ∃ report', lintTree (.mk id span .module [body']) code filename builtins = .ok report' ∧
      report'.diagnostics.Perm report.diagnostics := by
  let traceOf (n : Node) : List Event := (n.trace .empty).1
  have hunshared' : (Node.mk id span .module [body']).ids.Nodup := by
    refine (List.Perm.nodup_iff ?_).mp hunshared
    simp only [Node.ids, Node.idsParts, List.append_nil, Node.idsPart_eq_flatMap]
    exact (hperm.flatMap_right _).cons id
  have hblocks : (body.map traceOf).Perm (body'.map traceOf) := hperm.map _
  have hplain : ∀ b ∈ body.map traceOf, Walk.Plain b := by
    intro b hb
    obtain ⟨n, hn, rfl⟩ := List.mem_map.mp hb
    exact Node.plain_trace (hdefinitions n hn)
  have hplain' : ∀ b ∈ body'.map traceOf, Walk.Plain b := fun b hb =>
    hplain b (hblocks.mem_iff.mpr hb)
  have htrace : ∀ {nodes : List Node}, (Node.mk id span .module [nodes]).ids.Nodup →
      ((Node.mk id span .module [nodes]).trace .empty).1 =
        Walk.enclosed [] (nodes.map traceOf).flatten [] := by
    intro nodes hids
    rw [Node.trace_module hids, Walk.enclosed, List.nil_append, List.append_nil]
  obtain ⟨w, hw, rfl⟩ := lintTree_eq_ok_iff.mp hreport
  obtain ⟨hr, hopen, _⟩ := walk_ok_iff.mp hw
  rw [htrace hunshared] at hr
  -- the other order can be walked as well
  obtain ⟨w', hr', hopen'⟩ : ∃ w', Walk.replay { filename }
      (Walk.enclosed [] (body'.map traceOf).flatten []) = .ok w' ∧ w'.opened = [] := by
    have hruns : ∀ b ∈ body'.map traceOf, Walk.Runs b := fun b hb =>
      Walk.runs_of_module hplain hr b (hblocks.mem_iff.mpr hb)
    have hblock : ∀ b ∈ body'.map traceOf, Walk.Block b := fun b hb => (hplain' b hb).block
    have hmodule := Walk.replay_module (Walk.block_flatten hblock)
      (Walk.runs_flatten hblock hruns) filename
    rwa [Walk.enclosed, List.nil_append, List.append_nil]
  have hw' : walk (.mk id span .module [body']) filename = .ok w' := by
    refine walk_ok_iff.mpr ⟨?_, hopen', Walk.branches_module hplain' hr'⟩
    rw [htrace hunshared']
    exact hr'
  refine ⟨_, lintTree_eq_ok_iff.mpr ⟨w', hw', rfl⟩, ?_⟩
  -- the module binds the same names, and then each block reports the same
  have hbinds : ∀ e ∈ (body.map traceOf).flatMap Walk.own, e.isAction = true := by
    intro e he
    obtain ⟨b, hb, he⟩ := List.mem_flatMap.mp he
    have heplain := (hplain b hb).plain e he
    cases e <;> first | rfl | cases heplain
  have hbound : ∀ name, Bound name ((body.map traceOf).flatMap Walk.own) ↔
      Bound name ((body'.map traceOf).flatMap Walk.own) := by
    intro name
    simp only [Bound, (hblocks.flatMap_right Walk.own).mem_iff]
  have hscopes : (Resolve.scopeMessages w').Perm (Resolve.scopeMessages w) := by
    have hhere := Walk.scopeMessages_module hplain hr hopen hbinds fun _ => Iff.rfl
    have hthere := Walk.scopeMessages_module hplain' hr' hopen' hbinds hbound
    exact hthere.trans ((hblocks.flatMap_right _).symm.trans hhere.symm)
  have hmessages : w'.messages.Perm w.messages := by
    rw [Walk.messages_module hplain hr, Walk.messages_module hplain' hr']
    exact (hblocks.flatMap_right _).symm
  have hfile : w'.filename = w.filename :=
    (Walk.replay_remarks hr').1.trans (Walk.replay_remarks hr).1.symm
  exact Resolve.perm_resolve hfile hmessages hscopes code builtins

/-- Functions and a class that use each other; one name is defined twice, and two are used that
nobody defines. -/
def callers : List Node :=
  let use (id : Nat) (name : String) : Node :=
    .mk id .unknown .exprStmt [[.mk (id + 1) .unknown (.name name) []]]
  [.mk 1 .unknown (.functionDef "f" .unknown) [[], [], [
    .mk 2 .unknown (.assign "=") [[.mk 3 .unknown (.name "x") []], [.mk 4 .unknown (.name "g") []]],
    use 5 "y"]],
   .mk 7 .unknown (.classDef "g" .unknown) [[], [], [
    .mk 8 .unknown (.functionDef "f" .unknown) [[], [], [use 9 "f", use 11 "h"]]]],
   .mk 13 .unknown (.functionDef "f" .unknown) [[.mk 14 .unknown (.decorator "z") [[]]], [],
    [use 15 "g"]]]

theorem lintTree_callers_perm :
    (∀ n ∈ callers, n.form.isDefinition = true) ∧
      (Node.mk 0 .unknown .module [callers]).ids.Nodup ∧ callers.Perm callers.reverse ∧
      ∃ report report', lintTree (.mk 0 .unknown .module [callers]) "" "callers" [] = .ok report ∧
        lintTree (.mk 0 .unknown .module [callers.reverse]) "" "callers" [] = .ok report' ∧
        report.diagnostics.map (fun d => (d.ident, d.name)) =
          [("undef", "y"), ("unused-local", "x"), ("undef", "h"), ("undef", "z")] ∧
        report'.diagnostics.Perm report.diagnostics := by
  have hdefinitions : ∀ n ∈ callers, n.form.isDefinition = true := by
    simp [callers, Node.form, Form.isDefinition]
  have hunshared : (Node.mk 0 .unknown .module [callers]).ids.Nodup := by decide
  have hperm : callers.Perm callers.reverse := (List.reverse_perm callers).symm
  have hlint : (lintTree (.mk 0 .unknown .module [callers]) "" "callers" []).map
      (fun report => report.diagnostics.map fun d => (d.ident, d.name)) =
      .ok [("undef", "y"), ("unused-local", "x"), ("undef", "h"), ("undef", "z")] := by
    decide +kernel
  cases hreport : lintTree (.mk 0 .unknown .module [callers]) "" "callers" [] with
  | error e =>
    rw [hreport] at hlint
    cases hlint
  | ok report =>
    obtain ⟨report', hreport', hdiagnostics⟩ :=
      lintTree_definitions_perm hdefinitions hunshared hperm "" "callers" [] hreport
    rw [hreport] at hlint
    exact ⟨hdefinitions, hunshared, hperm, report, report', rfl, hreport', Except.ok.inj hlint,
      hdiagnostics⟩

end ScopeLint
