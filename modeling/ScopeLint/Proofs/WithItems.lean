import ScopeLint.Proofs.Augmented
import ScopeLint.Proofs.Hosting
import ScopeLint.Proofs.Imports

/-! # A `with` item and its own name

A walk binds the name of a `with` item when it comes to the item, and looks at the
value only then. So a reference to the name in the value finds the binding that the
item makes: the binding counts as used, and the name is not undefined. -/
namespace ScopeLint

/-! ## A binding that is used stays used -/

namespace Scope

/-- No action takes away what a binding keeps, nor that it was used. -/
theorem kept_perform {s : Scope} {place : Nat} {b : Binding} (h : s.history[place]? = some b)
    (e : Event) : ∃ b', (s.perform e).history[place]? = some b' ∧ b'.record = b.record ∧
      (b.used = true → b'.used = true) := by
  cases e with
  | bind name span traits isLoop declared =>
    obtain ⟨used, hhistory⟩ := s.history_perform_bind name span traits isLoop declared
    rw [hhistory, List.getElem?_append_left (List.getElem?_eq_some_iff.mp h).1]
    exact ⟨b, h, rfl, id⟩
  | use name span =>
    simp only [perform, use, markUsed, mark]
    split
    · split
      · exact ⟨b, h, rfl, id⟩
      · next marked _ =>
        by_cases hplace : marked = place
        · exact ⟨{ b with used := true }, by simp [hplace, h], rfl, fun _ => rfl⟩
        · exact ⟨b, by simp [hplace, h], rfl, id⟩
    · split <;> exact ⟨b, h, rfl, id⟩
  | _ => exact ⟨b, h, rfl, id⟩

theorem kept_foldl {s : Scope} {place : Nat} {b : Binding} (h : s.history[place]? = some b)
    (actions : List Event) : ∃ b', (actions.foldl perform s).history[place]? = some b' ∧
      b'.record = b.record ∧ (b.used = true → b'.used = true) := by
  induction actions generalizing s b with
  | nil => exact ⟨b, h, rfl, id⟩
  | cons e actions ih =>
    obtain ⟨b', hb', hrecord, hused⟩ := kept_perform h e
    obtain ⟨b'', hb'', hrecord', hused'⟩ := ih hb'
    exact ⟨b'', hb'', hrecord'.trans hrecord, hused' ∘ hused⟩

theorem bindings_foldl_uses {actions : List Event}
    (huses : ∀ e ∈ actions, ∃ name span, e = .use name span) (s : Scope) :
    (actions.foldl perform s).bindings = s.bindings := by
  refine List.foldlRecOn (motive := fun t => t.bindings = s.bindings) actions perform rfl ?_
  intro t ht e he
  obtain ⟨name, span, rfl⟩ := huses e he
  simp only [perform, use]
  split
  · exact (t.bindings_mark name _).trans ht
  · split <;> exact ht

theorem proper_foldl {s : Scope} (h : s.Proper) (actions : List Event) :
    (actions.foldl perform s).Proper :=
  List.foldlRecOn (motive := Scope.Proper) actions perform h fun _ ht e _ => proper_perform ht e

/-- A use marks the binding that was made last, if nothing is bound in between. -/
theorem used_made {before during after : List Event} {name : String} {nameSpan span : Span}
    {traits : Traits} {isLoop declared : Bool} (top : Bool)
    (huses : ∀ e ∈ during, ∃ name span, e = .use name span) (huse : .use name span ∈ during) :
    ∃ b ∈ (made top
        (before ++ .bind name nameSpan traits isLoop declared :: (during ++ after))).history,
      b.name = name ∧ b.span = nameSpan ∧ b.used = true := by
  obtain ⟨first, last, rfl⟩ := List.append_of_mem huse
  have hproper : (made top before).Proper := proper_foldl (tracks_nil 0 top none).proper before
  set bound := (made top before).perform (.bind name nameSpan traits isLoop declared) with hbound
  have hfind : ∃ fresh, bound.find? name = some fresh ∧ fresh.name = name ∧
      fresh.span = nameSpan := by
    rw [hbound, find?_perform_bind hproper, if_pos rfl]
    exact ⟨_, rfl, rfl, rfl⟩
  obtain ⟨fresh, hfresh, hname, hspan⟩ := hfind
  obtain ⟨place, hplace, hhistory⟩ := Option.bind_eq_some_iff.mp hfresh
  -- the name still means this binding when it is used
  obtain ⟨b, hb, hrecord, _⟩ := kept_foldl hhistory first
  have hfirst : (first.foldl perform bound).bindings = bound.bindings :=
    bindings_foldl_uses (fun e he => huses e (by simp [he])) bound
  have hmarked : ((first.foldl perform bound).perform (.use name span)).history[place]? =
      some { b with used := true } := by
    simp [perform, use, NameTable.contains, markUsed, mark, hfirst, hplace, hb]
  obtain ⟨b', hb', hrecord', hused⟩ := kept_foldl hmarked (last ++ after)
  have hsame : b'.record = fresh.record := hrecord'.trans hrecord
  have hmade : made top (before ++ .bind name nameSpan traits isLoop declared ::
      ((first ++ .use name span :: last) ++ after)) =
      (last ++ after).foldl perform ((first.foldl perform bound).perform (.use name span)) := by
    simp [made, hbound, List.foldl_append]
  rw [hmade]
  exact ⟨b', List.mem_of_getElem? hb', (congrArg (·.1) hsame).trans hname,
    (congrArg (·.2.1) hsame).trans hspan, hused rfl⟩

end Scope

/-! ## What happens while the walk is at an item -/

namespace Node

/-- What stands in the value of an item, in its scope, is an expression and no target. -/
theorem Whole.role_of_varDef {root : Node} (h : root.Whole) {o : Occurrence}
    (ho : o ∈ root.occurrences []) (harranged : o.node.Arranged) {name : String} {nameSpan : Span}
    (hform : o.node.form = .varDef name nameSpan) {p : Occurrence}
    (hp : p ∈ occurrencesParts o.node o.around 0 o.node.parts) (hhome : p.home = o.home) :
    p.node.form.isExpression = true ∧ nameRole p.around = none := by
  obtain ⟨k, part, hpart, c, hc, hp, hsub⟩ := mem_occurrencesParts hp
  have hcomplete : o.node.Complete := h.tree.of_mem_occurrences ho
  have hexpression : c.form.isExpression = true := by
    have hadmits := harranged.admits hpart hc
    rw [hform] at hadmits
    simpa [Form.admits, Form.isModule, Form.holdsStatements] using hadmits
  have hname : nameRole ((o.node, k) :: o.around) = none := by
    simp [nameRole, hform, Form.bindsName, Form.bindsTarget]
  have hlist : listRole ((o.node, k) :: o.around) = none := by
    cases k <;> simp [listRole, hform, Form.bindsTarget]
  refine role_of_mem (harranged.part hpart hc)
    (hcomplete.children (List.mem_flatten.mpr ⟨part, hpart, hc⟩)) hexpression hname hlist hp
    fun m hm => ?_
  rw [hhome]
  refine h.home_outside ho ?_
  rw [occurrences_eq]
  exact List.mem_cons_of_mem _ (hsub hm)

/-- The name of an item is bound first. Then names in the value are used, and nothing is bound. -/
theorem Whole.actions_of_varDef {root : Node} (h : root.Whole) {i : Nat} {m : Occurrence}
    (hm : root.openers[i]? = some m) {o : Occurrence} (ho : o ∈ root.occurrences [])
    (hhome : o.home = some m.node.id) (harranged : o.node.Arranged) {name : String}
    {nameSpan : Span} (hform : o.node.form = .varDef name nameSpan) :
    ∃ traits during, root.actionsAmong i (located o.around o.node) =
        .bind name nameSpan traits false false :: during ∧
      (∀ e ∈ during, ∃ name span, e = .use name span) ∧
      ∀ p ∈ o.node.occurrences o.around, p.home = o.home → ∀ other span,
        .use other span ∈ p.actions → .use other span ∈ during := by
  set traits := (o.node.children.head?.map (·.form.traits)).getD {}
  have hactions : o.actions = [.bind name nameSpan traits false false] := by
    simp [Occurrence.actions, hform, traits]
  have hbound : o.node.boundFrom o.around = [] := by simp [boundFrom, hform]
  have hindex : o.home.map root.scopeIndex = some i :=
    (h.map_home_eq_some_iff ho i).mpr ⟨m, hm, hhome⟩
  have hlocated : root.actionsAmong i (located o.around o.node) =
      .bind name nameSpan traits false false ::
        root.actionsAmong i (locatedParts o.node o.around 0 o.node.parts) := by
    have hown : o.node.own o.around = [(o.home, .bind name nameSpan traits false false)] := by
      simp [own, events, hform, tag, told, Event.isEntry, Event.isAction, Occurrence.home, traits]
    rw [located_eq (by simp [isClaimed, name?, hform]), hown, List.singleton_append]
    simp [actionsAmong, relabel, Event.isAction, hindex]
  have hperm : (root.actionsAmong i (located o.around o.node)).Perm _ :=
    h.perm_actions_at ho hbound hm
  rw [hlocated, occurrences_eq, List.filter_cons_of_pos (by simpa using hhome), List.flatMap_cons,
    hactions] at hperm
  have hmem : ∀ {e : Event}, e ∈ root.actionsAmong i (locatedParts o.node o.around 0 o.node.parts) ↔
      ∃ p ∈ occurrencesParts o.node o.around 0 o.node.parts, p.home = o.home ∧ e ∈ p.actions := by
    intro e
    rw [hperm.cons_inv.mem_iff, hhome]
    simp [and_assoc]
  refine ⟨traits, _, hlocated, fun e he => ?_, fun p hp hin other span huse => ?_⟩
  · obtain ⟨p, hp, hin, he⟩ := hmem.mp he
    obtain ⟨hexpression, hrole⟩ := h.role_of_varDef ho harranged hform hp hin
    exact Occurrence.use_of_expression hexpression hrole he
  · rw [occurrences_eq] at hp
    rcases List.mem_cons.mp hp with rfl | hp
    · rw [hactions] at huse
      simp at huse
    · exact hmem.mpr ⟨p, hp, hin, huse⟩

end Node

/-- A name is not used first in a scope if it is bound there before every use. -/
theorem not_usedFirst_of_binds {name : String} {before rest : List Event} {e : Event}
    (hbinds : e.binds name = true) (hbefore : ∀ e ∈ before, e.uses name = false) (span : Span) :
    ¬ UsedFirst name span (before ++ e :: rest) := by
  intro hfirst
  obtain ⟨first, last, hactions, hfresh⟩ := hfirst
  have hother : e ≠ .use name span := by
    intro heq
    rw [heq] at hbinds
    cases hbinds
  have hnew : ∀ e' ∈ first, e' ≠ e := by
    intro e' he' heq
    have hfree := (hfresh e' he').2
    rw [heq, hbinds] at hfree
    cases hfree
  have huse : ∀ e' ∈ before, e' ≠ .use name span := by
    intro e' he' heq
    have hfree := hbefore e' he'
    simp [heq, Event.uses] at hfree
  rcases List.append_eq_append_iff.mp hactions with ⟨between, rfl, hrest⟩ | ⟨between, rfl, hrest⟩
  · cases between with
    | nil => exact hother (List.cons.inj hrest).1
    | cons e' between => exact hnew e' (by simp) (List.cons.inj hrest).1.symm
  · cases between with
    | nil => exact hother (List.cons.inj hrest).1.symm
    | cons e' between => exact huse e' (by simp) (List.cons.inj hrest).1.symm

theorem Event.skipsTargets_uses (name : String) : SkipsTargets (uses name) where
  target _ _ _ := rfl
  isAction e he := by
    cases e with
    | use => rfl
    | _ => cases he

/-- A name that nothing refers to before a node in its scope is not used there before the walk comes
to the node. -/
theorem Node.uses_before {root : Node} {m o : Occurrence} (hhome : o.home = some m.node.id)
    {earlier later : List Occurrence} {before : List Event} {name : String}
    (hoccurrences : root.occurrences [] = earlier ++ (o.node.occurrences o.around ++ later))
    (hbefore : before.filter (Event.uses name) = ((earlier.filter fun o =>
      o.home = some m.node.id).flatMap Occurrence.actions).filter (Event.uses name))
    (hearlier : ∀ d, root.Earlier d o → d.refersTo name = false) :
    ∀ e ∈ before, e.uses name = false := by
  intro e he
  refine Bool.eq_false_iff.mpr fun huses => ?_
  have hmem : e ∈ before.filter (Event.uses name) := List.mem_filter.mpr ⟨he, huses⟩
  rw [hbefore, List.mem_filter, List.mem_flatMap] at hmem
  obtain ⟨⟨d, hd, he⟩, _⟩ := hmem
  obtain ⟨hd, hin⟩ := List.mem_filter.mp hd
  have hsplit : root.Earlier d o := by
    rw [o.node.occurrences_eq, List.cons_append] at hoccurrences
    exact ⟨earlier, _, hoccurrences, hd, (of_decide_eq_true hin).trans hhome.symm⟩
  have hrefers : d.refersTo name = true := by
    cases e with
    | use other span =>
      cases of_decide_eq_true huses
      exact Occurrence.refersTo_iff.mpr ⟨span, he⟩
    | _ => cases huses
  rw [hearlier d hsplit] at hrefers
  cases hrefers

/-! ## The law -/

/-- In every text that parses, a reference to the name of a `with` item in its own value, if it
stands in the scope of the item, means the binding that the item makes. So that binding is used, and
the scope does not report the name as unused. Nor does it report the name as undefined, if nothing
before the item in the scope refers to it. -/
theorem with_item_meets_its_own_name {code : String} {root : Node} (hparse : parse code = .ok root)
    (filename : String) {o : Occurrence} (ho : o ∈ root.occurrences []) {name : String}
    {nameSpan : Span} (hform : o.node.form = .varDef name nameSpan) {p : Occurrence}
    (hp : p ∈ o.node.occurrences o.around) (hrefers : p.refersTo name = true)
    (hhome : p.home = o.home) :
    ∃ w, ∃ i : Nat, ∃ m s, walk root filename = .ok w ∧ root.openers[i]? = some m ∧
      o.home = some m.node.id ∧ w.arena.scopes[i]? = some s ∧
      (∃ b ∈ s.history, b.name = name ∧ b.span = nameSpan ∧ b.used = true) ∧
      s.unused.contains name = false ∧
      (s.messages filename).filter (Diagnostic.concerns [.unusedImport, .unusedLocal] name) = [] ∧
      ((∀ d, root.Earlier d o → d.refersTo name = false) →
        s.undefined.contains name = false ∧
        (s.messages filename).filter (Diagnostic.concerns [.undefinedName] name) = []) := by
  have hwhole := Node.whole_parse hparse
  obtain ⟨w, hw⟩ := walk_parse_ok hparse filename
  obtain ⟨i, m, s, hm, hscope, hs⟩ := hwhole.exists_scope hw ho (by simp [hform])
  obtain ⟨earlier, later, before, after, hoccurrences, hactions, hbefore⟩ :=
    hwhole.split_actionsIn_at hw hm ho (by simp [Node.isClaimed, Node.name?, hform])
  obtain ⟨traits, during, hitem, huses, hfound⟩ := hwhole.actions_of_varDef hm ho hscope
    ((arranged_parse hparse).of_mem_occurrences ho) hform
  obtain ⟨span, huse⟩ := Occurrence.refersTo_iff.mp hrefers
  have huse := hfound p hp hhome name span huse
  rw [hitem, List.cons_append] at hactions
  have hanswers := (resolves_walk hw).1.answers hs
  have hbinds : (Event.bind name nameSpan traits false false).binds name = true :=
    decide_eq_true rfl
  have hused : UsedBound name (root.actionsIn filename i) := by
    obtain ⟨first, last, rfl⟩ := List.append_of_mem huse
    exact ⟨before ++ .bind name nameSpan traits false false :: first, span, last ++ after,
      by simp [hactions], _, by simp, hbinds⟩
  have hunused : s.unused.contains name = false := by
    obtain ⟨b, hb⟩ := (find_of_bound hw hs).mpr hused.bound
    refine Bool.eq_false_iff.mpr fun hlisted => ?_
    exact ((importReports_of_walk hw hs hb).2.mp hlisted).2.1 hused
  refine ⟨w, i, m, s, hw, hm, hscope, hs, ?_, ?_, ?_, fun hearlier => ?_⟩
  · have hcore := Scope.core_of_replay (walk_ok_iff.mp hw).1 hs
    have hhistory : s.history = (Scope.made s.isToplevel (root.actionsIn filename i)).history :=
      congrArg (·.2.1) hcore
    rw [hhistory, hactions]
    exact Scope.used_made s.isToplevel huses huse
  · exact hunused
  · have hunlisted : s.unused.find? name = none := by simpa [NameTable.contains] using hunused
    rw [Scope.messages_unused hanswers.listedOnce, hunlisted]
    rfl
  · have hnone := Node.uses_before hscope hoccurrences
      (hbefore _ (Event.skipsTargets_uses name)) hearlier
    have hundefined : s.undefined.contains name = false := by
      refine Bool.eq_false_iff.mpr fun hparked => ?_
      obtain ⟨place, hplace⟩ := NameTable.contains_iff.mp hparked
      have hfirst : UsedFirst name place (root.actionsIn filename i) :=
        ((hanswers.parked name place).mp hplace).1
      rw [hactions] at hfirst
      exact not_usedFirst_of_binds hbinds hnone place hfirst
    have hunparked : s.undefined.find? name = none := by
      simpa [NameTable.contains] using hundefined
    refine ⟨hundefined, ?_⟩
    rw [Scope.messages_undefined hanswers.parkedOnce, hunparked]
    rfl

/-- What comes before a node in its scope stands in front of it among all nodes. -/
theorem Node.Whole.mem_take_of_earlier {root : Node} (h : root.Whole) {k : Nat} {d o : Occurrence}
    (ho : (root.occurrences [])[k]? = some o) (hd : root.Earlier d o) :
    d ∈ (root.occurrences []).take k := by
  obtain ⟨before, after, hsplit, hmem, _⟩ := hd
  have hnodup : (root.occurrences []).Nodup := .of_map _ h.distinct
  have hplace : (root.occurrences [])[before.length]? = some o := by simp [hsplit]
  obtain ⟨hk, _⟩ := List.getElem?_eq_some_iff.mp ho
  rw [(List.getElem?_inj hk hnodup).mp (ho.trans hplace.symm), hsplit, List.take_left]
  exact hmem

/-- Two items in a function. The value of the second one refers to the names of both, and to its own
in a list. -/
def namedInList : String := "def f(a):\n\twith a as b, b.open([x]) as x:\n\t\tpass\n"

theorem name_met_in_namedInList : ∃ root o p nameSpan, parse namedInList = .ok root ∧
    o ∈ root.occurrences [] ∧ o.node.form = .varDef "x" nameSpan ∧
    p ∈ o.node.occurrences o.around ∧ p.refersTo "x" = true ∧ p.home = o.home ∧
    (∀ d, root.Earlier d o → d.refersTo "x" = false) ∧
    ∃ w, ∃ i : Nat, ∃ m s, walk root "m" = .ok w ∧ root.openers[i]? = some m ∧
      o.home = some m.node.id ∧ w.arena.scopes[i]? = some s ∧
      (∃ b ∈ s.history, b.name = "x" ∧ b.span = nameSpan ∧ b.used = true) ∧
      s.unused.contains "x" = false ∧
      (s.messages "m").filter (Diagnostic.concerns [.unusedImport, .unusedLocal] "x") = [] ∧
      s.undefined.contains "x" = false ∧
      (s.messages "m").filter (Diagnostic.concerns [.undefinedName] "x") = [] := by
  have hfacts : (parse namedInList).toOption.map (fun root =>
      (root.occurrences [])[6]?.map fun o => (o.node.form,
        (o.node.occurrences o.around).any (fun p => p.refersTo "x" && decide (p.home = o.home)),
        ((root.occurrences []).take 6).any (·.refersTo "x"))) =
      some (some (.varDef "x" (.between ⟨2, 29⟩ ⟨2, 30⟩), true, false)) := by decide +kernel
  obtain ⟨root, hparse, hfacts⟩ := parsed_of_map hfacts
  obtain ⟨o, ho, hfacts⟩ := Option.map_eq_some_iff.mp hfacts
  obtain ⟨hform, hany, hnone⟩ := by simpa only [Prod.mk.injEq] using hfacts
  obtain ⟨p, hp, hmet⟩ := List.any_eq_true.mp hany
  obtain ⟨hrefers, hhome⟩ := Bool.and_eq_true_iff.mp hmet
  have hhome := of_decide_eq_true hhome
  have hmem := List.mem_of_getElem? ho
  have hearlier : ∀ d, root.Earlier d o → d.refersTo "x" = false := by
    intro d hd
    have hfront := (Node.whole_parse hparse).mem_take_of_earlier ho hd
    simpa using List.any_eq_false.mp hnone d hfront
  obtain ⟨w, i, m, s, hw, hm, hscope, hs, hused, hunused, hmessages, hundefined⟩ :=
    with_item_meets_its_own_name hparse "m" hmem hform hp hrefers hhome
  exact ⟨root, o, p, _, hparse, hmem, hform, hp, hrefers, hhome, hearlier, w, i, m, s, hw, hm,
    hscope, hs, hused, hunused, hmessages, hundefined hearlier⟩

/-- The name of a `with` item hides that its value is not defined, while the name of an exception
does not hide it of the type. -/
theorem undefined_value_of_item :
    (∃ root, parse "with x as x:\n\tpass\n" = .ok root ∧
      ∃ w s, walk root "m" = .ok w ∧ w.arena.scopes[0]? = some s ∧
        s.history.map (fun b => (b.name, b.used)) = [("x", true)] ∧ s.undefined = .empty) ∧
    (lint "with x as x:\n\tpass\n" "m" []).map (fun report =>
      report.diagnostics.map (·.ident)) = .ok [] ∧
    (lint "try:\n\tpass\nexcept x as x:\n\tpass\n" "m" []).map (fun report =>
      report.diagnostics.map (·.ident)) = .ok ["undef"] := by
  refine ⟨?_, by decide +kernel, by decide +kernel⟩
  have hfacts : (parse "with x as x:\n\tpass\n").toOption.map (fun root =>
      (walk root "m").toOption.bind fun w => w.arena.scopes[0]?.map fun s =>
        (s.history.map (fun b => (b.name, b.used)), s.undefined)) =
      some (some ([("x", true)], .empty)) := by decide +kernel
  obtain ⟨root, hparse, hscope⟩ := parsed_of_map hfacts
  obtain ⟨w, hw⟩ := walk_parse_ok hparse "m"
  rw [hw] at hscope
  obtain ⟨s, hs, hfacts⟩ := Option.map_eq_some_iff.mp hscope
  obtain ⟨hhistory, hundefined⟩ := Prod.mk.inj hfacts
  exact ⟨root, hparse, w, s, hw, hs, hhistory, hundefined⟩

end ScopeLint
