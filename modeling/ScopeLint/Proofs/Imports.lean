import ScopeLint.Proofs.SourceOrder
import ScopeLint.Proofs.TreeOrder

/-! # Imports that nothing refers to

A scope judges an import by the last binding of its name. The import is reported
if the name is not declared in the scope and every reference to it stands
elsewhere, behind a declaration in its own scope; a reference behind the import, or
from a scope directly inside that does not bind the name, takes the report back. -/
namespace ScopeLint

/-- Whether an event imports the name. -/
def Event.imports (name : String) : Event → Bool
  | .bind bound _ traits _ _ => bound = name && traits.isImport
  | _ => false

theorem Event.binds_of_imports {name : String} {e : Event} (h : e.imports name = true) :
    e.binds name = true := by
  cases e with
  | bind => exact (Bool.and_eq_true_iff.mp h).1
  | _ => cases h

namespace Occurrence

/-- The identifier refers to the name: it is an expression that is no target, or a decorator. -/
def refersTo (name : String) (o : Occurrence) : Bool :=
  match o.node.form with
  | .name other => other = name && (nameRole o.around).isNone
  | .decorator other => other = name
  | _ => false

/-- The node declares the name to be an outer one. -/
def declares (name : String) (o : Occurrence) : Bool :=
  match o.node.form with
  | .declaration _ names => names.any (·.1 = name)
  | _ => false

def binds (name : String) (o : Occurrence) : Bool := o.actions.any (·.binds name)

def imports (name : String) (o : Occurrence) : Bool := o.actions.any (·.imports name)

theorem refersTo_iff {name : String} {o : Occurrence} :
    o.refersTo name = true ↔ ∃ span, .use name span ∈ o.actions := by
  unfold refersTo actions
  cases hform : o.node.form with
  | name other =>
    dsimp only
    cases nameRole o.around <;> simp [eq_comm]
  | decorator other => simp [eq_comm]
  | importModule path asName asSpan =>
    dsimp only
    cases Node.word? asName <;> simp
  | _ => simp

theorem declares_iff {name : String} {o : Occurrence} :
    o.declares name = true ↔ ∃ e ∈ o.actions, e.declares name = true := by
  unfold declares actions
  cases hform : o.node.form with
  | name other =>
    dsimp only
    cases nameRole o.around <;> simp [Event.declares]
  | importModule path asName asSpan =>
    dsimp only
    cases Node.word? asName <;> simp [Event.declares]
  | declaration keyword names => simp [Event.declares]
  | _ => simp [Event.declares]

end Occurrence

/-! ## Lists that agree on some elements -/

/-- A picked element stands behind the same picked elements. -/
theorem split_of_filter_eq {α : Type} {q : α → Bool} {xs ys before after : List α} {x : α}
    (h : xs.filter q = ys.filter q) (hxs : xs = before ++ x :: after) (hx : q x = true) :
    ∃ before' after', ys = before' ++ x :: after' ∧ before'.filter q = before.filter q := by
  rw [hxs, List.filter_append, List.filter_cons_of_pos hx, eq_comm, List.filter_eq_append_iff] at h
  obtain ⟨first, second, rfl, hfirst, hsecond⟩ := h
  obtain ⟨skipped, rest, rfl, hskipped, _, _⟩ := List.filter_eq_cons_iff.mp hsecond
  refine ⟨first ++ skipped, rest, by simp, ?_⟩
  rw [List.filter_append, hfirst, List.filter_eq_nil_iff.mpr hskipped, List.append_nil]

theorem split_flatMap {α β : Type} {f : α → List β} {xs : List α} {before after : List β} {y : β}
    (h : xs.flatMap f = before ++ y :: after) :
    ∃ earlier x later, xs = earlier ++ x :: later ∧ y ∈ f x ∧
      ∀ z ∈ earlier.flatMap f, z ∈ before := by
  induction xs generalizing before with
  | nil => simp at h
  | cons x xs ih =>
    rw [List.flatMap_cons] at h
    rcases List.append_eq_append_iff.mp h with ⟨rest, rfl, hrest⟩ | ⟨rest, hx, hrest⟩
    · obtain ⟨earlier, x', later, rfl, hy, hsub⟩ := ih hrest
      refine ⟨x :: earlier, x', later, rfl, hy, fun z hz => ?_⟩
      rw [List.flatMap_cons] at hz
      exact List.mem_append.mpr ((List.mem_append.mp hz).imp_right (hsub z))
    · cases rest with
      | nil =>
        have hnil : xs.flatMap f = [] ++ y :: after := hrest.symm
        obtain ⟨earlier, x', later, rfl, hy, hsub⟩ := ih hnil
        refine ⟨x :: earlier, x', later, rfl, hy, fun z hz => ?_⟩
        rw [List.flatMap_cons] at hz
        rcases List.mem_append.mp hz with hz | hz
        · rwa [hx, List.append_nil] at hz
        · cases hsub z hz
      | cons y' rest =>
        cases hrest
        exact ⟨[], x, xs, rfl, by simp [hx], by simp⟩

/-! ## Places in the tree -/

namespace Node

/-- A node comes before another in the tree, in the same scope. -/
def Earlier (root : Node) (earlier o : Occurrence) : Prop :=
  ∃ before after, root.occurrences [] = before ++ o :: after ∧ earlier ∈ before ∧
    earlier.home = o.home

/-- The name is bound in the scope of `m`, at `span` and with these traits. -/
def BindsIn (root : Node) (m : Occurrence) (name : String) (span : Span) (traits : Traits) :
    Prop :=
  ∃ o ∈ root.inScope m, ∃ isLoop declared, .bind name span traits isLoop declared ∈ o.actions

/-- No other binding of the name in the scope of `m` comes later in the text. -/
structure BindsLast (root : Node) (m : Occurrence) (name : String) (span : Span)
    (traits : Traits) : Prop where
  here : root.BindsIn m name span traits
  last : ∀ {other : Span} {traits' : Traits}, root.BindsIn m name other traits' →
    other = span ∨ other.StartsBefore span

/-- Uses of the name, imports and declarations of it. -/
def marks (name : String) (e : Event) : Bool := e.uses name || e.imports name || e.declares name

theorem skipsTargets_marks (name : String) : Event.SkipsTargets (marks name) where
  target := by simp [marks, Event.uses, Event.imports, Event.declares]
  isAction e he := by
    cases e with
    | bind | use => rfl
    | _ => cases he

namespace Whole

variable {root : Node} (h : root.Whole) {filename : String} {w : Walk}
  (hw : walk root filename = .ok w) {i : Nat} {m : Occurrence} (hm : root.openers[i]? = some m)
  {name : String}
include h

omit h in
theorem mem_inScope {o : Occurrence} :
    o ∈ root.inScope m ↔ o ∈ root.occurrences [] ∧ o.home = some m.node.id := by
  simp [inScope]

/-- What comes before an occurrence in the tree and in its scope does so among those of the
scope. -/
theorem mem_of_earlier {d o : Occurrence} (hearlier : root.Earlier d o)
    {earlier later : List Occurrence} (hsplit : root.inScope m = earlier ++ o :: later) :
    d ∈ earlier := by
  obtain ⟨before, after, hroot, hd, hhome⟩ := hearlier
  have hmem : o ∈ root.inScope m := by simp [hsplit]
  have ho : o.home = some m.node.id := (mem_inScope.mp hmem).2
  have hnodup : (root.inScope m).Nodup := List.Nodup.filter _ (.of_map _ h.distinct)
  have hscope : root.inScope m = before.filter (fun o => o.home = some m.node.id) ++
      o :: after.filter fun o => o.home = some m.node.id := by
    rw [inScope, hroot, List.filter_append, List.filter_cons_of_pos (by simpa using ho)]
  have hfresh := List.nodup_middle.mp (hscope ▸ hnodup)
  obtain ⟨heq, _, _⟩ := (List.append_cons_inj_of_notMem
    (fun hin => (List.nodup_cons.mp hfresh).1 (List.mem_append_left _ hin))
    (fun hin => (List.nodup_cons.mp hfresh).1 (List.mem_append_right _ hin))).mp
      (hscope.symm.trans hsplit)
  rw [← heq]
  exact List.mem_filter.mpr ⟨hd, by simpa using hhome.trans ho⟩

include hw hm

/-- A reference that comes behind an import in the tree uses what is bound. -/
theorem usedBound_of_earlier {d o : Occurrence} (hearlier : root.Earlier d o)
    (ho : o.home = some m.node.id) (himports : d.imports name = true)
    (hrefers : o.refersTo name = true) : UsedBound name (root.actionsIn filename i) := by
  have hmem : o ∈ root.inScope m := by
    obtain ⟨before, after, hroot, _⟩ := hearlier
    exact mem_inScope.mpr ⟨by simp [hroot], ho⟩
  obtain ⟨earlier, later, hsplit⟩ := List.append_of_mem hmem
  obtain ⟨e, he, himport⟩ := List.any_eq_true.mp himports
  obtain ⟨span, huse⟩ := Occurrence.refersTo_iff.mp hrefers
  obtain ⟨first, second, hactions⟩ := List.append_of_mem huse
  have hall : (root.inScope m).flatMap Occurrence.actions =
      (earlier.flatMap Occurrence.actions ++ first) ++
        .use name span :: (second ++ later.flatMap Occurrence.actions) := by
    simp [hsplit, hactions]
  obtain ⟨before, after, hbefore, hsame⟩ := split_of_filter_eq
    (h.filter_actionsIn hw hm (skipsTargets_marks name)).symm hall (by simp [marks, Event.uses])
  have hmarked : e ∈ before.filter (marks name) := by
    rw [hsame]
    refine List.mem_filter.mpr ⟨?_, by simp [marks, himport]⟩
    refine List.mem_append_left _ (List.mem_flatMap.mpr ⟨d, h.mem_of_earlier hearlier hsplit, he⟩)
  exact ⟨before, span, after, hbefore, e, List.mem_of_mem_filter hmarked,
    Event.binds_of_imports himport⟩

/-- A name that is declared in a scope before every reference there is not used first. -/
theorem not_usedFirst_of_declared
    (hdeclared : ∀ o ∈ root.inScope m, o.refersTo name = true →
      ∃ d, root.Earlier d o ∧ d.declares name = true) (span : Span) :
    ¬ UsedFirst name span (root.actionsIn filename i) := by
  intro hfirst
  obtain ⟨before, after, hactions, hfresh⟩ := hfirst
  obtain ⟨before', after', hall, hsame⟩ := split_of_filter_eq
    (h.filter_actionsIn hw hm (skipsTargets_marks name)) hactions (by simp [marks, Event.uses])
  obtain ⟨earlier, o, later, hsplit, huse, hsub⟩ := split_flatMap hall
  obtain ⟨d, hearlier, hd⟩ := hdeclared o (by simp [hsplit])
    (Occurrence.refersTo_iff.mpr ⟨span, huse⟩)
  obtain ⟨e, he, hdeclares⟩ := Occurrence.declares_iff.mp hd
  have hin : e ∈ before' :=
    hsub e (List.mem_flatMap.mpr ⟨d, h.mem_of_earlier hearlier hsplit, he⟩)
  have hmarked : e ∈ before.filter (marks name) := by
    rw [← hsame]
    exact List.mem_filter.mpr ⟨hin, by simp [marks, hdeclares]⟩
  have hbinds := (hfresh e (List.mem_of_mem_filter hmarked)).2
  rw [Event.binds_of_declares hdeclares] at hbinds
  cases hbinds

theorem declared_iff : Declared name (root.actionsIn filename i) ↔
    ∃ o ∈ root.inScope m, o.declares name = true := by
  constructor
  · intro hdeclared
    obtain ⟨e, he, hdeclares⟩ := hdeclared
    obtain ⟨o, ho, he⟩ := (h.mem_actionsIn hw hm).mp he
    exact ⟨o, ho, Occurrence.declares_iff.mpr ⟨e, he, hdeclares⟩⟩
  · intro hoccurs
    obtain ⟨o, ho, hdeclares⟩ := hoccurs
    obtain ⟨e, he, hdeclares⟩ := Occurrence.declares_iff.mp hdeclares
    exact ⟨e, (h.mem_actionsIn hw hm).mpr ⟨o, ho, he⟩, hdeclares⟩

theorem bound_iff : Bound name (root.actionsIn filename i) ↔
    ∃ o ∈ root.inScope m, o.binds name = true := by
  constructor
  · intro hbound
    obtain ⟨e, he, hbinds⟩ := hbound
    obtain ⟨o, ho, he⟩ := (h.mem_actionsIn hw hm).mp he
    exact ⟨o, ho, List.any_eq_true.mpr ⟨e, he, hbinds⟩⟩
  · intro hoccurs
    obtain ⟨o, ho, hbinds⟩ := hoccurs
    obtain ⟨e, he, hbinds⟩ := List.any_eq_true.mp hbinds
    exact ⟨e, (h.mem_actionsIn hw hm).mpr ⟨o, ho, he⟩, hbinds⟩

/-- A name that no reference in the scope refers to is not used there. -/
theorem not_usedBound (hnone : ∀ o ∈ root.inScope m, o.refersTo name = false) :
    ¬ UsedBound name (root.actionsIn filename i) := by
  intro hused
  obtain ⟨before, span, after, hactions, _⟩ := hused
  have huse : .use name span ∈ root.actionsIn filename i := by simp [hactions]
  obtain ⟨o, ho, huse⟩ := (h.mem_actionsIn hw hm).mp huse
  have hrefers := Occurrence.refersTo_iff.mpr ⟨span, huse⟩
  rw [hnone o ho] at hrefers
  cases hrefers

/-- The scope of a node lies directly in that of the node around it. -/
theorem parent_of_home {j : Nat} {inner : Occurrence} (hinner : root.openers[j]? = some inner)
    (hhome : inner.home = some m.node.id) : w.arena.Parent j i := by
  have hentry : (root.openers.map fun m => m.home.map root.scopeIndex)[j]? =
      some (inner.home.map root.scopeIndex) := by
    rw [List.getElem?_map, hinner]
    rfl
  obtain ⟨s, hs, hparent⟩ := (h.locates hw).parent (h.entries ▸ hentry)
  refine ⟨s, ?_, hparent.trans ((h.parent_iff hinner i).mpr ⟨m, hm, hhome⟩)⟩
  rw [← hs]
  exact congrArg (w.arena.scopes[·]?) (Nat.zero_add j).symm

/-- A reference from a scope directly inside, which does not bind the name, means the binding. -/
theorem met_of_inner {inner o : Occurrence} (hinner : inner ∈ root.openers)
    (hhome : inner.home = some m.node.id) (ho : o ∈ root.inScope inner)
    (hrefers : o.refersTo name = true) (hfree : ∀ o ∈ root.inScope inner, o.binds name = false) :
    w.arena.Met (root.actionsIn filename) name i := by
  obtain ⟨j, hj⟩ := List.getElem?_of_mem hinner
  have hparent := h.parent_of_home hw hm hj hhome
  have hunbound : ¬ Bound name (root.actionsIn filename j) := by
    rw [h.bound_iff hw hj]
    intro hbinder
    obtain ⟨o, ho, hbinds⟩ := hbinder
    rw [hfree o ho] at hbinds
    cases hbinds
  obtain ⟨span, huse⟩ := Occurrence.refersTo_iff.mp hrefers
  have hmentioned : ¬ ∀ e ∈ root.actionsIn filename j, e.uses name = false ∧
      e.binds name = false := by
    intro hnone
    have hused := (hnone _ ((h.mem_actionsIn hw hj).mpr ⟨o, ho, huse⟩)).1
    simp [Event.uses] at hused
  obtain ⟨first, hfirst⟩ := (usedFirst_or_bound hmentioned).resolve_right hunbound
  refine ⟨j, first, .single hparent, hfirst, fun between hinside hbetween => ?_⟩
  -- nothing lies between a scope and its parent
  obtain ⟨p, hp, hwithin⟩ := Arena.inside_iff_parent.mp hinside
  cases hp.unique hparent
  have hcycle : w.arena.Inside i i := Relation.TransGen.trans_right hwithin hbetween
  exact absurd hcycle ((resolves_walk hw).1.orderly.nested.forest.acyclic i)

omit hm in
/-- If each reference to a name stands behind a declaration in its scope, none means a binding of
the name around. -/
theorem not_met (hdeclared : ∀ o ∈ root.occurrences [], o.refersTo name = true →
      ∃ d, root.Earlier d o ∧ d.declares name = true) (i : Nat) :
    ¬ w.arena.Met (root.actionsIn filename) name i := by
  intro hmet
  obtain ⟨j, span, hinside, hfirst, _⟩ := hmet
  have hlt := h.size_arena hw ▸ hinside.lt_size
  refine h.not_usedFirst_of_declared hw (List.getElem?_eq_getElem hlt) (fun o ho => ?_) span hfirst
  exact hdeclared o (mem_inScope.mp ho).1

end Whole

end Node

/-! ## Reports of imports -/

theorem Scope.messages_unusedImport {s : Scope} (h : s.unused.Distinct) (filename name : String) :
    (s.messages filename).filter (Diagnostic.concerns [.unusedImport] name) =
      ((((s.unused.find? name).bind (s.history[·]?)).filter (·.traits.isImport)).map
        fun b => Diagnostic.make filename .unusedImport name b.span .error none).toList := by
  have hnarrow : (s.messages filename).filter (Diagnostic.concerns [.unusedImport] name) =
      ((s.messages filename).filter (Diagnostic.concerns [.unusedImport, .unusedLocal] name)).filter
        (Diagnostic.concerns [.unusedImport] name) := by
    rw [List.filter_filter]
    refine List.filter_congr fun d _ => ?_
    simp +contextual [Diagnostic.concerns]
  have himport : ∀ span, (Diagnostic.make filename .unusedImport name span .error none).concerns
      [.unusedImport] name = true := by
    simp [Diagnostic.concerns_make]
  have hlocal : ∀ span, (Diagnostic.make filename .unusedLocal name span .error none).concerns
      [.unusedImport] name = false := by
    intro span
    rw [← Bool.not_eq_true, Diagnostic.concerns_make]
    simp
  rw [hnarrow, messages_unused h]
  cases (s.unused.find? name).bind (s.history[·]?) with
  | none => rfl
  | some b =>
    rw [Option.bind_some, unusedReport, Option.filter_some]
    split
    · simp [himport]
    · split <;> simp [hlocal]

/-- A scope judges the imports of a name by the current binding of it. -/
theorem importReports_of_walk {root : Node} {filename : String} {w : Walk}
    (hw : walk root filename = .ok w) {i : Nat} {s : Scope} (hs : w.arena.scopes[i]? = some s)
    {name : String} {b : Binding} (hb : s.find? name = some b) :
    (s.messages filename).filter (Diagnostic.concerns [.unusedImport] name) =
        (if b.traits.isImport && s.unused.contains name then
          [Diagnostic.make filename .unusedImport name b.span .error none] else []) ∧
    (s.unused.contains name = true ↔
      ¬ Declared name (root.actionsIn filename i) ∧ ¬ UsedBound name (root.actionsIn filename i) ∧
        ¬ w.arena.Met (root.actionsIn filename) name i) := by
  obtain ⟨hresolves, hopen⟩ := resolves_walk hw
  have hanswers := hresolves.answers hs
  obtain ⟨p, hp, hplace⟩ := Option.bind_eq_some_iff.mp hb
  have hlisted : s.unused.contains name = true ↔ s.unused.find? name = some p := by
    rw [NameTable.contains_iff]
    constructor
    · intro hfound
      obtain ⟨other, hother⟩ := hfound
      have hbinding := ((hanswers.listed name other).mp hother).2.1
      rwa [← Option.some.inj (hbinding.symm.trans hp)]
    · exact fun hfind => ⟨p, hfind⟩
  refine ⟨?_, hlisted.trans (hresolves.unused_iff hopen hs hp)⟩
  rw [Scope.messages_unusedImport hanswers.listedOnce]
  cases hcontains : s.unused.contains name with
  | true =>
    rw [hlisted.mp hcontains, Option.bind_some, hplace]
    cases himport : b.traits.isImport <;> simp [himport]
  | false =>
    have hnone : s.unused.find? name = none := by
      simpa [NameTable.contains] using hcontains
    simp [hnone]

theorem find_of_bound {root : Node} {filename : String} {w : Walk}
    (hw : walk root filename = .ok w) {i : Nat} {s : Scope} (hs : w.arena.scopes[i]? = some s)
    {name : String} : (∃ b, s.find? name = some b) ↔ Bound name (root.actionsIn filename i) := by
  have htracks := ((resolves_walk hw).1.answers hs).tracks
  rw [← Option.isSome_iff_exists, htracks.proper.find?_isSome, htracks.bound]
  rfl

/-- A name that is declared in a scope, used after a binding there, or meant from inside is not
reported by the scope. -/
theorem importReports_eq_nil {root : Node} {filename : String} {w : Walk}
    (hw : walk root filename = .ok w) {i : Nat} {s : Scope} (hs : w.arena.scopes[i]? = some s)
    {name : String}
    (hused : Declared name (root.actionsIn filename i) ∨
      UsedBound name (root.actionsIn filename i) ∨
        w.arena.Met (root.actionsIn filename) name i) :
    (s.messages filename).filter (Diagnostic.concerns [.unusedImport] name) = [] := by
  cases hfind : s.find? name with
  | some b =>
    obtain ⟨hreports, hunused⟩ := importReports_of_walk hw hs hfind
    have hcontains : s.unused.contains name = false := by
      rw [← Bool.not_eq_true, hunused]
      tauto
    rw [hreports, hcontains, Bool.and_false]
    rfl
  | none =>
    have hanswers := (resolves_walk hw).1.answers hs
    have hunbound : s.bindings.find? name = none := by
      have hnone := hanswers.tracks.proper.find?_isSome name
      rw [hfind, NameTable.contains] at hnone
      simpa using hnone.symm
    have hunlisted : s.unused.find? name = none := by
      by_contra hlisted
      obtain ⟨p, hp⟩ := Option.ne_none_iff_exists'.mp hlisted
      cases hunbound.symm.trans ((hanswers.listed name p).mp hp).2.1
    rw [Scope.messages_unusedImport hanswers.listedOnce, hunlisted]
    rfl

/-! ## The last binding of a name -/

theorem Span.StartsBefore.irrefl {a : Span} (h : a.StartsBefore a) : False := by
  obtain ⟨p, q, hp, hq, hbefore⟩ := h
  cases hp.symm.trans hq
  unfold Position.Before at hbefore
  omega

theorem Span.StartsBefore.trans {a b c : Span} (h : a.StartsBefore b) (h' : b.StartsBefore c) :
    a.StartsBefore c := by
  obtain ⟨p, q, hp, hq, hbefore⟩ := h
  obtain ⟨q', r, hq', hr, hafter⟩ := h'
  cases hq.symm.trans hq'
  exact ⟨p, r, hp, hr, hbefore.trans hafter⟩

section

variable {code : String} {root : Node} (hparse : parse code = .ok root) {filename : String}
  {w : Walk} (hw : walk root filename = .ok w) {i : Nat} {s : Scope}
  (hs : w.arena.scopes[i]? = some s)
include hparse hw hs

/-- The bindings in a scope are made in the order of the text. -/
theorem pairwise_bindings : (root.actionsIn filename i).Pairwise fun a b =>
    ∀ r ∈ a.record? s.isToplevel, ∀ r' ∈ b.record? s.isToplevel, r.2.1.StartsBefore r'.2.1 := by
  have hrecalls := (Walk.Recalls.replay (walk_ok_iff.mp hw).1).recalls hs
  obtain ⟨t, ht, hsub⟩ := history_sublist hw hs
  have horder := Scope.inSourceOrder_of_sublist (hsub.trans (scopes_of_parse hparse t ht))
    (pairwise_namesOf_tokenize _)
  have hrecords : (s.history.map Binding.record).Pairwise fun r r' =>
      r.2.1.StartsBefore r'.2.1 := by
    rw [List.pairwise_map]
    exact List.pairwise_map.mp horder.ordered
  have hhistory : s.history.map Binding.record =
    (root.actionsIn filename i).filterMap (Event.record? s.isToplevel) := hrecalls.history
  rw [hhistory, List.pairwise_filterMap] at hrecords
  exact hrecords

/-- The current binding of a name is the one that comes last in the text. -/
theorem bindsLast_of_find {m : Occurrence} (hm : root.openers[i]? = some m) {name : String}
    {b : Binding} (hb : s.find? name = some b) :
    ∃ traits, root.BindsLast m name b.span traits ∧ b.traits.isImport = traits.isImport ∧
      ∀ {span : Span} {other : Traits}, root.BindsLast m name span other →
        span = b.span ∧ other = traits := by
  have hwhole := Node.whole_parse hparse
  have hpairs := pairwise_bindings hparse hw hs
  obtain ⟨traits, hlast, himport, _⟩ := ((resolves_walk hw).1.answers hs).tracks.last hb
  obtain ⟨before, isLoop, declared, after, hactions, hfresh⟩ := hlast
  -- every binding of the name is the last one, or made before it and further up in the text
  have hcases : ∀ {span : Span} {other : Traits}, root.BindsIn m name span other →
      (span = b.span ∧ other = traits) ∨ span.StartsBefore b.span := by
    intro span other hbinds
    obtain ⟨o, ho, isLoop', declared', hbind⟩ := hbinds
    have hmem := (hwhole.mem_actionsIn hw hm).mpr ⟨o, ho, hbind⟩
    change root.actionsIn filename i = _ at hactions
    rw [hactions] at hmem hpairs
    rcases List.mem_append.mp hmem with hearlier | hlater
    · right
      have hafter := (List.pairwise_append.mp hpairs).2.2 _ hearlier _ List.mem_cons_self
      exact hafter _ rfl _ rfl
    · rcases List.mem_cons.mp hlater with heq | hlater
      · cases heq
        exact .inl ⟨rfl, rfl⟩
      · exact absurd ⟨_, hlater, by simp [Event.binds]⟩ hfresh
  have hbind : .bind name b.span traits isLoop declared ∈ root.actionsIn filename i := by
    change root.actionsIn filename i = _ at hactions
    simp [hactions]
  obtain ⟨o, ho, hbind⟩ := (hwhole.mem_actionsIn hw hm).mp hbind
  have hhere : root.BindsIn m name b.span traits := ⟨o, ho, isLoop, declared, hbind⟩
  refine ⟨traits, ⟨hhere, fun hother => (hcases hother).imp_left And.left⟩, himport, ?_⟩
  intro span other hother
  rcases hcases hother.here with heq | hbefore
  · exact heq
  · rcases hother.last hhere with heq | hafter
    · rw [heq] at hbefore
      exact hbefore.irrefl.elim
    · exact (hbefore.trans hafter).irrefl.elim

end

/-! ## The law -/

/-- When the scope of `m` reports that the name is imported in vain. -/
structure Node.ReportsImport (root : Node) (filename : String) (m : Occurrence) (name : String)
    (reports : List Diagnostic) : Prop where
  /-- An imported name has a last binding. -/
  bound : (∃ o ∈ root.inScope m, o.imports name = true) →
    ∃ span traits, root.BindsLast m name span traits
  /-- The import is reported once if it is the last binding, the scope does not declare the name,
  and what refers to the name does so in another scope and behind a declaration there. -/
  unreferenced : ∀ {span : Span} {traits : Traits}, root.BindsLast m name span traits →
    traits.isImport = true → (∀ o ∈ root.inScope m, o.declares name = false) →
    (∀ o ∈ root.occurrences [], o.refersTo name = true →
      o.home ≠ some m.node.id ∧ ∃ d, root.Earlier d o ∧ d.declares name = true) →
    reports = [Diagnostic.make filename .unusedImport name span .error none]
  /-- An import that is bound anew is not reported. -/
  replaced : ∀ {span : Span} {traits : Traits}, root.BindsLast m name span traits →
    traits.isImport = false → reports = []
  declared : (∃ o ∈ root.inScope m, o.declares name = true) → reports = []
  /-- Nor is one that is referred to further down in the scope. -/
  referenced : (∃ d o, root.Earlier d o ∧ o.home = some m.node.id ∧ d.imports name = true ∧
    o.refersTo name = true) → reports = []
  /-- Nor one that is referred to in a scope directly inside which does not bind the name. -/
  enclosing : (∃ inner ∈ root.openers, inner.home = some m.node.id ∧
    (∃ o ∈ root.inScope inner, o.refersTo name = true) ∧
    ∀ o ∈ root.inScope inner, o.binds name = false) → reports = []

/-- In every scope of a text that parses, and for every name: an import that nothing refers to is
reported exactly once, unless the scope binds the name anew or declares it; references in scopes
that declare the name do not count. An import is not reported if it is referred to further down in
its scope, or in a scope directly inside that does not bind the name itself. -/
theorem unused_imports_reported_once {code : String} {root : Node} (hparse : parse code = .ok root)
    (filename : String) :
    ∃ w, walk root filename = .ok w ∧ ∀ (i : Nat) (m : Occurrence) (s : Scope),
      root.openers[i]? = some m → w.arena.scopes[i]? = some s → ∀ name : String,
        root.ReportsImport filename m name
          ((s.messages filename).filter (Diagnostic.concerns [.unusedImport] name)) := by
  have hwhole := Node.whole_parse hparse
  obtain ⟨w, hw⟩ := walk_parse_ok hparse filename
  refine ⟨w, hw, fun i m s hm hs name => ?_⟩
  -- the current binding of a bound name, and that it is the last one
  have hfind : ∀ {o : Occurrence}, o ∈ root.inScope m → ∀ {e : Event}, e ∈ o.actions →
      e.binds name = true → ∃ b, s.find? name = some b := fun ho _ he hbinds =>
    (find_of_bound hw hs).mpr ⟨_, (hwhole.mem_actionsIn hw hm).mpr ⟨_, ho, he⟩, hbinds⟩
  have hlast : ∀ {span : Span} {traits : Traits}, root.BindsLast m name span traits →
      ∃ b, s.find? name = some b ∧ span = b.span ∧ traits.isImport = b.traits.isImport := by
    intro span traits h
    obtain ⟨o, ho, isLoop, declared, hbind⟩ := h.here
    obtain ⟨b, hb⟩ := hfind ho hbind (by simp [Event.binds])
    obtain ⟨_, _, himport, hunique⟩ := bindsLast_of_find hparse hw hs hm hb
    exact ⟨b, hb, (hunique h).1, by rw [(hunique h).2, himport]⟩
  constructor
  case bound =>
    intro himported
    obtain ⟨o, ho, himports⟩ := himported
    obtain ⟨e, he, himport⟩ := List.any_eq_true.mp himports
    obtain ⟨b, hb⟩ := hfind ho he (Event.binds_of_imports himport)
    obtain ⟨traits, hlast, _⟩ := bindsLast_of_find hparse hw hs hm hb
    exact ⟨b.span, traits, hlast⟩
  case unreferenced =>
    intro span traits h himport hundeclared hreferences
    obtain ⟨b, hb, rfl, htraits⟩ := hlast h
    obtain ⟨hreports, hunused⟩ := importReports_of_walk hw hs hb
    have hcontains : s.unused.contains name = true := by
      refine hunused.mpr ⟨?_, ?_, hwhole.not_met hw (fun o ho hr => (hreferences o ho hr).2) i⟩
      · rw [hwhole.declared_iff hw hm]
        intro hdeclared
        obtain ⟨o, ho, hdeclares⟩ := hdeclared
        rw [hundeclared o ho] at hdeclares
        cases hdeclares
      · refine hwhole.not_usedBound hw hm fun o ho => ?_
        obtain ⟨ho, hhome⟩ := Node.Whole.mem_inScope.mp ho
        exact Bool.not_eq_true _ ▸ fun hr => (hreferences o ho hr).1 hhome
    rw [hreports, ← htraits, himport, hcontains]
    rfl
  case replaced =>
    intro span traits h himport
    obtain ⟨b, hb, _, htraits⟩ := hlast h
    rw [(importReports_of_walk hw hs hb).1, ← htraits, himport]
    rfl
  case declared =>
    exact fun h => importReports_eq_nil hw hs (.inl ((hwhole.declared_iff hw hm).mpr h))
  case referenced =>
    intro hreferred
    obtain ⟨d, o, hearlier, ho, himports, hrefers⟩ := hreferred
    exact importReports_eq_nil hw hs
      (.inr (.inl (hwhole.usedBound_of_earlier hw hm hearlier ho himports hrefers)))
  case enclosing =>
    intro henclosed
    obtain ⟨inner, hinner, hhome, ⟨o, ho, hrefers⟩, hfree⟩ := henclosed
    exact importReports_eq_nil hw hs
      (.inr (.inr (hwhole.met_of_inner hw hm hinner hhome ho hrefers hfree)))

/-- The only reference to the module stands in a function that declares it. -/
def declaredInside : String := "import os\ndef f():\n\tglobal os\n\treturn os\n"

theorem import_reported_for_declaredInside :
    ∃ root w m s, parse declaredInside = .ok root ∧ walk root "m" = .ok w ∧
      root.openers[0]? = some m ∧ w.arena.scopes[0]? = some s ∧
      (∃ o ∈ root.occurrences [], o.refersTo "os" = true) ∧
      (s.messages "m").filter (Diagnostic.concerns [.unusedImport] "os") =
        [Diagnostic.make "m" .unusedImport "os" (.between ⟨1, 7⟩ ⟨1, 9⟩) .error none] := by
  -- the homes of the nodes, and who declares the name and refers to it
  have hfacts : (parse declaredInside).toOption.map (fun root =>
      ((root.occurrences []).map fun o => (o.home, o.declares "os", o.refersTo "os"),
        root.openers.map fun m => (m.node.id, ((root.inScope m).flatMap Occurrence.actions).filter
          (·.binds "os")))) =
      some ([(none, false, false), (some 0, false, false), (some 0, false, false),
        (some 2, true, false), (some 2, false, false), (some 2, false, true)],
        [(0, [.bind "os" (.between ⟨1, 7⟩ ⟨1, 9⟩) { isImport := true } false false]),
          (2, [.bind "os" (.between ⟨3, 8⟩ ⟨3, 10⟩) {} false true])]) := by decide +kernel
  obtain ⟨root, hparse, hfacts⟩ := parsed_of_map hfacts
  obtain ⟨hplaces, hopeners⟩ := Prod.mk.inj hfacts
  obtain ⟨m, hm, hhere⟩ : ∃ m, root.openers[0]? = some m ∧ (m.node.id,
      ((root.inScope m).flatMap Occurrence.actions).filter (·.binds "os")) =
        (0, [.bind "os" (.between ⟨1, 7⟩ ⟨1, 9⟩) { isImport := true } false false]) := by
    have hfirst := congrArg (·[0]?) hopeners
    rwa [List.getElem?_map, List.getElem?_cons_zero, Option.map_eq_some_iff] at hfirst
  obtain ⟨hid, hbindings⟩ := Prod.mk.inj hhere
  simp only [List.map_eq_cons_iff, List.map_eq_nil_iff, Prod.mk.injEq] at hplaces
  obtain ⟨top, _, hroot, htop, importNode, _, rfl, himport, function, _, rfl, hfunction,
    declaration, _, rfl, hdeclaration, statement, _, rfl, hstatement, reference, _, rfl, hreference,
    rfl⟩ := hplaces
  obtain ⟨w, hw, hreports⟩ := unused_imports_reported_once hparse "m"
  obtain ⟨s, hs⟩ := Arena.exists_scope (a := w.arena) (i := 0) (by
    rw [(Node.whole_parse hparse).size_arena hw]
    exact (List.getElem?_eq_some_iff.mp hm).1)
  refine ⟨root, w, m, s, hparse, hw, hm, hs, ⟨reference, by simp [hroot], hreference.2.2⟩, ?_⟩
  have honly : ∀ e, (∃ o ∈ root.inScope m, e ∈ o.actions) ∧ e.binds "os" = true ↔
      e = .bind "os" (.between ⟨1, 7⟩ ⟨1, 9⟩) { isImport := true } false false := by
    intro e
    have hmem : e ∈ ((root.inScope m).flatMap Occurrence.actions).filter (·.binds "os") ↔ _ :=
      List.mem_filter
    rw [hbindings, List.mem_singleton, List.mem_flatMap] at hmem
    exact hmem.symm
  have hlast : root.BindsLast m "os" (.between ⟨1, 7⟩ ⟨1, 9⟩) { isImport := true } := by
    obtain ⟨⟨o, ho, hbind⟩, _⟩ := (honly _).mpr rfl
    refine ⟨⟨o, ho, _, _, hbind⟩, fun {other traits} hother => .inl ?_⟩
    obtain ⟨o, ho, _, _, hbind⟩ := hother
    cases (honly _).mp ⟨⟨o, ho, hbind⟩, by simp [Event.binds]⟩
    rfl
  refine (hreports 0 m s hm hs "os").unreferenced hlast rfl (fun o ho => ?_) fun o ho hrefers => ?_
  · obtain ⟨ho, hhome⟩ := Node.Whole.mem_inScope.mp ho
    simp only [hroot, List.mem_cons, List.not_mem_nil, or_false] at ho
    rw [hid] at hhome
    rcases ho with rfl | rfl | rfl | rfl | rfl | rfl <;> simp_all
  · have hearlier : root.Earlier declaration reference :=
      ⟨[top, importNode, function, declaration, statement], [], hroot, by simp,
        hdeclaration.1.trans hreference.1.symm⟩
    have ho : o = reference := by
      simp only [hroot, List.mem_cons, List.not_mem_nil, or_false] at ho
      rcases ho with rfl | rfl | rfl | rfl | rfl | rfl <;> simp_all
    rw [hid, ho, hreference.1]
    exact ⟨by decide, declaration, hearlier, hdeclaration.2.1⟩

/-- An import that is bound anew is not reported, though nothing refers to it; and one that is
declared in a function is, though the function refers to it. -/
theorem imports_bound_anew_or_declared :
    (∃ root, parse "import os\nos = 1\n" = .ok root ∧
      (∃ o ∈ root.occurrences [], o.imports "os" = true) ∧
      ∀ o ∈ root.occurrences [], o.refersTo "os" = false) ∧
    (lint "import os\nos = 1\n" "m" []).map (fun report => report.diagnostics.map (·.ident)) =
      .ok [] ∧
    ((parse declaredInside).toOption.map fun root => (root.occurrences []).map fun o =>
      (o.home, o.imports "os", o.declares "os", o.refersTo "os")) =
      some [(none, false, false, false), (some 0, true, false, false),
        (some 0, false, false, false), (some 2, false, true, false),
        (some 2, false, false, false), (some 2, false, false, true)] ∧
    (lint declaredInside "m" []).map (fun report => report.diagnostics.map (·.ident)) =
      .ok ["unused-import"] := by
  refine ⟨?_, by decide +kernel, by decide +kernel, by decide +kernel⟩
  have hfacts : (parse "import os\nos = 1\n").toOption.map (fun root =>
      ((root.occurrences []).any (·.imports "os"), (root.occurrences []).all (!·.refersTo "os"))) =
      some (true, true) := by decide +kernel
  obtain ⟨root, hparse, hfacts⟩ := parsed_of_map hfacts
  obtain ⟨himports, hrefers⟩ := Prod.mk.inj hfacts
  exact ⟨root, hparse, List.any_eq_true.mp himports, by simpa using hrefers⟩

end ScopeLint
