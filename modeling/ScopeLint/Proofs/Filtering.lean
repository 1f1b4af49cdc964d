import ScopeLint.Proofs.Boundary
import ScopeLint.Proofs.Lines
import ScopeLint.Proofs.Order
import ScopeLint.Proofs.Sorting

/-! # What a report keeps

A report is made of candidates: what the walk found, the line scan, then each scope.
Some of them are excused, by a directive on their line or as built-in names; the
others come in the order of their places. Built-in names have no other part in it,
so of two runs the one that knows more of them reports the same, less some names. -/
namespace ScopeLint

/-- The identifiers that the end of a line suppresses on it. Lines count from one. -/
def suppressedOn (code : String) (line : Int) : List String :=
  if 1 ≤ line then (((linesOf code)[(line - 1).toNat]?).bind LineScan.lineFilter).getD [] else []

/-- A diagnostic is left out of the report: it is suppressed on the line where it starts, or it is
about an undefined name that is built in. -/
def Diagnostic.Excused (code : String) (builtins : List String) (d : Diagnostic) : Prop :=
  (∃ line ∈ d.startLine, d.ident ∈ suppressedOn code line) ∨ d.ident = "undef" ∧ d.name ∈ builtins

instance (code : String) (builtins : List String) (d : Diagnostic) :
    Decidable (d.Excused code builtins) :=
  inferInstanceAs (Decidable (_ ∨ _))

namespace Resolve

theorem isSuppressed_scan (code filename : String) (d : Diagnostic) :
    isSuppressed (LineScan.scan code filename).filters d =
      decide (∃ line ∈ d.startLine, d.ident ∈ suppressedOn code line) := by
  unfold isSuppressed
  cases d.startLine with
  | none => simp
  | some line =>
    simp only [Option.mem_some_iff, exists_eq_left', suppressedOn, linesOf]
    rw [LineScan.scan, LineScan.lookup_scanFrom]
    split
    · cases ((Text.splitAt '\n' code.toList)[(line - 1).toNat]?).bind LineScan.lineFilter <;> simp
    · simp

theorem isBuiltin_eq_decide (builtins : List String) (d : Diagnostic) :
    isBuiltin builtins d = decide (d.ident = "undef" ∧ d.name ∈ builtins) := by
  simp [isBuiltin, Check.ident, Bool.beq_eq_decide_eq]

theorem resolve_eq_sort (w : Walk) (code : String) (builtins : List String) :
    resolve w code builtins =
      sort ((candidates w code).filter fun d => ¬ d.Excused code builtins) := by
  rw [resolve]
  refine congrArg sort (List.filter_congr fun d _ => ?_)
  rw [isSuppressed_scan, isBuiltin_eq_decide, ← Bool.not_or, ← Bool.decide_or, ← decide_not]
  rfl

/-- The scopes that were walked are there. -/
theorem exists_walked {w : Walk} (h : ∀ i ∈ w.walked, i < w.arena.size) :
    ∃ scopes : List Scope, w.walked.map (w.arena.scopes[·]?) = scopes.map some ∧
      scopeMessages w = scopes.flatMap (·.messages w.filename) := by
  unfold scopeMessages
  generalize w.walked = walked at h
  induction walked with
  | nil => exact ⟨[], rfl, rfl⟩
  | cons i walked ih =>
    obtain ⟨s, hs⟩ := Arena.exists_scope (h i List.mem_cons_self)
    obtain ⟨scopes, hscopes, hmessages⟩ := ih fun j hj => h j (List.mem_cons_of_mem _ hj)
    refine ⟨s :: scopes, ?_, ?_⟩
    · rw [List.map_cons, List.map_cons, hs, hscopes]
    · rw [List.flatMap_cons, List.flatMap_cons, hs, hmessages]
      rfl

end Resolve

theorem walked_lt_of_walk {root : Node} {filename : String} {w : Walk}
    (hw : walk root filename = .ok w) : ∀ i ∈ w.walked, i < w.arena.size := by
  intro i hi
  have horderly := (Walk.orderly_start filename).replay (walk_ok_iff.mp hw).1
  exact horderly.nested.lt_size_iff.mpr (.inl hi)

/-- The report of a finished walk is what is left of the candidates, and of nothing else, if the
excused ones are taken out: the findings of the walk itself, those of the line scan, and those of
each scope in the order of walking. They are sorted by line and column, where an unknown one counts
as zero, and those of one place stand in the order in which they were candidates. -/
theorem resolve_sorts_what_is_kept {w : Walk}
    (hw : (∃ root filename, walk root filename = .ok w) ∨ ∀ i ∈ w.walked, i < w.arena.size)
    (code : String) (builtins : List String) :
    ∃ (scopes : List Scope) (kept : List Diagnostic),
      w.walked.map (w.arena.scopes[·]?) = scopes.map some ∧
      kept = (w.messages ++ (LineScan.scan code w.filename).messages ++
        scopes.flatMap (·.messages w.filename)).filter (fun d => ¬ d.Excused code builtins) ∧
      (Resolve.resolve w code builtins).Perm kept ∧
      (Resolve.resolve w code builtins).Pairwise
        (fun a b => Prod.Lex (· < ·) (· ≤ ·) (Resolve.key a) (Resolve.key b)) ∧
      ∀ place, (Resolve.resolve w code builtins).filter (Resolve.key · = place) =
        kept.filter (Resolve.key · = place) := by
  have hwalked : ∀ i ∈ w.walked, i < w.arena.size := by
    rcases hw with ⟨root, filename, hw⟩ | hwalked
    · exact walked_lt_of_walk hw
    · exact hwalked
  obtain ⟨scopes, hscopes, hmessages⟩ := Resolve.exists_walked hwalked
  refine ⟨scopes, _, hscopes, rfl, ?_⟩
  rw [Resolve.resolve_eq_sort, Resolve.candidates, hmessages]
  refine ⟨Resolve.perm_sort _, ?_, fun place => Resolve.filter_sort_place place _⟩
  refine (Resolve.pairwise_sort _).imp fun {a b} hab => ?_
  rw [Prod.lex_def]
  exact Resolve.precedes_iff.mp hab

/-- A line that is a semicolon, which the walk finds as well as the line scan, behind names of which
one is built in; and a line with a directive. -/
def tied : String := "y; z\n;\nu # no-lint"

theorem resolve_of_tied : ∃ (root : Node) (w : Walk) (scopes : List Scope) (kept : List Diagnostic),
    parse tied = .ok root ∧ walk root "t" = .ok w ∧
    w.walked.map (w.arena.scopes[·]?) = scopes.map some ∧
    kept = (w.messages ++ (LineScan.scan tied w.filename).messages ++
      scopes.flatMap (·.messages w.filename)).filter (fun d => ¬ d.Excused tied ["z"]) ∧
    (Resolve.resolve w tied ["z"]).Perm kept ∧
    (Resolve.resolve w tied ["z"]).map (fun d => (d.ident, Resolve.key d)) =
      [("undef", (1, 0)), ("extra-semicolon", (2, 0)), ("eol-semicolon", (2, 0))] := by
  have hfacts : (parse tied).toOption.map (fun root => (walk root "t").toOption.map fun w =>
      (Resolve.resolve w tied ["z"]).map fun d => (d.ident, Resolve.key d)) =
      some (some
        [("undef", (1, 0)), ("extra-semicolon", (2, 0)), ("eol-semicolon", (2, 0))]) := by
    decide +kernel
  obtain ⟨root, hparse, hfacts⟩ := parsed_of_map hfacts
  obtain ⟨w, hw⟩ := walk_parse_ok hparse "t"
  rw [hw] at hfacts
  obtain ⟨scopes, kept, hscopes, hkept, hperm, _, _⟩ :=
    resolve_sorts_what_is_kept (.inl ⟨root, "t", hw⟩) tied ["z"]
  exact ⟨root, w, scopes, kept, hparse, hw, hscopes, hkept, hperm, Option.some.inj hfacts⟩

/-! ## More built-in names -/

/-- A diagnostic that is about a name which one set of built-in names has more than another. -/
def Diagnostic.ExcusedAlso (more builtins : List String) (d : Diagnostic) : Prop :=
  d.ident = "undef" ∧ d.name ∈ more ∧ d.name ∉ builtins

instance (more builtins : List String) (d : Diagnostic) :
    Decidable (d.ExcusedAlso more builtins) :=
  inferInstanceAs (Decidable (_ ∧ _))

theorem Diagnostic.excused_iff {builtins more : List String} (h : builtins ⊆ more) (code : String)
    (d : Diagnostic) :
    d.Excused code more ↔ d.Excused code builtins ∨ d.ExcusedAlso more builtins := by
  have hname : d.name ∈ builtins → d.name ∈ more := fun hd => h hd
  by_cases hknown : d.name ∈ builtins
  · simp [Excused, ExcusedAlso, hknown, hname hknown]
  · simp [Excused, ExcusedAlso, hknown]

/-- What is excused as well may be dropped from the report instead. -/
theorem Resolve.resolve_of_subset {builtins more : List String} (h : builtins ⊆ more) (w : Walk)
    (code : String) :
    resolve w code more =
      (resolve w code builtins).filter (fun d => ¬ d.ExcusedAlso more builtins) := by
  rw [resolve_eq_sort, resolve_eq_sort, filter_sort, List.filter_filter]
  refine congrArg sort (List.filter_congr fun d _ => ?_)
  simp only [Diagnostic.excused_iff h, not_or, decide_not, Bool.decide_and, Bool.and_comm]

theorem lint_of_subset {builtins more : List String} (h : builtins ⊆ more)
    (code filename : String) :
    ∃ report report', lint code filename builtins = .ok report ∧
      lint code filename more = .ok report' ∧ report'.diagnostics =
        report.diagnostics.filter (fun d => ¬ d.ExcusedAlso more builtins) := by
  cases hparse : parse code with
  | error e =>
    refine ⟨_, _, lint_of_parse_error hparse filename builtins,
      lint_of_parse_error hparse filename more, ?_⟩
    simp [Diagnostic.ExcusedAlso, syntaxDiagnostic, Check.ident]
  | ok root =>
    obtain ⟨w, hw⟩ := walk_parse_ok hparse filename
    obtain ⟨notes, hlint⟩ := lint_of_walk hparse hw builtins
    obtain ⟨notes', hlint'⟩ := lint_of_walk hparse hw more
    exact ⟨_, _, hlint, hlint', Resolve.resolve_of_subset h w code⟩

namespace Builtins

theorem subset_union (known names : List String) : known ⊆ union known names := by
  induction names generalizing known with
  | nil => exact List.Subset.refl known
  | cons name names ih =>
    rw [union]
    refine List.Subset.trans ?_ (ih _)
    split
    · exact List.Subset.refl known
    · exact List.subset_append_left known [name]

/-- The default names are always among those that are loaded. -/
theorem defaults_subset_load {library : Option String} {extra : List String} {loaded : Loaded}
    (h : load library extra = .ok loaded) : defaults ⊆ loaded.names := by
  cases library with
  | none =>
    cases h
    exact subset_union defaults extra
  | some source =>
    cases hfound : moduleNames source with
    | error e => simp [load, hfound, bind, Except.bind] at h
    | ok found =>
      simp only [load, hfound, bind, Except.bind, pure, Except.pure, Except.ok.injEq] at h
      rw [← h]
      exact List.Subset.trans (subset_union defaults extra) (subset_union _ found.names)

end Builtins

/-- Linting with more built-in names reports the same diagnostics in the same order, without those
that say of one of the added names that it is undefined. So whatever base library and other names
are loaded, what is reported with them is reported with the default names. -/
theorem builtins_only_remove_undefined {builtins more : List String} (h : builtins ⊆ more)
    (code filename : String) :
    (∃ report report', lint code filename builtins = .ok report ∧
      lint code filename more = .ok report' ∧ report'.diagnostics = report.diagnostics.filter
        (fun d => ¬ (d.ident = "undef" ∧ d.name ∈ more ∧ d.name ∉ builtins))) ∧
    ∀ library extra loaded, Builtins.load library extra = .ok loaded →
      ∃ report report', lint code filename Builtins.defaults = .ok report ∧
        lint code filename loaded.names = .ok report' ∧
        report'.diagnostics.Sublist report.diagnostics := by
  refine ⟨lint_of_subset h code filename, fun library extra loaded hload => ?_⟩
  obtain ⟨report, report', hlint, hlint', hreport⟩ :=
    lint_of_subset (Builtins.defaults_subset_load hload) code filename
  refine ⟨report, report', hlint, hlint', ?_⟩
  rw [hreport]
  exact List.filter_sublist

/-- A call of a function that a base library may define. -/
def calling : String := "helper(x, y);"

theorem undefined_in_calling : ∃ loaded report report' reported reported',
    ["y"] ⊆ ["helper", "y"] ∧ lint calling "t" ["y"] = .ok report ∧
    lint calling "t" ["helper", "y"] = .ok report' ∧
    report.diagnostics.map (fun d => (d.ident, d.name)) =
      [("undef", "helper"), ("undef", "x"), ("eol-semicolon", ";")] ∧
    report'.diagnostics = report.diagnostics.filter
      (fun d => ¬ (d.ident = "undef" ∧ d.name ∈ ["helper", "y"] ∧ d.name ∉ ["y"])) ∧
    Builtins.load (some "def helper(a, b): pass") ["y"] = .ok loaded ∧
    "helper" ∈ loaded.names ∧ lint calling "t" Builtins.defaults = .ok reported ∧
    lint calling "t" loaded.names = .ok reported' ∧
    reported'.diagnostics.Sublist reported.diagnostics := by
  have hsubset : ["y"] ⊆ ["helper", "y"] := by decide
  have hload : (Builtins.load (some "def helper(a, b): pass") ["y"]).toOption.map
      (fun loaded => decide ("helper" ∈ loaded.names)) = some true := by decide +kernel
  obtain ⟨loaded, hload, hhelper⟩ := Option.map_eq_some_iff.mp hload
  have hload : Builtins.load (some "def helper(a, b): pass") ["y"] = .ok loaded := by
    cases h : Builtins.load (some "def helper(a, b): pass") ["y"] with
    | error e =>
      rw [h] at hload
      cases hload
    | ok found =>
      rw [h] at hload
      cases hload
      rfl
  obtain ⟨⟨report, report', hlint, hlint', hreport⟩, hshrinks⟩ :=
    builtins_only_remove_undefined hsubset calling "t"
  obtain ⟨reported, reported', hdefaults, hloaded, hsublist⟩ := hshrinks _ _ loaded hload
  have hfound : (lint calling "t" ["y"]).toOption.map
      (fun report => report.diagnostics.map fun d => (d.ident, d.name)) =
      some [("undef", "helper"), ("undef", "x"), ("eol-semicolon", ";")] := by decide +kernel
  rw [hlint] at hfound
  exact ⟨loaded, report, report', reported, reported', hsubset, hlint, hlint',
    Option.some.inj hfound, hreport, hload, of_decide_eq_true hhelper, hdefaults, hloaded, hsublist⟩

end ScopeLint
