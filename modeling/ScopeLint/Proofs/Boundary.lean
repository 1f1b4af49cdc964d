import ScopeLint.Lint
import ScopeLint.Proofs.Acceptance
import ScopeLint.Proofs.Brackets
import ScopeLint.Proofs.Built
import ScopeLint.Proofs.Reports

/-! # Linting never fails

A text that does not parse comes to the one diagnostic that says so. A text that
parses is walked to the end, and nothing that is found then is called a syntax
error. Calls may nest as deep as they need to; only the builder of syntax trees is
also known under a limit. -/
namespace ScopeLint

open Ebnf

namespace Walk

theorem ident_of_step {w w' : Walk} {e : Event} (hstep : w.step e = .ok w')
    (h : ∀ d ∈ w.messages, ∃ check ∈ [Check.functionInBranch, .extraSemicolon],
      d.ident = check.ident) :
    ∀ d ∈ w'.messages, ∃ check ∈ [Check.functionInBranch, .extraSemicolon],
      d.ident = check.ident := by
  -- a report adds a message of its own check
  have hreport : ∀ check ∈ [Check.functionInBranch, .extraSemicolon], ∀ name span,
      ∀ d ∈ (w.report check name span).messages,
        ∃ check ∈ [Check.functionInBranch, .extraSemicolon], d.ident = check.ident := by
    intro check hcheck name span d hd
    rcases List.mem_append.mp hd with hd | hd
    · exact h d hd
    · rw [List.mem_singleton.mp hd]
      exact ⟨check, hcheck, rfl⟩
  cases e with
  | define name span =>
    cases hstep
    split
    · exact h
    · exact hreport _ (by decide) _ _
  | semicolon span =>
    cases hstep
    exact hreport _ (by decide) _ _
  | enter | branch | join =>
    cases hstep
    exact h
  | leave | bind | use =>
    simp only [step] at hstep
    split at hstep
    · cases hstep
    · cases hstep
      exact h
  | emptyImport => cases hstep

/-- A walk reports definitions in branches and semicolons, and leaves the rest to its scopes. -/
theorem ident_of_walk {root : Node} {filename : String} {w : Walk}
    (hw : walk root filename = .ok w) {d : Diagnostic} (hd : d ∈ w.messages) :
    ∃ check ∈ [Check.functionInBranch, .extraSemicolon], d.ident = check.ident :=
  replay_invariant (fun h hstep => ident_of_step hstep h) (by simp) (walk_ok_iff.mp hw).1 d hd

end Walk

namespace Resolve

theorem mem_insert {d x : Diagnostic} {sorted : List Diagnostic} :
    x ∈ insert d sorted ↔ x = d ∨ x ∈ sorted := by
  induction sorted with
  | nil => simp [insert]
  | cons e rest ih =>
    rw [insert]
    split
    · simp
    · rw [List.mem_cons, ih, List.mem_cons]
      tauto

theorem mem_sort {x : Diagnostic} {diagnostics : List Diagnostic} :
    x ∈ sort diagnostics ↔ x ∈ diagnostics := by
  induction diagnostics with
  | nil => rfl
  | cons d rest ih => rw [sort, mem_insert, ih, List.mem_cons]

theorem ident_of_scan {filename : String} {number : Int} {lines : List (List Char)}
    {d : Diagnostic} (h : d ∈ (LineScan.scanFrom filename number lines).messages) :
    d.ident = Check.endSemicolon.ident := by
  induction lines generalizing number with
  | nil => cases h
  | cons line rest ih =>
    rcases List.mem_append.mp h with hline | hrest
    · unfold LineScan.lineMessages at hline
      dsimp only at hline
      split at hline
      · rw [List.mem_singleton.mp hline]
        rfl
      · cases hline
    · exact ih hrest

theorem ident_of_scope {s : Scope} {filename : String} {d : Diagnostic}
    (h : d ∈ s.messages filename) : d.ident ≠ Check.syntaxError.ident := by
  rcases List.mem_append.mp h with h | hshadowed
  · rcases List.mem_append.mp h with hundefined | hunused
    · rw [Scope.ident_of_undefined hundefined]
      simp [Check.ident_inj]
    · rcases Scope.ident_of_unused hunused with hi | hi <;> simp [hi, Check.ident_inj]
  · rw [Scope.ident_of_shadowed hshadowed]
    simp [Check.ident_inj]

/-- Nothing that is found in a walked tree is a syntax error. -/
theorem ident_of_resolve {root : Node} {filename code : String} {builtins : List String} {w : Walk}
    (hw : walk root filename = .ok w) {d : Diagnostic} (h : d ∈ resolve w code builtins) :
    d.ident ≠ Check.syntaxError.ident := by
  have hcandidate : d ∈ candidates w code := (List.mem_filter.mp (mem_sort.mp h)).1
  rcases List.mem_append.mp hcandidate with hcandidate | hscope
  · rcases List.mem_append.mp hcandidate with hwalk | hscan
    · obtain ⟨check, hcheck, hident⟩ := Walk.ident_of_walk hw hwalk
      have hne : check ≠ .syntaxError := by
        rintro rfl
        exact absurd hcheck (by decide)
      exact fun heq => hne (Check.ident_inj.mp (hident.symm.trans heq))
    · rw [ident_of_scan hscan]
      simp [Check.ident_inj]
  · obtain ⟨place, _, hd⟩ := List.mem_flatMap.mp hscope
    cases hs : w.arena.scopes[place]? with
    | none => simp [hs] at hd
    | some s =>
      rw [hs] at hd
      exact ident_of_scope hd

end Resolve

theorem lint_of_parse_error {code : String} {e : SyntaxError} (h : parse code = .error e)
    (filename : String) (builtins : List String) :
    lint code filename builtins =
      .ok ⟨[syntaxDiagnostic e filename], [.parseFailed filename e.message]⟩ := by
  unfold lint
  rw [h]

theorem lint_of_parse {code : String} {root : Node} (h : parse code = .ok root) (filename : String)
    (builtins : List String) :
    lint code filename builtins = lintTree root code filename builtins := by
  unfold lint
  rw [h]

theorem lintTree_eq_ok_iff {root : Node} {code filename : String} {builtins : List String}
    {report : Report} :
    lintTree root code filename builtins = .ok report ↔ ∃ w, walk root filename = .ok w ∧
      report = ⟨Resolve.resolve w code builtins, w.notes ++ [.resolved filename
        (Resolve.candidates w code).length (Resolve.resolve w code builtins).length]⟩ := by
  unfold lintTree
  cases walk root filename with
  | error e => simp [bind, Except.bind]
  | ok w => simp [bind, Except.bind, pure, Except.pure, eq_comm]

theorem lint_of_walk {code filename : String} {root : Node} {w : Walk}
    (h : parse code = .ok root) (hw : walk root filename = .ok w) (builtins : List String) :
    ∃ notes, lint code filename builtins = .ok ⟨Resolve.resolve w code builtins, notes⟩ := by
  unfold lint
  rw [h]
  show ∃ notes, lintTree root code filename builtins = _
  unfold lintTree
  rw [hw]
  exact ⟨_, rfl⟩

/-- Parsing gives a well-formed module or a syntax error, never for a bracket that layout could not
match; and linting succeeds either way. A syntax error is the only diagnostic if there is one, and
otherwise the module is walked and no diagnostic is a syntax error.

Behind a parsed module there is a derivation. Given the parse tree of a derivation, the builder
answers as parsing does, and none of its own failures is met: it finds every child, text and label
that it asks for. The one exception is a limit on its calls that is less than the depth of the
derivation, which it may run into. -/
theorem lint_splits_at_parse (code filename : String) (builtins : List String) :
    ((∃ e report d, parse code = .error e ∧ e ≠ .fault .unmatchedCloser ∧
        lint code filename builtins = .ok report ∧ report.diagnostics = [d] ∧
        d.ident = "syntax-err") ∨
      ∃ root w report, parse code = .ok root ∧ root.form = .module ∧ root.WellFormed ∧
        walk root filename = .ok w ∧ lint code filename builtins = .ok report ∧
        (∀ d ∈ report.diagnostics, d.ident ≠ "syntax-err") ∧
        (sourceTokens code).fault = none ∧
        ∃ d : Derivation (ph .fileInput), d.tokens = (sourceTokens code).tokens) ∧
    ((sourceTokens code).fault = none →
      ∀ d : Derivation (ph .fileInput), d.tokens = (sourceTokens code).tokens →
        ∀ limit, d.image limit = (parse code).mapError .syntaxError ∨
          limit < d.depth ∧ d.image limit = .error .tooDeep) := by
  refine ⟨?_, fun hfault d hd limit => image_eq_parse hfault hd limit⟩
  cases hparse : parse code with
  | error e =>
    refine Or.inl ⟨e, _, syntaxDiagnostic e filename, rfl, ?_,
      lint_of_parse_error hparse filename builtins, rfl, rfl⟩
    rintro rfl
    exact parse_ne_unmatchedCloser code hparse
  | ok root =>
    obtain ⟨hform, hwell⟩ := wellFormed_parse hparse
    obtain ⟨w, hw⟩ := walk_parse_ok hparse filename
    obtain ⟨notes, hlint⟩ := lint_of_walk hparse hw builtins
    have hfault := fault_of_parse hparse
    exact Or.inr ⟨root, w, _, rfl, hform, hwell, hw, hlint, fun d => Resolve.ident_of_resolve hw,
      hfault, (accepted_iff_derivable hfault).mp (.inl ⟨root, hparse⟩)⟩

end ScopeLint
