import Mathlib.Data.List.TakeWhile
import ScopeLint.CommandLine
import ScopeLint.Proofs.Boundary

/-! # Exit status and output of a run

A run goes through the inputs that can be read, and stops in front of the first
that cannot: `lintInputs_append`. What it has printed by then are the findings of
these inputs, in order, and its status is 0 if there were none. -/
namespace ScopeLint

theorem lint_ok (code filename : String) (builtins : List String) :
    ∃ report, lint code filename builtins = .ok report := by
  cases hparse : parse code with
  | error e => exact ⟨_, lint_of_parse_error hparse filename builtins⟩
  | ok root =>
    obtain ⟨w, hw⟩ := walk_parse_ok hparse filename
    obtain ⟨notes, hlint⟩ := lint_of_walk hparse hw builtins
    exact ⟨_, hlint⟩

/-! ## The switch for JSON -/

namespace Options

theorem apply_json (o : Options) (s : Switch) :
    { o with json := true }.apply s = (o.apply s).map ({ · with json := true }) := by
  cases s <;> rfl

theorem applyValue_json (o : Options) (s : Switch) (value : String) :
    { o with json := true }.applyValue s value =
      (o.applyValue s value).map ({ · with json := true }) := by
  cases s <;> rfl

theorem bind_map_json {x : Except Stop Options} {f g : Options → Except Stop Options}
    (h : ∀ o, f { o with json := true } = (g o).map ({ · with json := true })) :
    (x.map ({ · with json := true })).bind f = (x.bind g).map ({ · with json := true }) := by
  cases x with
  | error e => rfl
  | ok o => exact h o

theorem applyAll_json (o : Options) (switches : List Switch) :
    { o with json := true }.applyAll switches =
      (o.applyAll switches).map ({ · with json := true }) := by
  induction switches generalizing o with
  | nil => rfl
  | cons s rest ih =>
    rw [applyAll, applyAll, apply_json]
    exact bind_map_json ih

/-- The switch for JSON stays on, and changes nothing else about how arguments are taken. -/
theorem take_json (o : Options) (pending : Option Switch) (files : Files) (surplus : Bool)
    (arguments : List Argument) :
    { o with json := true }.take pending files surplus arguments =
      (o.take pending files surplus arguments).map ({ · with json := true }) := by
  induction arguments generalizing o pending files surplus with
  | nil =>
    rw [take, take]
    split <;> rfl
  | cons argument rest ih =>
    cases pending with
    | some s =>
      cases argument with
      | plain value =>
        rw [take, take, applyValue_json]
        exact bind_map_json fun o => ih o _ _ _
      | dashes | switch | unknown => rfl
    | none =>
      cases argument with
      | plain text =>
        rw [take, take]
        split
        · exact ih o _ _ _
        · exact ih { o with files := o.files ++ [text] } _ _ _
      | dashes =>
        rw [take, take]
        split <;> exact ih o _ _ _
      | unknown => exact ih o _ _ _
      | switch s attached =>
        rw [take.eq_def, take.eq_def o]
        dsimp only
        split
        · cases attached with
          | nothing => exact ih o _ _ _
          | value text | rest text =>
            dsimp only
            rw [applyValue_json]
            exact bind_map_json fun o => ih o _ _ _
        · cases attached with
          | nothing =>
            dsimp only
            rw [apply_json]
            exact bind_map_json fun o => ih o _ _ _
          | value text => rfl
          | rest text =>
            cases text with
            | nil => rfl
            | cons c text =>
              dsimp only
              cases joined (c :: text) with
              | error e => rfl
              | ok switches =>
                have hall := applyAll_json o (s :: switches)
                show ({ o with json := true }.applyAll (s :: switches)).bind _ = _
                rw [hall]
                exact bind_map_json fun o => ih o _ _ _

theorem parse_json {arguments : List String} {o : Options} (h : parse arguments = .ok o) :
    parse ("--json" :: arguments) = .ok { o with json := true } := by
  have hclassify : classify "--json" = .ok (.switch .json .nothing) := by decide +kernel
  cases hall : classifyAll arguments with
  | error e =>
    rw [parse, hall] at h
    cases h
  | ok classified =>
    have htake : ({} : Options).take none .awaited false classified = .ok o := by
      rw [parse, hall] at h
      exact h
    have htaken : ({} : Options).take none .awaited false (.switch .json .nothing :: classified) =
        { ({} : Options) with json := true }.take none .awaited false classified := rfl
    have hfirst : classifyAll ("--json" :: arguments) =
        .ok (.switch .json .nothing :: classified) := by
      rw [classifyAll, hclassify, hall]
      · rfl
      · decide
    rw [parse, hfirst]
    show take _ _ _ _ _ = _
    rw [htaken, take_json, htake]
    rfl

end Options

/-! ## Reading inputs -/

namespace CommandLine

def Env.canRead (env : Env) (name : String) : Bool := (env.readInput name).isOk

/-- The inputs of a run, up to the first that cannot be read. -/
def Env.readable (env : Env) (names : List String) : List String := names.takeWhile env.canRead

/-- The input that ends a run, where there is one. -/
def Env.unreadable? (env : Env) (names : List String) : Option String :=
  (names.dropWhile env.canRead).head?

/-- The report is what linting the input comes to. -/
def Env.Reports (env : Env) (builtins : List String) (name : String) (report : Report) : Prop :=
  ∃ code, env.readInput name = .ok code ∧ lint code (shownName name) builtins = .ok report

theorem Env.exists_reports (env : Env) (builtins : List String) (names : List String) :
    ∃ linted : List (String × Report), linted.map Prod.fst = env.readable names ∧
      ∀ entry ∈ linted, env.Reports builtins entry.1 entry.2 := by
  induction names with
  | nil => exact ⟨[], rfl, by simp⟩
  | cons name names ih =>
    rw [readable, List.takeWhile_cons]
    cases hread : env.readInput name with
    | error fault => exact ⟨[], by simp [canRead, hread, Except.isOk, Except.toBool], by simp⟩
    | ok code =>
      obtain ⟨linted, hnames, hlinted⟩ := ih
      obtain ⟨report, hlint⟩ := lint_ok code (shownName name) builtins
      refine ⟨(name, report) :: linted, ?_,
        List.forall_mem_cons.mpr ⟨⟨code, hread, hlint⟩, hlinted⟩⟩
      rw [List.map_cons, hnames]
      simp [canRead, hread, Except.isOk, Except.toBool, readable]

theorem Env.unreadable?_eq_none_iff {env : Env} {names : List String} :
    env.unreadable? names = none ↔ ∀ name ∈ names, env.canRead name = true := by
  rw [unreadable?, List.head?_eq_none_iff, List.dropWhile_eq_nil_iff]

theorem textOf_ne_badPath (bytes : Bytes) (p : BadPath) : textOf bytes ≠ .error (.badPath p) := by
  unfold textOf
  split <;> exact nofun

/-- Only a name with a NUL character is no path. -/
theorem Env.readInput_badPath_iff {env : Env} {name : String} {p : BadPath} :
    env.readInput name = .error (.badPath p) ↔ p = .nul ∧ '\x00' ∈ name.toList := by
  rw [readInput]
  split
  · next hname =>
    refine iff_of_false (textOf_ne_badPath _ _) ?_
    intro hnul
    obtain ⟨_, hmem⟩ := hnul
    rw [hname] at hmem
    exact absurd hmem (by decide +kernel)
  · rw [FileSystem.readSource, FileSystem.readBytes]
    split
    · next hnul =>
      constructor
      · intro h
        cases h
        exact ⟨rfl, hnul⟩
      · intro hnul
        obtain ⟨rfl, _⟩ := hnul
        rfl
    · next hnul =>
      refine iff_of_false ?_ (fun h => hnul h.2)
      split
      · exact textOf_ne_badPath _ _
      · exact nofun

/-! ## Linting them -/

namespace Outcome

/-- The run so far, with what linting some more inputs came to. -/
def addAll (o : Options) (done : Outcome) (linted : List (String × Report)) : Outcome :=
  linted.foldl (fun done entry => done.add o entry.1 entry.2) done

variable (o : Options) (done : Outcome) (linted : List (String × Report))

theorem output_addAll : (done.addAll o linted).output =
    done.output ++ linted.flatMap fun entry => entry.2.diagnostics.map (printed o) := by
  induction linted generalizing done with
  | nil => simp [addAll]
  | cons entry linted ih =>
    rw [addAll, List.foldl_cons, ← addAll, ih, List.flatMap_cons, ← List.append_assoc]
    rfl

theorem errors_addAll : (done.addAll o linted).errors =
    done.errors ++ linted.flatMap fun entry =>
      logLines o (.linting (shownName entry.1) :: entry.2.notes) := by
  induction linted generalizing done with
  | nil => simp [addAll]
  | cons entry linted ih =>
    rw [addAll, List.foldl_cons, ← addAll, ih, List.flatMap_cons, ← List.append_assoc]
    rfl

theorem status_addAll : (done.addAll o linted).status =
    if ∀ entry ∈ linted, entry.2.diagnostics = [] then done.status else 1 := by
  induction linted generalizing done with
  | nil => simp [addAll]
  | cons entry linted ih =>
    rw [addAll, List.foldl_cons, ← addAll, ih]
    by_cases hentry : entry.2.diagnostics = []
    · have hiff : (∀ e ∈ linted, e.2.diagnostics = []) ↔
          ∀ e ∈ entry :: linted, e.2.diagnostics = [] := by
        simp [hentry]
      exact if_congr hiff (by simp [add, hentry]) rfl
    · simp [hentry, add]

/-- A run that meets a path tells that it cannot be read. -/
theorem stop_ok {o : Options} {done : Outcome} {name : String} {fault : TextFault}
    (h : ∀ p, fault ≠ .badPath p) :
    done.stop o name fault = .ok { done with
      status := 1
      errors := done.errors ++ ["ERROR: can't read file: " ++ name] ++
        logLines o [.readFailed name fault.message] } := by
  cases fault with
  | badPath p => exact absurd rfl (h p)
  | unreadable | undecodable => rfl

end Outcome

section

variable {env : Env} {o : Options} {builtins : List String}

attribute [local irreducible] Env.readInput in
theorem lintInputs_cons (done : Outcome) (name : String) (names : List String) :
    lintInputs env o builtins done (name :: names) = match env.readInput name with
      | .error fault => done.stop o name fault
      | .ok code => match lint code (shownName name) builtins with
        | .error e => .error (.walk e)
        | .ok report => lintInputs env o builtins (done.add o name report) names := by
  rfl

/-- A run ends with its inputs, or at one that cannot be read. -/
theorem lintInputs_dropWhile (done : Outcome) (names : List String) :
    env.unreadable? names = none ∧
        lintInputs env o builtins done (names.dropWhile env.canRead) = .ok done ∨
      ∃ name fault, env.unreadable? names = some name ∧ env.readInput name = .error fault ∧
        lintInputs env o builtins done (names.dropWhile env.canRead) = done.stop o name fault := by
  rw [Env.unreadable?]
  cases hrest : names.dropWhile env.canRead with
  | nil => exact .inl ⟨rfl, rfl⟩
  | cons name rest =>
    have hfails : env.canRead name = false := by
      have hne : names.dropWhile env.canRead ≠ [] := by simp [hrest]
      have hhead := List.head_dropWhile_not env.canRead hne
      simpa [hrest] using hhead
    right
    rw [lintInputs_cons]
    cases hread : env.readInput name with
    | error fault => exact ⟨name, fault, rfl, hread, rfl⟩
    | ok code =>
      rw [Env.canRead, hread] at hfails
      cases hfails

/-- A run goes through the inputs that can be read. -/
theorem lintInputs_append {linted : List (String × Report)}
    (h : ∀ entry ∈ linted, env.Reports builtins entry.1 entry.2)
    (done : Outcome) (names : List String) :
    lintInputs env o builtins done (linted.map Prod.fst ++ names) =
      lintInputs env o builtins (done.addAll o linted) names := by
  induction linted generalizing done with
  | nil => rfl
  | cons entry linted ih =>
    obtain ⟨⟨code, hread, hlint⟩, hlinted⟩ := List.forall_mem_cons.mp h
    rw [List.map_cons, List.cons_append, lintInputs_cons, hread]
    dsimp only
    rw [hlint]
    exact ih hlinted (done.add o entry.1 entry.2)

end

/-- A line that tells of a failure. -/
def isErrorLine (line : String) : Bool := "ERROR:".toList.isPrefixOf line.toList

/-- The lines of the log start with a bracket. -/
theorem isErrorLine_logLines {o : Options} {notes : List Note} {line : String}
    (h : line ∈ logLines o notes) : isErrorLine line = false := by
  obtain ⟨n, _, rfl⟩ := List.mem_map.mp h
  simp [isErrorLine, Note.line, List.isPrefixOf]

theorem isErrorLine_addAll {o : Options} {notes : List Note} {linted : List (String × Report)} :
    ∀ line ∈ (({ status := 0, errors := logLines o notes } : Outcome).addAll o linted).errors,
      isErrorLine line = false := by
  intro line hline
  rw [Outcome.errors_addAll] at hline
  rcases List.mem_append.mp hline with hnotes | hlinted
  · exact isErrorLine_logLines hnotes
  · obtain ⟨_, _, hlog⟩ := List.mem_flatMap.mp hlinted
    exact isErrorLine_logLines hlog

/-! ## The whole run -/

theorem inputs_ok {files : List String} (hdashes : files.count standardInput ≤ 1) :
    inputs files = .ok (if files.isEmpty then [standardInput] else files) := by
  rw [inputs]
  split
  · rfl
  · exact if_neg (Nat.not_lt.mpr hdashes)

theorem run_eq {env : Env} {o : Options} {loaded : Builtins.Loaded}
    (hdashes : o.files.count standardInput ≤ 1) (hload : loadBuiltins env.fs o = .ok loaded) :
    run env o = lintInputs env o loaded.names { status := 0, errors := logLines o loaded.notes }
      (if o.files.isEmpty then [standardInput] else o.files) := by
  rw [run, inputs_ok hdashes]
  dsimp only
  rw [hload]

/-- What a run over inputs comes to when it ends: the findings of those that could be read, each
written as `print` says, and a status that agrees with them. -/
structure Outcome.Concludes (env : Env) (names : List String) (linted : List (String × Report))
    (print : Diagnostic → String) (outcome : Outcome) : Prop where
  output : outcome.output = (linted.flatMap fun entry => entry.2.diagnostics).map print
  status : outcome.status = if (∀ name ∈ names, env.canRead name = true) ∧
    ∀ entry ∈ linted, entry.2.diagnostics = [] then 0 else 1
  silent : outcome.status = 0 ↔
    outcome.output = [] ∧ ∀ line ∈ outcome.errors, isErrorLine line = false
  failure : ∀ name ∈ env.unreadable? names, "ERROR: can't read file: " ++ name ∈ outcome.errors

section

variable {env : Env} {names : List String} {linted : List (String × Report)}
  {print : Diagnostic → String} {outcome : Outcome}

theorem concludes_finished (hread : env.unreadable? names = none)
    (houtput : outcome.output = (linted.flatMap fun entry => entry.2.diagnostics).map print)
    (hstatus : outcome.status = if ∀ entry ∈ linted, entry.2.diagnostics = [] then 0 else 1)
    (herrors : ∀ line ∈ outcome.errors, isErrorLine line = false) :
    outcome.Concludes env names linted print := by
  have hall := Env.unreadable?_eq_none_iff.mp hread
  refine ⟨houtput, ?_, ?_, by simp [hread]⟩
  · rw [hstatus]
    exact if_congr ⟨fun h => ⟨hall, h⟩, And.right⟩ rfl rfl
  · rw [hstatus, houtput]
    simp only [List.map_eq_nil_iff, List.flatMap_eq_nil_iff]
    constructor
    · intro hzero
      refine ⟨?_, herrors⟩
      by_contra hfound
      rw [if_neg hfound] at hzero
      cases hzero
    · intro hdone
      obtain ⟨hnone, _⟩ := hdone
      exact if_pos hnone

theorem concludes_stopped {name : String} (hread : env.unreadable? names = some name)
    (houtput : outcome.output = (linted.flatMap fun entry => entry.2.diagnostics).map print)
    (hstatus : outcome.status = 1) (herrors : "ERROR: can't read file: " ++ name ∈ outcome.errors) :
    outcome.Concludes env names linted print := by
  have hnot : ¬ ∀ name ∈ names, env.canRead name = true := by
    rw [← Env.unreadable?_eq_none_iff, hread]
    exact nofun
  refine ⟨houtput, ?_, ?_, ?_⟩
  · rw [hstatus, if_neg fun h => hnot h.1]
  · refine iff_of_false (by simp [hstatus]) fun h => ?_
    have hline := h.2 _ herrors
    simp [isErrorLine, List.isPrefixOf] at hline
  · intro other hother
    rw [hread] at hother
    cases hother
    exact herrors

end

/-- A run over inputs prints the findings of those in front of the first that cannot be read, in
order, as text or as JSON. Its status is 0 if all inputs could be read and none had a finding, which
is when it printed nothing and told of no failure; otherwise it is 1. Only if the first unreadable
input has a NUL character in its name the run ends without an outcome. -/
theorem status_agrees_with_output {env : Env} {arguments : List String} {o : Options}
    {loaded : Builtins.Loaded} (hparse : Options.parse arguments = .ok o)
    (hdashes : o.files.count standardInput ≤ 1) (hload : loadBuiltins env.fs o = .ok loaded) :
    let names := if o.files.isEmpty then [standardInput] else o.files
    Options.parse ("--json" :: arguments) = .ok { o with json := true } ∧
    ∃ linted : List (String × Report), linted.map Prod.fst = env.readable names ∧
      (∀ entry ∈ linted, env.Reports loaded.names entry.1 entry.2) ∧
      ((∃ name ∈ env.unreadable? names, '\x00' ∈ name.toList) ∧
          (∀ json, run env { o with json } = .error (.badPath .nul)) ∨
        (∀ name ∈ env.unreadable? names, '\x00' ∉ name.toList) ∧
          ∀ json, ∃ outcome, run env { o with json } = .ok outcome ∧
            outcome.Concludes env names linted
              (if json then Diagnostic.json else Diagnostic.line)) := by
  intro names
  obtain ⟨linted, hnames, hlinted⟩ := env.exists_reports loaded.names names
  refine ⟨Options.parse_json hparse, linted, hnames, hlinted, ?_⟩
  let start : Outcome := { status := 0, errors := logLines o loaded.notes }
  have hrun : ∀ json, run env { o with json } = lintInputs env { o with json } loaded.names
      (start.addAll { o with json } linted) (names.dropWhile env.canRead) := by
    intro json
    have hsplit : names = linted.map Prod.fst ++ names.dropWhile env.canRead := by
      rw [hnames]
      exact (List.takeWhile_append_dropWhile).symm
    rw [run_eq (o := { o with json }) hdashes hload]
    show lintInputs _ _ _ _ names = _
    nth_rewrite 1 [hsplit]
    exact lintInputs_append hlinted _ _
  have houtput : ∀ json, (start.addAll { o with json } linted).output =
      (linted.flatMap fun entry => entry.2.diagnostics).map
        (if json then Diagnostic.json else Diagnostic.line) := by
    intro json
    rw [Outcome.output_addAll, List.map_flatMap]
    cases json <;> rfl
  by_cases hnul : ∃ name ∈ env.unreadable? names, '\x00' ∈ name.toList
  · refine .inl ⟨hnul, fun json => ?_⟩
    obtain ⟨name, hname, hmem⟩ := hnul
    rw [hrun]
    rcases lintInputs_dropWhile (start.addAll { o with json } linted) names with
      ⟨hnone, _⟩ | ⟨other, fault, hother, hread, hstop⟩
    · rw [hnone] at hname
      cases hname
    · cases hother.symm.trans hname
      rw [Env.readInput_badPath_iff.mpr ⟨rfl, hmem⟩] at hread
      cases hread
      exact hstop
  · refine .inr ⟨fun name hname hmem => hnul ⟨name, hname, hmem⟩, fun json => ?_⟩
    rw [hrun]
    rcases lintInputs_dropWhile (start.addAll { o with json } linted) names with
      ⟨hnone, hdone⟩ | ⟨name, fault, hname, hread, hstop⟩
    · exact ⟨_, hdone, concludes_finished hnone (houtput json) (Outcome.status_addAll ..)
        isErrorLine_addAll⟩
    · have hfault : ∀ p, fault ≠ .badPath p := by
        intro p hp
        rw [hp] at hread
        exact hnul ⟨name, hname, (Env.readInput_badPath_iff.mp hread).2⟩
      refine ⟨_, hstop.trans (Outcome.stop_ok hfault), ?_⟩
      exact concludes_stopped hname (houtput json) rfl (by simp)

/-- A directory with a file that imports in vain, and one more. -/
def twoFiles : FileSystem :=
  .ofEntries [("a.pyj", some "import os\n".toUTF8.toList), ("b.pyj", some "x\n".toUTF8.toList)]

/-- The second input is not there, so the third is not looked at. -/
theorem status_of_missing_file :
    let env : Env := ⟨twoFiles, []⟩
    let names := ["a.pyj", "gone.pyj", "b.pyj"]
    Options.parse names = .ok { files := names } ∧
    (∃ loaded, loadBuiltins env.fs { files := names } = .ok loaded) ∧
    (run env { files := names }).toOption =
      some ⟨1, ["a.pyj:ERR:unused-import:1:7: \"os\" is imported but not used"],
        ["ERROR: can't read file: gone.pyj"]⟩ ∧
    ∃ linted : List (String × Report), linted.map Prod.fst = ["a.pyj"] ∧
      ∀ json, ∃ outcome, run env { json, files := names } = .ok outcome ∧
        outcome.Concludes env names linted (if json then Diagnostic.json else Diagnostic.line) := by
  intro env names
  have hparse : Options.parse names = .ok { files := names } := by decide +kernel
  have hload : loadBuiltins env.fs { files := names } =
      .ok { names := Builtins.union Builtins.defaults [] } := rfl
  have hrun : (run env { files := names }).toOption =
      some ⟨1, ["a.pyj:ERR:unused-import:1:7: \"os\" is imported but not used"],
        ["ERROR: can't read file: gone.pyj"]⟩ := by decide +kernel
  have hreadable : env.readable names = ["a.pyj"] := by decide +kernel
  have hplain : env.unreadable? names = some "gone.pyj" := by decide +kernel
  obtain ⟨_, linted, hnames, _, hends⟩ := status_agrees_with_output hparse (by decide) hload
  refine ⟨hparse, ⟨_, hload⟩, hrun, linted, hnames.trans hreadable, ?_⟩
  rcases hends with ⟨⟨name, hname, hmem⟩, _⟩ | ⟨_, hends⟩
  · cases hplain.symm.trans hname
    exact absurd hmem (by decide)
  · exact hends

/-- An input whose name is no path ends the program, where any other that cannot be read ends the
run with status 1. -/
theorem run_of_nul_name :
    let o : Options := { files := ["a\x00b.pyj"] }
    Options.parse ["a\x00b.pyj"] = .ok o ∧ o.files.count standardInput ≤ 1 ∧
    (∃ loaded, loadBuiltins twoFiles o = .ok loaded) ∧
    run ⟨twoFiles, []⟩ o = .error (.badPath .nul) :=
  ⟨by decide +kernel, by decide, ⟨_, rfl⟩, by decide +kernel⟩

end CommandLine

end ScopeLint
