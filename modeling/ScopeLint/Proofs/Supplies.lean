import ScopeLint.Proofs.ExitStatus

/-! # Files that built-in names come from

Word lists and a base library are read before any input. The first of them that
gives no names ends the run (`loadBuiltins_find`), with one line that says why, or
without an outcome if it holds no text or has no path. -/
namespace ScopeLint.CommandLine

/-- A file that built-in names are read from. -/
inductive Supply where
  | words (value : PathValue)
  | library (value : PathValue)
deriving DecidableEq, Repr

/-- The files that the options name, in the order in which they are read. -/
def supplies (o : Options) : List Supply :=
  o.builtinsFiles.map .words ++ o.baselib.toList.map .library

namespace Supply

variable (fs : FileSystem)

def text : Supply → Except TextFault String
  | words (.path path) => fs.readText path
  | library (.path path) => fs.readSource path
  | words .withdrawn | library .withdrawn => .error (.badPath .withdrawn)

/-- Whether a text of this kind gives names: any word list does, and a library that parses. -/
def serves : Supply → String → Bool
  | words _, _ => true
  | library _, text => (parse text).isOk

/-- The file cannot be read or decoded, or it is a library that does not parse. -/
def fails (s : Supply) : Bool :=
  match s.text fs with
  | .error _ => true
  | .ok text => !s.serves text

/-- The file is there and holds no text, or what should be its path is none. -/
def escapes (s : Supply) : Bool :=
  match s.text fs with
  | .error (.undecodable _) | .error (.badPath _) => true
  | _ => false

/-- What is wrong with the names if this is wrong with the file. -/
def blame : Supply → TextFault → BuiltinsError
  | words _, .unreadable path fault => .names path fault
  | library _, .unreadable path fault => .library path fault
  | _, .undecodable e => .undecodable e
  | _, .badPath p => .badPath p

/-- The text that names are taken from. -/
def given (s : Supply) : Except BuiltinsError String := (s.text fs).mapError s.blame

variable {fs} {s : Supply}

theorem fails_of_error {fault : TextFault} (h : s.text fs = .error fault) :
    s.fails fs = true := by
  simp only [fails, h]

theorem fails_of_ok {text : String} (h : s.text fs = .ok text) :
    s.fails fs = !s.serves text := by
  simp only [fails, h]

/-- Only bytes that are no text and paths that are none are not reported. -/
theorem report_blame {fault : TextFault} (h : s.text fs = .error fault) :
    (∃ crash, (s.blame fault).report = .error crash) ↔ s.escapes fs = true := by
  simp only [escapes, h]
  cases s <;> cases fault <;> simp [blame, BuiltinsError.report]

end Supply

section

variable {fs : FileSystem} {o : Options}

/-! ## Reading one file -/

theorem textOf_error {bytes : Bytes} {fault : TextFault} (h : textOf bytes = .error fault) :
    ∃ e, fault = .undecodable e := by
  rw [textOf] at h
  split at h
  · cases h
  · cases h
    exact ⟨_, rfl⟩

theorem readText_unreadable {path shown : String} {fault : ReadFault}
    (h : fs.readText path = .error (.unreadable shown fault)) : shown = Path.normalize path := by
  rw [FileSystem.readText, FileSystem.readBytes] at h
  split at h
  · cases h
  · split at h
    · obtain ⟨e, he⟩ := textOf_error h
      cases he
    · cases h
      rfl

theorem readNames_eq (value : PathValue) :
    ((givenPath value).bind fun path => readNames fs path (Path.normalize path)) =
      ((Supply.words value).given fs).map listedNames := by
  cases value with
  | withdrawn => rfl
  | path path =>
    show readNames fs path (Path.normalize path) = ((fs.readText path).mapError _).map listedNames
    rw [readNames]
    cases hread : fs.readText path with
    | ok text => rfl
    | error fault =>
      cases fault with
      | unreadable shown fault =>
        rw [readText_unreadable hread]
        rfl
      | undecodable | badPath => rfl

theorem readLibrary_eq (value : PathValue) :
    (givenPath value).bind (readLibrary fs) = (Supply.library value).given fs := by
  cases value with
  | withdrawn => rfl
  | path path =>
    show readLibrary fs path = (fs.readSource path).mapError _
    rw [readLibrary]
    cases fs.readSource path with
    | ok text => rfl
    | error fault => cases fault <;> rfl

/-! ## Reading all of them -/

theorem readAllNames_cons (value : PathValue) (values : List PathValue) :
    readAllNames fs (value :: values) = ((Supply.words value).given fs).bind fun text =>
      (readAllNames fs values).bind fun more => .ok (listedNames text ++ more) := by
  have hread : readAllNames fs (value :: values) =
      ((givenPath value).bind fun path => readNames fs path (Path.normalize path)).bind fun names =>
        (readAllNames fs values).bind fun more => .ok (names ++ more) := by
    rw [readAllNames]
    cases givenPath value <;> rfl
  rw [hread, readNames_eq]
  cases (Supply.words value).given fs <;> rfl

/-- The first word list that fails ends the reading. -/
theorem readAllNames_find (fs : FileSystem) (values : List PathValue) :
    match values.find? fun value => (Supply.words value).fails fs with
    | none => ∃ names, readAllNames fs values = .ok names
    | some value => ∃ fault, (Supply.words value).text fs = .error fault ∧
      readAllNames fs values = .error ((Supply.words value).blame fault) := by
  induction values with
  | nil => exact ⟨[], rfl⟩
  | cons value values ih =>
    rw [readAllNames_cons, List.find?_cons, Supply.given]
    cases htext : (Supply.words value).text fs with
    | error fault =>
      rw [Supply.fails_of_error htext]
      exact ⟨fault, htext, rfl⟩
    | ok text =>
      have hserves : (Supply.words value).fails fs = false := Supply.fails_of_ok htext
      rw [hserves]
      dsimp only
      split <;> rename_i hfind <;> rw [hfind] at ih
      · obtain ⟨names, hnames⟩ := ih
        rw [hnames]
        exact ⟨_, rfl⟩
      · obtain ⟨fault, hfault, herror⟩ := ih
        rw [herror]
        exact ⟨fault, hfault, rfl⟩

/-- The text of the base library, where the options name one. -/
def libraryText (fs : FileSystem) (o : Options) : Except BuiltinsError (Option String) :=
  match o.baselib with
  | none => .ok none
  | some value => ((Supply.library value).given fs).map some

theorem loadBuiltins_eq (fs : FileSystem) (o : Options) :
    loadBuiltins fs o = (readAllNames fs o.builtinsFiles).bind fun extra =>
      (libraryText fs o).bind fun library => (Builtins.load library extra).mapError .load := by
  rw [loadBuiltins, libraryText]
  refine congrArg (Except.bind _) (funext fun extra => ?_)
  cases o.baselib with
  | none =>
    dsimp only [bind, Except.bind, pure, Except.pure]
    cases Builtins.load none extra <;> rfl
  | some value =>
    dsimp only
    rw [← readLibrary_eq]
    cases givenPath value with
    | error e => rfl
    | ok path =>
      show (readLibrary fs path).bind _ = ((readLibrary fs path).map some).bind _
      cases readLibrary fs path with
      | error e => rfl
      | ok text =>
        dsimp only [bind, Except.bind, Except.map, pure, Except.pure]
        cases Builtins.load (some text) extra <;> rfl

theorem load_of_parse_ok {text : String} {root : Node} (hparse : parse text = .ok root)
    (extra : List String) : ∃ loaded, Builtins.load (some text) extra = .ok loaded := by
  obtain ⟨w, hw⟩ := walk_parse_ok hparse "<baselib>"
  have hfound : ∃ found, Builtins.moduleNames text = .ok found := by
    unfold Builtins.moduleNames
    rw [hparse]
    dsimp only
    rw [hw]
    exact ⟨_, rfl⟩
  obtain ⟨found, hfound⟩ := hfound
  unfold Builtins.load
  dsimp only
  rw [hfound]
  exact ⟨_, rfl⟩

theorem load_of_parse_error {text : String} {e : SyntaxError} (hparse : parse text = .error e)
    (extra : List String) : Builtins.load (some text) extra = .error (.parse e) := by
  have hfound : Builtins.moduleNames text = .error (.parse e) := by
    unfold Builtins.moduleNames
    rw [hparse]
  unfold Builtins.load
  dsimp only
  rw [hfound]
  rfl

/-- The first file that gives no names ends the run: the failure is reported unless it escapes. -/
theorem loadBuiltins_find (fs : FileSystem) (o : Options) :
    match (supplies o).find? (Supply.fails fs) with
    | none => ∃ loaded, loadBuiltins fs o = .ok loaded
    | some s => ∃ e, loadBuiltins fs o = .error e ∧
      ((∃ crash, e.report = .error crash) ↔ s.escapes fs = true) := by
  have hwords := readAllNames_find fs o.builtinsFiles
  rw [supplies, List.find?_append, List.find?_map, List.find?_map, loadBuiltins_eq]
  simp only [Function.comp_def]
  split at hwords <;> rename_i hfind <;> rw [hfind]
  · obtain ⟨extra, hextra⟩ := hwords
    rw [hextra, libraryText]
    cases o.baselib with
    | none => exact ⟨_, rfl⟩
    | some value =>
      dsimp only
      rw [Option.toList_some, List.find?_singleton, Supply.given]
      cases htext : (Supply.library value).text fs with
      | error fault =>
        rw [Supply.fails_of_error htext]
        exact ⟨_, rfl, Supply.report_blame htext⟩
      | ok text =>
        rw [Supply.fails_of_ok htext, Supply.serves]
        cases hparse : parse text with
        | ok root =>
          obtain ⟨loaded, hload⟩ := load_of_parse_ok hparse extra
          refine ⟨loaded, ?_⟩
          show (Builtins.load (some text) extra).mapError _ = _
          rw [hload]
          rfl
        | error e =>
          refine ⟨.load (.parse e), ?_, ?_⟩
          · show (Builtins.load (some text) extra).mapError _ = _
            rw [load_of_parse_error hparse]
            rfl
          · simp only [Supply.escapes, htext]
            simp [BuiltinsError.report]
  · obtain ⟨fault, htext, herror⟩ := hwords
    rw [herror]
    exact ⟨_, rfl, Supply.report_blame htext⟩

/-- Built-in names depend on no other files. -/
theorem loadBuiltins_congr {fs' : FileSystem}
    (h : ∀ s ∈ supplies o, s.text fs' = s.text fs) : loadBuiltins fs' o = loadBuiltins fs o := by
  have hwords : ∀ values ⊆ o.builtinsFiles, readAllNames fs' values = readAllNames fs values := by
    intro values hvalues
    induction values with
    | nil => rfl
    | cons value values ih =>
      obtain ⟨hvalue, hvalues⟩ := List.cons_subset.mp hvalues
      have htext := h (.words value) (List.mem_append_left _ (List.mem_map_of_mem hvalue))
      rw [readAllNames_cons, readAllNames_cons, Supply.given, Supply.given, htext, ih hvalues]
  have hlibrary : libraryText fs' o = libraryText fs o := by
    unfold libraryText
    cases hbaselib : o.baselib with
    | none => rfl
    | some value =>
      have htext := h (.library value) (List.mem_append_right _ (by simp [hbaselib]))
      dsimp only
      rw [Supply.given, Supply.given, htext]
  rw [loadBuiltins_eq, loadBuiltins_eq, hwords _ (List.Subset.refl _), hlibrary]

end

/-! ## The whole run -/

section

variable {env : Env} {o : Options}

theorem run_of_dashes (h : 1 < o.files.count standardInput) :
    run env o = .ok (failed ({} : Misuse).message) := by
  have hinputs : inputs o.files = .error {} := by
    have hfiles : o.files.isEmpty = false := by
      cases hfiles : o.files with
      | nil =>
        rw [hfiles] at h
        exact absurd h (by decide)
      | cons => rfl
    rw [inputs, hfiles, if_neg Bool.false_ne_true, if_pos h]
  rw [run, hinputs]

theorem run_of_load_error {e : BuiltinsError} (hdashes : o.files.count standardInput ≤ 1)
    (hload : loadBuiltins env.fs o = .error e) : run env o = e.report.map failed := by
  rw [run, inputs_ok hdashes]
  dsimp only
  rw [hload]
  dsimp only
  cases e.report <;> rfl

/-- The inputs of a run that reads standard input at most once. -/
def inputNames (o : Options) : List String :=
  if o.files.isEmpty then [standardInput] else o.files

/-- A run over inputs ends with them, or at one that cannot be read: without an outcome only if that
has a NUL character in its name. -/
theorem run_of_loaded {loaded : Builtins.Loaded} (hdashes : o.files.count standardInput ≤ 1)
    (hload : loadBuiltins env.fs o = .ok loaded) :
    match env.unreadable? (inputNames o) with
    | none => ∃ outcome, run env o = .ok outcome ∧ (outcome.status = 0 ∨ outcome.status = 1)
    | some name =>
      if '\x00' ∈ name.toList then run env o = .error (.badPath .nul)
      else ∃ outcome, run env o = .ok outcome ∧ outcome.status = 1 ∧
        "ERROR: can't read file: " ++ name ∈ outcome.errors := by
  rw [run_eq hdashes hload, ← inputNames]
  generalize inputNames o = names
  obtain ⟨linted, hnames, hlinted⟩ := env.exists_reports loaded.names names
  have hsplit : names = linted.map Prod.fst ++ names.dropWhile env.canRead := by
    rw [hnames]
    exact List.takeWhile_append_dropWhile.symm
  let start : Outcome := { status := 0, errors := logLines o loaded.notes }
  have hrun : lintInputs env o loaded.names start names = lintInputs env o loaded.names
      (start.addAll o linted) (names.dropWhile env.canRead) := by
    nth_rewrite 1 [hsplit]
    exact lintInputs_append hlinted _ _
  rw [hrun]
  rcases lintInputs_dropWhile (start.addAll o linted) names with
    ⟨hnone, hdone⟩ | ⟨name, fault, hname, hread, hstop⟩
  · rw [hnone]
    refine ⟨_, hdone, ?_⟩
    rw [Outcome.status_addAll]
    split
    · exact .inl rfl
    · exact .inr rfl
  · rw [hname]
    dsimp only
    split
    · next hnul =>
      rw [Env.readInput_badPath_iff.mpr ⟨rfl, hnul⟩] at hread
      cases hread
      exact hstop
    · next hnul =>
      have hfault : ∀ p, fault ≠ .badPath p := by
        intro p hp
        rw [hp] at hread
        exact hnul (Env.readInput_badPath_iff.mp hread).2
      exact ⟨_, hstop.trans (Outcome.stop_ok hfault), rfl, by simp⟩

/-- A file that gives no names decides the run, whatever the inputs are. -/
theorem run_of_shortage {s : Supply} (hs : s ∈ supplies o) (hfails : s.fails env.fs = true) :
    ∃ (first : Supply) (answer : Except Crash String),
      (supplies o).find? (Supply.fails env.fs) = some first ∧
      ((∃ crash, answer = .error crash) ↔
        o.files.count standardInput ≤ 1 ∧ first.escapes env.fs = true) ∧
      ∀ env' : Env, (∀ s ∈ supplies o, s.text env'.fs = s.text env.fs) →
        run env' o = answer.map failed := by
  have hload := loadBuiltins_find env.fs o
  cases hfirst : (supplies o).find? (Supply.fails env.fs) with
  | none => exact absurd hfails (List.find?_eq_none.mp hfirst s hs)
  | some first =>
    rw [hfirst] at hload
    obtain ⟨e, herror, hescapes⟩ := hload
    by_cases hdashes : o.files.count standardInput ≤ 1
    · refine ⟨first, e.report, rfl, ?_, fun env' hsame => ?_⟩
      · rw [hescapes, and_iff_right hdashes]
      · exact run_of_load_error hdashes ((loadBuiltins_congr hsame).trans herror)
    · refine ⟨first, .ok ({} : Misuse).message, rfl, ?_, fun env' _ => ?_⟩
      · exact iff_of_false (by simp) fun h => hdashes h.1
      · exact run_of_dashes (Nat.not_le.mp hdashes)

end

/-- How a run accounts for what it could not read. -/
structure Accounts (env : Env) (o : Options) : Prop where
  status : ∀ outcome, run env o = .ok outcome → outcome.status = 0 ∨ outcome.status = 1
  /-- Files without text or path are not answered for, nor are inputs without a path. -/
  escape : (∃ crash, run env o = .error crash) ↔ o.files.count standardInput ≤ 1 ∧
    match (supplies o).find? (Supply.fails env.fs) with
    | some s => s.escapes env.fs = true
    | none => ∃ name ∈ env.unreadable? (inputNames o), '\x00' ∈ name.toList
  /-- One line tells of a file that gives no names, and no input is looked at: files other than
  those that names come from, and standard input, change nothing. -/
  shortage : ∀ s ∈ supplies o, s.fails env.fs = true → ∀ outcome, run env o = .ok outcome →
    outcome.status = 1 ∧ outcome.output = [] ∧
    (∃ message, outcome.errors = ["ERROR: " ++ message]) ∧
    ∀ env' : Env, (∀ s ∈ supplies o, s.text env'.fs = s.text env.fs) → run env' o = .ok outcome
  /-- An input that cannot be read is told of. -/
  unreadable : (∀ s ∈ supplies o, s.fails env.fs = false) → o.files.count standardInput ≤ 1 →
    ∀ name ∈ env.unreadable? (inputNames o), ∀ outcome, run env o = .ok outcome →
      outcome.status = 1 ∧ "ERROR: can't read file: " ++ name ∈ outcome.errors

section

variable {env : Env} {o : Options}

theorem accounts_of_shortage {s : Supply} (hs : s ∈ supplies o) (hfails : s.fails env.fs = true) :
    Accounts env o := by
  obtain ⟨first, answer, hfirst, hcrash, hsame⟩ := run_of_shortage hs hfails
  have hrun := hsame env fun _ _ => rfl
  have houtcome : ∀ outcome, run env o = .ok outcome →
      ∃ message, answer = .ok message ∧ outcome = failed message := by
    intro outcome hok
    rw [hrun] at hok
    cases answer with
    | error crash => cases hok
    | ok message => exact ⟨message, rfl, (Except.ok.inj hok).symm⟩
  constructor
  case status =>
    intro outcome hok
    obtain ⟨message, _, rfl⟩ := houtcome outcome hok
    exact .inr rfl
  case escape =>
    rw [hfirst, ← hcrash, hrun]
    cases answer <;> simp [Except.map]
  case shortage =>
    intro _ _ _ outcome hok
    obtain ⟨message, rfl, rfl⟩ := houtcome outcome hok
    exact ⟨rfl, rfl, ⟨message, rfl⟩, hsame⟩
  case unreadable =>
    intro hfull
    exact absurd hfails (by simp [hfull s hs])

theorem accounts_of_dashes (hfull : ∀ s ∈ supplies o, s.fails env.fs = false)
    (hdashes : ¬ o.files.count standardInput ≤ 1) : Accounts env o := by
  have hrun : run env o = _ := run_of_dashes (Nat.not_le.mp hdashes)
  constructor
  case status =>
    intro outcome hok
    cases hrun.symm.trans hok
    exact .inr rfl
  case escape => simp [hrun, hdashes]
  case shortage =>
    intro s hs hfails
    exact absurd hfails (by simp [hfull s hs])
  case unreadable =>
    intro _ hle
    exact absurd hle hdashes

theorem accounts_of_full (hfull : ∀ s ∈ supplies o, s.fails env.fs = false)
    (hdashes : o.files.count standardInput ≤ 1) : Accounts env o := by
  have hfirst : (supplies o).find? (Supply.fails env.fs) = none :=
    List.find?_eq_none.mpr fun s hs => by simp [hfull s hs]
  have hload := loadBuiltins_find env.fs o
  rw [hfirst] at hload
  obtain ⟨loaded, hload⟩ := hload
  have hend := run_of_loaded hdashes hload
  have hshortage : ∀ s ∈ supplies o, ¬ s.fails env.fs = true := fun s hs => by simp [hfull s hs]
  cases hread : env.unreadable? (inputNames o) with
  | none =>
    rw [hread] at hend
    obtain ⟨done, hdone, hstatus⟩ := hend
    refine ⟨fun outcome hok => ?_, by simp [hdone, hfirst, hread],
      fun s hs hfails => absurd hfails (hshortage s hs), by simp [hread]⟩
    exact Except.ok.inj (hdone.symm.trans hok) ▸ hstatus
  | some name =>
    rw [hread] at hend
    dsimp only at hend
    split at hend
    · next hnul =>
      refine ⟨by simp [hend], by simp [hend, hfirst, hread, hdashes, hnul],
        fun s hs hfails => absurd hfails (hshortage s hs), by simp [hend]⟩
    · next hnul =>
      obtain ⟨done, hdone, hstatus, herrors⟩ := hend
      refine ⟨fun outcome hok => ?_, by simp [hdone, hfirst, hread, hnul],
        fun s hs hfails => absurd hfails (hshortage s hs), fun _ _ other hother outcome hok => ?_⟩
      · exact Except.ok.inj (hdone.symm.trans hok) ▸ .inr hstatus
      · cases hdone.symm.trans hok
        cases hread.symm.trans hother
        exact ⟨hstatus, herrors⟩

end

/-- Whatever the options say and whatever is read, a run accounts for what it could not read. -/
theorem run_accounts (env : Env) (o : Options) : Accounts env o := by
  by_cases hshort : ∃ s ∈ supplies o, s.fails env.fs = true
  · obtain ⟨s, hs, hfails⟩ := hshort
    exact accounts_of_shortage hs hfails
  · have hfull : ∀ s ∈ supplies o, s.fails env.fs = false := fun s hs =>
      Bool.eq_false_iff.mpr fun hfails => hshort ⟨s, hs, hfails⟩
    by_cases hdashes : o.files.count standardInput ≤ 1
    · exact accounts_of_full hfull hdashes
    · exact accounts_of_dashes hfull hdashes

/-- A word list, a library that breaks off, bytes that are no text, and a source. -/
def shelf : FileSystem :=
  .ofEntries [("names.txt", some "y\n".toUTF8.toList), ("lib.pyj", some "def f(:\n".toUTF8.toList),
    ("bytes", some [0xff]), ("a.pyj", some "x\n".toUTF8.toList)]

/-- The library does not parse, so the source is not looked at, nor would standard input be. -/
theorem run_of_broken_library :
    let o : Options :=
      { builtinsFiles := [.path "names.txt"], baselib := some (.path "lib.pyj"),
        files := ["a.pyj"] }
    Options.parse ["--builtins-file", "names.txt", "--baselib", "lib.pyj", "a.pyj"] = .ok o ∧
    ∃ outcome, run ⟨shelf, []⟩ o = .ok outcome ∧ outcome.status = 1 ∧ outcome.output = [] ∧
      outcome.errors = ["ERROR: Unexpected token ':'"] ∧
      ∀ stdin, run ⟨shelf, stdin⟩ o = .ok outcome := by
  intro o
  have hparse : Options.parse ["--builtins-file", "names.txt", "--baselib", "lib.pyj", "a.pyj"] =
      .ok o := by decide +kernel
  have hrun : run ⟨shelf, []⟩ o = .ok ⟨1, [], ["ERROR: Unexpected token ':'"]⟩ := by
    decide +kernel
  have hlibrary : .library (.path "lib.pyj") ∈ supplies o := by decide
  have hfails : (Supply.library (.path "lib.pyj")).fails shelf = true := by decide +kernel
  obtain ⟨hstatus, houtput, _, hsame⟩ :=
    (run_accounts ⟨shelf, []⟩ o).shortage _ hlibrary hfails _ hrun
  exact ⟨hparse, _, hrun, hstatus, houtput, rfl, fun stdin => hsame ⟨shelf, stdin⟩ fun _ _ => rfl⟩

/-- Bytes that are no text end the program where names are read from them, and are told of where
they are an input. -/
theorem run_of_undecodable_names :
    Options.parse ["--builtins-file", "bytes"] = .ok { builtinsFiles := [.path "bytes"] } ∧
    (∃ e, run ⟨shelf, []⟩ { builtinsFiles := [.path "bytes"] } = .error (.undecodable e)) ∧
    (∃ e, run ⟨shelf, []⟩ { baselib := some (.path "bytes") } = .error (.undecodable e)) ∧
    run ⟨shelf, []⟩ { files := ["bytes"] } =
      .ok ⟨1, [], ["ERROR: can't read file: bytes"]⟩ :=
  ⟨by decide +kernel, ⟨_, rfl⟩, ⟨_, rfl⟩, by decide +kernel⟩

end ScopeLint.CommandLine
