import Mathlib.Data.List.DropRight
import ScopeLint.Proofs.Lines
import ScopeLint.Proofs.Pointing
import ScopeLint.Proofs.Sorting

/-! # Directives suppress what they name

A directive that is written at the end of a line takes from the report what stands
on that line and is named by it, and nothing else: no other line reads differently,
and the line itself has the same code as before, unless a quote is open at its end. -/
namespace ScopeLint

namespace Text

theorem trimEnd_append_of_blank (s : List Char) {gap : List Char}
    (h : ∀ c ∈ gap, isBlank c = true) : trimEnd (s ++ gap) = trimEnd s := by
  induction gap using List.reverseRecOn with
  | nil => rw [List.append_nil]
  | append_singleton gap c ih =>
    have hgap := ih fun d hd => h d (List.mem_append_left _ hd)
    rw [← List.append_assoc]
    exact (List.rdropWhile_concat_pos isBlank (s ++ gap) c (h c (by simp))).trans hgap

theorem trimEnd_append_of_solid (s : List Char) {word : List Char} (hne : word ≠ [])
    (h : ∀ c ∈ word, isBlank c = false) : trimEnd (s ++ word) = s ++ word := by
  obtain ⟨first, c, rfl⟩ := (List.eq_nil_or_concat word).resolve_left hne
  rw [List.concat_eq_append, ← List.append_assoc]
  refine List.rdropWhile_concat_neg isBlank (s ++ first) c ?_
  simp [h c (by simp)]

/-- Trimming takes blanks only. -/
theorem exists_trimEnd (s : List Char) :
    ∃ gap, s = trimEnd s ++ gap ∧ ∀ c ∈ gap, isBlank c = true :=
  ⟨s.rtakeWhile isBlank, List.rdropWhile_append_rtakeWhile.symm, fun _ => List.mem_rtakeWhile_imp⟩

theorem trimEnd_cons_congr (c : Char) {s t : List Char} (h : trimEnd s = trimEnd t) :
    trimEnd (c :: s) = trimEnd (c :: t) := by
  have hinner : ∀ u : List Char, trimEnd (c :: u) = trimEnd (c :: trimEnd u) := by
    intro u
    obtain ⟨gap, hu, hgap⟩ := exists_trimEnd u
    conv_lhs => rw [hu]
    exact trimEnd_append_of_blank (c :: trimEnd u) hgap
  rw [hinner s, h, ← hinner t]

theorem lastPiece_append_cons (s : List Char) {sep : Char} {word : List Char} (h : sep ∉ word) :
    lastPiece sep (s ++ sep :: word) = word := by
  have hword : ∀ c ∈ word.reverse, decide (c ≠ sep) = true := by
    intro c hc
    rw [List.mem_reverse] at hc
    refine decide_eq_true ?_
    rintro rfl
    exact h hc
  simp only [lastPiece, List.reverse_append, List.reverse_cons, List.append_assoc]
  rw [List.takeWhile_append_of_pos hword]
  simp

end Text

namespace LineScan

/-! ## Adding a comment to a line -/

/-- The quote that is open after a line, if `quote` was open at its start. A comment opens none. -/
def quoteFrom (quote : Option Char) (escaped : Bool) : List Char → Option Char
  | [] => quote
  | c :: rest => match quote with
    | some q =>
      if escaped then quoteFrom quote false rest
      else if c = '\\' then quoteFrom quote true rest
      else if c = q then quoteFrom none false rest
      else quoteFrom quote false rest
    | none =>
      if c = '\'' ∨ c = '"' then quoteFrom (some c) false rest
      else if c = '#' then none
      else quoteFrom none false rest

/-- The quote that the scan of a line leaves open. -/
def openQuote (line : List Char) : Option Char := quoteFrom none false (Text.trimEnd line)

theorem codeFrom_gap {gap : List Char} (h : ∀ c ∈ gap, Text.isBlank c = true) (escaped : Bool)
    (comment : List Char) : codeFrom none escaped (gap ++ '#' :: comment) = gap := by
  induction gap generalizing escaped with
  | nil => rfl
  | cons c gap ih =>
    have hblank := h c List.mem_cons_self
    have hplain : ¬ (c = '\'' ∨ c = '"') ∧ c ≠ '#' := by
      refine ⟨?_, ?_⟩
      · rintro (rfl | rfl) <;> exact absurd hblank (by decide)
      · rintro rfl
        exact absurd hblank (by decide)
    rw [List.cons_append, codeFrom]
    simp only [hplain.1, hplain.2, if_false]
    rw [ih (fun d hd => h d (List.mem_cons_of_mem _ hd)) false]

/-- A comment behind a line does not change its code, if no quote is open there. -/
theorem trimEnd_codeFrom {quote : Option Char} {escaped : Bool} {line gap : List Char}
    (hquote : quoteFrom quote escaped line = none) (hgap : ∀ c ∈ gap, Text.isBlank c = true)
    (comment : List Char) :
    Text.trimEnd (codeFrom quote escaped (line ++ (gap ++ '#' :: comment))) =
      Text.trimEnd (codeFrom quote escaped line) := by
  fun_induction quoteFrom quote escaped line with
  | case1 quote escaped =>
    subst hquote
    rw [List.nil_append, codeFrom_gap hgap]
    exact Text.trimEnd_append_of_blank [] hgap
  | case2 c rest q ih => simpa [codeFrom] using Text.trimEnd_cons_congr c (ih hquote)
  | case3 escaped rest q hescaped ih =>
    simpa [codeFrom, hescaped] using Text.trimEnd_cons_congr _ (ih hquote)
  | case4 escaped rest q hescaped hslash ih =>
    simpa [codeFrom, hescaped, hslash] using Text.trimEnd_cons_congr _ (ih hquote)
  | case5 escaped c rest q hescaped hslash hq ih =>
    simpa [codeFrom, hescaped, hslash, hq] using Text.trimEnd_cons_congr c (ih hquote)
  | case6 escaped c rest hc ih => simpa [codeFrom, hc] using Text.trimEnd_cons_congr c (ih hquote)
  | case7 escaped rest hc => simp [codeFrom]
  | case8 escaped c rest hc hhash ih =>
    simpa [codeFrom, hc, hhash] using Text.trimEnd_cons_congr c (ih hquote)

/-- The last word of a line tells whether the line carries a directive. -/
theorem lineFilter_append (line : List Char) {word : List Char} (hne : word ≠ [])
    (h : ∀ c ∈ word, Text.isBlank c = false) :
    lineFilter (line ++ ' ' :: '#' :: ' ' :: word) = Directive.parse word := by
  have hblank : ' ' ∉ word := fun hc => absurd (h ' ' hc) (by decide)
  have hsplit : line ++ ' ' :: '#' :: ' ' :: word = (line ++ [' ', '#', ' ']) ++ word := by simp
  have hword : (line ++ [' ', '#', ' ']) ++ word = (line ++ [' ', '#']) ++ ' ' :: word := by simp
  rw [lineFilter, hsplit, Text.trimEnd_append_of_solid _ hne h, hword,
    Text.lastPiece_append_cons _ hblank]

/-- A directive behind a line leaves its semicolon where it is, if no quote is open there. -/
theorem lineMessages_append {line word : List Char} (hquote : openQuote line = none)
    (hne : word ≠ []) (h : ∀ c ∈ word, Text.isBlank c = false) (filename : String) (number : Int) :
    lineMessages filename number (line ++ ' ' :: '#' :: ' ' :: word) =
      lineMessages filename number line := by
  obtain ⟨gap, hline, hgap⟩ := Text.exists_trimEnd line
  have hsplit : line ++ ' ' :: '#' :: ' ' :: word = (line ++ [' ', '#', ' ']) ++ word := by simp
  have hcomment : (line ++ [' ', '#', ' ']) ++ word =
      Text.trimEnd line ++ ((gap ++ [' ']) ++ '#' :: ' ' :: word) := by
    conv_lhs => rw [hline]
    simp
  have hblanks : ∀ c ∈ gap ++ [' '], Text.isBlank c = true := by
    intro c hc
    rcases List.mem_append.mp hc with hc | hc
    · exact hgap c hc
    · rw [List.mem_singleton.mp hc]
      decide
  have hcode := trimEnd_codeFrom hquote hblanks (' ' :: word)
  unfold lineMessages
  rw [hsplit, Text.trimEnd_append_of_solid _ hne h, hcomment, codePart, hcode]
  rfl

end LineScan

/-! ## The words of directives -/

namespace Directive

/-- A directive that suppresses everything, as a comment. -/
def bare : String := " # no-lint"

/-- A directive that suppresses what it lists, as a comment. -/
def listing (checks : List Check) : String :=
  " # no-lint:" ++ String.intercalate "," (checks.map Check.ident)

/-- The word of such a directive. -/
def listingWord (checks : List Check) : List Char :=
  marker ++ ':' :: [','].intercalate (checks.map (·.ident.toList))

theorem toList_bare : bare.toList = ' ' :: '#' :: ' ' :: marker := by decide

theorem toList_listing (checks : List Check) :
    (listing checks).toList = ' ' :: '#' :: ' ' :: listingWord checks := by
  have hmark : " # no-lint:".toList = ' ' :: '#' :: ' ' :: (marker ++ [':']) := by decide
  rw [listing, String.toList_append, String.toList_intercalate, List.map_map, hmark, listingWord,
    List.cons_append, List.cons_append, List.cons_append, List.append_assoc]
  rfl

theorem solid_marker : ∀ c ∈ marker, Text.isBlank c = false := by
  have h : marker.all (fun c => !Text.isBlank c) = true := by decide
  simpa using h

theorem solid_ident (check : Check) :
    ∀ c ∈ check.ident.toList, Text.isBlank c = false ∧ c ≠ ',' := by
  have h : check.ident.toList.all (fun c => !Text.isBlank c && c != ',') = true := by
    cases check <;> decide
  simpa using h

theorem trim_ident (check : Check) : Text.trim check.ident.toList = check.ident.toList := by
  cases check <;> decide

theorem solid_intercalate (checks : List Check) :
    ∀ c ∈ [','].intercalate (checks.map (·.ident.toList)), Text.isBlank c = false := by
  intro c hc
  induction checks with
  | nil => cases hc
  | cons check checks ih =>
    cases checks with
    | nil => exact (solid_ident check c (by simpa [List.intercalate] using hc)).1
    | cons next checks =>
      rw [List.map_cons, List.map_cons, List.intercalate_cons_cons] at hc
      rcases List.mem_append.mp hc with hc | hc
      · rcases List.mem_append.mp hc with hc | hc
        · exact (solid_ident check c hc).1
        · rw [List.mem_singleton.mp hc]
          decide
      · exact ih hc

theorem solid_listingWord (checks : List Check) :
    ∀ c ∈ listingWord checks, Text.isBlank c = false := by
  intro c hc
  rcases List.mem_append.mp hc with hc | hc
  · exact solid_marker c hc
  · rcases List.mem_cons.mp hc with rfl | hc
    · decide
    · exact solid_intercalate checks c hc

theorem newline_notMem_listing (checks : List Check) : '\n' ∉ (listing checks).toList := by
  rw [toList_listing]
  intro h
  simp only [List.mem_cons, Char.reduceEq, false_or] at h
  exact absurd (solid_listingWord checks _ h) (by decide)

theorem parse_marker : parse marker = some Check.idents := by decide

theorem parse_marker_colon (listed : List Char) :
    parse (marker ++ ':' :: listed) =
      some ((Text.splitAt ',' listed).map fun part => String.ofList (Text.trim part)) := by
  have hmarker : marker = ['n', 'o', '-', 'l', 'i', 'n', 't'] := by decide
  rw [hmarker]
  rfl

/-- The identifiers that a directive lists are those that it suppresses. -/
theorem parse_listingWord {checks : List Check} (hne : checks ≠ []) :
    parse (listingWord checks) = some (checks.map Check.ident) := by
  have hpieces : Text.splitAt ',' ([','].intercalate (checks.map (·.ident.toList))) =
      checks.map (·.ident.toList) := by
    refine Text.splitAt_intercalate ?_ (by simpa using hne)
    intro piece hpiece
    obtain ⟨check, _, rfl⟩ := List.mem_map.mp hpiece
    exact fun hc => (solid_ident check ',' hc).2 rfl
  have hidents : (checks.map (·.ident.toList)).map
      (fun part => String.ofList (Text.trim part)) = checks.map Check.ident := by
    rw [List.map_map]
    refine List.map_congr_left fun check _ => ?_
    rw [Function.comp, trim_ident, String.ofList_toList]
  rw [listingWord, parse_marker_colon, hpieces, hidents]

end Directive

/-! ## Reading a text with a line extended -/

namespace LineScan

theorem lookup_scan {code : String} {line : Nat} {old : List Char}
    (hold : (linesOf code)[line]? = some old) (filename : String) :
    (scan code filename).filters.lookup (line + 1 : Int) = lineFilter old := by
  have hplace : ((line : Int) + 1 - 1).toNat = line := by omega
  unfold linesOf at hold
  rw [scan, lookup_scanFrom, if_pos (by omega), hplace, hold, Option.bind_some]

variable {code more : String} {line : Nat} {old : List Char}
  (hold : (linesOf code)[line]? = some old) (hmore : '\n' ∉ more.toList)
include hold hmore

theorem lookup_extendLine (filename : String) (m : Int) :
    (scan (extendLine code line more) filename).filters.lookup m =
      if m = line + 1 then lineFilter (old ++ more.toList)
      else (scan code filename).filters.lookup m := by
  have hlines := linesOf_extendLine hmore code line
  unfold scan
  unfold linesOf at hold hlines
  rw [hlines, lookup_scanFrom, lookup_scanFrom, List.getElem?_modify]
  by_cases hm : m = line + 1
  · have hplace : (m - 1).toNat = line := by omega
    rw [if_pos hm, if_pos (by omega), hplace, hold]
    simp
  · rw [if_neg hm]
    by_cases hlt : 1 ≤ m
    · have hplace : line ≠ (m - 1).toNat := by omega
      simp only [hplace, if_false]
      rw [Option.map_eq_map, Option.map_id']
    · rw [if_neg hlt, if_neg hlt]

/-- The other lines have the messages that they had. -/
theorem messages_extendLine {filename : String} {keep : Diagnostic → Bool}
    (h : (lineMessages filename (line + 1) (old ++ more.toList)).filter keep =
      (lineMessages filename (line + 1) old).filter keep) :
    (scan (extendLine code line more) filename).messages.filter keep =
      (scan code filename).messages.filter keep := by
  have hlines := linesOf_extendLine hmore code line
  obtain ⟨hlt, hget⟩ := List.getElem?_eq_some_iff.mp hold
  obtain ⟨first, found, rest, hsplit, hlength, hmodify⟩ :=
    List.exists_of_modify (· ++ more.toList) hlt
  have hfound : found = old := by
    have hhere : (linesOf code)[line]? = some found := by
      rw [hsplit, ← hlength]
      simp
    exact Option.some.inj (hhere.symm.trans hold)
  subst hfound
  have hnumber : (1 : Int) + first.length = line + 1 := by omega
  unfold scan
  rw [hmodify] at hlines
  unfold linesOf at hlines hsplit
  rw [hlines, hsplit, scanFrom_append, scanFrom_append, hnumber]
  simp only [scanFrom, List.filter_append, h]

end LineScan

namespace Resolve

/-- Everything that can be reported is in the catalog. -/
theorem ident_of_candidates {root : Node} {filename code : String} {w : Walk}
    (hw : walk root filename = .ok w) {d : Diagnostic} (h : d ∈ candidates w code) :
    d.ident ∈ Check.idents := by
  have hcatalog : ∀ check : Check, check.ident ∈ Check.idents := by
    intro check
    cases check <;> decide
  rcases List.mem_append.mp h with h | hscope
  · rcases List.mem_append.mp h with hwalk | hscan
    · obtain ⟨check, _, hident⟩ := Walk.ident_of_walk hw hwalk
      exact hident ▸ hcatalog check
    · exact ident_of_scan hscan ▸ hcatalog .endSemicolon
  · obtain ⟨place, _, hd⟩ := List.mem_flatMap.mp hscope
    cases hs : w.arena.scopes[place]? with
    | none => simp [hs] at hd
    | some s =>
      rw [hs] at hd
      rcases Scope.mem_messages hd with ⟨_, hi⟩ | ⟨_, hi | hi⟩ | ⟨_, hi⟩
      all_goals exact hi ▸ hcatalog _

theorem isSuppressed_extendLine {code more : String} {line : Nat} {old : List Char}
    (hold : (linesOf code)[line]? = some old) (hmore : '\n' ∉ more.toList) (filename : String)
    (d : Diagnostic) :
    isSuppressed (LineScan.scan (extendLine code line more) filename).filters d =
      if d.startLine = some (line + 1 : Int) then
        (LineScan.lineFilter (old ++ more.toList)).any (d.ident ∈ ·)
      else isSuppressed (LineScan.scan code filename).filters d := by
  unfold isSuppressed
  cases d.startLine with
  | none => rfl
  | some m =>
    simp only [LineScan.lookup_extendLine hold hmore, Option.some.injEq]
    split <;> rfl

/-- If another text only suppresses more, and has the same messages of its own but for what it
suppresses, then its report is what is left of the report. -/
theorem resolve_eq_filter {w : Walk} {code code' : String} {keep : Diagnostic → Bool}
    (hscan : (LineScan.scan code' w.filename).messages.filter keep =
      (LineScan.scan code w.filename).messages.filter keep)
    (hkept : ∀ d ∈ candidates w code',
      (!isSuppressed (LineScan.scan code' w.filename).filters d) =
        (keep d && !isSuppressed (LineScan.scan code w.filename).filters d))
    (builtins : List String) :
    resolve w code' builtins = (resolve w code builtins).filter keep := by
  have hcandidates : (candidates w code').filter keep = (candidates w code).filter keep := by
    simp only [candidates, List.filter_append, hscan]
  have hsame : (candidates w code').filter (fun d =>
      !isSuppressed (LineScan.scan code' w.filename).filters d && !isBuiltin builtins d) =
      ((candidates w code').filter keep).filter (fun d =>
        !isSuppressed (LineScan.scan code w.filename).filters d && !isBuiltin builtins d) := by
    rw [List.filter_filter]
    refine List.filter_congr fun d hd => ?_
    rw [hkept d hd]
    cases keep d <;> simp
  rw [resolve, resolve, filter_sort, hsame, hcandidates, List.filter_filter, List.filter_filter]
  simp only [Bool.and_comm]

end Resolve

/-- A finished walk, with a directive added at the end of a line: a bare one takes everything from
the report that stands on the line. One that lists some checks takes what is of these checks, if
there was no directive on the line before and no quote is open at its end. All else is reported as
before, in the same order. -/
theorem directive_suppresses_what_it_names {root : Node} {filename : String} {w : Walk}
    (hw : walk root filename = .ok w) (code : String) (builtins : List String) {line : Nat}
    {old : List Char} (hold : (linesOf code)[line]? = some old) :
    Resolve.resolve w (extendLine code line Directive.bare) builtins =
      (Resolve.resolve w code builtins).filter (fun d => d.startLine ≠ some (line + 1 : Int)) ∧
    (LineScan.lineFilter old = none → LineScan.openQuote old = none →
      ∀ checks : List Check, checks ≠ [] →
        Resolve.resolve w (extendLine code line (Directive.listing checks)) builtins =
          (Resolve.resolve w code builtins).filter (fun d =>
            ¬ (d.startLine = some (line + 1 : Int) ∧ d.ident ∈ checks.map Check.ident))) := by
  refine ⟨?_, ?_⟩
  · have hfree : '\n' ∉ Directive.bare.toList := by decide
    have hword : LineScan.lineFilter (old ++ Directive.bare.toList) = some Check.idents := by
      rw [Directive.toList_bare, LineScan.lineFilter_append old (by decide)
        Directive.solid_marker]
      exact Directive.parse_marker
    refine Resolve.resolve_eq_filter ?_ ?_ builtins
    · -- whatever the line has to say for itself is dropped, before as after
      have hdropped : ∀ text : List Char,
          (LineScan.lineMessages w.filename (line + 1) text).filter
            (fun d => d.startLine ≠ some (line + 1 : Int)) = [] := by
        intro text
        rw [List.filter_eq_nil_iff]
        intro d hd
        simp [LineScan.startLine_of_mem_lineMessages hd]
      refine LineScan.messages_extendLine hold hfree ?_
      rw [hdropped, hdropped]
    · intro d hd
      have hident := Resolve.ident_of_candidates hw hd
      rw [Resolve.isSuppressed_extendLine hold hfree, hword]
      by_cases hline : d.startLine = some (line + 1 : Int) <;> simp [hline, hident]
  · intro hnone hquote checks hne
    have hfree := Directive.newline_notMem_listing checks
    have hsolid := Directive.solid_listingWord checks
    have hwords : Directive.listingWord checks ≠ [] := by simp [Directive.listingWord]
    have hword : LineScan.lineFilter (old ++ (Directive.listing checks).toList) =
        some (checks.map Check.ident) := by
      rw [Directive.toList_listing, LineScan.lineFilter_append old hwords hsolid]
      exact Directive.parse_listingWord hne
    refine Resolve.resolve_eq_filter ?_ ?_ builtins
    · refine LineScan.messages_extendLine hold hfree ?_
      rw [Directive.toList_listing, LineScan.lineMessages_append hquote hwords hsolid]
    · intro d hd
      rw [Resolve.isSuppressed_extendLine hold hfree, hword]
      by_cases hline : d.startLine = some (line + 1 : Int)
      · have hbefore : Resolve.isSuppressed (LineScan.scan code w.filename).filters d = false := by
          simp [Resolve.isSuppressed, hline, LineScan.lookup_scan hold, hnone]
        simp only [hline, hbefore, if_true, true_and, Option.any_some, decide_not, Bool.not_false,
          Bool.and_true]
      · simp [hline]

/-- A line with two findings, which ends with a semicolon, and another one. -/
def remarks : String := "x = y; import z;\nw"

theorem directive_suppresses_in_remarks :
    ∃ root w, parse remarks = .ok root ∧ walk root "remarks" = .ok w ∧
      (Resolve.resolve w remarks []).map (fun d => (d.ident, d.startLine)) =
        [("undef", some 1), ("unused-import", some 1), ("eol-semicolon", some 1),
          ("undef", some 2)] ∧
      Resolve.resolve w (extendLine remarks 0 Directive.bare) [] =
        (Resolve.resolve w remarks []).filter (fun d => d.startLine ≠ some 1) ∧
      Resolve.resolve w
          (extendLine remarks 0 (Directive.listing [.undefinedName, .syntaxError])) [] =
        (Resolve.resolve w remarks []).filter (fun d =>
          ¬ (d.startLine = some 1 ∧ d.ident ∈ ["undef", "syntax-err"])) := by
  have hline : (linesOf remarks)[0]? = some "x = y; import z;".toList := by decide +kernel
  have hnone : LineScan.lineFilter "x = y; import z;".toList = none := by decide +kernel
  have hquote : LineScan.openQuote "x = y; import z;".toList = none := by decide +kernel
  have hfound : (parse remarks).toOption.bind (fun root => (walk root "remarks").toOption.map
      fun w => (Resolve.resolve w remarks []).map fun d => (d.ident, d.startLine)) =
      some [("undef", some 1), ("unused-import", some 1), ("eol-semicolon", some 1),
        ("undef", some 2)] := by decide +kernel
  cases hparse : parse remarks with
  | error e =>
    rw [hparse] at hfound
    cases hfound
  | ok root =>
    cases hwalk : walk root "remarks" with
    | error e => simp [hparse, hwalk, Except.toOption] at hfound
    | ok w =>
      obtain ⟨hbare, hlisting⟩ := directive_suppresses_what_it_names hwalk remarks [] hline
      have hnamed := hlisting hnone hquote [.undefinedName, .syntaxError] (by decide)
      simp only [hparse, Except.toOption, Option.bind_some, hwalk, Option.map_some,
        Option.some.injEq] at hfound
      exact ⟨root, w, rfl, hwalk, hfound, hbare, hnamed⟩

end ScopeLint
