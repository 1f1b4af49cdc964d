import Mathlib.Data.List.Basic
import ScopeLint.Proofs.Spelling

/-! # What folding semicolons keeps

Folding works on each line by itself: `lines_foldFrom`. In a line it keeps every
statement, puts an empty one in front of each semicolon that has none, and drops
the semicolon that ends the line, so semicolons stand between statements and
nowhere else (`runs_foldFrom`). Without its semicolons, the outcome is the input
with each stray semicolon an empty statement (`filter_foldFrom_eq_settled`). -/
namespace ScopeLint

namespace Separator

def isSemicolon (t : Token) : Bool := t.kind = .separator

def isLayout (t : Token) : Bool := t.kind.isStructural

/-- A token of a statement. -/
def isOrdinary (t : Token) : Bool := !isLayout t && !isSemicolon t

/-- What stands between the tokens of layout. -/
def lines (tokens : List Token) : List (List Token) := tokens.splitOnP isLayout

/-- What stands between the semicolons of a line. -/
def runs (line : List Token) : List (List Token) := line.splitOnP isSemicolon

/-- The statements among tokens: the longest stretches without layout and semicolons. -/
def statements (tokens : List Token) : List (List Token) :=
  (tokens.splitOnP fun t => !isOrdinary t).filter (· ≠ [])

/-- The tokens without semicolons, but with an empty statement for each semicolon that stands
directly behind no token of a statement. -/
def settled (inStatement : Bool) : List Token → List Token
  | [] => []
  | t :: rest =>
    (if !isSemicolon t then [t] else if inStatement then [] else [emptyStatement t]) ++
      settled (isOrdinary t) rest

/-! ## One token -/

section

variable {t : Token} {pending : Option Token} {inStatement : Bool}

theorem isOrdinary_iff : isOrdinary t = true ↔ isLayout t = false ∧ isSemicolon t = false := by
  simp [isOrdinary]

theorem isLayout_of_isSemicolon (h : isSemicolon t = true) : isLayout t = false := by
  rw [isLayout, of_decide_eq_true h]
  rfl

theorem foldFrom_semicolon (h : isSemicolon t = true) (rest : List Token) :
    foldFrom pending inStatement (t :: rest) =
      (if inStatement then [] else pending.toList ++ [emptyStatement t]) ++
        foldFrom (some t) false rest := by
  rw [foldFrom, if_pos (of_decide_eq_true h)]
  cases inStatement <;> simp

theorem foldFrom_layout (h : isLayout t = true) (rest : List Token) :
    foldFrom pending inStatement (t :: rest) = t :: foldFrom none false rest := by
  have hkind : t.kind ≠ .separator := by
    intro hkind
    rw [isLayout_of_isSemicolon (decide_eq_true hkind)] at h
    cases h
  rw [foldFrom, if_neg hkind]
  exact if_pos h

theorem foldFrom_ordinary (h : isOrdinary t = true) (rest : List Token) :
    foldFrom pending inStatement (t :: rest) = pending.toList ++ t :: foldFrom none true rest := by
  obtain ⟨hlayout, hkind⟩ := isOrdinary_iff.mp h
  rw [foldFrom, if_neg (of_decide_eq_false hkind)]
  exact if_neg (Bool.not_eq_true _ ▸ hlayout)

end

/-! ## Lines -/

theorem lines_cons_of_layout {t : Token} (h : isLayout t = true) (rest : List Token) :
    lines (t :: rest) = [] :: lines rest := by
  rw [lines, List.splitOnP_cons_eq_if_modifyHead, if_pos h]
  rfl

theorem lines_append_of_not_layout {first : List Token} (h : ∀ t ∈ first, isLayout t = false)
    {line : List Token} {tokens : List Token} {more : List (List Token)}
    (hlines : lines tokens = line :: more) :
    lines (first ++ tokens) = (first ++ line) :: more := by
  induction first with
  | nil => exact hlines
  | cons t first ih =>
    have hrest := ih fun u hu => h u (List.mem_cons_of_mem _ hu)
    have ht := h t List.mem_cons_self
    rw [List.cons_append, lines, List.splitOnP_cons_eq_if_modifyHead, ht, ← lines, hrest]
    rfl

/-- Folding starts anew behind every token of layout. -/
theorem lines_foldFrom {tokens line : List Token} {more : List (List Token)}
    (h : lines tokens = line :: more) (pending : Option Token)
    (hpending : ∀ t ∈ pending, isSemicolon t = true) (inStatement : Bool) :
    lines (foldFrom pending inStatement tokens) =
      foldFrom pending inStatement line :: more.map (foldFrom none false) := by
  induction tokens generalizing line more pending inStatement with
  | nil =>
    cases h
    rfl
  | cons t rest ih =>
    have hheld : ∀ u ∈ pending.toList, isLayout u = false := fun u hu =>
      isLayout_of_isSemicolon (hpending u (Option.mem_toList.mp hu))
    cases hlayout : isLayout t with
    | true =>
      rw [lines_cons_of_layout hlayout] at h
      cases h
      obtain ⟨first, others, hrest⟩ :=
        List.exists_cons_of_ne_nil (List.splitOnP_ne_nil isLayout rest)
      rw [foldFrom_layout hlayout, lines_cons_of_layout hlayout, ih hrest none (by simp), lines,
        hrest]
      rfl
    | false =>
      obtain ⟨first, others, hrest⟩ :=
        List.exists_cons_of_ne_nil (List.splitOnP_ne_nil isLayout rest)
      have ht : ∀ u ∈ [t], isLayout u = false := by simpa using hlayout
      have hhere := lines_append_of_not_layout ht hrest
      cases hhere.symm.trans h
      cases hkind : isSemicolon t with
      | true =>
        rw [List.singleton_append, foldFrom_semicolon hkind, foldFrom_semicolon hkind]
        refine lines_append_of_not_layout ?_ (ih hrest (some t) (by simpa using hkind) false)
        cases inStatement with
        | true => simp
        | false =>
          intro u hu
          rcases List.mem_append.mp hu with hu | hu
          · exact hheld u hu
          · rw [List.mem_singleton.mp hu]
            rfl
      | false =>
        have hordinary := isOrdinary_iff.mpr ⟨hlayout, hkind⟩
        rw [List.singleton_append, foldFrom_ordinary hordinary, foldFrom_ordinary hordinary,
          List.append_cons _ t (foldFrom none true rest),
          List.append_cons _ t (foldFrom none true first)]
        refine lines_append_of_not_layout ?_ (ih hrest none (by simp) true)
        intro u hu
        rcases List.mem_append.mp hu with hu | hu
        · exact hheld u hu
        · rw [List.mem_singleton.mp hu]
          exact hlayout

/-! ## The statements of a line -/

/-- A semicolon that is held back goes in front of what the line still has. -/
theorem foldFrom_pending {line : List Token} (h : ∀ t ∈ line, isLayout t = false)
    (pending : Option Token) (hline : line ≠ []) :
    foldFrom pending false line = pending.toList ++ foldFrom none false line := by
  obtain ⟨t, rest, rfl⟩ := List.exists_cons_of_ne_nil hline
  cases hkind : isSemicolon t with
  | true => simp [foldFrom_semicolon hkind]
  | false =>
    have hordinary := isOrdinary_iff.mpr ⟨h t List.mem_cons_self, hkind⟩
    simp [foldFrom_ordinary hordinary]

theorem foldFrom_statement {run : List Token} (h : ∀ t ∈ run, isOrdinary t = true)
    (rest : List Token) : foldFrom none true (run ++ rest) = run ++ foldFrom none true rest := by
  induction run with
  | nil => rfl
  | cons t run ih =>
    rw [List.cons_append, foldFrom_ordinary (h t List.mem_cons_self),
      ih fun u hu => h u (List.mem_cons_of_mem _ hu)]
    rfl

/-- A line is one run, or a run in front of a semicolon and a shorter line. -/
theorem line_cases (line : List Token) :
    (∀ t ∈ line, isSemicolon t = false) ∨
      ∃ run s rest, line = run ++ s :: rest ∧ (∀ t ∈ run, isSemicolon t = false) ∧
        isSemicolon s = true := by
  induction line with
  | nil => exact .inl (by simp)
  | cons t line ih =>
    cases ht : isSemicolon t with
    | true => exact .inr ⟨[], t, line, rfl, by simp, ht⟩
    | false =>
      rcases ih with hall | ⟨run, s, rest, rfl, hrun, hs⟩
      · exact .inl (List.forall_mem_cons.mpr ⟨ht, hall⟩)
      · exact .inr ⟨t :: run, s, rest, rfl, List.forall_mem_cons.mpr ⟨ht, hrun⟩, hs⟩

/-- A run in front of a semicolon stays; where there is none, an empty statement takes its place. -/
theorem foldFrom_run {run : List Token} (h : ∀ t ∈ run, isOrdinary t = true) {s : Token}
    (hs : isSemicolon s = true) (rest : List Token) :
    foldFrom none false (run ++ s :: rest) =
      (if run = [] then [emptyStatement s] else run) ++ foldFrom (some s) false rest := by
  cases run with
  | nil => simp [foldFrom_semicolon hs]
  | cons t run =>
    rw [if_neg (List.cons_ne_nil t run), List.cons_append,
      foldFrom_ordinary (h t List.mem_cons_self),
      foldFrom_statement fun u hu => h u (List.mem_cons_of_mem _ hu), foldFrom_semicolon hs]
    rfl

/-- Between the semicolons of a folded line there are empty statements and the statements that the
line had, and nothing is empty. -/
theorem runs_foldFrom (line : List Token) (h : ∀ t ∈ line, isLayout t = false) (hline : line ≠ []) :
    ∀ run ∈ runs (foldFrom none false line),
      (∃ t ∈ line, isSemicolon t = true ∧ run = [emptyStatement t]) ∨
        run ≠ [] ∧ run ∈ runs line := by
  rcases line_cases line with hall | ⟨first, s, rest, rfl, hfirst, hs⟩
  · -- one statement
    have hordinary : ∀ t ∈ line, isOrdinary t = true := fun t ht =>
      isOrdinary_iff.mpr ⟨h t ht, hall t ht⟩
    have hfold : foldFrom none false line = line := by
      obtain ⟨t, rest, rfl⟩ := List.exists_cons_of_ne_nil hline
      have hrest := foldFrom_statement (fun u hu => hordinary u (List.mem_cons_of_mem t hu)) []
      rw [List.append_nil] at hrest
      rw [foldFrom_ordinary (hordinary t List.mem_cons_self), hrest]
      simp [foldFrom]
    have hruns : runs line = [line] := List.splitOnP_eq_singleton hall
    intro run hrun
    rw [hfold, hruns, List.mem_singleton] at hrun
    rw [hrun, hruns]
    exact .inr ⟨hline, List.mem_singleton_self line⟩
  · have hordinary : ∀ t ∈ first, isOrdinary t = true := fun t ht =>
      isOrdinary_iff.mpr ⟨h t (List.mem_append_left _ ht), hfirst t ht⟩
    have hruns : runs (first ++ s :: rest) = first :: runs rest :=
      List.splitOnP_append_cons_of_forall_mem hfirst s hs rest
    rw [foldFrom_run hordinary hs, hruns]
    let lead := if first = [] then [emptyStatement s] else first
    have hlead : ∀ t ∈ lead, isSemicolon t = false := by
      intro t ht
      dsimp only [lead] at ht
      split at ht
      · rw [List.mem_singleton.mp ht]
        rfl
      · exact hfirst t ht
    have hhere : (∃ t ∈ first ++ s :: rest, isSemicolon t = true ∧ lead = [emptyStatement t]) ∨
        lead ≠ [] ∧ lead ∈ first :: runs rest := by
      dsimp only [lead]
      split
      · exact .inl ⟨s, by simp, hs, rfl⟩
      · next hne => exact .inr ⟨hne, List.mem_cons_self⟩
    by_cases hrest : rest = []
    · -- the semicolon ends the line
      subst hrest
      intro run hrun
      have hlast : runs (lead ++ foldFrom (some s) false []) = [lead] := by
        rw [foldFrom, List.append_nil]
        exact List.splitOnP_eq_singleton hlead
      rw [hlast, List.mem_singleton] at hrun
      rw [hrun]
      exact hhere
    · have hlayout : ∀ t ∈ rest, isLayout t = false := fun t ht =>
        h t (List.mem_append_right _ (List.mem_cons_of_mem _ ht))
      have ih := runs_foldFrom rest hlayout hrest
      have hsplit : runs (lead ++ foldFrom (some s) false rest) =
          lead :: runs (foldFrom none false rest) := by
        rw [foldFrom_pending hlayout _ hrest]
        exact List.splitOnP_append_cons_of_forall_mem hlead s hs _
      intro run hrun
      rw [hsplit] at hrun
      rcases List.mem_cons.mp hrun with rfl | hrun
      · exact hhere
      · rcases ih run hrun with ⟨t, ht, hkind, heq⟩ | ⟨hne, hmem⟩
        · exact .inl ⟨t, List.mem_append_right _ (List.mem_cons_of_mem _ ht), hkind, heq⟩
        · exact .inr ⟨hne, List.mem_cons_of_mem _ hmem⟩
termination_by line.length

/-! ## Everything else -/

/-- Splitting at two sorts of elements is splitting at one, and the pieces at the other. -/
theorem splitOnP_or {α : Type} (p q : α → Bool) (xs : List α) :
    xs.splitOnP (fun x => p x || q x) = (xs.splitOnP p).flatMap (List.splitOnP q) := by
  induction xs with
  | nil => rfl
  | cons x xs ih =>
    obtain ⟨first, more, hsplit⟩ := List.exists_cons_of_ne_nil (List.splitOnP_ne_nil p xs)
    obtain ⟨inner, others, hinner⟩ := List.exists_cons_of_ne_nil (List.splitOnP_ne_nil q first)
    rw [List.splitOnP_cons_eq_if_modifyHead, List.splitOnP_cons_eq_if_modifyHead, ih, hsplit]
    cases hp : p x with
    | true => simp
    | false =>
      cases hq : q x <;>
        simp [hq, List.splitOnP_cons_eq_if_modifyHead, hinner]

theorem of_mem_splitOnP {α : Type} {p : α → Bool} {xs piece : List α}
    (h : piece ∈ xs.splitOnP p) : ∀ x ∈ piece, x ∈ xs ∧ p x = false := by
  induction xs generalizing piece with
  | nil =>
    rw [List.splitOnP_nil, List.mem_singleton] at h
    simp [h]
  | cons x xs ih =>
    have hlater : ∀ {rest : List α}, rest ∈ xs.splitOnP p →
        ∀ y ∈ rest, y ∈ x :: xs ∧ p y = false :=
      fun hrest y hy => ⟨List.mem_cons_of_mem _ (ih hrest y hy).1, (ih hrest y hy).2⟩
    obtain ⟨first, more, hsplit⟩ := List.exists_cons_of_ne_nil (List.splitOnP_ne_nil p xs)
    rw [List.splitOnP_cons_eq_if_modifyHead, hsplit] at h
    rw [hsplit] at hlater
    split at h
    · rcases List.mem_cons.mp h with rfl | h
      · simp
      · exact hlater h
    · next hx =>
      rcases List.mem_cons.mp h with rfl | h
      · exact List.forall_mem_cons.mpr
          ⟨⟨List.mem_cons_self, Bool.not_eq_true _ ▸ hx⟩, hlater List.mem_cons_self⟩
      · exact hlater (List.mem_cons_of_mem _ h)

theorem mem_statements {tokens line run : List Token} (hline : line ∈ lines tokens)
    (hrun : run ∈ runs line) (hne : run ≠ []) : run ∈ statements tokens := by
  have hsplit : tokens.splitOnP (fun t => !isOrdinary t) = (lines tokens).flatMap runs := by
    have hboth : _ = (lines tokens).flatMap runs := splitOnP_or isLayout isSemicolon tokens
    simpa only [isOrdinary, Bool.not_and, Bool.not_not] using hboth
  refine List.mem_filter.mpr ⟨?_, decide_eq_true hne⟩
  rw [hsplit]
  exact List.mem_flatMap.mpr ⟨line, hline, hrun⟩

/-- A line of the outcome is empty, or holds statements with one semicolon between any two. -/
theorem runs_of_mem_lines {tokens line : List Token}
    (h : line ∈ lines (foldFrom none false tokens)) :
    line = [] ∨ ∀ run ∈ runs line,
      (∃ t ∈ tokens, isSemicolon t = true ∧ run = [emptyStatement t]) ∨
        run ∈ statements tokens := by
  obtain ⟨first, more, hlines⟩ := List.exists_cons_of_ne_nil (List.splitOnP_ne_nil isLayout tokens)
  have hfold := lines_foldFrom hlines none (by simp) false
  have hmap : lines (foldFrom none false tokens) = (lines tokens).map (foldFrom none false) := by
    rw [hfold, lines, hlines]
    rfl
  rw [hmap] at h
  obtain ⟨source, hsource, rfl⟩ := List.mem_map.mp h
  by_cases hempty : source = []
  · rw [hempty]
    exact .inl rfl
  · right
    intro run hrun
    have hplain := of_mem_splitOnP hsource
    rcases runs_foldFrom source (fun t ht => (hplain t ht).2) hempty run hrun with
      ⟨t, ht, hkind, heq⟩ | ⟨hne, hmem⟩
    · exact .inl ⟨t, (hplain t ht).1, hkind, heq⟩
    · exact .inr (mem_statements hsource hmem hne)

theorem filter_foldFrom_eq_settled (pending : Option Token)
    (hpending : ∀ t ∈ pending, isSemicolon t = true) (inStatement : Bool) (tokens : List Token) :
    (foldFrom pending inStatement tokens).filter (fun t => !isSemicolon t) =
      settled inStatement tokens := by
  have hheld : ∀ {p : Option Token}, (∀ t ∈ p, isSemicolon t = true) →
      p.toList.filter (fun t => !isSemicolon t) = [] := by
    intro p hp
    refine List.filter_eq_nil_iff.mpr fun t ht => ?_
    simp [hp t (Option.mem_toList.mp ht)]
  induction tokens generalizing pending inStatement with
  | nil => rfl
  | cons t rest ih =>
    rw [settled]
    cases hkind : isSemicolon t with
    | true =>
      have hempty : isSemicolon (emptyStatement t) = false := rfl
      rw [foldFrom_semicolon hkind, List.filter_append, ih (some t) (by simpa using hkind)]
      cases inStatement <;> simp [isOrdinary, hkind, hheld hpending, hempty]
    | false =>
      cases hlayout : isLayout t with
      | true =>
        rw [foldFrom_layout hlayout, List.filter_cons, ih none (by simp)]
        simp [isOrdinary, hlayout, hkind]
      | false =>
        rw [foldFrom_ordinary (isOrdinary_iff.mpr ⟨hlayout, hkind⟩), List.filter_append,
          hheld hpending, List.filter_cons, ih none (by simp)]
        simp [isOrdinary, hlayout, hkind]

theorem filter_settled {q : Token → Bool}
    (hq : ∀ t : Token, t.kind = .separator ∨ t.kind = .emptyStatement → q t = false)
    (inStatement : Bool) (tokens : List Token) :
    (settled inStatement tokens).filter q = tokens.filter q := by
  induction tokens generalizing inStatement with
  | nil => rfl
  | cons t rest ih =>
    rw [settled, List.filter_append, ih, List.filter_cons]
    cases hkind : isSemicolon t with
    | false => cases hqt : q t <;> simp [hqt]
    | true =>
      have hdrop : q t = false := hq t (.inl (of_decide_eq_true hkind))
      have hempty : q (emptyStatement t) = false := hq _ (.inr rfl)
      cases inStatement <;> simp [hdrop, hempty]

/-- Folding touches semicolons and empty statements only. -/
theorem filter_foldFrom {q : Token → Bool}
    (hq : ∀ t : Token, t.kind = .separator ∨ t.kind = .emptyStatement → q t = false)
    (pending : Option Token) (hpending : ∀ t ∈ pending, isSemicolon t = true)
    (inStatement : Bool) (tokens : List Token) :
    (foldFrom pending inStatement tokens).filter q = tokens.filter q := by
  have hkeep : ∀ t : Token, (q t && !isSemicolon t) = q t := by
    intro t
    cases hkind : isSemicolon t with
    | false => simp
    | true => simp [hq t (.inl (of_decide_eq_true hkind))]
  have hsettled := congrArg (List.filter q)
    (filter_foldFrom_eq_settled pending hpending inStatement tokens)
  rw [filter_settled hq, List.filter_filter] at hsettled
  simpa only [hkeep] using hsettled

end Separator

/-! ## Streams of a text -/

/-- What is read off a text is of no kind that is added later. -/
theorem Lexeme.isAdded_lexeme {s : List Char} {kind : Kind} {n : Nat}
    (h : lexeme s = some (.token kind, n)) : kind.isAdded = false := by
  have hkeywords : ∀ entry ∈ Token.keywords, entry.2.isAdded = false := by decide
  have hoperators : ∀ entry ∈ Token.operators, entry.2.isAdded = false := by decide
  rcases lexeme_token h with hfree | ⟨_, rfl⟩ | ⟨text, hmem, _⟩
  · cases kind with
    | indent | dedent | emptyStatement => cases hfree
    | _ => rfl
  · rcases wordKind_cases (s.take n) with hname | hkeyword
    · rw [hname]
      rfl
    · exact hkeywords _ hkeyword
  · exact hoperators _ hmem

theorem Lexer.isAdded_lex {text : List Char} {t : Token} (h : t ∈ (lex text).tokens) :
    t.kind.isAdded = false := by
  obtain ⟨_, _, _, _, hlexeme, _⟩ := readFrom_of_mem_scan h
  exact Lexeme.isAdded_lexeme hlexeme

/-- The stream that a text gives has no empty statements before its semicolons are folded. -/
theorem Layout.ne_emptyStatement {text : List Char} {t : Token}
    (h : t ∈ (layout (Lexer.lex text)).tokens) : t.kind ≠ .emptyStatement := by
  intro hkind
  have hsub := filter_layoutFrom (q := fun u => decide (u.kind = .emptyStatement))
    (fun u hu => by rcases hu with hu | hu <;> simp [hu]) (Lexer.lex text).fault 0 [] none
    (Lexer.lex text).tokens
  have hread : t ∈ (Lexer.lex text).tokens :=
    List.mem_of_mem_filter (hsub.subset (List.mem_filter.mpr ⟨h, decide_eq_true hkind⟩))
  have hadded := Lexer.isAdded_lex hread
  rw [hkind] at hadded
  cases hadded

/-- Folding the semicolons of a stream leaves in every line nothing, or statements with one
semicolon between any two, where a statement is a whole one of the stream or an empty one. It
loses nothing but semicolons and adds nothing but empty statements, one for each semicolon that
follows no token of a statement and where that semicolon was. Streams of a text have no empty
statements of their own. -/
theorem fold_separates_statements (s : Stream) :
    let out := Separator.fold s
    out.fault = s.fault ∧
    (∀ line ∈ Separator.lines out.tokens, line = [] ∨ ∀ run ∈ Separator.runs line,
      (∃ t ∈ s.tokens, t.kind = .separator ∧ run = [Separator.emptyStatement t]) ∨
        run ∈ Separator.statements s.tokens) ∧
    out.tokens.filter (fun t => t.kind ≠ .separator ∧ t.kind ≠ .emptyStatement) =
      s.tokens.filter (fun t => t.kind ≠ .separator ∧ t.kind ≠ .emptyStatement) ∧
    out.tokens.filter (fun t => t.kind ≠ .separator) = Separator.settled false s.tokens ∧
    ∀ text, ∀ t ∈ (Layout.layout (Lexer.lex text)).tokens, t.kind ≠ .emptyStatement := by
  refine ⟨rfl, ?_, ?_, ?_, fun text t ht => Layout.ne_emptyStatement ht⟩
  · intro line hline
    refine (Separator.runs_of_mem_lines hline).imp_right fun hruns run hrun => ?_
    refine (hruns run hrun).imp_left ?_
    intro hempty
    obtain ⟨t, ht, hkind, heq⟩ := hempty
    exact ⟨t, ht, of_decide_eq_true hkind, heq⟩
  · refine Separator.filter_foldFrom (fun t ht => ?_) none (by simp) false s.tokens
    rcases ht with ht | ht <;> simp [ht]
  · have hkinds : (fun t : Token => decide (t.kind ≠ .separator)) =
        fun t => !Separator.isSemicolon t := funext fun t => decide_not
    rw [hkinds]
    exact Separator.filter_foldFrom_eq_settled none (by simp) false s.tokens

/-- The second semicolon of the first line and the only one of the second stand for empty
statements, the first one separates, and the one at the end of the first line is gone. -/
theorem fold_of_stray_semicolons :
    let s := Layout.layout (Lexer.lex "a;;b;\n;\n".toList)
    ((Separator.lines (Separator.fold s).tokens).map fun line => line.map fun t => t.kind) =
      [[.name, .separator, .emptyStatement, .separator, .name], [.emptyStatement], []] ∧
    (∀ line ∈ Separator.lines (Separator.fold s).tokens,
      line = [] ∨ ∀ run ∈ Separator.runs line,
        (∃ t ∈ s.tokens, t.kind = .separator ∧ run = [Separator.emptyStatement t]) ∨
          run ∈ Separator.statements s.tokens) ∧
    (Separator.fold s).tokens.filter (fun t => t.kind ≠ .separator) =
      Separator.settled false s.tokens := by
  obtain ⟨_, hlines, _, hsettled, _⟩ :=
    fold_separates_statements (Layout.layout (Lexer.lex "a;;b;\n;\n".toList))
  exact ⟨by decide +kernel, hlines, hsettled⟩

end ScopeLint
