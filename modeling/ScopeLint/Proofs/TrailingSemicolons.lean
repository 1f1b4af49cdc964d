import ScopeLint.Proofs.Built
import ScopeLint.Proofs.CodeEnds
import ScopeLint.Proofs.SourceOrder

/-! # Semicolons at line ends

The scan of raw lines reports a semicolon at the end of a line. Where no long literal
stands on the line, this is a semicolon token with no token but a line end behind it on
its line; a semicolon before a backslash that joins the line to the next does not end
it. On a line with a long literal the report may be about a semicolon inside it. -/
namespace ScopeLint

/-! ## Lines of a source and places in it -/

/-- A line of a text that is not empty, in the text with its last line ended. -/
theorem split_at_line {code : String} {i : Nat} {line : List Char}
    (h : (linesOf code)[i]? = some line) (hne : line ≠ []) :
    ∃ pre v, endLine code.toList = pre ++ (line ++ '\n' :: v) ∧
      (pre = [] ∨ pre.getLast? = some '\n') ∧ pre.count '\n' = i ∧ '\n' ∉ line := by
  have hfree : ∀ l ∈ linesOf code, '\n' ∉ l := fun l => Text.sep_notMem_of_mem_splitAt
  obtain ⟨hi, hline⟩ := List.getElem?_eq_some_iff.mp h
  have hlines : linesOf code = (linesOf code).take i ++ line :: (linesOf code).drop (i + 1) := by
    rw [← hline, List.getElem_cons_drop, List.take_append_drop]
  have hlength : ((linesOf code).take i).length = i := List.length_take_of_le (Nat.le_of_lt hi)
  generalize (linesOf code).take i = first at hlines hlength
  generalize (linesOf code).drop (i + 1) = rest at hlines
  have hbreak : '\n' ∉ line := hfree line (by rw [hlines]; simp)
  -- the lines before, each with its line feed
  obtain ⟨pre, hpre, hcount, htext⟩ : ∃ pre, (pre = [] ∨ pre.getLast? = some '\n') ∧
      pre.count '\n' = i ∧ code.toList = pre ++ (ofLines (line :: rest)).toList := by
    by_cases hfirst : first = []
    · subst hfirst
      refine ⟨[], .inl rfl, hlength, ?_⟩
      rw [← ofLines_linesOf code, hlines, List.nil_append, List.nil_append]
    · refine ⟨(ofLines first).toList ++ ['\n'], .inr List.getLast?_concat, ?_, ?_⟩
      · have := count_ofLines (fun l hl => hfree l (by rw [hlines]; simp [hl])) hfirst
        rw [List.count_append, List.count_singleton_self, this, hlength]
      · rw [← ofLines_linesOf code, hlines, ofLines_append hfirst (List.cons_ne_nil _ _)]
        simp
  refine ⟨pre, ?_⟩
  have hsingle : (ofLines [line]).toList = line := by simp [ofLines, List.intercalate_singleton]
  by_cases hrest : rest = []
  · subst hrest
    have hlast : (pre ++ line).getLast? ≠ some '\n' := by
      rw [List.getLast?_append_of_ne_nil _ hne]
      exact fun hlast => hbreak (List.mem_of_getLast? hlast)
    refine ⟨[], ?_, hpre, hcount, hbreak⟩
    rw [htext, hsingle, endLine, if_neg hlast, List.append_assoc]
  · obtain ⟨v, hv⟩ := exists_endLine (ofLines rest).toList
    refine ⟨v, ?_, hpre, hcount, hbreak⟩
    rw [htext, ← List.singleton_append, ofLines_append (List.cons_ne_nil _ _) hrest, hsingle,
      ← List.append_assoc, endLine_append, hv, List.append_assoc]

theorem Position.before_after (p : Position) {text : List Char} (h : text ≠ []) :
    p.Before (p.after text) := by
  cases text with
  | nil => exact absurd rfl h
  | cons c text =>
    have hstep := p.before_advance c
    rcases (p.advance c).eq_or_before_after text with heq | hlater
    · exact heq.symm ▸ hstep
    · exact hstep.trans hlater

/-- Where the first character of a line stands. -/
theorem Position.after_lines {pre : List Char} (h : pre = [] ∨ pre.getLast? = some '\n') :
    (⟨1, 0⟩ : Position).after pre = ⟨pre.count '\n' + 1, 0⟩ := by
  rcases h with rfl | h
  · rfl
  · obtain ⟨first, rfl⟩ := List.getLast?_eq_some_iff.mp h
    rw [after_line_feed, line_after, List.count_append, List.count_singleton_self]
    dsimp only
    congr 1
    push_cast
    omega

/-- What stands on a line is found there, if as many line feeds come before it. -/
theorem split_on_line {pre line v before rest : List Char}
    (htext : pre ++ (line ++ '\n' :: v) = before ++ rest)
    (hpre : pre = [] ∨ pre.getLast? = some '\n') (hcount : before.count '\n' = pre.count '\n') :
    ∃ left right, before = pre ++ left ∧ line = left ++ right ∧ rest = right ++ '\n' :: v ∧
      '\n' ∉ left := by
  have hsplit : ∃ left, before = pre ++ left ∧ left ++ rest = line ++ '\n' :: v := by
    rcases List.append_eq_append_iff.mp htext with ⟨left, hbefore, hrest⟩ | ⟨more, rfl, hrest⟩
    · exact ⟨left, hbefore, hrest.symm⟩
    · -- nothing of the lines before is left, or a line feed would be
      rw [List.count_append] at hcount
      have hnil : more = [] := by
        by_contra hne
        have hlast : (before ++ more).getLast? = some '\n' := hpre.resolve_left (by simp [hne])
        rw [List.getLast?_append_of_ne_nil _ hne] at hlast
        have := List.count_pos_iff.mpr (List.mem_of_getLast? hlast)
        omega
      subst hnil
      exact ⟨[], by simp, by simpa using hrest⟩
  obtain ⟨left, rfl, hrest⟩ := hsplit
  have hfree : '\n' ∉ left := by
    intro hmem
    have := List.count_pos_iff.mpr hmem
    rw [List.count_append] at hcount
    omega
  obtain ⟨right, hline, hright⟩ := Lexer.split_of_notMem hrest hfree
  exact ⟨left, right, rfl, hline, hright, hfree⟩

/-! ## The semicolons of a source -/

namespace LineScan

open Lexeme Text

theorem mem_messages_scanFrom {filename : String} {number : Int} {lines : List (List Char)}
    {d : Diagnostic} : d ∈ (scanFrom filename number lines).messages ↔
      ∃ (i : Nat) (line : List Char), lines[i]? = some line ∧
        d ∈ lineMessages filename (number + i) line := by
  induction lines generalizing number with
  | nil => simp [scanFrom]
  | cons line lines ih =>
    simp only [scanFrom, List.mem_append, ih]
    constructor
    · rintro (hd | ⟨i, line', hline, hd⟩)
      · exact ⟨0, line, rfl, by simpa using hd⟩
      · refine ⟨i + 1, line', hline, ?_⟩
        rwa [show number + (i + 1 : Nat) = number + 1 + i by omega]
    · rintro ⟨i, line', hline, hd⟩
      cases i with
      | zero =>
        cases hline
        exact .inl (by simpa using hd)
      | succ i =>
        refine .inr ⟨i, line', hline, ?_⟩
        rwa [show number + 1 + (i : Int) = number + (i + 1 : Nat) by omega]

/-- The scan reports a semicolon at a place. -/
def ReportedAt (code filename : String) (place : Position) : Prop :=
  ∃ d ∈ (scan code filename).messages, d.ident = Check.endSemicolon.ident ∧
    d.startLine = some place.line ∧ d.startCol = some place.col

theorem reportedAt_iff {code filename : String} {place : Position} :
    ReportedAt code filename place ↔ ∃ (i k : Nat) (line : List Char),
      (linesOf code)[i]? = some line ∧ place = ⟨i + 1, k⟩ ∧ EndsAt (codePart line) k := by
  constructor
  · rintro ⟨d, hd, _, hline, hcol⟩
    obtain ⟨i, line, hi, hd⟩ := mem_messages_scanFrom.mp hd
    obtain ⟨p, hp, rfl⟩ := mem_lineMessages.mp hd
    refine ⟨i, p.length, line, hi, ?_, p, hp, rfl⟩
    simp only [endSemicolon, Option.some.injEq, List.length_append, List.length_singleton,
      Nat.add_sub_cancel] at hline hcol
    rw [hcol, Int.add_comm, hline]
  · rintro ⟨i, _, line, hi, rfl, p, hp, rfl⟩
    refine ⟨endSemicolon filename (1 + i) (p ++ [';']), ?_, rfl, ?_, ?_⟩
    · exact mem_messages_scanFrom.mpr ⟨i, line, hi, mem_lineMessages.mpr ⟨p, hp, rfl⟩⟩
    · simp only [endSemicolon, Int.add_comm]
    · simp [endSemicolon]

/-- A semicolon at a place, with no token but line ends behind it on its line. -/
def Trails (tokens : List Token) (place : Position) : Prop :=
  ∃ t ∈ tokens, t.kind = .separator ∧ t.start = place ∧
    ∀ u ∈ tokens, u.start.line = place.line → place.Before u.start → u.kind = .newline

/-- The line of a place ends behind it with a token of its own, and not with a backslash. -/
def LineEnds (tokens : List Token) (place : Position) : Prop :=
  ∃ u ∈ tokens, u.kind = .newline ∧ u.start.line = place.line ∧ place.Before u.start

/-- A place between the quotes of a long literal. -/
def InLongString (tokens : List Token) (place : Position) : Prop :=
  ∃ t ∈ tokens, t.kind = .longString ∧ t.start.Before place ∧ place.Before t.stop

/-- A part of a long literal stands on a line. -/
def LongStringOn (tokens : List Token) (line : Int) : Prop :=
  ∃ t ∈ tokens, t.kind = .longString ∧ t.start.line ≤ line ∧ line ≤ t.stop.line

section Decidable

variable (tokens : List Token) (place : Position)

instance (p q : Position) : Decidable (p.Before q) := inferInstanceAs (Decidable (_ ∨ _))

instance (code filename : String) : Decidable (ReportedAt code filename place) :=
  inferInstanceAs (Decidable (∃ d ∈ _, _))

instance : Decidable (Trails tokens place) := inferInstanceAs (Decidable (∃ t ∈ tokens, _))

instance : Decidable (LineEnds tokens place) := inferInstanceAs (Decidable (∃ u ∈ tokens, _))

instance : Decidable (InLongString tokens place) := inferInstanceAs (Decidable (∃ t ∈ tokens, _))

instance (line : Int) : Decidable (LongStringOn tokens line) :=
  inferInstanceAs (Decidable (∃ t ∈ tokens, _))

end Decidable

theorem lastOnLine_iff {text : List Char} {tokens : List Token}
    (h : Lexer.Reads ⟨1, 0⟩ text tokens) (hordered : tokens.Pairwise Token.Precedes)
    (htext : text.getLast? = some '\n') (place : Position) :
    LastOnLine tokens place ↔ Trails tokens place ∧ LineEnds tokens place := by
  have hasymm : ∀ {p q : Position}, p.Before q → ¬ q.Before p := by
    intro p q hp hq
    unfold Position.Before at hp hq
    omega
  constructor
  · rintro ⟨first, t, u, rest, rfl, hkind, rfl, hu, hline⟩
    obtain ⟨_, hlater, hearlier⟩ := List.pairwise_append.mp hordered
    have hnext : t.Precedes u := List.rel_of_pairwise_cons hlater List.mem_cons_self
    refine ⟨⟨t, by simp, hkind, rfl, ?_⟩, u, by simp, hu, hline, hnext⟩
    intro x hx hsame hbehind
    rcases List.mem_append.mp hx with hx | hx
    · exact absurd hbehind (hasymm (hearlier x hx t List.mem_cons_self))
    rcases List.mem_cons.mp hx with rfl | hx
    · exact absurd hbehind (hasymm hbehind)
    rcases List.mem_cons.mp hx with rfl | hx
    · exact hu
    · have hsplit : first ++ t :: u :: rest = (first ++ [t]) ++ u :: rest := by simp
      have := (hsplit ▸ h).below_break htext hu hx
      omega
  · rintro ⟨⟨t, ht, hkind, rfl, hbehind⟩, x, hx, _, hline, hafter⟩
    obtain ⟨first, later, rfl⟩ := List.append_of_mem ht
    obtain ⟨_, hlater, hearlier⟩ := List.pairwise_append.mp hordered
    have hx : x ∈ later := by
      rcases List.mem_append.mp hx with hx | hx
      · exact absurd hafter (hasymm (hearlier x hx t List.mem_cons_self))
      rcases List.mem_cons.mp hx with rfl | hx
      · exact absurd hafter (hasymm hafter)
      · exact hx
    cases later with
    | nil => cases hx
    | cons u rest =>
      -- the next token stands between the semicolon and the line end
      have hnext : t.Precedes u := List.rel_of_pairwise_cons hlater List.mem_cons_self
      have hsame : u.start.line = t.start.line := by
        have hle : u.start.line ≤ x.start.line := by
          rcases List.mem_cons.mp hx with rfl | hx
          · exact Int.le_refl _
          · have := List.rel_of_pairwise_cons (List.pairwise_cons.mp hlater).2 hx
            unfold Token.Precedes Position.Before at this
            omega
        unfold Token.Precedes Position.Before at hnext
        omega
      exact ⟨first, t, u, rest, rfl, hkind, rfl, hbehind u (by simp) hsame hnext, hsame⟩

theorem endsAt_codePart_iff {text : List Char} {tokens : List Token}
    (h : Lexer.Reads ⟨1, 0⟩ text tokens) {pre line v : List Char}
    (htext : text = pre ++ (line ++ '\n' :: v)) (hline : '\n' ∉ line)
    (hpre : pre = [] ∨ pre.getLast? = some '\n')
    (hlong : ¬ LongStringOn tokens (pre.count '\n' + 1)) (k : Nat) :
    EndsAt (codePart line) k ↔ LastOnLine tokens ⟨pre.count '\n' + 1, k⟩ := by
  have hplace := Position.after_lines hpre
  have hshort : ∀ t ∈ tokens, t.kind = .longString →
      ¬ (t.start.line ≤ pre.count '\n' + 1 ∧ (pre.count '\n' + 1 : Int) ≤ t.stop.line) :=
    fun t ht hkind hon => hlong ⟨t, ht, hkind, hon⟩
  obtain ⟨earlier, later, blanks, rest, rfl, hearlier, rfl, hblanks, hlater⟩ :=
    h.from_line htext hline hpre (by
      intro t ht hkind hon
      rw [hplace] at hon
      exact hshort t ht hkind ⟨Int.le_of_lt hon.1, hon.2⟩)
  rw [hplace] at hearlier hlater
  have hplain : ∀ c ∈ blanks, isPlain c = true ∧ isBlank c = true := by
    intro c hc
    have := hblanks c hc
    simp only [isIndentation, Bool.or_eq_true, decide_eq_true_eq] at this
    rcases this with rfl | rfl <;> exact ⟨rfl, rfl⟩
  have hrest : '\n' ∉ rest := fun hmem => hline (List.mem_append_right _ hmem)
  have hfree : '\n' ∉ blanks := fun hmem => hline (List.mem_append_left _ hmem)
  have habove : ∀ t ∈ earlier, t.start.line < (⟨pre.count '\n' + 1, k⟩ : Position).line := hearlier
  rw [lastOnLine_append habove, codePart, codeFrom_plain fun c hc => (hplain c hc).1,
    endsAt_append_of_blank fun c hc => (hplain c hc).2]
  rcases hlater with hlater | ⟨hends, hbelow⟩
  · rw [Position.after_of_notMem hfree] at hlater
    have hnext := endsAt_iff_lastOnLine hlater rfl hrest (by
      intro t ht hsame hkind
      have hstop : t.start.line ≤ t.stop.line := by
        obtain ⟨first, others, rfl⟩ := List.append_of_mem ht
        obtain ⟨_, word, _, _, _, _, _, _, hstop, _⟩ := hlater.at_token
        rw [hstop]
        exact t.start.line_le_after word
      dsimp only at hsame
      exact hshort t (List.mem_append_right _ ht) hkind ⟨by omega, by omega⟩)
    have hshift := @lastOnLine_shift ⟨pre.count '\n' + 1, 0⟩ blanks.length _ _ hlater k
    rw [Int.zero_add] at hshift
    rw [hshift]
    simp only [hnext]
  · refine iff_of_false ?_ (not_lastOnLine hbelow)
    rintro ⟨j, _, hat⟩
    exact not_endsAt_of_blank (trimEnd_codeFrom_endsLine hends) j hat

/-! ## Lines without a number sign -/

/-- A semicolon in a run of line ends and comments is part of a comment. -/
theorem not_break_of_semicolon {pre left first part rest : List Char} {n : Nat}
    (hpre : pre = [] ∨ pre.getLast? = some '\n') (hfree : '\n' ∉ left) (hmark : '#' ∉ left)
    (hsplit : pre ++ left = first ++ part) (hn : part.length < n) :
    lexeme (part ++ ';' :: rest) ≠ some (.token .newline, n) := by
  intro hlexeme
  have hlength := (breakLength_of_lexeme hlexeme).1
  rcases List.append_eq_append_iff.mp hsplit with ⟨more, _, rfl⟩ | ⟨more, rfl, rfl⟩
  · have hle : breakLength none (part ++ ';' :: rest) ≤ part.length :=
      breakLength_semicolon (by decide) (fun hmem => hfree (List.mem_append_right more hmem))
        (fun hmem => hmark (List.mem_append_right more hmem)) rest
    omega
  · rcases List.eq_nil_or_concat more with rfl | ⟨above, c, rfl⟩
    · have hle : breakLength none (left ++ ';' :: rest) ≤ left.length :=
        breakLength_semicolon (by decide) hfree hmark rest
      rw [List.nil_append] at hlength hn
      omega
    · -- the run comes in over the line feed before the line, and stops on the line
      rw [List.concat_eq_append, ← List.append_assoc] at hpre
      have hc : c = '\n' := by simpa using hpre
      have hle : breakLength (some false) (left ++ ';' :: rest) ≤ left.length :=
        breakLength_semicolon (by decide) hfree hmark rest
      have hwhole : above.concat c ++ left ++ ';' :: rest =
          above ++ '\n' :: (left ++ ';' :: rest) := by simp [hc]
      rw [hwhole] at hlength
      simp only [List.length_append, List.length_concat] at hn
      rcases breakLength_line none above with ⟨m, hm, heq⟩ | heq
      · rw [heq] at hlength
        omega
      · rw [heq] at hlength
        omega

theorem semicolon_notMem_skipped {word after : List Char}
    (h : lexeme (word ++ after) = some (.skipped, word.length)) : ';' ∉ word := by
  intro hmem
  rcases Lexer.skipped_cases h with ⟨blanks, rfl, hblanks⟩ | hgap
  · have hblank : ';' ∈ blanks := by simpa using hmem
    exact absurd (hblanks _ hblank) (by decide)
  · exact absurd (hgap _ hmem) (by decide)

/-- A token on a line with a semicolon in it, and only blanks behind that, is the semicolon. -/
theorem token_of_semicolon {kind : Kind} {part right after gap v : List Char}
    (h : lexeme (part ++ ';' :: right ++ after) =
      some (.token kind, (part ++ ';' :: right).length)) (hlong : kind ≠ .longString)
    (hbreak : kind ≠ .newline) (hrest : gap ++ '\n' :: v = right ++ after)
    (hblank : ∀ c ∈ gap, isBlank c = true) : kind = .separator ∧ part = [] ∧ right = [] := by
  obtain ⟨hfeed, _, ⟨hkind, hword⟩ | ⟨_, first, c, hword, hsolid, hother⟩⟩ :=
    token_cases h hlong hbreak
  · have hlength := congrArg List.length hword
    simp only [List.length_append, List.length_cons, List.length_nil] at hlength
    exact ⟨hkind, List.eq_nil_of_length_eq_zero (by omega),
      List.eq_nil_of_length_eq_zero (by omega)⟩
  · -- its last character is no blank, and no semicolon either
    exfalso
    rcases List.eq_nil_or_concat right with rfl | ⟨inner, d, rfl⟩
    · have hsame := List.append_inj' hword rfl
      exact hother (List.cons.inj hsame.2).1.symm
    · rw [List.concat_eq_append] at hrest hword hfeed
      have hd : d = c := by
        have hsame : (part ++ ';' :: inner) ++ [d] = first ++ [c] := by simpa using hword
        exact (List.cons.inj (List.append_inj' hsame rfl).2).1
      have hinner : '\n' ∉ inner ++ [d] := fun hmem =>
        hfeed (List.mem_append_right _ (List.mem_cons_of_mem _ hmem))
      obtain ⟨_, hgap, _⟩ := Lexer.split_of_notMem hrest.symm hinner
      have hlast := hblank d (by rw [hgap]; simp)
      rw [hd, hsolid] at hlast
      cases hlast

section Unmarked

variable {text : List Char} {tokens : List Token} (h : Lexer.Reads ⟨1, 0⟩ text tokens)
  {pre line v : List Char} (htext : text = pre ++ (line ++ '\n' :: v)) (hline : '\n' ∉ line)
  (hpre : pre = [] ∨ pre.getLast? = some '\n') (hmark : '#' ∉ line)
include h htext hline hpre hmark

/-- The semicolon of a token is reported. -/
theorem endsAt_of_lastOnLine {k : Nat} (hlast : LastOnLine tokens ⟨pre.count '\n' + 1, k⟩) :
    EndsAt (codePart line) k := by
  obtain ⟨first, t, u, rest, rfl, hkind, hstart, hu, hsame⟩ := hlast
  obtain ⟨before, word, after, hsplit, _, hlexeme, _, hplace, hstop, hreads⟩ := h.at_token
  rw [hkind] at hlexeme
  obtain ⟨_, _, hword⟩ := token_cases hlexeme (by decide) (by decide)
  obtain rfl : word = [';'] := by
    rcases hword with ⟨_, hword⟩ | ⟨hother, _⟩
    · exact hword
    · exact absurd rfl hother
  have hcount : before.count '\n' = pre.count '\n' := by
    have := congrArg Position.line (hplace.symm.trans hstart)
    rw [Position.line_after] at this
    dsimp only at this
    omega
  obtain ⟨left, right, rfl, rfl, hright, hfree⟩ := split_on_line (htext ▸ hsplit) hpre hcount
  cases right with
  | nil => cases hright
  | cons c right =>
    cases hright
    have hbreak : '\n' ∉ right := fun hmem =>
      hline (List.mem_append_right _ (List.mem_cons_of_mem _ hmem))
    have hcolumn : left.length = k := by
      rw [Position.after_append, Position.after_lines hpre,
        Position.after_of_notMem hfree] at hplace
      have := congrArg Position.col (hplace.symm.trans hstart)
      dsimp only at this
      omega
    have hblank : trimEnd right = [] := by
      have hnext := (blank_iff_break hreads rfl hbreak).mpr ⟨u, rest, rfl, hu, by
        rw [hsame, hstop, hstart]
        rfl⟩
      rwa [codeFrom_of_notMem none false
        fun hmem => hmark (List.mem_append_right _ (List.mem_cons_of_mem _ hmem))] at hnext
    have hcode : left ++ ';' :: right = (left ++ [';']) ++ right := by simp
    refine ⟨left, ?_, hcolumn⟩
    rw [codePart, codeFrom_of_notMem none false hmark, hcode,
      trimEnd_append_of_blank _ (trimEnd_eq_nil_iff.mp hblank)]
    exact trimEnd_append_of_solid left (by simp) (by simp [show isBlank ';' = false from rfl])

/-- A report is about the semicolon of a token, or about one inside a long literal. -/
theorem lastOnLine_or_inLongString {k : Nat} (hends : EndsAt (codePart line) k) :
    LastOnLine tokens ⟨pre.count '\n' + 1, k⟩ ∨ InLongString tokens ⟨pre.count '\n' + 1, k⟩ := by
  obtain ⟨left, hcode, rfl⟩ := hends
  rw [codePart, codeFrom_of_notMem none false hmark] at hcode
  obtain ⟨gap, hgap, hblank⟩ := exists_trimEnd line
  rw [hcode, List.append_assoc, List.singleton_append] at hgap
  have hfree : '\n' ∉ left := fun hmem => hline (hgap ▸ List.mem_append_left _ hmem)
  have hbreak : '\n' ∉ gap := fun hmem =>
    hline (hgap ▸ List.mem_append_right _ (List.mem_cons_of_mem _ hmem))
  have hplace : (⟨1, 0⟩ : Position).after (pre ++ left) = ⟨pre.count '\n' + 1, left.length⟩ := by
    rw [Position.after_append, Position.after_lines hpre, Position.after_of_notMem hfree,
      Int.zero_add]
  have hchar : text = (pre ++ left) ++ ';' :: (gap ++ '\n' :: v) := by
    rw [htext, hgap]
    simp
  obtain ⟨first, part, right, after, cls, earlier, later, hsplit, hrest, hlexeme, htokens,
    hlater⟩ := h.at_char hchar
  cases cls with
  | skipped =>
    exact absurd (by simp) (semicolon_notMem_skipped hlexeme)
  | token kind =>
    by_cases hkind : kind = .newline
    · subst hkind
      rw [List.append_assoc] at hlexeme
      refine absurd hlexeme (not_break_of_semicolon hpre hfree ?_ hsplit (by simp))
      exact fun hmem => hmark (hgap ▸ List.mem_append_left _ hmem)
    rw [hsplit, Position.after_append] at hplace
    generalize (⟨1, 0⟩ : Position).after first = start at hplace htokens hlater
    have hown : tokens = earlier ++ ⟨kind, String.ofList (part ++ ';' :: right), start,
        start.after (part ++ ';' :: right)⟩ :: later := by
      rw [htokens]
      simp [Lexer.Piece.token?]
    by_cases hlong : kind = .longString
    · right
      subst hlong
      refine ⟨_, hown ▸ List.mem_append_right _ List.mem_cons_self, rfl, ?_, ?_⟩
      · rw [← hplace]
        refine start.before_after ?_
        rintro rfl
        exact absurd (head_of_longString hlexeme) (by decide)
      · rw [Position.after_append, hplace]
        exact Position.before_after _ (List.cons_ne_nil _ _)
    · left
      -- only blanks follow the semicolon, so the next token is the line end
      obtain ⟨rfl, rfl, rfl⟩ := token_of_semicolon hlexeme hlong hkind hrest hblank
      have hnext : trimEnd (codeFrom none false gap) = [] :=
        trimEnd_eq_nil_iff.mpr fun c hc => hblank c ((codeFrom_isPrefix none false gap).subset hc)
      obtain ⟨u, others, rfl, hu, hsame⟩ := (blank_iff_break hlater hrest.symm hbreak).mp hnext
      refine ⟨earlier, _, u, others, hown, rfl, hplace, hu, ?_⟩
      rw [hsame, ← hplace]
      rfl

end Unmarked

/-! ## Reports and tokens -/

/-- A semicolon token stands on a line of the source. -/
theorem line_of_semicolon {text : List Char} {t : Token}
    (h : t ∈ (Lexer.lex (endLine text)).tokens) (hkind : t.kind = .separator) :
    ∃ (i : Nat) (left right : List Char), (splitAt '\n' text)[i]? = some (left ++ ';' :: right) ∧
      t.start = ⟨i + 1, left.length⟩ := by
  obtain ⟨before, tail, n, htext, hlexeme, _, hstart, _⟩ := readFrom_of_mem_scan h
  rw [hkind] at hlexeme
  obtain ⟨rest, rfl⟩ : ∃ rest, tail = ';' :: rest := by
    cases shape_lexeme hlexeme with
    | word hkind => cases hkind
    | separator h => exact ⟨_, h⟩
  have hfree : '\n' ∉ [';'] := by decide
  obtain ⟨rest, htext⟩ := split_of_endLine (List.cons_ne_nil ';' []) hfree htext
  obtain ⟨i, left, right, hline, hafter⟩ := line_of_word hfree before rest ⟨1, 0⟩
  refine ⟨i, left, right, ?_, ?_⟩
  · rw [htext, hline, List.append_assoc, List.singleton_append]
  · rw [hstart, hafter]
    simp only [ite_self, Int.zero_add]
    congr 1
    omega

theorem ne_nil_of_endsAt {line : List Char} {k : Nat} (h : EndsAt (codePart line) k) :
    line ≠ [] := by
  rintro rfl
  exact not_endsAt_of_blank rfl k h

/-- Where no long literal stands on the line, what is reported is exactly a semicolon token with
nothing but a line end behind it on its line. On any line without a number sign, such a semicolon is
reported, and a report is about one or about a semicolon inside a long literal. -/
theorem trailing_semicolons_reported {code : String} {root : Node} (hparse : parse code = .ok root)
    (filename : String) (place : Position) :
    let tokens := (Lexer.lex (endLine code.toList)).tokens
    (¬ LongStringOn tokens place.line →
      (ReportedAt code filename place ↔ Trails tokens place ∧ LineEnds tokens place)) ∧
    ∀ (i : Nat) (line : List Char), (linesOf code)[i]? = some line → place.line = i + 1 →
      '#' ∉ line →
      (Trails tokens place ∧ LineEnds tokens place → ReportedAt code filename place) ∧
      (ReportedAt code filename place →
        (Trails tokens place ∧ LineEnds tokens place) ∨ InLongString tokens place) := by
  intro tokens
  have hreads : Lexer.Reads ⟨1, 0⟩ (endLine code.toList) tokens :=
    Lexer.reads_scan (Layout.fault_of_layoutFrom (fault_of_parse hparse))
  have hended : (endLine code.toList).getLast? = some '\n' := by
    unfold endLine
    split
    · assumption
    · exact List.getLast?_concat
  have hlast := lastOnLine_iff hreads (Lexer.pairwise_scan _ _ _) hended
  have hsemicolon : ∀ {place}, LastOnLine tokens place → ∃ (i : Nat) (left right : List Char),
      (linesOf code)[i]? = some (left ++ ';' :: right) ∧ place = ⟨i + 1, left.length⟩ := by
    rintro place ⟨first, t, u, rest, htokens, hkind, rfl, _⟩
    exact line_of_semicolon (htokens ▸ (by simp) : t ∈ tokens) hkind
  rw [← hlast place]
  refine ⟨?_, ?_⟩
  · intro hlong
    constructor
    · intro hreported
      obtain ⟨i, k, line, hi, rfl, hends⟩ := reportedAt_iff.mp hreported
      obtain ⟨pre, v, htext, hpre, rfl, hline⟩ := split_at_line hi (ne_nil_of_endsAt hends)
      exact (endsAt_codePart_iff hreads htext hline hpre hlong k).mp hends
    · intro hlastOn
      obtain ⟨i, left, right, hi, rfl⟩ := hsemicolon hlastOn
      obtain ⟨pre, v, htext, hpre, rfl, hline⟩ := split_at_line hi (by simp)
      exact reportedAt_iff.mpr ⟨_, _, _, hi, rfl,
        (endsAt_codePart_iff hreads htext hline hpre hlong left.length).mpr hlastOn⟩
  · intro i line hi hplace hmark
    refine ⟨?_, ?_⟩
    · intro hlastOn
      obtain ⟨j, left, right, hj, rfl⟩ := hsemicolon hlastOn
      obtain rfl : j = i := by
        dsimp only at hplace
        omega
      rw [hi] at hj
      cases hj
      obtain ⟨pre, v, htext, hpre, rfl, hline⟩ := split_at_line hi (by simp)
      exact reportedAt_iff.mpr ⟨_, _, _, hi, rfl,
        endsAt_of_lastOnLine hreads htext hline hpre hmark hlastOn⟩
    · intro hreported
      obtain ⟨j, k, line', hj, rfl, hends⟩ := reportedAt_iff.mp hreported
      obtain rfl : j = i := by
        dsimp only at hplace
        omega
      rw [hi] at hj
      cases hj
      obtain ⟨pre, v, htext, hpre, rfl, hline⟩ := split_at_line hi (ne_nil_of_endsAt hends)
      exact lastOnLine_or_inLongString hreads htext hline hpre hmark hends

/-- A long literal over two lines with a semicolon at the end of each, and a string and a comment
with semicolons and number signs. -/
def quotedSemicolons : String := "s = \"\"\"a;\nb\"\"\";\nx = ';#'; # c;\n"

theorem reports_of_quotedSemicolons :
    ∃ root, parse quotedSemicolons = .ok root ∧
      ¬ LongStringOn (Lexer.lex (endLine quotedSemicolons.toList)).tokens 3 ∧
      ReportedAt quotedSemicolons "m" ⟨3, 8⟩ ∧
      (Trails (Lexer.lex (endLine quotedSemicolons.toList)).tokens ⟨3, 8⟩ ∧
        LineEnds (Lexer.lex (endLine quotedSemicolons.toList)).tokens ⟨3, 8⟩) ∧
      ReportedAt quotedSemicolons "m" ⟨2, 4⟩ := by
  have hparsed : (parse quotedSemicolons).toOption.map (fun _ => ()) = some () := by decide +kernel
  obtain ⟨root, hparse, _⟩ := parsed_of_map hparsed
  have hshort : ¬ LongStringOn (Lexer.lex (endLine quotedSemicolons.toList)).tokens 3 := by
    decide +kernel
  have hreported : ReportedAt quotedSemicolons "m" ⟨3, 8⟩ := by decide +kernel
  have htrails : Trails (Lexer.lex (endLine quotedSemicolons.toList)).tokens ⟨2, 4⟩ ∧
      LineEnds (Lexer.lex (endLine quotedSemicolons.toList)).tokens ⟨2, 4⟩ := by decide +kernel
  have hline : (linesOf quotedSemicolons)[1]? = some "b\"\"\";".toList := by decide +kernel
  have hthird := (trailing_semicolons_reported hparse "m" ⟨3, 8⟩).1 hshort
  have hsecond := ((trailing_semicolons_reported hparse "m" ⟨2, 4⟩).2 1 _ hline rfl (by decide)).1
  exact ⟨root, hparse, hshort, hreported, hthird.mp hreported, hsecond htrails⟩

/-- A semicolon before a joined line ends its line for the lexer only, and one that a long literal
puts at the end of a line ends it for the scan only. -/
theorem reports_of_join_and_literal :
    (parse "x = 1; \\\ny = 2\n").isOk = true ∧
    Trails (Lexer.lex (endLine "x = 1; \\\ny = 2\n".toList)).tokens ⟨1, 5⟩ ∧
    ¬ ReportedAt "x = 1; \\\ny = 2\n" "m" ⟨1, 5⟩ ∧
    (parse "x = \"\"\"a;\nb\"\"\"\n").isOk = true ∧
    ¬ Trails (Lexer.lex (endLine "x = \"\"\"a;\nb\"\"\"\n".toList)).tokens ⟨1, 8⟩ ∧
    ReportedAt "x = \"\"\"a;\nb\"\"\"\n" "m" ⟨1, 8⟩ := by
  refine ⟨?_, ?_, ?_, ?_, ?_, ?_⟩ <;> decide +kernel

end LineScan
end ScopeLint
