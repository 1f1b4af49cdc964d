import ScopeLint.Proofs.LineTokens
import ScopeLint.Proofs.Suppression

/-! # The semicolon that ends the code of a line

The code of a line ends with a semicolon that is a token of its own if the next token
is a line end on the line. This holds from any place between two lexemes on, as long
as no long literal begins on the rest of the line. -/
namespace ScopeLint

namespace Text

theorem trimEnd_append (s t : List Char) :
    trimEnd (s ++ t) = if trimEnd t = [] then trimEnd s else s ++ trimEnd t := by
  simp only [trimEnd, List.reverse_append, List.dropWhile_append, List.reverse_eq_nil_iff]
  by_cases ht : t.reverse.dropWhile isBlank = []
  · simp [ht]
  · simp [ht]

theorem trimEnd_eq_nil_iff {s : List Char} : trimEnd s = [] ↔ ∀ c ∈ s, isBlank c = true := by
  constructor
  · intro h
    obtain ⟨gap, hs, hgap⟩ := exists_trimEnd s
    rw [hs, h]
    exact hgap
  · intro h
    exact trimEnd_append_of_blank [] h

end Text

namespace LineScan

open Lexeme Text

/-! ## Code that ends with a semicolon -/

/-- Behind `k` characters, a semicolon and only blanks are left. -/
def EndsAt (code : List Char) (k : Nat) : Prop := ∃ p, trimEnd code = p ++ [';'] ∧ p.length = k

theorem endsAt_append {text : List Char} (h : (trimEnd text).getLast? ≠ some ';')
    (code : List Char) (k : Nat) :
    EndsAt (text ++ code) k ↔ ∃ j, k = text.length + j ∧ EndsAt code j := by
  unfold EndsAt
  rw [trimEnd_append]
  split
  · next hnil =>
    constructor
    · rintro ⟨p, hp, _⟩
      exact absurd (by rw [hp, List.getLast?_concat]) h
    · rintro ⟨_, _, p, hp, _⟩
      rw [hnil] at hp
      simp at hp
  · next hne =>
    constructor
    · rintro ⟨p, hp, rfl⟩
      obtain ⟨first, c, hlast⟩ := (List.eq_nil_or_concat (trimEnd code)).resolve_left hne
      rw [List.concat_eq_append] at hlast
      rw [hlast, ← List.append_assoc] at hp
      obtain ⟨rfl, hc⟩ := List.append_inj' hp rfl
      exact ⟨first.length, List.length_append, first, by rw [hlast, hc], rfl⟩
    · rintro ⟨_, rfl, p, hp, rfl⟩
      exact ⟨text ++ p, by rw [hp, List.append_assoc], List.length_append⟩

theorem endsAt_append_of_blank {text : List Char} (h : ∀ c ∈ text, isBlank c = true)
    (code : List Char) (k : Nat) :
    EndsAt (text ++ code) k ↔ ∃ j, k = text.length + j ∧ EndsAt code j := by
  refine endsAt_append ?_ code k
  rw [trimEnd_eq_nil_iff.mpr h]
  exact (Option.some_ne_none _).symm

theorem not_endsAt_of_blank {code : List Char} (h : trimEnd code = []) (k : Nat) :
    ¬ EndsAt code k := by
  rintro ⟨p, hp, _⟩
  rw [h] at hp
  simp at hp

theorem endsAt_semicolon (code : List Char) (k : Nat) :
    EndsAt (';' :: code) k ↔ (k = 0 ∧ trimEnd code = []) ∨ ∃ j, k = 1 + j ∧ EndsAt code j := by
  by_cases hnil : trimEnd code = []
  · have hcode : trimEnd (';' :: code) = [';'] := by
      rw [← List.singleton_append, trimEnd_append, if_pos hnil]
      rfl
    simp only [hnil, not_endsAt_of_blank hnil, and_true, and_false, exists_false, or_false]
    unfold EndsAt
    rw [hcode]
    constructor
    · rintro ⟨p, hp, rfl⟩
      have := congrArg List.length hp
      simpa using this
    · rintro rfl
      exact ⟨[], rfl, rfl⟩
  · unfold EndsAt
    rw [← List.singleton_append, trimEnd_append, if_neg hnil]
    simp only [hnil, and_false, false_or]
    constructor
    · rintro ⟨p, hp, rfl⟩
      cases p with
      | nil =>
        have := (List.cons.inj hp).2
        exact absurd this hnil
      | cons c p => exact ⟨p.length, by rw [List.length_cons]; omega, p, (List.cons.inj hp).2, rfl⟩
    · rintro ⟨_, rfl, p, hp, rfl⟩
      exact ⟨';' :: p, by rw [hp]; rfl, by rw [List.length_cons]; omega⟩

/-- A character is code, whatever comes behind it, or begins the comment. -/
theorem codeFrom_cons (quote : Option Char) (escaped : Bool) (c : Char) :
    (∃ quote' escaped', ∀ rest,
      codeFrom quote escaped (c :: rest) = c :: codeFrom quote' escaped' rest) ∨
      quote = none ∧ c = '#' := by
  cases quote with
  | some q =>
    left
    by_cases hescaped : escaped = true
    · exact ⟨some q, false, fun rest => by simp [codeFrom, hescaped]⟩
    by_cases hslash : c = '\\'
    · exact ⟨some q, true, fun rest => by simp [codeFrom, hescaped, hslash]⟩
    by_cases hquote : c = q
    · subst hquote
      exact ⟨none, false, fun rest => by simp [codeFrom, hescaped, hslash]⟩
    · exact ⟨some q, false, fun rest => by simp [codeFrom, hescaped, hslash, hquote]⟩
  | none =>
    by_cases hquote : c = '\'' ∨ c = '"'
    · exact .inl ⟨some c, false, fun rest => by simp [codeFrom, hquote]⟩
    by_cases hmark : c = '#'
    · exact .inr ⟨rfl, hmark⟩
    · exact .inl ⟨none, false, fun rest => by simp [codeFrom, hquote, hmark]⟩

theorem codeFrom_isPrefix (quote : Option Char) (escaped : Bool) (line : List Char) :
    codeFrom quote escaped line <+: line := by
  induction line generalizing quote escaped with
  | nil => exact List.nil_prefix
  | cons c line ih =>
    rcases codeFrom_cons quote escaped c with ⟨quote', escaped', hstep⟩ | ⟨rfl, rfl⟩
    · rw [hstep]
      exact List.cons_prefix_cons.mpr ⟨rfl, ih quote' escaped'⟩
    · exact List.nil_prefix

/-- A line without a number sign is code. -/
theorem codeFrom_of_notMem (quote : Option Char) (escaped : Bool) {line : List Char}
    (h : '#' ∉ line) : codeFrom quote escaped line = line := by
  induction line generalizing quote escaped with
  | nil => rfl
  | cons c line ih =>
    obtain ⟨hc, hrest⟩ := List.ne_and_not_mem_of_not_mem_cons h
    rcases codeFrom_cons quote escaped c with ⟨quote', escaped', hstep⟩ | ⟨_, rfl⟩
    · rw [hstep, ih quote' escaped' hrest]
    · exact absurd rfl hc

/-- Blanks at the end of a line do not change where its code ends. -/
theorem trimEnd_codeFrom_gap (quote : Option Char) (escaped : Bool) (line : List Char)
    {gap : List Char} (hgap : ∀ c ∈ gap, isBlank c = true) :
    trimEnd (codeFrom quote escaped (line ++ gap)) = trimEnd (codeFrom quote escaped line) := by
  induction line generalizing quote escaped with
  | nil =>
    refine trimEnd_eq_nil_iff.mpr ?_
    intro c hc
    exact hgap c ((codeFrom_isPrefix quote escaped gap).subset hc)
  | cons c line ih =>
    rcases codeFrom_cons quote escaped c with ⟨quote', escaped', hstep⟩ | ⟨rfl, rfl⟩
    · rw [List.cons_append, hstep, hstep]
      exact trimEnd_cons_congr c (ih quote' escaped')
    · rfl

/-- What a line reports: the semicolon that ends its code. -/
theorem mem_lineMessages {filename : String} {number : Int} {line : List Char} {d : Diagnostic} :
    d ∈ lineMessages filename number line ↔ ∃ p, trimEnd (codePart line) = p ++ [';'] ∧
      d = endSemicolon filename number (p ++ [';']) := by
  have hcode : trimEnd (codePart (trimEnd line)) = trimEnd (codePart line) := by
    obtain ⟨gap, hline, hgap⟩ := exists_trimEnd line
    conv_rhs => rw [hline]
    exact (trimEnd_codeFrom_gap none false (trimEnd line) hgap).symm
  unfold lineMessages
  rw [hcode]
  dsimp only
  split
  · next hlast =>
    obtain ⟨p, hp⟩ := List.getLast?_eq_some_iff.mp hlast
    simp only [hp, List.mem_singleton, List.append_left_inj, exists_eq_left']
  · next hlast =>
    refine iff_of_false List.not_mem_nil ?_
    rintro ⟨p, hp, _⟩
    exact absurd (by rw [hp, List.getLast?_concat]) hlast

/-! ## The last semicolon among the tokens -/

/-- A token that is neither a long literal nor a line end: it stays on the line, all of it is code,
and it is a semicolon or ends with something else that is no blank. -/
theorem token_cases {word after : List Char} {kind : Kind}
    (h : lexeme (word ++ after) = some (.token kind, word.length)) (hlong : kind ≠ .longString)
    (hbreak : kind ≠ .newline) :
    '\n' ∉ word ∧
      (∀ tail, codeFrom none false (word ++ tail) = word ++ codeFrom none false tail) ∧
      (kind = .separator ∧ word = [';'] ∨ kind ≠ .separator ∧
        ∃ first c, word = first ++ [c] ∧ isBlank c = false ∧ c ≠ ';') := by
  have hcode := codeFrom_shape (shape_lexeme h) (by simpa using hlong) (by simpa using hbreak)
  have hword : (word ++ after).take word.length = word := List.take_left' rfl
  have hshape := shape_lexeme h
  rw [hword] at hcode
  clear h
  generalize word ++ after = s at hshape hword
  generalize word.length = n at hshape hword
  subst hword
  refine ⟨?_, hcode, ?_⟩
  · cases hshape with
    | string h => exact newline_notMem_string h
    | longString => exact absurd rfl hlong
    | word _ _ h => exact fun hmem => absurd (h.2 _ hmem) (by decide)
    | separator h => simp [h]
    | lineBreak => exact absurd rfl hbreak
  · cases hshape with
    | string h =>
      right
      obtain ⟨first, quote, htake, hquote, _⟩ := last_of_stringAt h
      refine ⟨by decide, first, quote, htake, ?_⟩
      simp only [isQuote, Bool.or_eq_true, decide_eq_true_eq] at hquote
      rcases hquote with rfl | rfl <;> decide
    | longString => exact absurd rfl hlong
    | word hkind hn h =>
      right
      refine ⟨(by rintro rfl; cases hkind), ?_⟩
      have hne : s.take n ≠ [] := by
        rw [ne_eq, List.take_eq_nil_iff, not_or]
        refine ⟨Nat.ne_of_gt hn, ?_⟩
        rintro rfl
        exact absurd h.1 (Nat.not_le_of_lt hn)
      obtain ⟨first, c, htake⟩ := (List.eq_nil_or_concat (s.take n)).resolve_left hne
      rw [List.concat_eq_append] at htake
      have hink := h.2 c (by rw [htake]; exact List.mem_append_right _ List.mem_cons_self)
      simp only [isInk, Bool.and_eq_true, Bool.not_eq_true', bne_iff_ne] at hink
      exact ⟨first, c, htake, hink.1.1.1, hink.2⟩
    | separator h =>
      rw [h]
      exact .inl ⟨rfl, rfl⟩
    | lineBreak => exact absurd rfl hbreak

/-- Code that begins with such a token ends with a semicolon behind it, or with the token itself. -/
theorem endsAt_token {kind : Kind} {word : List Char}
    (hword : kind = .separator ∧ word = [';'] ∨ kind ≠ .separator ∧
      ∃ first c, word = first ++ [c] ∧ isBlank c = false ∧ c ≠ ';') (code : List Char) (k : Nat) :
    EndsAt (word ++ code) k ↔ (kind = .separator ∧ k = 0 ∧ trimEnd code = []) ∨
      ∃ j, k = word.length + j ∧ EndsAt code j := by
  rcases hword with ⟨rfl, rfl⟩ | ⟨hother, first, c, rfl, hsolid, hc⟩
  · rw [List.singleton_append, endsAt_semicolon]
    simp
  · have hends : (trimEnd (first ++ [c])).getLast? ≠ some ';' := by
      rw [trimEnd_append_of_solid first (by simp) (by simpa using hsolid), List.getLast?_concat]
      simpa using hc
    rw [endsAt_append hends]
    exact (or_iff_right fun h => hother h.1).symm

theorem isBlank_of_isGap {c : Char} (h : isGap c = true) : isBlank c = true := by
  simp only [isGap, Bool.or_eq_true, decide_eq_true_eq] at h
  rcases h with (rfl | rfl) | rfl <;> rfl

/-- There is no code in what a line end takes. -/
theorem trimEnd_codeFrom_endsLine {w : List Char} (h : EndsLine w) :
    trimEnd (codeFrom none false w) = [] := by
  rcases h with rfl | rfl | hhead
  · rfl
  · rfl
  · obtain ⟨text, rfl⟩ : ∃ text, w = '#' :: text := ⟨w.tail, List.eq_cons_of_mem_head? hhead⟩
    rfl

/-- A long literal begins with a letter or a quote. -/
theorem head_of_longString {c : Char} {rest : List Char} {n : Nat}
    (h : lexeme (c :: rest) = some (.token .longString, n)) :
    isStringMark c = true ∨ isQuote c = true := by
  have hstring : stringAt (c :: rest) = some (n, .longString) := by
    cases shape_lexeme h with
    | longString h => exact h
    | word hkind => cases hkind
  by_contra hnone
  rw [not_or, Bool.not_eq_true, Bool.not_eq_true] at hnone
  rw [stringAt, hnone.1, if_neg Bool.false_ne_true, quotedAt_eq_none hnone.2] at hstring
  cases hstring

theorem trimEnd_ne_nil_of_long {w v : List Char} {n : Nat}
    (h : lexeme (w ++ '\n' :: v) = some (.token .longString, n)) :
    trimEnd (codeFrom none false w) ≠ [] := by
  intro hnil
  cases w with
  | nil => exact absurd (head_of_longString h) (by decide)
  | cons c w =>
    have hsolid : isBlank c = false ∧ c ≠ '#' := by
      have hc := head_of_longString h
      simp only [isStringMark, isQuote, Bool.or_eq_true, decide_eq_true_eq, or_assoc] at hc
      rcases hc with rfl | rfl | rfl | rfl | rfl | rfl | rfl | rfl <;> decide
    rcases codeFrom_cons none false c with ⟨quote', escaped', hstep⟩ | ⟨_, hc⟩
    · rw [hstep] at hnil
      have hblank := trimEnd_eq_nil_iff.mp hnil c List.mem_cons_self
      rw [hsolid.1] at hblank
      cases hblank
    · exact hsolid.2 hc

section Join

variable {here : Position} {blanks after w v : List Char}
  (hblanks : ∀ c ∈ blanks, isGap c = true ∨ c = '\r')
include hblanks

/-- The code of a line that is joined to the next ends with the backslash. -/
theorem code_of_join (hw : '\n' ∉ w)
    (hs : '\\' :: (blanks ++ ['\n']) ++ after = w ++ '\n' :: v) :
    trimEnd (codeFrom none false w) = ['\\'] := by
  have hfree : '\n' ∉ '\\' :: blanks := by
    intro hmem
    rcases List.mem_cons.mp hmem with heq | hmem
    · exact absurd heq (by decide)
    · exact absurd (hblanks _ hmem) (by decide)
  have hword : ('\\' :: blanks) ++ '\n' :: after = w ++ '\n' :: v := by simpa using hs
  obtain ⟨w', rfl, hafter⟩ := Lexer.split_of_notMem hword hfree
  have hnil : w' = [] := by
    cases w' with
    | nil => rfl
    | cons c w' =>
      cases hafter
      exact absurd (List.mem_append_right _ List.mem_cons_self) hw
  have hplain : ∀ c ∈ '\\' :: blanks, isPlain c = true := by
    intro c hc
    rcases List.mem_cons.mp hc with rfl | hc
    · rfl
    · rcases hblanks c hc with hgap | rfl
      · exact isPlain_of_isGap hgap
      · rfl
  rw [hnil, codeFrom_plain hplain, codeFrom, List.append_nil]
  refine trimEnd_append_of_blank ['\\'] ?_
  intro c hc
  rcases hblanks c hc with hgap | rfl
  · exact isBlank_of_isGap hgap
  · rfl

end Join

/-- The code of the rest of a line is blank if the next token is a line end on the line. -/
theorem blank_iff_break {here : Position} {s : List Char} {tokens : List Token}
    (h : Lexer.Reads here s tokens) {w v : List Char} (hs : s = w ++ '\n' :: v) (hw : '\n' ∉ w) :
    trimEnd (codeFrom none false w) = [] ↔
      ∃ u rest, tokens = u :: rest ∧ u.kind = .newline ∧ u.start.line = here.line := by
  induction h generalizing w with
  | done => simp at hs
  | @token here word after kind tokens hlexeme hne hrest ih =>
    by_cases hkind : kind = .newline
    · subst hkind
      have hends : EndsLine w := endsLine_of_lexeme hw (hs ▸ hlexeme)
      exact iff_of_true (trimEnd_codeFrom_endsLine hends) ⟨_, tokens, rfl, rfl, rfl⟩
    · refine iff_of_false ?_ ?_
      · by_cases hlong : kind = .longString
        · subst hlong
          exact trimEnd_ne_nil_of_long (hs ▸ hlexeme)
        · obtain ⟨hfree, hcode, hlast⟩ := token_cases hlexeme hlong hkind
          obtain ⟨w', rfl, _⟩ := Lexer.split_of_notMem hs hfree
          have hsolid : ∃ c ∈ word, isBlank c = false := by
            rcases hlast with ⟨_, rfl⟩ | ⟨_, first, c, rfl, hc, _⟩
            · exact ⟨';', by simp, rfl⟩
            · exact ⟨c, by simp, hc⟩
          obtain ⟨c, hc, hsolid⟩ := hsolid
          rw [hcode]
          intro hnil
          have hblank := trimEnd_eq_nil_iff.mp hnil c (List.mem_append_left _ hc)
          rw [hsolid] at hblank
          cases hblank
      · rintro ⟨u, rest, heq, hu, _⟩
        cases heq
        exact hkind hu
  | @skipped here word after tokens hlexeme hne hrest ih =>
    rcases Lexer.skipped_cases hlexeme with ⟨blanks, rfl, hblanks⟩ | hgap
    · -- the line goes on below, and so do the tokens
      refine iff_of_false ?_ ?_
      · rw [code_of_join hblanks hw hs]
        exact List.cons_ne_nil _ _
      · rintro ⟨u, rest, rfl, _, hline⟩
        have := hrest.below_feed (by simp) List.mem_cons_self
        omega
    · have hfree : '\n' ∉ word := fun hmem => absurd (hgap _ hmem) (by decide)
      obtain ⟨w', rfl, hafter⟩ := Lexer.split_of_notMem hs hfree
      have hblank : trimEnd (word ++ codeFrom none false w') = [] ↔
          trimEnd (codeFrom none false w') = [] := by
        simp only [trimEnd_eq_nil_iff, List.forall_mem_append]
        exact and_iff_right fun c hc => isBlank_of_isGap (hgap c hc)
      rw [codeFrom_plain fun c hc => isPlain_of_isGap (hgap c hc), hblank,
        ih hafter fun hmem => hw (List.mem_append_right _ hmem), Position.after_of_notMem hfree]

/-- A semicolon stands at a place, and the next token is a line end on its line. -/
def LastOnLine (tokens : List Token) (place : Position) : Prop :=
  ∃ first t u rest, tokens = first ++ t :: u :: rest ∧ t.kind = .separator ∧ t.start = place ∧
    u.kind = .newline ∧ u.start.line = place.line

theorem lastOnLine_cons (t : Token) (tokens : List Token) (place : Position) :
    LastOnLine (t :: tokens) place ↔ (t.kind = .separator ∧ t.start = place ∧
      ∃ u rest, tokens = u :: rest ∧ u.kind = .newline ∧ u.start.line = place.line) ∨
      LastOnLine tokens place := by
  constructor
  · rintro ⟨first, t', u, rest, heq, hkind, hstart, hu, hline⟩
    cases first with
    | nil =>
      cases heq
      exact .inl ⟨hkind, hstart, u, rest, rfl, hu, hline⟩
    | cons t'' first =>
      cases heq
      exact .inr ⟨first, t', u, rest, rfl, hkind, hstart, hu, hline⟩
  · rintro (⟨hkind, hstart, u, rest, rfl, hu, hline⟩ | ⟨first, t', u, rest, rfl, h⟩)
    · exact ⟨[], t, u, rest, rfl, hkind, hstart, hu, hline⟩
    · exact ⟨t :: first, t', u, rest, rfl, h⟩

/-- Tokens of lines above make no difference. -/
theorem lastOnLine_append {earlier later : List Token} {place : Position}
    (h : ∀ t ∈ earlier, t.start.line < place.line) :
    LastOnLine (earlier ++ later) place ↔ LastOnLine later place := by
  induction earlier with
  | nil => rfl
  | cons t earlier ih =>
    have habove : t.start ≠ place := by
      intro hstart
      have := h t List.mem_cons_self
      rw [hstart] at this
      omega
    rw [List.cons_append, lastOnLine_cons, ih fun u hu => h u (List.mem_cons_of_mem _ hu)]
    exact or_iff_right fun hfirst => habove hfirst.2.1

/-- Among tokens of lines below there is no such semicolon. -/
theorem not_lastOnLine {tokens : List Token} {place : Position}
    (h : ∀ t ∈ tokens, place.line < t.start.line) : ¬ LastOnLine tokens place := by
  rintro ⟨first, t, u, rest, rfl, _, _, _, hline⟩
  have := h u (by simp)
  omega

/-- Columns count on from where reading goes on. -/
theorem lastOnLine_shift {here : Position} {n : Nat} {text : List Char} {tokens : List Token}
    (h : Lexer.Reads ⟨here.line, here.col + n⟩ text tokens) (k : Nat) :
    LastOnLine tokens ⟨here.line, here.col + k⟩ ↔
      ∃ j : Nat, k = n + j ∧ LastOnLine tokens ⟨here.line, here.col + n + j⟩ := by
  constructor
  · intro hlast
    have hle : n ≤ k := by
      obtain ⟨first, t, u, rest, rfl, _, hstart, _⟩ := hlast
      have := h.col_le (t := t) (by simp) (by rw [hstart])
      rw [hstart] at this
      dsimp only at this
      omega
    have hcol : here.col + n + (k - n : Nat) = here.col + k := by omega
    exact ⟨k - n, by omega, hcol ▸ hlast⟩
  · rintro ⟨j, rfl, hlast⟩
    have hcol : here.col + (n + j : Nat) = here.col + n + j := by omega
    exact hcol ▸ hlast

/-- The code of the rest of a line ends with a semicolon if this is a token, and the next token is a
line end on the line. -/
theorem endsAt_iff_lastOnLine {here : Position} {s : List Char} {tokens : List Token}
    (h : Lexer.Reads here s tokens) {w v : List Char} (hs : s = w ++ '\n' :: v) (hw : '\n' ∉ w)
    (hlong : ∀ t ∈ tokens, t.start.line = here.line → t.kind ≠ .longString) (k : Nat) :
    EndsAt (codeFrom none false w) k ↔ LastOnLine tokens ⟨here.line, here.col + k⟩ := by
  induction h generalizing w k with
  | done => simp at hs
  | @token here word after kind tokens hlexeme hne hrest ih =>
    by_cases hkind : kind = .newline
    · subst hkind
      have hends : EndsLine w := endsLine_of_lexeme hw (hs ▸ hlexeme)
      obtain ⟨beyond, rfl⟩ := Lexer.feed_mem_of_break hs hw hlexeme
      refine iff_of_false (not_endsAt_of_blank (trimEnd_codeFrom_endsLine hends) k) ?_
      rw [lastOnLine_cons]
      rintro (⟨hkind, _⟩ | hlast)
      · cases hkind
      · refine not_lastOnLine ?_ hlast
        exact fun t ht => hrest.below_feed (by simp) ht
    · have hshort : kind ≠ .longString := hlong _ List.mem_cons_self rfl
      obtain ⟨hfree, hcode, hlast⟩ := token_cases hlexeme hshort hkind
      obtain ⟨w', rfl, hafter⟩ := Lexer.split_of_notMem hs hfree
      have hw' : '\n' ∉ w' := fun hmem => hw (List.mem_append_right _ hmem)
      have hnext := ih hafter hw'
        (by
          rw [Position.after_of_notMem hfree]
          exact fun t ht => hlong t (List.mem_cons_of_mem _ ht))
      rw [Position.after_of_notMem hfree] at hnext hrest
      have hplace : here = ⟨here.line, here.col + k⟩ ↔ k = 0 := by
        constructor
        · intro heq
          have := congrArg Position.col heq
          dsimp only at this
          omega
        · rintro rfl
          simp
      -- the semicolon is this token, with a line end behind it, or one of those behind
      rw [hcode, lastOnLine_cons, endsAt_token hlast, blank_iff_break hrest hafter hw', hplace,
        lastOnLine_shift hrest]
      simp only [hnext]
  | @skipped here word after tokens hlexeme hne hrest ih =>
    rcases Lexer.skipped_cases hlexeme with ⟨blanks, rfl, hblanks⟩ | hgap
    · refine iff_of_false ?_ ?_
      · rintro ⟨p, hp, _⟩
        rw [code_of_join hblanks hw hs] at hp
        have hlast := congrArg List.getLast? hp
        simp at hlast
      · exact not_lastOnLine fun t ht => hrest.below_feed (by simp) ht
    · have hfree : '\n' ∉ word := fun hmem => absurd (hgap _ hmem) (by decide)
      obtain ⟨w', rfl, hafter⟩ := Lexer.split_of_notMem hs hfree
      have hw' : '\n' ∉ w' := fun hmem => hw (List.mem_append_right _ hmem)
      have hnext := ih hafter hw' (by rwa [Position.after_of_notMem hfree])
      rw [Position.after_of_notMem hfree] at hnext hrest
      rw [codeFrom_plain fun c hc => isPlain_of_isGap (hgap c hc),
        endsAt_append_of_blank fun c hc => isBlank_of_isGap (hgap c hc), lastOnLine_shift hrest]
      simp only [hnext]

end LineScan
end ScopeLint
