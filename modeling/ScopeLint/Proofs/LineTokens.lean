import ScopeLint.Proofs.CodePart

/-! # The tokens of one line

Reading comes to the beginning of a line in one of three ways: between two lexemes,
inside a long literal, or inside a run of line ends and comments. The last takes the
indentation of the line, or all of it if it holds nothing but a comment. -/
namespace ScopeLint

/-! ## Line ends and comments -/

namespace Lexeme

/-- A rest of a line that a line end takes: a carriage return, a comment, or nothing. -/
def EndsLine (w : List Char) : Prop := w = [] ∨ w = ['\r'] ∨ w.head? = some '#'

theorem length_lt_breakLength {inside : Option Bool} (hinside : inside ≠ some true) {w : List Char}
    (hw : EndsLine w) (hbreak : '\n' ∉ w) (v : List Char) :
    w.length < breakLength inside (w ++ '\n' :: v) := by
  rcases hw with rfl | rfl | hhead
  · simp only [List.nil_append, breakLength, if_true, List.length_nil]
    omega
  · have hreturn : breakLength inside ('\r' :: '\n' :: v) = 1 + breakLength none ('\n' :: v) := by
      rw [breakLength, if_neg (by decide), if_neg hinside, if_neg (by decide), if_pos ⟨rfl, rfl⟩]
    rw [List.cons_append, List.nil_append, hreturn, breakLength, if_pos rfl, List.length_singleton]
    omega
  · obtain ⟨text, rfl⟩ : ∃ text, w = '#' :: text := ⟨w.tail, List.eq_cons_of_mem_head? hhead⟩
    have htext := List.not_mem_of_not_mem_cons hbreak
    rw [List.cons_append, breakLength, if_neg (by decide), if_neg hinside, if_pos rfl,
      breakLength_in_comment htext, List.length_cons]
    omega

/-- A run of line ends and comments that begins on a line takes the rest of the line. -/
theorem endsLine_of_breakLength {w v : List Char} (hw : '\n' ∉ w)
    (h : 0 < breakLength none (w ++ '\n' :: v)) : EndsLine w := by
  cases w with
  | nil => exact .inl rfl
  | cons c w =>
    obtain ⟨hc, hrest⟩ := List.ne_and_not_mem_of_not_mem_cons hw
    by_cases hmark : c = '#'
    · exact .inr (.inr (by rw [hmark]; rfl))
    · rw [List.cons_append, breakLength, if_neg (Ne.symm hc), if_neg (by decide), if_neg hmark] at h
      split at h
      · next hreturn =>
        obtain ⟨rfl, hfeed⟩ := hreturn
        cases w with
        | nil => exact .inr (.inl rfl)
        | cons d w =>
          obtain rfl : d = '\n' := by simpa using hfeed
          exact absurd List.mem_cons_self hrest
      · rw [if_neg (by simp)] at h
        exact absurd h (Nat.lt_irrefl 0)

theorem endsLine_of_lexeme {w v : List Char} (hw : '\n' ∉ w) {n : Nat}
    (h : lexeme (w ++ '\n' :: v) = some (.token .newline, n)) : EndsLine w := by
  obtain ⟨hlength, hpositive⟩ := breakLength_of_lexeme h
  exact endsLine_of_breakLength hw (hlength ▸ hpositive)

/-- A run of line ends and comments stops before a semicolon that no number sign comes before. -/
theorem breakLength_semicolon {inside : Option Bool} (hinside : inside ≠ some true) {u : List Char}
    (hfree : '\n' ∉ u) (hmark : '#' ∉ u) (v : List Char) :
    breakLength inside (u ++ ';' :: v) ≤ u.length := by
  induction u generalizing inside with
  | nil => simp [breakLength, hinside, isIndentation]
  | cons c u ih =>
    obtain ⟨hc, hfree⟩ := List.ne_and_not_mem_of_not_mem_cons hfree
    obtain ⟨hsign, hmark⟩ := List.ne_and_not_mem_of_not_mem_cons hmark
    have hfeed : ¬ (c = '\r' ∧ (u ++ ';' :: v).head? = some '\n') := by
      rintro ⟨_, hhead⟩
      cases u with
      | nil => exact absurd hhead (by simp)
      | cons d u =>
        obtain rfl : d = '\n' := by simpa using hhead
        exact hfree List.mem_cons_self
    rw [List.cons_append, breakLength, if_neg (Ne.symm hc), if_neg hinside, if_neg (Ne.symm hsign),
      if_neg hfeed]
    split
    · have hnext : breakLength (some false) (u ++ ';' :: v) ≤ u.length := ih (by decide) hfree hmark
      rw [List.length_cons]
      omega
    · exact Nat.zero_le _

/-- A run that comes in from the line above takes the indentation of a line, or all of the line. -/
theorem breakLength_line_start {l : List Char} (hl : '\n' ∉ l) (v : List Char) :
    ∃ blanks rest, l = blanks ++ rest ∧ (∀ c ∈ blanks, isIndentation c = true) ∧
      (breakLength (some false) (l ++ '\n' :: v) = blanks.length ∨ EndsLine rest ∧
        breakLength (some false) (l ++ '\n' :: v) = l.length + 1 + breakLength (some false) v) := by
  induction l with
  | nil => exact ⟨[], [], rfl, List.forall_mem_nil _, .inr ⟨.inl rfl, by simp [breakLength]⟩⟩
  | cons c l ih =>
    obtain ⟨hc, hrest⟩ := List.ne_and_not_mem_of_not_mem_cons hl
    have hbeyond : ∀ {w : List Char}, EndsLine w → '\n' ∉ w →
        breakLength (some false) (w ++ '\n' :: v) = w.length + 1 + breakLength (some false) v := by
      intro w hw hbreak
      have hlt : w.length < breakLength (some false) (w ++ '\n' :: v) :=
        length_lt_breakLength (by decide) hw hbreak v
      rcases breakLength_line (some false) w with ⟨n, hn, heq⟩ | heq
      · rw [heq] at hlt
        omega
      · exact heq v
    by_cases hmark : c = '#'
    · have hends : EndsLine (c :: l) := .inr (.inr (by rw [hmark]; rfl))
      exact ⟨[], c :: l, rfl, List.forall_mem_nil _, .inr ⟨hends, hbeyond hends hl⟩⟩
    by_cases hreturn : c = '\r' ∧ l = []
    · obtain ⟨rfl, rfl⟩ := hreturn
      have hends : EndsLine ['\r'] := .inr (.inl rfl)
      exact ⟨[], ['\r'], rfl, List.forall_mem_nil _, .inr ⟨hends, hbeyond hends hl⟩⟩
    have hfeed : ¬ (c = '\r' ∧ (l ++ '\n' :: v).head? = some '\n') := by
      rintro ⟨rfl, hhead⟩
      cases l with
      | nil => exact hreturn ⟨rfl, rfl⟩
      | cons d l =>
        obtain rfl : d = '\n' := by simpa using hhead
        exact hrest List.mem_cons_self
    by_cases hblank : isIndentation c = true
    · obtain ⟨blanks, rest, rfl, hblanks, hlength⟩ := ih hrest
      have hstep : breakLength (some false) (c :: (blanks ++ rest) ++ '\n' :: v) =
          1 + breakLength (some false) (blanks ++ rest ++ '\n' :: v) := by
        rw [List.cons_append, breakLength, if_neg (Ne.symm hc), if_neg (by decide), if_neg hmark,
          if_neg hfeed, if_pos ⟨rfl, hblank⟩]
      refine ⟨c :: blanks, rest, rfl, ?_, ?_⟩
      · intro d hd
        rcases List.mem_cons.mp hd with rfl | hd
        · exact hblank
        · exact hblanks d hd
      · rw [hstep, List.length_cons, List.length_cons]
        exact hlength.imp (by omega) (by rintro ⟨hends, hlength⟩; exact ⟨hends, by omega⟩)
    · refine ⟨[], c :: l, rfl, List.forall_mem_nil _, .inl ?_⟩
      rw [List.cons_append, breakLength, if_neg (Ne.symm hc), if_neg (by decide), if_neg hmark,
        if_neg hfeed, if_neg fun h => hblank h.2, List.length_nil]

end Lexeme

namespace Lexer

open Lexeme

/-! ## Reading up to a token -/

theorem Reads.at_token {here : Position} {text : List Char} {first rest : List Token} {t : Token}
    (h : Reads here text (first ++ t :: rest)) :
    ∃ before word after, text = before ++ (word ++ after) ∧ word ≠ [] ∧
      lexeme (word ++ after) = some (.token t.kind, word.length) ∧ t.text = String.ofList word ∧
      t.start = here.after before ∧ t.stop = t.start.after word ∧ Reads t.stop after rest := by
  generalize htokens : first ++ t :: rest = tokens at h
  induction h generalizing first with
  | done => simp at htokens
  | @token here word after kind tokens hlexeme hne hrest ih =>
    cases first with
    | nil =>
      cases htokens
      exact ⟨[], word, after, rfl, hne, hlexeme, rfl, rfl, rfl, hrest⟩
    | cons u first =>
      cases htokens
      obtain ⟨before, word', after', rfl, hplace⟩ := ih rfl
      refine ⟨word ++ before, word', after', by rw [List.append_assoc], ?_⟩
      rwa [Position.after_append]
  | @skipped here word after tokens hlexeme hne hrest ih =>
    obtain ⟨before, word', after', rfl, hplace⟩ := ih htokens
    refine ⟨word ++ before, word', after', by rw [List.append_assoc], ?_⟩
    rwa [Position.after_append]

/-- A character stands in the first part of a text, or behind it. -/
theorem split_at_char {word after before rest : List Char} {c : Char}
    (h : word ++ after = before ++ c :: rest) :
    (∃ right, word = before ++ c :: right ∧ rest = right ++ after) ∨
      ∃ before', before = word ++ before' ∧ after = before' ++ c :: rest := by
  rcases List.append_eq_append_iff.mp h with ⟨tail, hbefore, hafter⟩ | ⟨tail, hword, htail⟩
  · exact .inr ⟨tail, hbefore, hafter⟩
  · cases tail with
    | nil => exact .inr ⟨[], by simpa using hword.symm, by simpa using htail.symm⟩
    | cons d tail =>
      cases htail
      exact .inl ⟨tail, hword, rfl⟩

/-- The lexeme that a character belongs to. -/
theorem Reads.at_char {here : Position} {text : List Char} {tokens : List Token}
    (h : Reads here text tokens) {before rest : List Char} {c : Char}
    (htext : text = before ++ c :: rest) :
    ∃ first left right after cls earlier later, before = first ++ left ∧ rest = right ++ after ∧
      lexeme (left ++ c :: right ++ after) = some (cls, (left ++ c :: right).length) ∧
      tokens = earlier ++ (Piece.token? ⟨cls, left ++ c :: right, here.after first,
        (here.after first).after (left ++ c :: right)⟩).toList ++ later ∧
      Reads ((here.after first).after (left ++ c :: right)) after later := by
  induction h generalizing before with
  | done => simp at htext
  | @token here word after kind tokens hlexeme hne hrest ih =>
    rcases split_at_char htext with ⟨right, rfl, rfl⟩ | ⟨before', rfl, hafter⟩
    · exact ⟨[], before, right, after, .token kind, [], tokens, rfl, rfl, hlexeme, rfl, hrest⟩
    · obtain ⟨first, left, right, after', cls, earlier, later, rfl, hright, hlexeme', rfl,
        hreads⟩ := ih hafter
      rw [← Position.after_append here word first] at hreads ⊢
      exact ⟨word ++ first, left, right, after', cls, _ :: earlier, later,
        (List.append_assoc ..).symm, hright, hlexeme', rfl, hreads⟩
  | @skipped here word after tokens hlexeme hne hrest ih =>
    rcases split_at_char htext with ⟨right, rfl, rfl⟩ | ⟨before', rfl, hafter⟩
    · exact ⟨[], before, right, after, .skipped, [], tokens, rfl, rfl, hlexeme, rfl, hrest⟩
    · obtain ⟨first, left, right, after', cls, earlier, later, rfl, hright, hlexeme', rfl,
        hreads⟩ := ih hafter
      rw [← Position.after_append here word first] at hreads ⊢
      exact ⟨word ++ first, left, right, after', cls, earlier, later,
        (List.append_assoc ..).symm, hright, hlexeme', rfl, hreads⟩

/-- Tokens do not stand on lines above. -/
theorem Reads.line_le {here : Position} {text : List Char} {tokens : List Token}
    (h : Reads here text tokens) {t : Token} (ht : t ∈ tokens) : here.line ≤ t.start.line := by
  obtain ⟨first, rest, rfl⟩ := List.append_of_mem ht
  obtain ⟨before, _, _, _, _, _, _, hstart, _⟩ := h.at_token
  rw [hstart]
  exact here.line_le_after before

/-- On the line where reading begins, tokens do not stand further left. -/
theorem Reads.col_le {here : Position} {text : List Char} {tokens : List Token}
    (h : Reads here text tokens) {t : Token} (ht : t ∈ tokens) (hline : t.start.line = here.line) :
    here.col ≤ t.start.col := by
  obtain ⟨first, rest, rfl⟩ := List.append_of_mem ht
  obtain ⟨before, _, _, _, _, _, _, hstart, _⟩ := h.at_token
  have hfree : '\n' ∉ before := by
    intro hmem
    have hpositive := List.count_pos_iff.mpr hmem
    rw [hstart, Position.line_after] at hline
    omega
  rw [hstart, Position.after_of_notMem hfree]
  dsimp only
  omega

/-- Behind a line feed there are only tokens of lines below. -/
theorem Reads.below_feed {here : Position} {word after : List Char} {tokens : List Token}
    (h : Reads (here.after word) after tokens) (hfeed : '\n' ∈ word) {t : Token}
    (ht : t ∈ tokens) : here.line < t.start.line := by
  have hle := h.line_le ht
  have hpositive := List.count_pos_iff.mpr hfeed
  rw [Position.line_after] at hle
  omega

/-! ## Reading up to a line -/

/-- The only lexemes that go on behind a line feed are long literals and runs of line ends and
comments. -/
theorem notMem_dropLast {word rest : List Char} {cls : Lexeme.Class}
    (h : lexeme (word ++ rest) = some (cls, word.length)) (hlong : cls ≠ .token .longString)
    (hbreak : cls ≠ .token .newline) : '\n' ∉ word.dropLast := by
  have hword : (word ++ rest).take word.length = word := List.take_left' rfl
  have hshape := shape_lexeme h
  clear h
  generalize word ++ rest = s at hshape hword
  generalize word.length = n at hshape hword
  subst hword
  cases hshape with
  | string h => exact fun hmem => newline_notMem_string h (List.dropLast_subset _ hmem)
  | longString => exact absurd rfl hlong
  | word _ _ h => exact fun hmem => absurd (h.2 _ (List.dropLast_subset _ hmem)) (by decide)
  | separator h =>
    rw [h]
    exact List.not_mem_nil
  | lineBreak => exact absurd rfl hbreak
  | join h =>
    obtain ⟨blanks, tail, rfl, rfl, hblanks⟩ := exists_of_continuationAt h
    have htake : ('\\' :: (blanks ++ '\n' :: tail)).take (blanks.length + 2) =
        ('\\' :: blanks) ++ ['\n'] := by
      rw [List.take_succ_cons, List.take_length_add_append]
      rfl
    rw [htake, List.dropLast_concat]
    intro hmem
    rcases List.mem_cons.mp hmem with heq | hmem
    · exact absurd heq (by decide)
    · exact absurd (hblanks _ hmem) (by decide)
  | gap =>
    have htake : s.take (count isGap s) = s.takeWhile isGap :=
      (List.prefix_iff_eq_take.mp (List.takeWhile_prefix _)).symm
    rw [htake]
    intro hmem
    have := List.all_eq_true.mp List.all_takeWhile _ (List.dropLast_subset _ hmem)
    exact absurd this (by decide)

theorem last_of_append {word pre : List Char} (h : (word ++ pre).getLast? = some '\n') :
    pre = [] ∨ pre.getLast? = some '\n' := by
  by_cases hnil : pre = []
  · exact .inl hnil
  · right
    rwa [List.getLast?_append_of_ne_nil _ hnil] at h

theorem mem_dropLast_of_beyond {pre beyond : List Char} (hpre : pre.getLast? = some '\n')
    (hbeyond : beyond ≠ []) : '\n' ∈ (pre ++ beyond).dropLast := by
  rw [List.dropLast_append_of_ne_nil hbeyond]
  exact List.mem_append_left _ (List.mem_of_getLast? hpre)

/-- What a run of line ends and comments takes behind a line feed does not depend on what it took
before. -/
theorem breakLength_beyond {pre beyond rest : List Char} (hpre : pre.getLast? = some '\n')
    (hbeyond : beyond ≠ [])
    (h : breakLength none (pre ++ beyond ++ rest) = (pre ++ beyond).length) :
    beyond.length = breakLength (some false) (beyond ++ rest) := by
  obtain ⟨first, rfl⟩ := List.getLast?_eq_some_iff.mp hpre
  have hsplit : first ++ ['\n'] ++ beyond ++ rest = first ++ '\n' :: (beyond ++ rest) := by simp
  have hpositive := List.length_pos_iff.mpr hbeyond
  rw [hsplit] at h
  simp only [List.length_append, List.length_singleton] at h
  rcases breakLength_line none first with ⟨n, hn, heq⟩ | heq
  · rw [heq] at h
    omega
  · rw [heq] at h
    omega

/-- Reading comes to a line between two lexemes, or inside a run of line ends and comments that
takes what such a run takes, unless a long literal goes on there. -/
theorem Reads.reach {here : Position} {text : List Char} {tokens : List Token}
    (h : Reads here text tokens) {pre rest : List Char} (htext : text = pre ++ rest)
    (hpre : pre = [] ∨ pre.getLast? = some '\n')
    (hlong : ∀ t ∈ tokens, t.kind = .longString →
      ¬ (t.start.line < (here.after pre).line ∧ (here.after pre).line ≤ t.stop.line)) :
    ∃ earlier later k, tokens = earlier ++ later ∧
      (∀ t ∈ earlier, t.start.line < (here.after pre).line) ∧
      (k = 0 ∨ k = breakLength (some false) rest) ∧
      Reads ((here.after pre).after (rest.take k)) (rest.drop k) later := by
  induction h generalizing pre with
  | done here =>
    obtain ⟨rfl, rfl⟩ := List.nil_eq_append_iff.mp htext
    exact ⟨[], [], 0, rfl, List.forall_mem_nil _, .inl rfl, .done here⟩
  | @token here word after kind tokens hlexeme hne hrest ih =>
    rcases hpre with rfl | hpre
    · subst htext
      exact ⟨[], _, 0, rfl, List.forall_mem_nil _, .inl rfl, .token hlexeme hne hrest⟩
    have habove : here.line < (here.after pre).line := by
      obtain ⟨first, rfl⟩ := List.getLast?_eq_some_iff.mp hpre
      exact here.line_lt_after first
    rcases List.append_eq_append_iff.mp htext with ⟨pre', rfl, rfl⟩ | ⟨beyond, rfl, rfl⟩
    · -- the token ends before the line
      rw [Position.after_append] at habove hlong ⊢
      obtain ⟨earlier, later, k, rfl, hearlier, hk, hlater⟩ := ih rfl (last_of_append hpre)
        fun t ht => hlong t (List.mem_cons_of_mem _ ht)
      refine ⟨_ :: earlier, later, k, rfl, ?_, hk, hlater⟩
      intro t ht
      rcases List.mem_cons.mp ht with rfl | ht
      · exact habove
      · exact hearlier t ht
    · by_cases hbeyond : beyond = []
      · subst hbeyond
        rw [List.append_nil] at hrest ⊢
        exact ⟨[_], tokens, 0, rfl, by simpa using habove, .inl rfl, hrest⟩
      · -- the token goes on behind the line feed, so it is no literal and hence a line end
        have hfeed := mem_dropLast_of_beyond hpre hbeyond
        have hkind : kind = .newline := by
          by_contra hkind
          have hshort : kind ≠ .longString := by
            rintro rfl
            refine hlong _ List.mem_cons_self rfl ⟨habove, ?_⟩
            rw [Position.after_append]
            exact Position.line_le_after _ beyond
          exact notMem_dropLast hlexeme (by simpa using hshort) (by simpa using hkind) hfeed
        subst hkind
        have hlength := breakLength_beyond hpre hbeyond (breakLength_of_lexeme hlexeme).1
        refine ⟨[_], tokens, beyond.length, rfl, by simpa using habove, .inr hlength, ?_⟩
        rwa [List.take_left' rfl, List.drop_left' rfl, ← Position.after_append]
  | @skipped here word after tokens hlexeme hne hrest ih =>
    rcases hpre with rfl | hpre
    · subst htext
      exact ⟨[], _, 0, rfl, List.forall_mem_nil _, .inl rfl, .skipped hlexeme hne hrest⟩
    rcases List.append_eq_append_iff.mp htext with ⟨pre', rfl, rfl⟩ | ⟨beyond, rfl, rfl⟩
    · rw [Position.after_append] at hlong ⊢
      exact ih rfl (last_of_append hpre) hlong
    · by_cases hbeyond : beyond = []
      · subst hbeyond
        rw [List.append_nil] at hrest
        exact ⟨[], tokens, 0, rfl, List.forall_mem_nil _, .inl rfl, hrest⟩
      · exact absurd (mem_dropLast_of_beyond hpre hbeyond)
          (notMem_dropLast hlexeme (by decide) (by decide))

theorem split_of_notMem {word after w v : List Char} (hsplit : word ++ after = w ++ '\n' :: v)
    (hword : '\n' ∉ word) : ∃ w', w = word ++ w' ∧ after = w' ++ '\n' :: v := by
  rcases List.append_eq_append_iff.mp hsplit with ⟨tail, hw, hafter⟩ | ⟨tail, hw, hafter⟩
  · exact ⟨tail, hw, hafter⟩
  · cases tail with
    | nil => exact ⟨[], by simpa using hw.symm, by simpa using hafter.symm⟩
    | cons c tail =>
      cases hafter
      rw [hw] at hword
      exact absurd (List.mem_append_right _ List.mem_cons_self) hword

/-- What is skipped is a backslash with the line feed that it joins over, or a gap. -/
theorem skipped_cases {word after : List Char}
    (h : lexeme (word ++ after) = some (.skipped, word.length)) :
    (∃ blanks, word = '\\' :: (blanks ++ ['\n']) ∧ ∀ c ∈ blanks, isGap c = true ∨ c = '\r') ∨
      ∀ c ∈ word, isGap c = true := by
  have hword : (word ++ after).take word.length = word := List.take_left' rfl
  have hshape := shape_lexeme h
  clear h
  generalize word ++ after = s at hshape hword
  generalize word.length = n at hshape hword
  subst hword
  cases hshape with
  | join h =>
    obtain ⟨blanks, rest, rfl, rfl, hblanks⟩ := exists_of_continuationAt h
    refine .inl ⟨blanks, ?_, hblanks⟩
    rw [List.take_succ_cons, List.take_length_add_append]
    rfl
  | gap =>
    right
    have htake : s.take (count isGap s) = s.takeWhile isGap :=
      (List.prefix_iff_eq_take.mp (List.takeWhile_prefix _)).symm
    rw [htake]
    exact List.all_eq_true.mp List.all_takeWhile

/-- A run of line ends and comments that begins on a line goes on below it. -/
theorem feed_mem_of_break {word after w v : List Char} (hsplit : word ++ after = w ++ '\n' :: v)
    (hw : '\n' ∉ w) (h : lexeme (word ++ after) = some (.token .newline, word.length)) :
    ∃ beyond, word = w ++ '\n' :: beyond := by
  rw [hsplit] at h
  have hlt : w.length < word.length := by
    rw [← (breakLength_of_lexeme h).1]
    exact length_lt_breakLength (by decide) (endsLine_of_lexeme hw h) hw v
  rcases List.append_eq_append_iff.mp hsplit with ⟨tail, rfl, _⟩ | ⟨tail, rfl, htail⟩
  · rw [List.length_append] at hlt
    omega
  · cases tail with
    | nil =>
      rw [List.append_nil] at hlt
      exact absurd hlt (Nat.lt_irrefl _)
    | cons c tail =>
      cases htail
      exact ⟨tail, rfl⟩

/-- Behind a line end there are only tokens of lines below. -/
theorem Reads.below_break {here : Position} {text : List Char} {first rest : List Token} {u : Token}
    (h : Reads here text (first ++ u :: rest)) (htext : text.getLast? = some '\n')
    (hu : u.kind = .newline) {t : Token} (ht : t ∈ rest) : u.start.line < t.start.line := by
  obtain ⟨before, word, after, rfl, hne, hlexeme, _, _, hstop, hrest⟩ := h.at_token
  have hfeed : '\n' ∈ word ++ after := by
    rw [List.getLast?_append_of_ne_nil _ (by simp [hne])] at htext
    exact List.mem_of_getLast? htext
  obtain ⟨w, v, hsplit, hw⟩ := List.eq_append_cons_of_mem hfeed
  rw [hu] at hlexeme
  obtain ⟨beyond, rfl⟩ := feed_mem_of_break hsplit hw hlexeme
  rw [hstop] at hrest
  exact hrest.below_feed (by simp) ht

/-- The tokens from a line on: those of the line behind its indentation, or those of the lines below
if the line holds nothing but a comment and the run of line ends before it takes it along. -/
theorem Reads.from_line {here : Position} {text : List Char} {tokens : List Token}
    (h : Reads here text tokens) {pre l v : List Char} (htext : text = pre ++ (l ++ '\n' :: v))
    (hl : '\n' ∉ l) (hpre : pre = [] ∨ pre.getLast? = some '\n')
    (hlong : ∀ t ∈ tokens, t.kind = .longString →
      ¬ (t.start.line < (here.after pre).line ∧ (here.after pre).line ≤ t.stop.line)) :
    ∃ earlier later blanks rest, tokens = earlier ++ later ∧
      (∀ t ∈ earlier, t.start.line < (here.after pre).line) ∧
      l = blanks ++ rest ∧ (∀ c ∈ blanks, isIndentation c = true) ∧
      (Reads ((here.after pre).after blanks) (rest ++ '\n' :: v) later ∨
        EndsLine rest ∧ ∀ t ∈ later, (here.after pre).line < t.start.line) := by
  obtain ⟨earlier, later, k, rfl, hearlier, hk, hlater⟩ := h.reach htext hpre hlong
  rcases hk with rfl | rfl
  · exact ⟨earlier, later, [], l, rfl, hearlier, rfl, List.forall_mem_nil _, .inl hlater⟩
  · obtain ⟨blanks, rest, rfl, hblanks, hlength⟩ := breakLength_line_start hl v
    refine ⟨earlier, later, blanks, rest, rfl, hearlier, rfl, hblanks, ?_⟩
    rcases hlength with hlength | ⟨hends, hlength⟩
    · left
      rw [hlength, List.append_assoc, List.take_left' rfl, List.drop_left' rfl] at hlater
      exact hlater
    · refine .inr ⟨hends, ?_⟩
      intro t ht
      refine hlater.below_feed ?_ ht
      rw [hlength, Nat.add_assoc, List.take_length_add_append, Nat.add_comm 1, List.take_succ_cons]
      simp

end Lexer
end ScopeLint
