import Mathlib.Data.List.DropRight
import ScopeLint.LineScan
import ScopeLint.Proofs.Shapes

/-! # Where the code of a line ends

The scan of raw lines and the lexer find strings and comments on their own: the one
with a quote and an escape to remember, the other lexeme by lexeme. On a line that
lexes, and that holds no long literal, they agree on where the comment begins. What
both agree with, for the strings between, is the pattern of a short literal, which
takes as little as it can up to a quote behind pairs of backslashes. -/
namespace ScopeLint

/-! ## The pattern of a short literal -/

namespace Lexeme

/-- One way to read a closing quote off the text behind an opening one: a body that stays on the
line and leaves no backslash behind, pairs of backslashes, and the quote. -/
def Closing (quote : Char) (text body : List Char) (pairs : Nat) : Prop :=
  body ++ (List.replicate (2 * pairs) '\\' ++ [quote]) <+: text ∧ '\n' ∉ body ∧
    (quote :: body).getLast? ≠ some '\\'

/-- The way that is tried before all others: the shortest body, then the fewest pairs. It takes
`n` characters. -/
def LazyClosing (quote : Char) (text : List Char) (n : Nat) : Prop :=
  ∃ body pairs, Closing quote text body pairs ∧ n = body.length + 2 * pairs + 1 ∧
    ∀ body' pairs', Closing quote text body' pairs' →
      body.length < body'.length ∨ (body.length = body'.length ∧ pairs ≤ pairs')

/-- Whether the next character belongs to a backslash, after some text. -/
def escapedAfter (escaped : Bool) (text : List Char) : Bool :=
  text.foldl (fun escaped c => !escaped && decide (c = '\\')) escaped

theorem escapedAfter_append (escaped : Bool) (first second : List Char) :
    escapedAfter escaped (first ++ second) = escapedAfter (escapedAfter escaped first) second :=
  List.foldl_append

theorem escapedAfter_of_getLast {body : List Char} (h : body.getLast? ≠ some '\\') :
    escapedAfter false body = false := by
  rcases List.eq_nil_or_concat body with rfl | ⟨first, c, rfl⟩
  · rfl
  · rw [List.concat_eq_append, List.getLast?_concat] at h
    have hc : c ≠ '\\' := fun hc => h (congrArg some hc)
    simp [escapedAfter, hc]

theorem escapedAfter_replicate (k : Nat) :
    escapedAfter false (List.replicate k '\\') = decide (k % 2 = 1) := by
  induction k with
  | zero => rfl
  | succ k ih =>
    have hlast : escapedAfter false (List.replicate (k + 1) '\\') =
        !escapedAfter false (List.replicate k '\\') := by
      rw [List.replicate_succ', escapedAfter_append]
      simp [escapedAfter]
    rw [hlast, ih, ← decide_not]
    exact decide_eq_decide.mpr (by omega)

/-- A literal closes inside the text, or the scan goes on behind it. -/
theorem closeShort_append {quote : Char} {u : List Char} (hu : '\n' ∉ u) (escaped : Bool)
    (v : List Char) :
    (∃ n ≤ u.length, closeShort quote escaped (u ++ v) = some n) ∨
      closeShort quote escaped (u ++ v) =
        (closeShort quote (escapedAfter escaped u) v).map (· + u.length) := by
  induction u generalizing escaped with
  | nil => right; simp [escapedAfter]
  | cons c u ih =>
    obtain ⟨hc, hrest⟩ := List.ne_and_not_mem_of_not_mem_cons hu
    -- one more character before the end, whatever it leaves the scanner in
    have hstep : ∀ escaped', escapedAfter escaped (c :: u) = escapedAfter escaped' u →
        closeShort quote escaped (c :: (u ++ v)) =
          (closeShort quote escaped' (u ++ v)).map (· + 1) →
        (∃ n ≤ (c :: u).length, closeShort quote escaped (c :: (u ++ v)) = some n) ∨
          closeShort quote escaped (c :: (u ++ v)) =
            (closeShort quote (escapedAfter escaped (c :: u)) v).map (· + (c :: u).length) := by
      intro escaped' hafter hclose
      rw [hclose, hafter]
      rcases ih hrest escaped' with ⟨n, hn, h⟩ | h
      · exact .inl ⟨n + 1, Nat.succ_le_succ hn, by rw [h, Option.map_some]⟩
      · right
        rw [h, Option.map_map]
        rfl
    rw [List.cons_append]
    cases escaped with
    | true => exact hstep false rfl (by rw [closeShort, if_neg (Ne.symm hc), if_pos rfl])
    | false =>
      by_cases hquote : c = quote
      · refine .inl ⟨1, Nat.succ_le_succ (Nat.zero_le _), ?_⟩
        rw [closeShort, if_neg (Ne.symm hc), if_neg Bool.false_ne_true, if_pos hquote]
      · refine hstep (decide (c = '\\')) rfl ?_
        rw [closeShort, if_neg (Ne.symm hc), if_neg Bool.false_ne_true, if_neg hquote]

/-- What a short literal takes: text on the line, and a quote that no backslash belongs to. -/
theorem exists_of_closeShort {quote : Char} {escaped : Bool} {s : List Char} {n : Nat}
    (h : closeShort quote escaped s = some n) :
    ∃ u rest, s = u ++ quote :: rest ∧ n = u.length + 1 ∧ '\n' ∉ u ∧
      escapedAfter escaped u = false := by
  induction s generalizing escaped n with
  | nil => cases h
  | cons c s ih =>
    have hnext : c ≠ '\n' → ∀ escaped', escapedAfter escaped [c] = escaped' →
        (closeShort quote escaped' s).map (· + 1) = some n →
        ∃ u rest, c :: s = u ++ quote :: rest ∧ n = u.length + 1 ∧ '\n' ∉ u ∧
          escapedAfter escaped u = false := by
      intro hc escaped' hafter h
      obtain ⟨m, hm, rfl⟩ := Option.map_eq_some_iff.mp h
      obtain ⟨u, rest, rfl, rfl, hu, hescaped⟩ := ih hm
      refine ⟨c :: u, rest, rfl, rfl, ?_, ?_⟩
      · exact List.not_mem_cons_of_ne_of_not_mem (Ne.symm hc) hu
      · rwa [← List.singleton_append, escapedAfter_append, hafter]
    rw [closeShort] at h
    split at h
    · cases h
    · next hc =>
      split at h
      · next hescaped => exact hnext hc false (by simp [escapedAfter, hescaped]) h
      · next hescaped =>
        rw [Bool.not_eq_true] at hescaped
        split at h
        · next hquote =>
          cases h
          exact ⟨[], s, by rw [hquote, List.nil_append], rfl, List.not_mem_nil, hescaped⟩
        · exact hnext hc _ (by simp [escapedAfter, hescaped]) h

/-- A closing quote is found where the pattern has one, or before. -/
theorem Closing.closeShort_le {quote : Char} {text body : List Char} {pairs : Nat}
    (h : Closing quote text body pairs) (hquote : isQuote quote = true) :
    ∃ n ≤ body.length + 2 * pairs + 1, closeShort quote false text = some n := by
  obtain ⟨⟨rest, rfl⟩, hbody, hlast⟩ := h
  have hslashes : '\n' ∉ body ++ List.replicate (2 * pairs) '\\' := by
    intro hmem
    rcases List.mem_append.mp hmem with hmem | hmem
    · exact hbody hmem
    · exact absurd (List.eq_of_mem_replicate hmem) (by decide)
  have hafter : escapedAfter false (body ++ List.replicate (2 * pairs) '\\') = false := by
    have hnone : body.getLast? ≠ some '\\' := by
      intro hbody
      refine hlast ?_
      rw [List.getLast?_cons, hbody]
      rfl
    rw [escapedAfter_append, escapedAfter_of_getLast hnone, escapedAfter_replicate]
    exact decide_eq_false (by omega)
  have hsplit : body ++ (List.replicate (2 * pairs) '\\' ++ [quote]) ++ rest =
      (body ++ List.replicate (2 * pairs) '\\') ++ quote :: rest := by simp
  have hlength : (body ++ List.replicate (2 * pairs) '\\').length = body.length + 2 * pairs := by
    simp
  rw [hsplit]
  rcases closeShort_append hslashes false (quote :: rest) with ⟨n, hn, h⟩ | h
  · exact ⟨n, by omega, h⟩
  · have hbreak : quote ≠ '\n' := by
      rintro rfl
      exact absurd hquote (by decide)
    refine ⟨body.length + 2 * pairs + 1, Nat.le_refl _, ?_⟩
    rw [h, hafter, closeShort, if_neg hbreak, if_neg Bool.false_ne_true, if_pos rfl, hlength,
      Option.map_some, Nat.add_comm]

/-- The quote that closes a literal is one that the pattern finds. -/
theorem exists_closing {quote : Char} {text : List Char} {n : Nat} (hquote : isQuote quote = true)
    (h : closeShort quote false text = some n) :
    ∃ body pairs, Closing quote text body pairs ∧ n = body.length + 2 * pairs + 1 := by
  obtain ⟨u, rest, rfl, rfl, hu, hescaped⟩ := exists_of_closeShort h
  -- the body is the text before the quote without the backslashes it ends with
  let body := u.rdropWhile (· = '\\')
  let slashes := u.rtakeWhile (· = '\\')
  have hsplit : u = body ++ slashes := List.rdropWhile_append_rtakeWhile.symm
  have hslashes : slashes = List.replicate slashes.length '\\' :=
    by
    refine List.eq_replicate_of_mem fun c hc => ?_
    have := List.mem_rtakeWhile_imp (p := fun c => decide (c = '\\')) hc
    exact of_decide_eq_true this
  have hlast : body.getLast? ≠ some '\\' := by
    intro hlast
    have hne : body ≠ [] := by
      intro hnil
      rw [hnil] at hlast
      cases hlast
    have := List.rdropWhile_last_not (fun c => decide (c = '\\')) u hne
    rw [List.getLast?_eq_some_getLast hne] at hlast
    exact this (decide_eq_true (Option.some.inj hlast))
  have heven : slashes.length % 2 ≠ 1 := by
    rw [hsplit, escapedAfter_append, escapedAfter_of_getLast hlast, hslashes,
      escapedAfter_replicate] at hescaped
    exact of_decide_eq_false hescaped
  have hpairs : 2 * (slashes.length / 2) = slashes.length := by omega
  refine ⟨body, slashes.length / 2, ⟨?_, ?_, ?_⟩, ?_⟩
  · rw [hpairs, ← hslashes]
    refine ⟨rest, ?_⟩
    rw [hsplit]
    simp
  · intro hmem
    exact hu (hsplit ▸ List.mem_append_left _ hmem)
  · rw [List.getLast?_cons]
    cases hbody : body.getLast? with
    | none =>
      rintro h
      cases h
      exact absurd hquote (by decide)
    | some c => exact hbody ▸ hlast
  · rw [hpairs, ← List.length_append, ← hsplit]

/-- Of two ways to read a closing quote, the one that takes no more has the body that is no longer:
behind its body there are only backslashes, and no body ends with one. -/
theorem Closing.length_le {quote : Char} {text body body' : List Char} {pairs pairs' : Nat}
    (h : Closing quote text body pairs) (h' : Closing quote text body' pairs')
    (hle : body.length + 2 * pairs ≤ body'.length + 2 * pairs') : body.length ≤ body'.length := by
  by_contra hlt
  obtain ⟨⟨rest, hrest⟩, _, hlast⟩ := h
  obtain ⟨⟨rest', hrest'⟩, _, _⟩ := h'
  have hread : text[body.length - 1]? = body.getLast? := by
    rw [← hrest, List.append_assoc, List.getElem?_append_left (by omega),
      List.getLast?_eq_getElem?]
  have hslash : text[body.length - 1]? = some '\\' := by
    rw [← hrest', List.append_assoc, List.getElem?_append_right (by omega), List.append_assoc,
      List.getElem?_append_left (by rw [List.length_replicate]; omega)]
    exact List.getElem?_replicate_of_lt (by omega)
  refine hlast ?_
  rw [List.getLast?_cons, ← hread, hslash]
  rfl

/-- Where a short literal closes, its pattern closes. -/
theorem closeShort_eq_some_iff {quote : Char} (hquote : isQuote quote = true) (text : List Char)
    (n : Nat) : closeShort quote false text = some n ↔ LazyClosing quote text n := by
  -- among the ways to read a closing quote, the one of the scanner comes first
  have hfirst : ∀ {m body pairs}, closeShort quote false text = some m →
      Closing quote text body pairs → m = body.length + 2 * pairs + 1 →
      ∀ body' pairs', Closing quote text body' pairs' →
        body.length < body'.length ∨ (body.length = body'.length ∧ pairs ≤ pairs') := by
    intro m body pairs hclose h hm body' pairs' h'
    obtain ⟨k, hk, hclose'⟩ := h'.closeShort_le hquote
    rw [hclose] at hclose'
    cases hclose'
    have := h.length_le h' (by omega)
    omega
  constructor
  · intro hclose
    obtain ⟨body, pairs, h, hn⟩ := exists_closing hquote hclose
    exact ⟨body, pairs, h, hn, hfirst hclose h hn⟩
  · rintro ⟨body, pairs, h, rfl, hleast⟩
    obtain ⟨m, _, hclose⟩ := h.closeShort_le hquote
    obtain ⟨body', pairs', h', hm⟩ := exists_closing hquote hclose
    have hle := hleast body' pairs' h'
    have hge := hfirst hclose h' hm body pairs h
    rw [hclose, hm]
    congr 1
    omega

/-- A short literal: a letter or none, a quote that two more do not follow, and what closes it. -/
theorem exists_of_stringAt {s : List Char} {n : Nat} (h : stringAt s = some (n, .string)) :
    ∃ mark quote rest m, s = mark ++ quote :: rest ∧ n = mark.length + 1 + m ∧
      mark.length ≤ 1 ∧ (∀ c ∈ mark, isStringMark c = true) ∧ isQuote quote = true ∧
      ¬ [quote, quote] <+: rest ∧ closeShort quote false rest = some m := by
  have hquoted : ∀ {s n}, quotedAt s = some (n, .string) → ∃ quote rest m, s = quote :: rest ∧
      n = m + 1 ∧ isQuote quote = true ∧ ¬ [quote, quote] <+: rest ∧
      closeShort quote false rest = some m := by
    intro s n h
    cases s with
    | nil => cases h
    | cons quote rest =>
      rw [quotedAt] at h
      split at h
      · cases h
      · next hquote =>
        split at h
        · obtain ⟨_, _, heq⟩ := Option.map_eq_some_iff.mp h
          cases heq
        · next htwo =>
          obtain ⟨m, hm, heq⟩ := Option.map_eq_some_iff.mp h
          cases heq
          refine ⟨quote, rest, m, rfl, rfl, by simpa using hquote, ?_, hm⟩
          exact fun hprefix => htwo (List.isPrefixOf_iff_prefix.mpr hprefix)
  cases s with
  | nil => cases h
  | cons c s =>
    rw [stringAt] at h
    split at h
    · next hmark =>
      obtain ⟨⟨k, kind⟩, hk, heq⟩ := Option.map_eq_some_iff.mp h
      cases heq
      obtain ⟨quote, rest, m, rfl, rfl, hquote, htwo, hm⟩ := hquoted hk
      refine ⟨[c], quote, rest, m, rfl, ?_, Nat.le_refl 1, by simpa using hmark, hquote, htwo, hm⟩
      rw [List.length_singleton]
      omega
    · obtain ⟨quote, rest, m, hs, rfl, hquote, htwo, hm⟩ := hquoted h
      exact ⟨[], quote, rest, m, hs, by rw [List.length_nil]; omega, Nat.zero_le 1,
        List.forall_mem_nil _, hquote, htwo, hm⟩

/-- A short literal stays on its line and ends with a quote. -/
theorem last_of_stringAt {s : List Char} {n : Nat} (h : stringAt s = some (n, .string)) :
    ∃ first quote, s.take n = first ++ [quote] ∧ isQuote quote = true ∧ '\n' ∉ first := by
  obtain ⟨mark, quote, rest, m, rfl, rfl, _, hmark, hquote, _, hclose⟩ := exists_of_stringAt h
  obtain ⟨u, tail, rfl, rfl, hu, _⟩ := exists_of_closeShort hclose
  refine ⟨mark ++ quote :: u, quote, ?_, hquote, ?_⟩
  · rw [Nat.add_assoc, List.take_length_add_append, Nat.add_comm 1, List.take_succ_cons,
      List.take_length_add_append]
    simp
  · have hfree : '\n' ∉ mark := fun hmem => absurd (hmark _ hmem) (by decide)
    have hne : '\n' ≠ quote := by
      rintro rfl
      exact absurd hquote (by decide)
    simp [hfree, hne, hu]

theorem newline_notMem_string {s : List Char} {n : Nat} (h : stringAt s = some (n, .string)) :
    '\n' ∉ s.take n := by
  obtain ⟨first, quote, htake, hquote, hfirst⟩ := last_of_stringAt h
  have hne : '\n' ≠ quote := by
    rintro rfl
    exact absurd hquote (by decide)
  rw [htake]
  simp [hfirst, hne]

end Lexeme

/-- A comment that ends a line, with the line end or without. -/
def Token.isComment (t : Token) : Bool := t.kind = .newline && t.text.toList.head? = some '#'

namespace LineScan

/-! ## The scan of a line, lexeme by lexeme -/

open Lexeme

/-- A character that the scan of a line passes by. -/
def isPlain (c : Char) : Bool := !isQuote c && c != '#'

theorem codeFrom_plain {text : List Char} (h : ∀ c ∈ text, isPlain c = true) (rest : List Char) :
    codeFrom none false (text ++ rest) = text ++ codeFrom none false rest := by
  induction text with
  | nil => rfl
  | cons c text ih =>
    have hc : ¬ (c = '\'' ∨ c = '"') ∧ c ≠ '#' := by
      have := h c List.mem_cons_self
      simp only [isPlain, isQuote, Bool.and_eq_true, Bool.not_eq_true', Bool.or_eq_false_iff,
        decide_eq_false_iff_not, bne_iff_ne] at this
      exact ⟨not_or.mpr this.1.symm, this.2⟩
    rw [List.cons_append, codeFrom]
    simp only [hc.1, hc.2, if_false]
    rw [ih fun d hd => h d (List.mem_cons_of_mem _ hd), List.cons_append]

theorem isPlain_of_isInk {c : Char} (h : isInk c = true) : isPlain c = true := by
  simp only [isInk, Bool.and_eq_true] at h
  simp only [isPlain, Bool.and_eq_true]
  exact ⟨h.1.1.2, h.1.2⟩

theorem isPlain_of_isGap {c : Char} (h : isGap c = true) : isPlain c = true := by
  simp only [isGap, Bool.or_eq_true, decide_eq_true_eq] at h
  rcases h with (rfl | rfl) | rfl <;> rfl

/-- A quote opens a string. -/
theorem codeFrom_quote {quote : Char} (h : isQuote quote = true) (rest : List Char) :
    codeFrom none false (quote :: rest) = quote :: codeFrom (some quote) false rest := by
  have hquote : quote = '\'' ∨ quote = '"' := by
    simpa [isQuote, or_comm] using h
  rw [codeFrom]
  simp only [hquote, if_true]

/-- A character of a string: the scan goes on in the state that the lexer goes on in. -/
theorem codeFrom_in_string {quote : Char} {escaped : Bool} {c : Char}
    (hc : escaped = true ∨ c ≠ quote) (rest : List Char) :
    codeFrom (some quote) escaped (c :: rest) =
      c :: codeFrom (some quote) (escapedAfter escaped [c]) rest := by
  rw [codeFrom]
  cases escaped with
  | true => simp [escapedAfter]
  | false =>
    have hc := hc.resolve_left Bool.false_ne_true
    by_cases hslash : c = '\\'
    · simp [escapedAfter, hslash]
    · simp [escapedAfter, hslash, hc]

section Quoted

variable {quote : Char} (hquote : isQuote quote = true)
include hquote

theorem codeFrom_closing (rest : List Char) :
    codeFrom (some quote) false (quote :: rest) = quote :: codeFrom none false rest := by
  have hslash : quote ≠ '\\' := by
    rintro rfl
    exact absurd hquote (by decide)
  rw [codeFrom]
  simp [hslash]

/-- The scan leaves a string where the lexer does. -/
theorem codeFrom_closeShort {escaped : Bool} {s : List Char} {n : Nat}
    (h : closeShort quote escaped s = some n) (rest : List Char) :
    codeFrom (some quote) escaped (s.take n ++ rest) = s.take n ++ codeFrom none false rest := by
  induction s generalizing escaped n with
  | nil => cases h
  | cons c s ih =>
    have hnext : ∀ escaped', escapedAfter escaped [c] = escaped' → (escaped = true ∨ c ≠ quote) →
        (closeShort quote escaped' s).map (· + 1) = some n →
        codeFrom (some quote) escaped ((c :: s).take n ++ rest) =
          (c :: s).take n ++ codeFrom none false rest := by
      intro escaped' hafter hc h
      obtain ⟨m, hm, rfl⟩ := Option.map_eq_some_iff.mp h
      rw [List.take_succ_cons, List.cons_append, codeFrom_in_string hc, hafter, ih hm,
        List.cons_append]
    rw [closeShort] at h
    split at h
    · cases h
    · split at h
      · next hescaped => exact hnext false (by simp [escapedAfter, hescaped]) (.inl hescaped) h
      · next hescaped =>
        rw [Bool.not_eq_true] at hescaped
        split at h
        · next hc =>
          cases h
          rw [hescaped, hc]
          exact codeFrom_closing hquote rest
        · next hc => exact hnext _ (by simp [escapedAfter, hescaped]) (.inr hc) h

/-- The scan stays in a string as long as the lexer does. -/
theorem codeFrom_before_close {escaped : Bool} {s : List Char} (hs : '\n' ∉ s) {m : Nat}
    (h : ∀ n, closeShort quote escaped s = some n → m < n) :
    codeFrom (some quote) escaped (s.take m ++ ['#']) = s.take m ++ ['#'] := by
  have hmark : ∀ escaped, codeFrom (some quote) escaped ['#'] = ['#'] := by
    intro escaped
    have hne : '#' ≠ quote := by
      rintro rfl
      exact absurd hquote (by decide)
    rw [codeFrom_in_string (.inr hne)]
    rfl
  induction s generalizing escaped m with
  | nil =>
    rw [List.take_nil]
    exact hmark escaped
  | cons c s ih =>
    cases m with
    | zero => exact hmark escaped
    | succ m =>
      obtain ⟨hbreak, hrest⟩ := List.ne_and_not_mem_of_not_mem_cons hs
      -- a closing quote here would leave less than the length that is asked for
      have hc : escaped = true ∨ c ≠ quote := by
        by_contra hnone
        rw [not_or, not_ne_iff, Bool.not_eq_true] at hnone
        have hclose : closeShort quote escaped (c :: s) = some 1 := by
          rw [closeShort, if_neg (Ne.symm hbreak), hnone.1, if_neg Bool.false_ne_true,
            if_pos hnone.2]
        exact absurd (h 1 hclose) (by omega)
      have hnext : closeShort quote escaped (c :: s) =
          (closeShort quote (escapedAfter escaped [c]) s).map (· + 1) := by
        rw [closeShort, if_neg (Ne.symm hbreak)]
        cases escaped with
        | true => rfl
        | false =>
          rw [if_neg Bool.false_ne_true, if_neg (hc.resolve_left Bool.false_ne_true)]
          rfl
      rw [List.take_succ_cons, List.cons_append, codeFrom_in_string hc, ih hrest]
      intro n hn
      have := h (n + 1) (by rw [hnext, hn, Option.map_some])
      omega

end Quoted

/-- The scan closes a string of that quote behind `n` characters: a number sign there begins a
comment, and behind fewer it does not. -/
def ClosesAt (quote : Char) (text : List Char) (n : Nat) : Prop :=
  n ≤ text.length ∧ codeFrom (some quote) false (text.take n ++ ['#']) = text.take n ∧
    ∀ m < n, codeFrom (some quote) false (text.take m ++ ['#']) = text.take m ++ ['#']

theorem closesAt_iff {quote : Char} (hquote : isQuote quote = true) {text : List Char}
    (htext : '\n' ∉ text) (n : Nat) :
    ClosesAt quote text n ↔ closeShort quote false text = some n := by
  constructor
  · rintro ⟨_, hclosed, hopen⟩
    -- the lexer closes neither before nor after
    have hsome : ∃ k, k ≤ n ∧ closeShort quote false text = some k := by
      by_contra hnone
      have hstays : codeFrom (some quote) false (text.take n ++ ['#']) = text.take n ++ ['#'] := by
        refine codeFrom_before_close hquote htext ?_
        intro k hk
        by_contra hle
        exact hnone ⟨k, by omega, hk⟩
      rw [hclosed] at hstays
      simpa using congrArg List.length hstays
    obtain ⟨k, hle, hk⟩ := hsome
    rcases Nat.lt_or_eq_of_le hle with hlt | rfl
    · have hcloses := codeFrom_closeShort hquote hk ['#']
      rw [hopen k hlt] at hcloses
      simpa [codeFrom] using congrArg List.length hcloses
    · exact hk
  · intro hn
    refine ⟨(closeShort_bounds hn).2, ?_, ?_⟩
    · rw [codeFrom_closeShort hquote hn]
      simp [codeFrom]
    · intro m hm
      refine codeFrom_before_close hquote htext ?_
      intro k hk
      rw [hn] at hk
      cases hk
      exact hm

theorem codeFrom_stringAt {s : List Char} {n : Nat} (h : stringAt s = some (n, .string))
    (tail : List Char) :
    codeFrom none false (s.take n ++ tail) = s.take n ++ codeFrom none false tail := by
  obtain ⟨mark, quote, rest, m, rfl, rfl, _, hmark, hquote, _, hclose⟩ := exists_of_stringAt h
  have htake : (mark ++ quote :: rest).take (mark.length + 1 + m) =
      mark ++ quote :: rest.take m := by
    rw [Nat.add_assoc, List.take_length_add_append, Nat.add_comm, List.take_succ_cons]
  have hplain : ∀ c ∈ mark, isPlain c = true := by
    intro c hc
    have := hmark c hc
    simp only [isStringMark, Bool.or_eq_true, decide_eq_true_eq, or_assoc] at this
    rcases this with rfl | rfl | rfl | rfl | rfl | rfl <;> rfl
  rw [htake, List.append_assoc, codeFrom_plain hplain, List.cons_append, codeFrom_quote hquote,
    codeFrom_closeShort hquote hclose, List.append_assoc, List.cons_append]

/-- Every lexeme that is neither a long literal nor a comment is code, and leaves no quote open. -/
theorem codeFrom_shape {s : List Char} {cls : Lexeme.Class} {n : Nat} (h : Shape s cls n)
    (hlong : cls ≠ .token .longString) (hbreak : cls ≠ .token .newline) (tail : List Char) :
    codeFrom none false (s.take n ++ tail) = s.take n ++ codeFrom none false tail := by
  cases h with
  | string h => exact codeFrom_stringAt h tail
  | longString => exact absurd rfl hlong
  | word _ _ h => exact codeFrom_plain (fun c hc => isPlain_of_isInk (h.2 c hc)) tail
  | separator h =>
    rw [h]
    rfl
  | lineBreak => exact absurd rfl hbreak
  | join h =>
    obtain ⟨blanks, rest, rfl, rfl, hblanks⟩ := exists_of_continuationAt h
    rw [List.take_succ_cons, List.take_length_add_append]
    refine codeFrom_plain ?_ tail
    intro c hc
    rcases List.mem_cons.mp hc with rfl | hc
    · rfl
    rcases List.mem_append.mp hc with hc | hc
    · rcases hblanks c hc with hgap | rfl
      · exact isPlain_of_isGap hgap
      · rfl
    · rw [List.mem_singleton.mp hc]
      rfl
  | gap h =>
    have htake : s.take (count isGap s) = s.takeWhile isGap :=
      (List.prefix_iff_eq_take.mp (List.takeWhile_prefix _)).symm
    rw [htake]
    refine codeFrom_plain ?_ tail
    intro c hc
    exact isPlain_of_isGap (List.all_eq_true.mp List.all_takeWhile c hc)

/-- The only line end without a line feed is a comment, and takes all that is left. -/
theorem comment_of_breakLength {s : List Char} (hs : '\n' ∉ s) (h : 0 < breakLength none s) :
    s.head? = some '#' ∧ breakLength none s = s.length := by
  have hrest : ∀ {text : List Char}, '\n' ∉ text → breakLength (some true) text = text.length := by
    intro text htext
    induction text with
    | nil => rfl
    | cons c text ih =>
      obtain ⟨hc, hrest⟩ := List.ne_and_not_mem_of_not_mem_cons htext
      rw [breakLength, if_neg (Ne.symm hc), if_pos rfl, ih hrest, List.length_cons, Nat.add_comm]
  cases s with
  | nil => exact absurd h (Nat.lt_irrefl 0)
  | cons c s =>
    obtain ⟨hc, hs⟩ := List.ne_and_not_mem_of_not_mem_cons hs
    by_cases hmark : c = '#'
    · rw [hmark, breakLength, if_neg (by decide), if_neg (by decide), if_pos rfl, hrest hs,
        List.length_cons, Nat.add_comm]
      exact ⟨rfl, rfl⟩
    · have hfeed : s.head? ≠ some '\n' := fun hhead => hs (List.mem_of_head? hhead)
      rw [breakLength, if_neg (Ne.symm hc), if_neg (by decide), if_neg hmark,
        if_neg fun hreturn => hfeed hreturn.2,
        if_neg fun hblank => absurd hblank.1 (by decide)] at h
      exact absurd h (Nat.lt_irrefl 0)

/-- A run of line ends and comments in a line without a line feed is a comment up to its end. -/
theorem comment_of_lexeme {text rest : List Char} (hline : '\n' ∉ text ++ rest)
    (h : lexeme (text ++ rest) = some (.token .newline, text.length)) :
    rest = [] ∧ ∃ comment, text = '#' :: comment := by
  obtain ⟨hlength, hpositive⟩ := breakLength_of_lexeme h
  obtain ⟨hhead, hwhole⟩ := comment_of_breakLength hline (hlength ▸ hpositive)
  have hrest : rest = [] := by
    rw [hlength, List.length_append] at hwhole
    exact List.eq_nil_of_length_eq_zero (by omega)
  rw [hrest, List.append_nil] at hhead
  exact ⟨hrest, text.tail, List.eq_cons_of_mem_head? hhead⟩

/-- The code of a line ends where the first comment among its tokens begins. -/
def EndsAtComment (here : Position) (line : List Char) (tokens : List Token) : Prop :=
  (∀ t, tokens.find? Token.isComment = some t →
    t.start = here.after (codeFrom none false line) ∧
      line = codeFrom none false line ++ t.text.toList) ∧
  (tokens.find? Token.isComment = none → codeFrom none false line = line)

/-- A lexeme in front that is code makes no difference. -/
theorem EndsAtComment.prepend {here : Position} {text rest : List Char} {tokens : List Token}
    (h : EndsAtComment (here.after text) rest tokens)
    (hcode : codeFrom none false (text ++ rest) = text ++ codeFrom none false rest) :
    EndsAtComment here (text ++ rest) tokens := by
  unfold EndsAtComment
  rw [hcode]
  refine ⟨?_, ?_⟩
  · intro t ht
    obtain ⟨hstart, hsplit⟩ := h.1 t ht
    exact ⟨by rw [hstart, Position.after_append], by rw [List.append_assoc, ← hsplit]⟩
  · intro ht
    rw [h.2 ht]

/-- On a line without a line feed and without a long literal, all lexemes but a comment are code. -/
theorem endsAtComment_of_reads {here : Position} {line : List Char} {tokens : List Token}
    (h : Lexer.Reads here line tokens) (hline : '\n' ∉ line)
    (hshort : ∀ t ∈ tokens, t.kind ≠ .longString) : EndsAtComment here line tokens := by
  induction h with
  | done =>
    refine ⟨?_, fun _ => rfl⟩
    intro t ht
    cases ht
  | @token here text rest kind tokens h hne hrest ih =>
    by_cases hkind : kind = .newline
    · -- the comment takes the rest of the line, so the code ends before it
      subst hkind
      obtain ⟨rfl, comment, rfl⟩ := comment_of_lexeme hline h
      have hcode : codeFrom none false ('#' :: comment ++ []) = [] := rfl
      unfold EndsAtComment
      rw [hcode, List.find?_cons_of_pos (by simp [Token.isComment])]
      refine ⟨?_, ?_⟩
      · intro t ht
        cases ht
        exact ⟨rfl, by simp⟩
      · intro ht
        cases ht
    · have hlong : kind ≠ .longString := hshort _ List.mem_cons_self
      have hcode :=
        codeFrom_shape (shape_lexeme h) (by simpa using hlong) (by simpa using hkind) rest
      rw [List.take_left' rfl] at hcode
      have hnext := ih (fun hmem => hline (List.mem_append_right _ hmem))
        fun t ht => hshort t (List.mem_cons_of_mem _ ht)
      unfold EndsAtComment
      rw [List.find?_cons_of_neg (by simp [Token.isComment, hkind])]
      exact hnext.prepend hcode
  | @skipped here text rest tokens h hne hrest ih =>
    have hcode := codeFrom_shape (shape_lexeme h) (by decide) (by decide) rest
    rw [List.take_left' rfl] at hcode
    exact (ih (fun hmem => hline (List.mem_append_right _ hmem)) hshort).prepend hcode

end LineScan

open LineScan Lexeme in
/-- The code of a line is what comes before its first comment, and all of the line if there is none.
Each string between closes where its pattern does, and so does the scan. -/
theorem codePart_ends_at_comment {line : List Char} (hline : '\n' ∉ line)
    (hfault : (Lexer.lex line).fault = none)
    (hshort : ∀ t ∈ (Lexer.lex line).tokens, t.kind ≠ .longString) :
    (∀ t, (Lexer.lex line).tokens.find? Token.isComment = some t →
      t.start = ⟨1, (codePart line).length⟩ ∧ line = codePart line ++ t.text.toList) ∧
    ((Lexer.lex line).tokens.find? Token.isComment = none → codePart line = line) ∧
    (∀ t ∈ (Lexer.lex line).tokens, t.kind = .string → ∃ before mark quote rest n,
      line = before ++ (mark ++ quote :: rest) ∧ t.start = ⟨1, before.length⟩ ∧
      t.text.toList = mark ++ quote :: rest.take n ∧ mark.length ≤ 1 ∧
      (∀ c ∈ mark, isStringMark c = true) ∧ isQuote quote = true ∧ ¬ [quote, quote] <+: rest ∧
      LazyClosing quote rest n ∧ ClosesAt quote rest n) ∧
    ∀ before quote rest, line = before ++ quote :: rest → isQuote quote = true →
      ∀ n, LazyClosing quote rest n ↔ ClosesAt quote rest n := by
  have hplace : ∀ {first rest : List Char}, line = first ++ rest →
      (⟨1, 0⟩ : Position).after first = ⟨1, first.length⟩ := by
    rintro first rest rfl
    rw [Position.after_of_notMem fun hmem => hline (List.mem_append_left _ hmem), Int.zero_add]
  have hpattern : ∀ {before : List Char} {quote : Char} {rest : List Char},
      line = before ++ quote :: rest → isQuote quote = true →
      ∀ n, LazyClosing quote rest n ↔ ClosesAt quote rest n := by
    rintro before quote rest rfl hquote n
    have hrest : '\n' ∉ rest := fun hmem =>
      hline (List.mem_append_right _ (List.mem_cons_of_mem _ hmem))
    rw [← closeShort_eq_some_iff hquote, closesAt_iff hquote hrest]
  obtain ⟨hcomment, hnone⟩ := endsAtComment_of_reads (Lexer.reads_scan hfault) hline hshort
  refine ⟨?_, hnone, ?_, fun before quote rest => hpattern⟩
  · intro t ht
    obtain ⟨hstart, hsplit⟩ := hcomment t ht
    exact ⟨by rw [hstart, hplace hsplit]; rfl, hsplit⟩
  · intro t ht hkind
    obtain ⟨before, tail, n, htail, hlexeme, htext, hstart, _⟩ := readFrom_of_mem_scan ht
    rw [hkind] at hlexeme
    have hstring : stringAt tail = some (n, .string) := by
      cases shape_lexeme hlexeme with
      | string h => exact h
      | word hkind => cases hkind
    obtain ⟨mark, quote, rest, m, rfl, rfl, hmark, hletters, hquote, htwo, hclose⟩ :=
      exists_of_stringAt hstring
    have hlazy := (closeShort_eq_some_iff hquote rest m).mp hclose
    have hwhole : line = (before ++ mark) ++ quote :: rest := by rw [htail, List.append_assoc]
    refine ⟨before, mark, quote, rest, m, htail, ?_, ?_, hmark, hletters, hquote, htwo, hlazy,
      (hpattern hwhole hquote m).mp hlazy⟩
    · rw [hstart, hplace htail]
    · rw [htext, String.toList_ofList, Nat.add_assoc, List.take_length_add_append, Nat.add_comm,
        List.take_succ_cons]

/-- Letters, escapes, a number sign and a quote of the other kind in strings, an empty string, and a
quote in the comment. -/
def quotedLine : List Char := "x = r\"a\\\\\" 'b#\\'\"' \"\" # it's".toList

theorem codePart_of_quotedLine :
    '\n' ∉ quotedLine ∧ (Lexer.lex quotedLine).fault = none ∧
    (∀ t ∈ (Lexer.lex quotedLine).tokens, t.kind ≠ .longString) ∧
    ∃ t, (Lexer.lex quotedLine).tokens.find? Token.isComment = some t ∧ t.text = "# it's" ∧
      t.start = ⟨1, (LineScan.codePart quotedLine).length⟩ ∧
      quotedLine = LineScan.codePart quotedLine ++ t.text.toList := by
  have hline : '\n' ∉ quotedLine := by decide
  have hfault : (Lexer.lex quotedLine).fault = none := by decide +kernel
  have hshort : ∀ t ∈ (Lexer.lex quotedLine).tokens, t.kind ≠ .longString := by decide +kernel
  have hcomment : (Lexer.lex quotedLine).tokens.find? Token.isComment =
      some ⟨.newline, "# it's", ⟨1, 22⟩, ⟨1, 28⟩⟩ := by decide +kernel
  obtain ⟨hstart, hsplit⟩ := (codePart_ends_at_comment hline hfault hshort).1 _ hcomment
  exact ⟨hline, hfault, hshort, _, hcomment, rfl, hstart, hsplit⟩

end ScopeLint
