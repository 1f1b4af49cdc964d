import Mathlib.Data.List.Basic
import ScopeLint.Proofs.Spelling

/-! # Lexemes and line ends

Most scanners stop at a line feed and see nothing behind it. A lexeme that ends
before a line feed is therefore the same whatever the lines below hold, and the
only lexemes that reach over one are strings, joined lines and line breaks. -/
namespace ScopeLint.Lexeme

/-! ## Scanners that stop at a line feed -/

theorem count_line {p : Char → Bool} (hp : p '\n' = false) (w v : List Char) :
    count p (w ++ '\n' :: v) = count p w := by
  induction w with
  | nil => simp [count, hp]
  | cons c w ih =>
    rw [List.cons_append, count, count, List.takeWhile_cons, List.takeWhile_cons]
    split
    · exact congrArg Nat.succ ih
    · rfl

theorem positive_eq_some {m n : Nat} (h : positive m = some n) : m = n := by
  unfold positive at h
  split at h
  · cases h
  · exact Option.some.inj h

theorem count_le (p : Char → Bool) (s : List Char) : count p s ≤ s.length :=
  (List.takeWhile_sublist p).length_le

theorem isPrefixOf_line {pattern : List Char} (hpattern : '\n' ∉ pattern) (w v : List Char) :
    pattern.isPrefixOf (w ++ '\n' :: v) = pattern.isPrefixOf w := by
  induction pattern generalizing w with
  | nil => simp
  | cons a pattern ih =>
    obtain ⟨ha, hrest⟩ := List.ne_and_not_mem_of_not_mem_cons hpattern
    cases w with
    | nil => simp [List.isPrefixOf, Ne.symm ha]
    | cons c w => simp [List.isPrefixOf, ih hrest]

theorem closeShort_line (quote : Char) (escaped : Bool) (w v : List Char) :
    closeShort quote escaped (w ++ '\n' :: v) = closeShort quote escaped w := by
  induction w generalizing escaped with
  | nil => simp [closeShort]
  | cons c w ih => simp only [List.cons_append, closeShort, ih]

theorem hexNumber_line (w v : List Char) : hexNumber (w ++ '\n' :: v) = hexNumber w := by
  match w with
  | [] => simp [hexNumber]
  | [c] => by_cases hc : c = '0' <;> simp [hexNumber, hc]
  | c :: x :: rest =>
    by_cases hc : c = '0'
    · simp only [List.cons_append, hexNumber, hc, count_line (p := isHexDigit) (by decide)]
    · simp [hexNumber, hc]

theorem exponent_line (w v : List Char) : exponent (w ++ '\n' :: v) = exponent w := by
  match w with
  | [] => simp [exponent]
  | [e] =>
    have hnone : count Text.isDecimalDigit ('\n' :: v) = 0 :=
      count_line (p := Text.isDecimalDigit) (by decide) [] v
    simp [exponent, hnone, show count Text.isDecimalDigit [] = 0 from rfl]
  | e :: c :: rest =>
    have hdrop : ((c :: rest) ++ '\n' :: v).drop (if c = '+' || c = '-' then 1 else 0) =
        (c :: rest).drop (if c = '+' || c = '-' then 1 else 0) ++ '\n' :: v := by
      split <;> rfl
    simp only [List.cons_append, exponent]
    rw [← List.cons_append, hdrop, count_line (p := Text.isDecimalDigit) (by decide)]

theorem fraction_line (w v : List Char) : fraction (w ++ '\n' :: v) = fraction w := by
  cases w with
  | nil => simp [fraction]
  | cons c rest =>
    by_cases hc : c = '.'
    · simp only [List.cons_append, fraction, hc, count_line (p := Text.isDecimalDigit) (by decide)]
    · simp [fraction, hc]

theorem fraction_le (s : List Char) : fraction s ≤ s.length := by
  unfold fraction
  split
  · next rest =>
    have := count_le Text.isDecimalDigit rest
    simp only [List.length_cons]
    omega
  · exact Nat.zero_le _

theorem exponent_le (s : List Char) : exponent s ≤ s.length := by
  match s with
  | [] => simp [exponent]
  | [e] => simp [exponent, show count Text.isDecimalDigit [] = 0 from rfl]
  | e :: c :: rest =>
    simp only [exponent]
    have hsign : (if (decide (c = '+') || decide (c = '-')) = true then 1 else 0) ≤ 1 := by
      split <;> decide
    generalize (if (decide (c = '+') || decide (c = '-')) = true then 1 else 0) = sign at hsign ⊢
    have hdigits := count_le Text.isDecimalDigit ((c :: rest).drop sign)
    rw [List.length_drop] at hdigits
    split
    · split
      · exact Nat.zero_le _
      · simp only [List.length_cons] at hdigits ⊢
        omega
    · exact Nat.zero_le _

theorem decimalNumber_line (w v : List Char) :
    decimalNumber (w ++ '\n' :: v) = decimalNumber w := by
  have hwhole := count_le Text.isDecimalDigit w
  have hpoint := fraction_le (w.drop (count Text.isDecimalDigit w))
  rw [List.length_drop] at hpoint
  simp only [decimalNumber, count_line (p := Text.isDecimalDigit) (by decide)]
  unfold positive
  split
  · rfl
  · simp only [Option.map_some]
    rw [List.drop_append_of_le_length hwhole, fraction_line,
      List.drop_append_of_le_length (by omega), exponent_line]

theorem numberAt_line (w v : List Char) : numberAt (w ++ '\n' :: v) = numberAt w := by
  rw [numberAt, numberAt, hexNumber_line, decimalNumber_line]

theorem nameAt_line (w v : List Char) : nameAt (w ++ '\n' :: v) = nameAt w := by
  cases w with
  | nil => simp [nameAt, isNameStart]
  | cons c w => simp only [List.cons_append, nameAt, count_line (p := isNameChar) (by decide)]

theorem operatorAt_line (w v : List Char) : operatorAt (w ++ '\n' :: v) = operatorAt w := by
  have hsolid : ∀ entry ∈ Token.operators, '\n' ∉ entry.1.toList := by decide
  have hfind : ∀ entries : List (String × Kind), (∀ entry ∈ entries, '\n' ∉ entry.1.toList) →
      (entries.find? fun entry => entry.1.toList.isPrefixOf (w ++ '\n' :: v)) =
        entries.find? fun entry => entry.1.toList.isPrefixOf w := by
    intro entries h
    induction entries with
    | nil => rfl
    | cons entry entries ih =>
      have hentry := isPrefixOf_line (h entry List.mem_cons_self) w v
      simp only [List.find?_cons, hentry, ih fun e he => h e (List.mem_cons_of_mem _ he)]
  rw [operatorAt, operatorAt, hfind _ hsolid]

theorem numberAt_le {s : List Char} {n : Nat} (h : numberAt s = some n) : n ≤ s.length := by
  rcases of_orElse h with h | h
  · unfold hexNumber at h
    split at h
    · next x rest _ =>
      have hdigits := count_le isHexDigit rest
      split at h
      · unfold positive at h
        split at h
        · cases h
        · cases h
          simp only [List.length_cons]
          omega
      · cases h
    · cases h
  · unfold decimalNumber positive at h
    split at h
    · cases h
    · cases h
      have hwhole := count_le Text.isDecimalDigit s
      have hpoint := fraction_le (s.drop (count Text.isDecimalDigit s))
      have hexponent := exponent_le (s.drop (count Text.isDecimalDigit s +
        fraction (s.drop (count Text.isDecimalDigit s))))
      rw [List.length_drop] at hpoint hexponent
      dsimp only
      omega

theorem nameAt_le {s : List Char} {n : Nat} (h : nameAt s = some n) : n ≤ s.length := by
  cases s with
  | nil => cases h
  | cons c rest =>
    have hchars := count_le isNameChar rest
    rw [nameAt] at h
    split at h
    · cases h
      simp only [List.length_cons]
      omega
    · cases h

theorem operatorAt_le {s : List Char} {n : Nat} {kind : Kind}
    (h : operatorAt s = some (n, kind)) : n ≤ s.length := by
  obtain ⟨⟨text, _⟩, hfind, h⟩ := Option.map_eq_some_iff.mp h
  cases h
  have hfound := List.find?_some hfind
  have hprefix : text.toList <+: s := List.isPrefixOf_iff_prefix.mp hfound
  rw [← String.length_toList]
  exact hprefix.length_le

/-! ## Scanners that look at the line feed -/

/-- A joined line ends with its line feed. -/
theorem continuationAt_line (w v v' : List Char) :
    continuationAt (w ++ '\n' :: v) = continuationAt (w ++ '\n' :: v') := by
  cases w with
  | nil => simp [continuationAt]
  | cons c w =>
    by_cases hc : c = '\\'
    · simp only [List.cons_append, continuationAt, hc, count_line (p := isGap) (by decide),
        List.drop_append_of_le_length (count_le isGap w)]
      match w.drop (count isGap w) with
      | [] => rfl
      | [a] => by_cases ha : a = '\r' <;> by_cases hb : a = '\n' <;> simp [ha, hb]
      | a :: b :: rest =>
        by_cases ha : a = '\r' <;> by_cases hb : a = '\n' <;> by_cases hr : b = '\n' <;>
          simp [ha, hb, hr]
    · simp [continuationAt, hc]

theorem head_of_continuationAt {w v : List Char} {n : Nat}
    (h : continuationAt (w ++ '\n' :: v) = some n) : w.head? = some '\\' := by
  cases w with
  | nil => simp [continuationAt] at h
  | cons c w =>
    by_cases hc : c = '\\'
    · rw [hc]
      rfl
    · simp [continuationAt, hc] at h

/-- A run of line ends and comments stops before a line feed, or goes on behind it. -/
theorem breakLength_line (inside : Option Bool) (w : List Char) :
    (∃ n ≤ w.length, ∀ v, breakLength inside (w ++ '\n' :: v) = n) ∨
      ∀ v, breakLength inside (w ++ '\n' :: v) = w.length + 1 + breakLength (some false) v := by
  induction w generalizing inside with
  | nil =>
    right
    intro v
    simp [breakLength]
  | cons c w ih =>
    have hhead : ∀ v, (w ++ '\n' :: v).head? = w.head?.or (some '\n') := by
      intro v
      rw [List.head?_append, List.head?_cons]
    -- one more character of the run, whatever state it leaves the scanner in
    have hstep : ∀ inside', (∀ v, breakLength inside (c :: (w ++ '\n' :: v)) =
          1 + breakLength inside' (w ++ '\n' :: v)) →
        (∃ n ≤ (c :: w).length, ∀ v, breakLength inside (c :: (w ++ '\n' :: v)) = n) ∨
          ∀ v, breakLength inside (c :: (w ++ '\n' :: v)) =
            (c :: w).length + 1 + breakLength (some false) v := by
      intro inside' h
      rcases ih inside' with ⟨n, hn, hrest⟩ | hrest
      · refine .inl ⟨1 + n, ?_, ?_⟩
        · simp only [List.length_cons]
          omega
        · intro v
          rw [h, hrest]
      · right
        intro v
        rw [h, hrest, List.length_cons]
        omega
    simp only [List.cons_append]
    by_cases hbreak : c = '\n'
    · exact hstep (some false) fun v => by simp [breakLength, hbreak]
    by_cases hcomment : inside = some true
    · exact hstep (some true) fun v => by simp [breakLength, hbreak, hcomment]
    by_cases hmark : c = '#'
    · exact hstep (some true) fun v => by simp [breakLength, hmark]
    by_cases hreturn : c = '\r' ∧ w.head?.or (some '\n') = some '\n'
    · exact hstep none fun v => by
        rw [breakLength, if_neg hbreak, if_neg hcomment, if_neg hmark, hhead, if_pos hreturn]
    by_cases hblank : inside = some false ∧ isIndentation c = true
    · exact hstep (some false) fun v => by
        rw [breakLength, if_neg hbreak, if_neg hcomment, if_neg hmark, hhead, if_neg hreturn,
          if_pos hblank]
    · refine .inl ⟨0, Nat.zero_le _, ?_⟩
      intro v
      rw [breakLength, if_neg hbreak, if_neg hcomment, if_neg hmark, hhead, if_neg hreturn,
        if_neg hblank]

theorem breakLength_in_comment {text : List Char} (htext : '\n' ∉ text) (v : List Char) :
    breakLength (some true) (text ++ '\n' :: v) = text.length + 1 + breakLength (some false) v := by
  induction text with
  | nil => simp [breakLength]
  | cons c text ih =>
    obtain ⟨hc, hrest⟩ := List.ne_and_not_mem_of_not_mem_cons htext
    rw [List.cons_append, breakLength, if_neg (Ne.symm hc), if_pos rfl, ih hrest, List.length_cons]
    omega

/-- At the beginning of a line, a run of line ends and comments takes a line that holds nothing but
a comment. -/
theorem breakLength_comment {blanks text : List Char}
    (hblanks : ∀ c ∈ blanks, isIndentation c = true) (htext : '\n' ∉ text) (v : List Char) :
    breakLength (some false) (blanks ++ '#' :: (text ++ '\n' :: v)) =
      (blanks ++ '#' :: text).length + 1 + breakLength (some false) v := by
  induction blanks with
  | nil =>
    rw [List.nil_append, List.nil_append, breakLength, if_neg (by decide), if_neg (by decide),
      if_pos rfl, breakLength_in_comment htext, List.length_cons]
    omega
  | cons c blanks ih =>
    have hc : c = '\t' ∨ c = ' ' := by simpa [isIndentation] using hblanks c List.mem_cons_self
    have hstep : ∀ rest,
        breakLength (some false) (c :: rest) = 1 + breakLength (some false) rest := by
      intro rest
      rcases hc with rfl | rfl <;> rfl
    rw [List.cons_append, hstep, ih fun d hd => hblanks d (List.mem_cons_of_mem _ hd),
      List.cons_append, List.length_cons]
    omega

/-! ## Strings -/

theorem three_le_closeLong {quote : Char} {escaped : Bool} {s : List Char} {n : Nat}
    (h : closeLong quote escaped s = some n) : 3 ≤ n := by
  induction s generalizing escaped n with
  | nil => cases h
  | cons c s ih =>
    rw [closeLong] at h
    split at h
    · obtain ⟨m, hm, rfl⟩ := Option.map_eq_some_iff.mp h
      exact Nat.le_succ_of_le (ih hm)
    · split at h
      · cases h
        exact Nat.le_refl 3
      · obtain ⟨m, hm, rfl⟩ := Option.map_eq_some_iff.mp h
        exact Nat.le_succ_of_le (ih hm)

/-- Where a long literal closes depends on its own characters only. -/
theorem closeLong_congr {quote : Char} {escaped : Bool} {s s' : List Char} {n : Nat}
    (h : closeLong quote escaped s = some n) (htake : s'.take n = s.take n) :
    closeLong quote escaped s' = some n := by
  induction s generalizing escaped n s' with
  | nil => cases h
  | cons c s ih =>
    have hpositive := three_le_closeLong h
    obtain ⟨m, rfl⟩ : ∃ m, n = m + 1 := ⟨n - 1, by omega⟩
    cases s' with
    | nil => cases htake
    | cons c' s' =>
      have hfirst : [quote, quote, quote].isPrefixOf (c' :: s') =
          [quote, quote, quote].isPrefixOf (c :: s) := by
        have hthree : (c' :: s').take 3 = (c :: s).take 3 := by
          have := congrArg (List.take 3) htake
          rwa [List.take_take, List.take_take, Nat.min_eq_left hpositive] at this
        rw [Bool.eq_iff_iff, List.isPrefixOf_iff_prefix, List.isPrefixOf_iff_prefix,
          List.prefix_iff_eq_take, List.prefix_iff_eq_take]
        simp only [List.length_cons, List.length_nil]
        rw [hthree]
      rw [List.take_succ_cons, List.take_succ_cons] at htake
      obtain ⟨rfl, hrest⟩ := List.cons.inj htake
      rw [closeLong] at h ⊢
      rw [hfirst]
      split at h
      · next hescaped =>
        obtain ⟨k, hk, hm⟩ := Option.map_eq_some_iff.mp h
        cases hm
        rw [if_pos hescaped, ih hk hrest, Option.map_some]
      · next hescaped =>
        rw [if_neg hescaped]
        split at h
        · next hclosed => rw [if_pos hclosed, h]
        · next hopen =>
          obtain ⟨k, hk, hm⟩ := Option.map_eq_some_iff.mp h
          cases hm
          rw [if_neg hopen, ih hk hrest, Option.map_some]

theorem quotedAt_line {w v : List Char} {n : Nat} {kind : Kind}
    (h : quotedAt (w ++ '\n' :: v) = some (n, kind)) (hn : n ≤ w.length) (v' : List Char) :
    quotedAt (w ++ '\n' :: v') = some (n, kind) := by
  cases w with
  | nil => simp [quotedAt, isQuote] at h
  | cons quote rest =>
    rw [List.cons_append, quotedAt] at h ⊢
    split at h
    · cases h
    · next hquote =>
      have hsolid : '\n' ∉ [quote, quote] := by
        intro hmem
        have heq : '\n' = quote := by simpa using hmem
        rw [← heq] at hquote
        exact hquote rfl
      rw [if_neg hquote]
      rw [isPrefixOf_line hsolid] at h ⊢
      split at h
      · next htwo =>
        obtain ⟨m, hm, heq⟩ := Option.map_eq_some_iff.mp h
        cases heq
        simp only [List.length_cons] at hn
        have htake : ((rest ++ '\n' :: v').drop 2).take m =
            ((rest ++ '\n' :: v).drop 2).take m := by
          rw [List.drop_append_of_le_length (by omega), List.drop_append_of_le_length (by omega),
            List.take_append_of_le_length (by rw [List.length_drop]; omega),
            List.take_append_of_le_length (by rw [List.length_drop]; omega)]
        rw [if_pos htwo, closeLong_congr hm htake, Option.map_some]
      · next htwo =>
        rw [closeShort_line] at h ⊢
        rw [if_neg htwo, h]

theorem stringAt_line {w v : List Char} {n : Nat} {kind : Kind}
    (h : stringAt (w ++ '\n' :: v) = some (n, kind)) (hn : n ≤ w.length) (v' : List Char) :
    stringAt (w ++ '\n' :: v') = some (n, kind) := by
  cases w with
  | nil => simp [stringAt, isStringMark, quotedAt, isQuote] at h
  | cons c rest =>
    rw [List.cons_append, stringAt] at h ⊢
    split at h
    · next hmark =>
      obtain ⟨⟨m, k⟩, hm, heq⟩ := Option.map_eq_some_iff.mp h
      cases heq
      rw [if_pos hmark, quotedAt_line hm (by simpa using hn), Option.map_some]
    · next hmark =>
      rw [if_neg hmark]
      exact quotedAt_line (w := c :: rest) h hn v'

/-- A quote begins a string or nothing. -/
theorem lexeme_of_quote {quote : Char} (h : isQuote quote = true) (rest : List Char) :
    lexeme (quote :: rest) =
      (quotedAt (quote :: rest)).map fun (n, kind) => (.token kind, n) := by
  have hquote : quote = '"' ∨ quote = '\'' := by simpa [isQuote] using h
  have hnone : numberAt (quote :: rest) = none ∧ nameAt (quote :: rest) = none ∧
      breakLength none (quote :: rest) = 0 ∧ continuationAt (quote :: rest) = none ∧
      count isGap (quote :: rest) = 0 ∧ operatorAt (quote :: rest) = none := by
    rcases hquote with rfl | rfl <;> exact ⟨rfl, rfl, rfl, rfl, rfl, rfl⟩
  have hstring : stringAt (quote :: rest) = quotedAt (quote :: rest) := by
    rcases hquote with rfl | rfl <;> rfl
  obtain ⟨hnumber, hname, hbreak, hjoin, hgap, hoperator⟩ := hnone
  rw [lexeme, hstring, hnumber, hname, hbreak, hjoin, hgap, hoperator]
  cases quotedAt (quote :: rest) <;> rfl

/-- A letter before a quote that opens no string is a name. -/
theorem lexeme_of_mark {c quote : Char} (hc : isStringMark c = true) (hquote : isQuote quote = true)
    {rest : List Char} (h : quotedAt (quote :: rest) = none) :
    lexeme (c :: quote :: rest) = some (.token (wordKind [c]), 1) := by
  have hmark : c = 'r' ∨ c = 'R' ∨ c = 'b' ∨ c = 'B' ∨ c = 'u' ∨ c = 'U' := by
    simpa [isStringMark, or_assoc] using hc
  have hstring : stringAt (c :: quote :: rest) = none := by
    rw [stringAt, if_pos hc, h]
    rfl
  have hnumber : numberAt (c :: quote :: rest) = none := by
    rcases hmark with rfl | rfl | rfl | rfl | rfl | rfl <;> rfl
  have hname : nameAt (c :: quote :: rest) = some 1 := by
    have hstop : count isNameChar (quote :: rest) = 0 := by
      have : quote = '"' ∨ quote = '\'' := by simpa [isQuote] using hquote
      rcases this with rfl | rfl <;> rfl
    have hstart : isNameStart c = true := by
      rcases hmark with rfl | rfl | rfl | rfl | rfl | rfl <;> rfl
    rw [nameAt, if_pos hstart, hstop]
  rw [lexeme, hstring, hnumber, hname]
  rfl

theorem quotedAt_eq_none {c : Char} (h : isQuote c = false) (rest : List Char) :
    quotedAt (c :: rest) = none := by
  simp [quotedAt, h]

/-- Nothing below the line turns into the end of a literal what was none before: a quote that opens
no string is no lexeme at all, and the letter before it is a name of its own. -/
theorem stringAt_none_line {w v : List Char} {cls : Class} {n : Nat}
    (hlexeme : lexeme (w ++ '\n' :: v) = some (cls, n))
    (hnext : n ≤ w.length → lexeme ((w ++ '\n' :: v).drop n) ≠ none)
    (h : stringAt (w ++ '\n' :: v) = none) (v' : List Char) :
    stringAt (w ++ '\n' :: v') = none := by
  cases w with
  | nil => simp [stringAt, isStringMark, quotedAt, isQuote]
  | cons c w =>
    rw [List.cons_append, stringAt] at h ⊢
    cases hmark : isStringMark c with
    | false =>
      rw [hmark] at h
      cases hquote : isQuote c with
      | false => simp [quotedAt_eq_none hquote]
      | true =>
        rw [List.cons_append, lexeme_of_quote hquote] at hlexeme
        simp only [Bool.false_eq_true, if_false] at h
        rw [h] at hlexeme
        cases hlexeme
    | true =>
      simp only [hmark, if_true, Option.map_eq_none_iff] at h ⊢
      cases w with
      | nil => exact quotedAt_eq_none rfl v'
      | cons quote w =>
        cases hquote : isQuote quote with
        | false => exact quotedAt_eq_none hquote _
        | true =>
          rw [List.cons_append] at h
          rw [List.cons_append, List.cons_append, lexeme_of_mark hmark hquote h] at hlexeme
          cases hlexeme
          refine absurd ?_ (hnext (by simp))
          simp only [List.cons_append, List.drop_succ_cons, List.drop_zero]
          rw [lexeme_of_quote hquote, h, Option.map_none]

/-- A lexeme that ends before a line feed does not depend on the lines below. -/
theorem lexeme_line {w v : List Char} {cls : Class} {n : Nat}
    (h : lexeme (w ++ '\n' :: v) = some (cls, n)) (hn : n ≤ w.length)
    (hnext : lexeme ((w ++ '\n' :: v).drop n) ≠ none) (v' : List Char) :
    lexeme (w ++ '\n' :: v') = some (cls, n) := by
  cases hstring : stringAt (w ++ '\n' :: v) with
  | some found =>
    obtain ⟨m, kind⟩ := found
    rw [lexeme, hstring] at h
    cases h
    rw [lexeme, stringAt_line hstring hn v']
    rfl
  | none =>
    have hstring' := stringAt_none_line h (fun _ => hnext) hstring v'
    rw [lexeme, hstring, numberAt_line, nameAt_line, continuationAt_line w v v',
      count_line (p := isGap) (by decide), operatorAt_line] at h
    rw [lexeme, hstring', numberAt_line, nameAt_line, count_line (p := isGap) (by decide),
      operatorAt_line]
    cases hnumber : numberAt w with
    | some m =>
      rw [hnumber] at h
      exact h
    | none =>
      cases hname : nameAt w with
      | some m =>
        rw [hnumber, hname] at h
        have htake : (w ++ '\n' :: v').take m = (w ++ '\n' :: v).take m := by
          rw [List.take_append_of_le_length (nameAt_le hname),
            List.take_append_of_le_length (nameAt_le hname)]
        cases h
        rw [← htake]
        rfl
      | none =>
        rw [hnumber, hname] at h
        rcases breakLength_line none w with ⟨m, _, hbreak⟩ | hbreak
        · rw [hbreak] at h ⊢
          exact h
        · rw [hbreak, positive, if_neg (by omega)] at h
          cases h
          omega

theorem stringAt_of_breakLength {c : Char} {rest : List Char}
    (h : breakLength none (c :: rest) ≠ 0) (rest' : List Char) :
    stringAt (c :: rest') = none := by
  have hc : c = '\n' ∨ c = '#' ∨ c = '\r' := by
    rw [breakLength] at h
    grind
  rcases hc with rfl | rfl | rfl <;> rfl

theorem lexeme_line_feed (v : List Char) :
    lexeme ('\n' :: v) = some (.token .newline, 1 + breakLength (some false) v) := by
  have hbreak : breakLength none ('\n' :: v) = 1 + breakLength (some false) v := rfl
  have hnone : stringAt ('\n' :: v) = none ∧ numberAt ('\n' :: v) = none ∧
      nameAt ('\n' :: v) = none := ⟨rfl, rfl, rfl⟩
  rw [lexeme, hnone.1, hnone.2.1, hnone.2.2, hbreak, positive, if_neg (by omega)]
  rfl

/-- A lexeme over a line feed is a string, a joined line or a run of line ends and comments. The
last goes on with the next line as it comes. -/
theorem lexeme_over_line {w v : List Char} {cls : Class} {n : Nat}
    (h : lexeme (w ++ '\n' :: v) = some (cls, n)) (hn : w.length < n) :
    (cls = .token .string ∨ cls = .token .longString) ∨
      (cls = .skipped ∧ w.head? = some '\\') ∨
      (cls = .token .newline ∧ ∀ v', lexeme (w ++ '\n' :: v') =
        some (.token .newline, w.length + 1 + breakLength (some false) v')) := by
  cases hstring : stringAt (w ++ '\n' :: v) with
  | some found =>
    obtain ⟨m, kind⟩ := found
    rw [lexeme, hstring] at h
    cases h
    rcases kind_stringAt hstring with rfl | rfl
    · exact .inl (.inl rfl)
    · exact .inl (.inr rfl)
  | none =>
    rw [lexeme, hstring, numberAt_line, nameAt_line, count_line (p := isGap) (by decide),
      operatorAt_line] at h
    cases hnumber : numberAt w with
    | some m =>
      rw [hnumber] at h
      cases h
      exact absurd (numberAt_le hnumber) (Nat.not_le_of_lt hn)
    | none =>
      cases hname : nameAt w with
      | some m =>
        rw [hnumber, hname] at h
        cases h
        exact absurd (nameAt_le hname) (Nat.not_le_of_lt hn)
      | none =>
        rw [hnumber, hname] at h
        rcases breakLength_line none w with ⟨m, hm, hbreak⟩ | hbreak
        · -- the run ends on the line, so the lexeme is one of the scanners after it
          rw [hbreak] at h
          have h := of_orElse h |>.resolve_left nofun
          have h := of_orElse h |>.resolve_left nofun
          have h := of_orElse h |>.resolve_left nofun
          rcases of_orElse h with h | h
          · obtain ⟨_, hpositive, heq⟩ := Option.map_eq_some_iff.mp h
            cases heq
            cases positive_eq_some hpositive
            omega
          rcases of_orElse h with h | h
          · obtain ⟨_, hjoin, heq⟩ := Option.map_eq_some_iff.mp h
            cases heq
            exact .inr (.inl ⟨rfl, head_of_continuationAt hjoin⟩)
          rcases of_orElse h with h | h
          · obtain ⟨_, hpositive, heq⟩ := Option.map_eq_some_iff.mp h
            cases heq
            cases positive_eq_some hpositive
            exact absurd (count_le isGap w) (Nat.not_le_of_lt hn)
          · obtain ⟨⟨_, _⟩, hoperator, heq⟩ := Option.map_eq_some_iff.mp h
            cases heq
            exact absurd (operatorAt_le hoperator) (Nat.not_le_of_lt hn)
        · rw [hbreak, positive, if_neg (by omega)] at h
          cases h
          refine .inr (.inr ⟨rfl, ?_⟩)
          intro v'
          have hstring' : stringAt (w ++ '\n' :: v') = none := by
            cases w with
            | nil => rfl
            | cons c w =>
              have hsome : breakLength none (c :: (w ++ '\n' :: v)) ≠ 0 := by
                rw [← List.cons_append, hbreak]
                omega
              exact stringAt_of_breakLength hsome _
          rw [lexeme, hstring', numberAt_line, nameAt_line, hnumber, hname, hbreak, positive,
            if_neg (by omega)]
          rfl

end ScopeLint.Lexeme
