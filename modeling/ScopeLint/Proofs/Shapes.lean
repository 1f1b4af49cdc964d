import ScopeLint.Proofs.Insertion
import ScopeLint.Proofs.Places
import ScopeLint.Text.Blank

/-! # What a lexeme looks like

Names, numbers and operators are written in ink: no blank, no quote and no number
sign. So a quote stands in a string or in a comment, a number sign in a string or
at the head of a comment, and a semicolon outside both is a token of its own. -/
namespace ScopeLint.Lexeme

/-! ## Ink -/

/-- A character that is part of a name, a number or an operator other than a semicolon. -/
def isInk (c : Char) : Bool := !Text.isBlank c && !isQuote c && c != '#' && c != ';'

/-- A check of every character below a bound settles it for the characters below that bound. -/
theorem forall_char_lt {p : Char → Bool} {k : Nat}
    (h : (List.range k).all (fun n => p (Char.ofNat n)) = true) {c : Char}
    (hc : c.toNat < k) : p c = true := by
  have := List.all_eq_true.mp h c.toNat (List.mem_range.mpr hc)
  rwa [Char.ofNat_toNat] at this

theorem isInk_of_isNameChar {c : Char} (h : isNameChar c = true) : isInk c = true := by
  have hsmall : c.toNat < 128 := by
    delta isNameChar isNameStart Char.isAlpha Char.isUpper Char.isLower at h
    simp only [Char.isDigit, Bool.or_eq_true, Bool.and_eq_true, decide_eq_true_eq,
      UInt32.le_iff_toNat_le] at h
    rcases h with (((h | h) | rfl) | rfl) | h
    · exact Nat.lt_of_le_of_lt h.2 (by decide)
    · exact Nat.lt_of_le_of_lt h.2 (by decide)
    · decide
    · decide
    · exact Nat.lt_of_le_of_lt h.2 (by decide)
  have hall := forall_char_lt (p := fun c => !isNameChar c || isInk c) (k := 128)
    (by decide +kernel) hsmall
  simpa [h] using hall

theorem isInk_of_isHexDigit {c : Char} (h : isHexDigit c = true) : isInk c = true := by
  have hsmall : c.toNat < 128 := by
    simp only [isHexDigit, Char.isDigit, Bool.or_eq_true, Bool.and_eq_true, decide_eq_true_eq,
      Char.le_def, UInt32.le_iff_toNat_le] at h
    rcases h with (h | h) | h
    · exact Nat.lt_of_le_of_lt h.2 (by decide)
    · exact Nat.lt_of_le_of_lt h.2 (by decide)
    · exact Nat.lt_of_le_of_lt h.2 (by decide)
  have hall := forall_char_lt (p := fun c => !isHexDigit c || isInk c) (k := 128)
    (by decide +kernel) hsmall
  simpa [h] using hall

theorem isInk_of_isDecimalDigit {c : Char} (h : Text.isDecimalDigit c = true) :
    isInk c = true := by
  have hall : (Text.digitZeros.all fun first =>
      (List.range 10).all fun k => isInk (Char.ofNat (first + k))) = true := by decide +kernel
  obtain ⟨first, hfirst, hrange⟩ := List.any_eq_true.mp h
  simp only [Bool.and_eq_true, decide_eq_true_eq] at hrange
  have hdigit := List.all_eq_true.mp (List.all_eq_true.mp hall first hfirst) (c.toNat - first)
    (List.mem_range.mpr (by omega))
  rwa [Nat.add_sub_cancel' hrange.1, Char.ofNat_toNat] at hdigit

/-! ## Words -/

/-- A text begins with `n` characters of ink. -/
def Inked (s : List Char) (n : Nat) : Prop := n ≤ s.length ∧ ∀ c ∈ s.take n, isInk c = true

theorem Inked.zero (s : List Char) : Inked s 0 := ⟨Nat.zero_le _, by simp⟩

theorem Inked.cons {c : Char} (hc : isInk c = true) {s : List Char} {n : Nat} (h : Inked s n) :
    Inked (c :: s) (n + 1) := by
  refine ⟨Nat.succ_le_succ h.1, ?_⟩
  intro d hd
  rw [List.take_succ_cons] at hd
  rcases List.mem_cons.mp hd with rfl | hd
  · exact hc
  · exact h.2 d hd

theorem Inked.add {s : List Char} {m n : Nat} (h : Inked s m) (h' : Inked (s.drop m) n) :
    Inked s (m + n) := by
  have hle := h'.1
  rw [List.length_drop] at hle
  refine ⟨by have := h.1; omega, ?_⟩
  intro c hc
  rw [List.take_add] at hc
  rcases List.mem_append.mp hc with hc | hc
  · exact h.2 c hc
  · exact h'.2 c hc

theorem inked_count {p : Char → Bool} (hp : ∀ c, p c = true → isInk c = true) (s : List Char) :
    Inked s (count p s) := by
  have htake : s.take (count p s) = s.takeWhile p :=
    (List.prefix_iff_eq_take.mp (List.takeWhile_prefix _)).symm
  refine ⟨count_le p s, ?_⟩
  rw [htake]
  intro c hc
  exact hp c (List.all_eq_true.mp List.all_takeWhile c hc)

theorem inked_digits (s : List Char) : Inked s (count Text.isDecimalDigit s) :=
  inked_count (fun _ => isInk_of_isDecimalDigit) s

theorem inked_fraction (s : List Char) : Inked s (fraction s) := by
  unfold fraction
  split
  · next rest =>
    rw [Nat.add_comm]
    exact (inked_digits rest).cons rfl
  · exact .zero s

theorem inked_exponent (s : List Char) : Inked s (exponent s) := by
  match s with
  | [] => exact .zero []
  | [e] => simp [exponent, show count Text.isDecimalDigit [] = 0 from rfl, Inked]
  | e :: c :: rest =>
    simp only [exponent]
    split
    · next he =>
      have hmark : isInk e = true := by
        simp only [Bool.or_eq_true, decide_eq_true_eq] at he
        rcases he with rfl | rfl <;> rfl
      split
      · exact .zero _
      · rw [Nat.add_assoc, Nat.add_comm 1]
        refine Inked.cons hmark (Inked.add ?_ (inked_digits _))
        split
        · next hsign =>
          simp only [Bool.or_eq_true, decide_eq_true_eq] at hsign
          refine Inked.cons ?_ (.zero rest)
          rcases hsign with rfl | rfl <;> rfl
        · exact .zero _
    · exact .zero _

theorem positive_pos {m n : Nat} (h : positive m = some n) : m = n ∧ 0 < n := by
  have heq := positive_eq_some h
  refine ⟨heq, Nat.pos_of_ne_zero ?_⟩
  rintro rfl
  rw [heq] at h
  cases h

theorem inked_numberAt {s : List Char} {n : Nat} (h : numberAt s = some n) : 0 < n ∧ Inked s n := by
  rcases of_orElse h with h | h
  · unfold hexNumber at h
    split at h
    · next x rest _ =>
      split at h
      · next hx =>
        obtain ⟨digits, hdigits, rfl⟩ := Option.map_eq_some_iff.mp h
        have hmark : isInk x = true := by
          simp only [Bool.or_eq_true, decide_eq_true_eq] at hx
          rcases hx with rfl | rfl <;> rfl
        rw [← positive_eq_some hdigits]
        exact ⟨by omega, .cons rfl (.cons hmark (inked_count (fun _ => isInk_of_isHexDigit) rest))⟩
      · cases h
    · cases h
  · obtain ⟨whole, hwhole, rfl⟩ := Option.map_eq_some_iff.mp h
    obtain ⟨rfl, hpositive⟩ := positive_pos hwhole
    refine ⟨by dsimp only; omega, ?_⟩
    exact ((inked_digits s).add (inked_fraction _)).add (inked_exponent _)

theorem inked_nameAt {s : List Char} {n : Nat} (h : nameAt s = some n) : 0 < n ∧ Inked s n := by
  obtain ⟨hne, hchars⟩ := take_nameAt h
  refine ⟨Nat.pos_of_ne_zero ?_, nameAt_le h, fun c hc => isInk_of_isNameChar (hchars c hc)⟩
  rintro rfl
  exact hne rfl

/-! ## All lexemes -/

/-- The kinds that are written in ink. -/
def isWord : Kind → Bool
  | .string | .longString | .newline | .separator => false
  | _ => true

theorem isWord_wordKind (word : List Char) : isWord (wordKind word) = true := by
  rcases wordKind_cases word with h | h
  · rw [h]
    rfl
  · have hall : ∀ entry ∈ Token.keywords, isWord entry.2 = true := by decide
    exact hall _ h

/-- What the first `n` characters of a text look like if they are a lexeme. -/
inductive Shape (s : List Char) : Class → Nat → Prop
  | string {n : Nat} (h : stringAt s = some (n, .string)) : Shape s (.token .string) n
  | longString {n : Nat} (h : stringAt s = some (n, .longString)) : Shape s (.token .longString) n
  | word {kind : Kind} {n : Nat} (hkind : isWord kind = true) (hn : 0 < n) (h : Inked s n) :
      Shape s (.token kind) n
  | separator {rest : List Char} (h : s = ';' :: rest) : Shape s (.token .separator) 1
  | lineBreak (h : 0 < breakLength none s) : Shape s (.token .newline) (breakLength none s)
  | join {n : Nat} (h : continuationAt s = some n) : Shape s .skipped n
  | gap (h : 0 < count isGap s) : Shape s .skipped (count isGap s)

theorem shape_operatorAt {s : List Char} {n : Nat} {kind : Kind}
    (h : operatorAt s = some (n, kind)) : Shape s (.token kind) n := by
  have hall : ∀ entry ∈ Token.operators, entry = (";", .separator) ∨
      (isWord entry.2 = true ∧ 0 < entry.1.toList.length ∧
        entry.1.toList.all isInk = true) := by decide
  have hle := operatorAt_le h
  obtain ⟨text, hmem, htext⟩ := spelled_operatorAt h
  have hlength : text.toList.length = n := by
    rw [htext, List.length_take, Nat.min_eq_left hle]
  rcases hall _ hmem with heq | ⟨hkind, hpositive, hink⟩
  · cases heq
    cases hlength
    have hsemicolon : s.take 1 = [';'] := htext.symm
    have hs : s = ';' :: s.drop 1 := by
      conv_lhs => rw [← List.take_append_drop 1 s, hsemicolon]
      rfl
    exact .separator hs
  · rw [hlength] at hpositive
    refine .word hkind hpositive ⟨hle, ?_⟩
    rw [← htext]
    exact List.all_eq_true.mp hink

/-- The scanner that a lexeme comes from. -/
theorem shape_lexeme {s : List Char} {cls : Class} {n : Nat} (h : lexeme s = some (cls, n)) :
    Shape s cls n := by
  rcases of_orElse h with h | h
  · obtain ⟨⟨_, _⟩, hstring, h⟩ := Option.map_eq_some_iff.mp h
    cases h
    rcases kind_stringAt hstring with rfl | rfl
    · exact .string hstring
    · exact .longString hstring
  rcases of_orElse h with h | h
  · obtain ⟨_, hnumber, h⟩ := Option.map_eq_some_iff.mp h
    cases h
    exact .word rfl (inked_numberAt hnumber).1 (inked_numberAt hnumber).2
  rcases of_orElse h with h | h
  · obtain ⟨_, hname, h⟩ := Option.map_eq_some_iff.mp h
    cases h
    exact .word (isWord_wordKind _) (inked_nameAt hname).1 (inked_nameAt hname).2
  rcases of_orElse h with h | h
  · obtain ⟨_, hbreak, h⟩ := Option.map_eq_some_iff.mp h
    cases h
    obtain ⟨rfl, hpositive⟩ := positive_pos hbreak
    exact .lineBreak hpositive
  rcases of_orElse h with h | h
  · obtain ⟨_, hjoin, h⟩ := Option.map_eq_some_iff.mp h
    cases h
    exact .join hjoin
  rcases of_orElse h with h | h
  · obtain ⟨_, hgap, h⟩ := Option.map_eq_some_iff.mp h
    cases h
    obtain ⟨rfl, hpositive⟩ := positive_pos hgap
    exact .gap hpositive
  · obtain ⟨⟨_, _⟩, hoperator, h⟩ := Option.map_eq_some_iff.mp h
    cases h
    exact shape_operatorAt hoperator

theorem breakLength_of_lexeme {s : List Char} {n : Nat}
    (h : lexeme s = some (.token .newline, n)) : breakLength none s = n ∧ 0 < n := by
  cases shape_lexeme h with
  | word hkind => cases hkind
  | lineBreak hpositive => exact ⟨rfl, hpositive⟩

/-! ## Lengths -/

theorem closeShort_bounds {quote : Char} {escaped : Bool} {s : List Char} {n : Nat}
    (h : closeShort quote escaped s = some n) : 0 < n ∧ n ≤ s.length := by
  induction s generalizing escaped n with
  | nil => cases h
  | cons c s ih =>
    have hnext : ∀ {escaped : Bool}, (closeShort quote escaped s).map (· + 1) = some n →
        0 < n ∧ n ≤ (c :: s).length := by
      intro escaped h
      obtain ⟨m, hm, rfl⟩ := Option.map_eq_some_iff.mp h
      exact ⟨Nat.succ_pos m, Nat.succ_le_succ (ih hm).2⟩
    rw [closeShort] at h
    split at h
    · cases h
    · split at h
      · exact hnext h
      · split at h
        · cases h
          exact ⟨Nat.one_pos, Nat.succ_le_succ (Nat.zero_le _)⟩
        · exact hnext h

theorem closeLong_le {quote : Char} {escaped : Bool} {s : List Char} {n : Nat}
    (h : closeLong quote escaped s = some n) : n ≤ s.length := by
  induction s generalizing escaped n with
  | nil => cases h
  | cons c s ih =>
    have hnext : ∀ {escaped : Bool}, (closeLong quote escaped s).map (· + 1) = some n →
        n ≤ (c :: s).length := by
      intro escaped h
      obtain ⟨m, hm, rfl⟩ := Option.map_eq_some_iff.mp h
      exact Nat.succ_le_succ (ih hm)
    rw [closeLong] at h
    split at h
    · exact hnext h
    · split at h
      · next hthree =>
        cases h
        exact (List.isPrefixOf_iff_prefix.mp hthree).length_le
      · exact hnext h

theorem quotedAt_bounds {s : List Char} {n : Nat} {kind : Kind}
    (h : quotedAt s = some (n, kind)) : 0 < n ∧ n ≤ s.length := by
  cases s with
  | nil => cases h
  | cons quote rest =>
    rw [quotedAt] at h
    split at h
    · cases h
    · split at h
      · next htwo =>
        obtain ⟨m, hm, heq⟩ := Option.map_eq_some_iff.mp h
        cases heq
        have htwo := (List.isPrefixOf_iff_prefix.mp htwo).length_le
        have hle := closeLong_le hm
        simp only [List.length_drop, List.length_cons, List.length_nil] at htwo hle ⊢
        omega
      · obtain ⟨m, hm, heq⟩ := Option.map_eq_some_iff.mp h
        cases heq
        exact ⟨Nat.succ_pos m, Nat.succ_le_succ (closeShort_bounds hm).2⟩

theorem stringAt_bounds {s : List Char} {n : Nat} {kind : Kind}
    (h : stringAt s = some (n, kind)) : 0 < n ∧ n ≤ s.length := by
  cases s with
  | nil => cases h
  | cons c rest =>
    rw [stringAt] at h
    split at h
    · obtain ⟨⟨m, k⟩, hm, heq⟩ := Option.map_eq_some_iff.mp h
      cases heq
      exact ⟨Nat.succ_pos m, Nat.succ_le_succ (quotedAt_bounds hm).2⟩
    · exact quotedAt_bounds h

theorem breakLength_le (inside : Option Bool) (s : List Char) :
    breakLength inside s ≤ s.length := by
  fun_induction breakLength inside s with
  | case1 => exact Nat.le_refl 0
  | case7 => exact Nat.zero_le _
  | _ => simp only [List.length_cons]; omega

/-- A joined line: a backslash, blanks, a line feed. -/
theorem exists_of_continuationAt {s : List Char} {n : Nat} (h : continuationAt s = some n) :
    ∃ blanks rest, s = '\\' :: (blanks ++ '\n' :: rest) ∧ n = blanks.length + 2 ∧
      ∀ c ∈ blanks, isGap c = true ∨ c = '\r' := by
  unfold continuationAt at h
  split at h
  · next rest =>
    have hgap : rest = rest.takeWhile isGap ++ rest.drop (count isGap rest) := by
      have htake := List.prefix_iff_eq_take.mp (List.takeWhile_prefix isGap (l := rest))
      conv_lhs => rw [← List.take_append_drop (count isGap rest) rest]
      rw [htake]
      rfl
    have hall : ∀ c ∈ rest.takeWhile isGap, isGap c = true := List.all_eq_true.mp List.all_takeWhile
    dsimp only at h
    split at h
    · next tail htail =>
      cases h
      refine ⟨rest.takeWhile isGap, tail, ?_, rfl, fun c hc => .inl (hall c hc)⟩
      conv_lhs => rw [hgap, htail]
    · next tail htail =>
      cases h
      refine ⟨rest.takeWhile isGap ++ ['\r'], tail, ?_, ?_, ?_⟩
      · conv_lhs => rw [hgap, htail]
        simp
      · simp [count]
      · intro c hc
        rcases List.mem_append.mp hc with hc | hc
        · exact .inl (hall c hc)
        · exact .inr (List.mem_singleton.mp hc)
    · cases h
  · cases h

theorem Shape.bounds {s : List Char} {cls : Class} {n : Nat} (h : Shape s cls n) :
    0 < n ∧ n ≤ s.length := by
  cases h with
  | string h => exact stringAt_bounds h
  | longString h => exact stringAt_bounds h
  | word _ hn h => exact ⟨hn, h.1⟩
  | separator h =>
    rw [h]
    exact ⟨Nat.one_pos, Nat.succ_le_succ (Nat.zero_le _)⟩
  | lineBreak h => exact ⟨h, breakLength_le none s⟩
  | join h =>
    obtain ⟨blanks, rest, rfl, rfl, _⟩ := exists_of_continuationAt h
    simp only [List.length_cons, List.length_append]
    omega
  | gap h => exact ⟨h, count_le isGap s⟩

end ScopeLint.Lexeme

/-! ## Texts without a fault -/

namespace ScopeLint.Lexer

/-- A text is cut into lexemes to its end, and these are its tokens. -/
inductive Reads : Position → List Char → List Token → Prop
  | done (here : Position) : Reads here [] []
  | token {here : Position} {text rest : List Char} {kind : Kind} {tokens : List Token}
      (h : Lexeme.lexeme (text ++ rest) = some (.token kind, text.length)) (hne : text ≠ [])
      (hrest : Reads (here.after text) rest tokens) :
      Reads here (text ++ rest) (⟨kind, String.ofList text, here, here.after text⟩ :: tokens)
  | skipped {here : Position} {text rest : List Char} {tokens : List Token}
      (h : Lexeme.lexeme (text ++ rest) = some (.skipped, text.length)) (hne : text ≠ [])
      (hrest : Reads (here.after text) rest tokens) : Reads here (text ++ rest) tokens

theorem scan_of_skipped {here : Position} {text : List Char} {n : Nat}
    (h : Lexeme.lexeme text = some (.skipped, n)) (hn : n ≠ 0) :
    scan here 0 text = scan (here.after (text.take n)) 0 (text.drop n) := by
  cases text with
  | nil => cases h
  | cons c rest =>
    obtain ⟨m, rfl⟩ := Nat.exists_eq_succ_of_ne_zero hn
    rw [scan_zero, h]
    exact scan_skip (here.advance c) m rest

theorem reads_scan {here : Position} {text : List Char} (h : (scan here 0 text).fault = none) :
    Reads here text (scan here 0 text).tokens := by
  induction hlength : text.length using Nat.strongRecOn generalizing here text with
  | ind length ih =>
    cases hlexeme : Lexeme.lexeme text with
    | none =>
      cases text with
      | nil => exact .done here
      | cons c rest =>
        rw [scan_zero, hlexeme] at h
        cases h
    | some found =>
      obtain ⟨cls, n⟩ := found
      obtain ⟨hpositive, hle⟩ := (Lexeme.shape_lexeme hlexeme).bounds
      have htake : (text.take n).length = n := List.length_take_of_le hle
      have hne : text.take n ≠ [] := List.ne_nil_of_length_pos (by rwa [htake])
      have hshorter : (text.drop n).length < length := by
        rw [List.length_drop]
        omega
      have hwhole : Lexeme.lexeme (text.take n ++ text.drop n) =
          some (cls, (text.take n).length) := by
        rw [List.take_append_drop, htake, hlexeme]
      cases cls with
      | skipped =>
        rw [scan_of_skipped hlexeme (Nat.ne_of_gt hpositive)] at h ⊢
        have hrest := Reads.skipped hwhole hne (ih _ hshorter h rfl)
        rwa [List.take_append_drop] at hrest
      | token kind =>
        rw [scan_of_token hlexeme (Nat.ne_of_gt hpositive)] at h ⊢
        have hrest := Reads.token hwhole hne (ih _ hshorter h rfl)
        rwa [List.take_append_drop] at hrest

end ScopeLint.Lexer
