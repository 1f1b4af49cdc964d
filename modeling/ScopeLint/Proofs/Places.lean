import ScopeLint.Proofs.Spelling
import ScopeLint.Text.Lines

/-! # Where names are written

A place counts lines and columns while the text is read; the lines of a text are
its pieces between line feeds. A stretch without a line feed lies on one line, at
the column where its place says, and a name token is such a stretch. -/
namespace ScopeLint

/-- A name is written at a place: on one line of the text, between two columns. -/
def WrittenAt (text : List Char) (name : String) (span : Span) : Prop :=
  ∃ (line : Nat) (left right : List Char),
    (Text.splitAt '\n' text)[line]? = some (left ++ name.toList ++ right) ∧
    span = .between ⟨line + 1, left.length⟩ ⟨line + 1, left.length + name.length⟩

theorem Text.splitAt_append {sep : Char} {word : List Char} (h : sep ∉ word) (rest : List Char) :
    ∃ piece pieces, splitAt sep (word ++ rest) = (word ++ piece) :: pieces := by
  induction word with
  | nil =>
    cases rest with
    | nil => exact ⟨[], [], rfl⟩
    | cons c rest =>
      simp only [List.nil_append, splitAt]
      split
      · exact ⟨[], _, rfl⟩
      · split <;> exact ⟨_, _, rfl⟩
  | cons c word ih =>
    simp only [List.mem_cons, not_or] at h
    obtain ⟨piece, pieces, hrest⟩ := ih h.2
    refine ⟨piece, pieces, ?_⟩
    rw [List.cons_append, splitAt, if_neg (Ne.symm h.1), hrest]
    rfl

theorem Position.after_of_notMem {word : List Char} (h : '\n' ∉ word) (p : Position) :
    p.after word = ⟨p.line, p.col + word.length⟩ := by
  induction word generalizing p with
  | nil => simp [after]
  | cons c word ih =>
    simp only [List.mem_cons, not_or] at h
    have hadvance : p.advance c = ⟨p.line, p.col + 1⟩ := by rw [advance, if_neg (Ne.symm h.1)]
    show (p.advance c).after word = _
    rw [ih h.2, hadvance]
    simp only [List.length_cons, Position.mk.injEq, true_and]
    omega

/-- A stretch without a line feed lies on a line of the text. Reading up to it from a place leads to
that line, and to its column there. -/
theorem Text.line_of_word {word : List Char} (h : '\n' ∉ word) (before rest : List Char)
    (p : Position) :
    ∃ (line : Nat) (left right : List Char),
      (splitAt '\n' (before ++ (word ++ rest)))[line]? = some (left ++ word ++ right) ∧
      p.after before = ⟨p.line + line, (if line = 0 then p.col else 0) + left.length⟩ := by
  induction before generalizing p with
  | nil =>
    obtain ⟨piece, pieces, hsplit⟩ := splitAt_append h rest
    refine ⟨0, [], piece, ?_, ?_⟩
    · rw [List.nil_append, hsplit]
      rfl
    · simp [Position.after]
  | cons c before ih =>
    obtain ⟨line, left, right, hline, hafter⟩ := ih (p.advance c)
    have hstep : p.after (c :: before) = (p.advance c).after before := rfl
    rw [hstep, hafter, List.cons_append, splitAt]
    by_cases hc : c = '\n'
    · -- the line feed ends the line of `p`, and the count of lines and columns starts anew
      refine ⟨line + 1, left, right, ?_, ?_⟩
      · rw [if_pos hc]
        exact hline
      · simp only [Position.advance, if_pos hc, ite_self, Nat.add_one_ne_zero, if_false]
        congr 1
        omega
    · rw [if_neg hc]
      simp only [Position.advance, if_neg hc]
      cases hsplit : splitAt '\n' (before ++ (word ++ rest)) with
      | nil =>
        rw [hsplit] at hline
        cases hline
      | cons piece pieces =>
        rw [hsplit] at hline
        cases line with
        | zero =>
          refine ⟨0, c :: left, right, ?_, ?_⟩
          · cases hline
            rfl
          · simp only [if_true, List.length_cons]
            congr 1
            omega
        | succ line => exact ⟨line + 1, left, right, hline, rfl⟩

/-! ## Name tokens -/

namespace Lexeme

theorem take_nameAt {s : List Char} {n : Nat} (h : nameAt s = some n) :
    s.take n ≠ [] ∧ ∀ c ∈ s.take n, isNameChar c = true := by
  cases s with
  | nil => cases h
  | cons c rest =>
    rw [nameAt] at h
    split at h
    · next hstart =>
      cases h
      rw [Nat.add_comm, List.take_succ_cons]
      have htake : rest.take (count isNameChar rest) = rest.takeWhile isNameChar :=
        (List.prefix_iff_eq_take.mp (List.takeWhile_prefix _)).symm
      rw [htake]
      refine ⟨List.cons_ne_nil _ _, ?_⟩
      intro d hd
      rcases List.mem_cons.mp hd with rfl | hd
      · simp [isNameChar, hstart]
      · exact List.all_eq_true.mp List.all_takeWhile d hd
    · cases h

theorem nameAt_of_name {s : List Char} {n : Nat} (h : lexeme s = some (.token .name, n)) :
    nameAt s = some n := by
  rcases lexeme_token h with hfree | ⟨hname, _⟩ | ⟨text, hmem, _⟩
  · cases hfree
  · exact hname
  · have hkind : ∀ entry ∈ Token.operators, entry.2 ≠ .name := by decide
    exact absurd rfl (hkind _ hmem)

end Lexeme

/-- A word in a text with its last line ended is in the text itself. -/
theorem split_of_endLine {text before word rest : List Char} (hword : word ≠ [])
    (hbreak : '\n' ∉ word) (h : endLine text = before ++ (word ++ rest)) :
    ∃ rest, text = before ++ (word ++ rest) := by
  unfold endLine at h
  split at h
  · exact ⟨rest, h⟩
  · rcases List.eq_nil_or_concat rest with rfl | ⟨rest, c, rfl⟩
    · -- the word would end with the line feed
      obtain ⟨first, c, rfl⟩ := (List.eq_nil_or_concat word).resolve_left hword
      have hlast : text ++ ['\n'] = (before ++ first) ++ [c] := by simpa using h
      have hc : '\n' = c := List.singleton_inj.mp (List.append_inj' hlast rfl).2
      exact absurd (hc ▸ by simp) hbreak
    · have hlast : text ++ ['\n'] = (before ++ (word ++ rest)) ++ [c] := by simpa using h
      exact ⟨rest, (List.append_inj' hlast rfl).1⟩

/-- A name token of a source stands where its name is written. -/
theorem writtenAt_tokenize {text : List Char} {t : Token}
    (h : t ∈ (tokenize (endLine text)).tokens) (hkind : t.kind = .name) :
    WrittenAt text t.text t.span := by
  rcases mem_tokenize h with h | h
  · obtain ⟨before, tail, n, htext, hlexeme, hspelled, hstart, hstop⟩ := readFrom_of_mem_scan h
    rw [hkind] at hlexeme
    obtain ⟨hword, hchars⟩ := Lexeme.take_nameAt (Lexeme.nameAt_of_name hlexeme)
    have hbreak : '\n' ∉ tail.take n := fun hmem => absurd (hchars _ hmem) (by decide)
    rw [← tail.take_append_drop n] at htext
    obtain ⟨rest, htext⟩ := split_of_endLine hword hbreak htext
    obtain ⟨line, left, right, hline, hafter⟩ := Text.line_of_word hbreak before rest ⟨1, 0⟩
    have hplace : t.start = ⟨line + 1, left.length⟩ := by
      rw [hstart, hafter]
      simp only [ite_self, Int.zero_add]
      congr 1
      omega
    refine ⟨line, left, right, ?_, ?_⟩
    · rw [htext, hspelled, String.toList_ofList]
      exact hline
    · rw [Token.span, hstop, Position.after_of_notMem hbreak, hplace, hspelled,
        ← String.length_toList, String.toList_ofList]
  · rw [hkind] at h
    cases h

end ScopeLint
