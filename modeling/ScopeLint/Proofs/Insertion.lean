import ScopeLint.Proofs.Linewise
import ScopeLint.Proofs.Moved
import ScopeLint.Proofs.Relocation

/-! # Tokens of a text with one more comment line

A comment line that comes in before a line is taken by the line end before it, if
that line end is a token of its own and not part of a string or a joined line. All
tokens then stay what they are, and those below stand one line further down. -/
namespace ScopeLint

/-! ## Places further down -/

/-- The number of a line after one more has come in before line `k`. -/
def pushDown (k n : Int) : Int := if k ≤ n then n + 1 else n

abbrev Position.pushDown (k : Int) : Position → Position :=
  Position.renumber (ScopeLint.pushDown k)

namespace Position

theorem pushDown_of_lt {k : Int} {p : Position} (h : p.line < k) : p.pushDown k = p := by
  rw [pushDown, renumber, ScopeLint.pushDown, if_neg (by omega)]

theorem pushDown_of_le {k : Int} {p : Position} (h : k ≤ p.line) :
    p.pushDown k = ⟨p.line + 1, p.col⟩ := by
  rw [pushDown, renumber, ScopeLint.pushDown, if_pos h]

theorem after_append (p : Position) (first second : List Char) :
    p.after (first ++ second) = (p.after first).after second := List.foldl_append

theorem line_after (p : Position) (text : List Char) :
    (p.after text).line = p.line + text.count '\n' := by
  induction text generalizing p with
  | nil => simp [after]
  | cons c text ih =>
    have hstep : p.after (c :: text) = (p.advance c).after text := rfl
    rw [hstep, ih, advance]
    split
    · next hc =>
      rw [hc, List.count_cons_self]
      push_cast
      omega
    · next hc => rw [List.count_cons_of_ne hc]

theorem line_le_after (p : Position) (text : List Char) : p.line ≤ (p.after text).line := by
  rw [line_after]
  omega

theorem advance_pushDown {k : Int} {p : Position} (h : k ≤ p.line) (c : Char) :
    (p.pushDown k).advance c = (p.advance c).pushDown k := by
  have hadvance : k ≤ (p.advance c).line := Int.le_trans h (line_le_after p [c])
  rw [pushDown_of_le h, pushDown_of_le hadvance, advance, advance]
  split <;> rfl

theorem after_pushDown {k : Int} {p : Position} (h : k ≤ p.line) (text : List Char) :
    (p.pushDown k).after text = (p.after text).pushDown k := by
  induction text generalizing p with
  | nil => rfl
  | cons c text ih =>
    have hadvance : k ≤ (p.advance c).line := Int.le_trans h (line_le_after p [c])
    calc (p.pushDown k).after (c :: text) = ((p.pushDown k).advance c).after text := rfl
      _ = ((p.advance c).after text).pushDown k := by rw [advance_pushDown h, ih hadvance]

theorem after_line_feed (p : Position) (text : List Char) :
    p.after (text ++ ['\n']) = ⟨(p.after text).line + 1, 0⟩ := by
  rw [after_append]
  rfl

theorem line_lt_after (p : Position) (text : List Char) :
    p.line < (p.after (text ++ ['\n'])).line := by
  have := p.line_le_after text
  rw [after_line_feed]
  dsimp only
  omega

end Position

theorem Text.lastPiece_append (sep : Char) (s word : List Char) :
    lastPiece sep (s ++ sep :: word) = lastPiece sep word := by
  have hstop : ∀ before after : List Char, (after ++ sep :: before).takeWhile (· ≠ sep) =
      after.takeWhile (· ≠ sep) := by
    intro before after
    induction after with
    | nil => simp
    | cons c after ih => rw [List.cons_append, List.takeWhile_cons, List.takeWhile_cons, ih]
  simp only [lastPiece, List.reverse_append, List.reverse_cons, List.append_assoc]
  exact congrArg List.reverse (hstop _ _)

namespace Lexer

/-! ## Pieces of a text -/

/-- A lexeme of a text, also one that is no token. -/
structure Piece where
  cls : Lexeme.Class
  text : List Char
  start : Position
  stop : Position
deriving DecidableEq, Repr

namespace Piece

def isString (p : Piece) : Bool := p.cls = .token .string || p.cls = .token .longString

/-- A backslash that joins a line to the next; the only other skipped pieces are gaps. -/
def isJoin (p : Piece) : Bool := p.cls = .skipped && p.text.head? = some '\\'

/-- A line begins inside the piece or right after it, and the piece on a line before. -/
def Reaches (p : Piece) (line : Int) : Prop := p.start.line < line ∧ line ≤ p.stop.line

instance (p : Piece) (line : Int) : Decidable (p.Reaches line) :=
  inferInstanceAs (Decidable (_ ∧ _))

def token? (p : Piece) : Option Token :=
  match p.cls with
  | .token kind => some ⟨kind, String.ofList p.text, p.start, p.stop⟩
  | .skipped => none

end Piece

/-- The pieces of a text from `here` on, up to the first character that begins none. -/
def pieces (here : Position) : Nat → List Char → List Piece
  | _, [] => []
  | skip + 1, c :: rest => pieces (here.advance c) skip rest
  | 0, c :: rest =>
    match Lexeme.lexeme (c :: rest) with
    | none => []
    | some (cls, n) =>
      let text := (c :: rest).take n
      ⟨cls, text, here, here.after text⟩ :: pieces (here.advance c) (n - 1) rest

/-! ## Scanning on -/

-- The first step of each function is stated by itself, so that nothing has to open a lexeme.

theorem pieces_zero (here : Position) (c : Char) (rest : List Char) :
    pieces here 0 (c :: rest) = match Lexeme.lexeme (c :: rest) with
      | none => []
      | some (cls, n) => ⟨cls, (c :: rest).take n, here, here.after ((c :: rest).take n)⟩ ::
          pieces (here.advance c) (n - 1) rest := by rfl

theorem scan_zero (here : Position) (c : Char) (rest : List Char) :
    scan here 0 (c :: rest) = match Lexeme.lexeme (c :: rest) with
      | none => .failed (.badCharacter c here)
      | some (.skipped, n) => scan (here.advance c) (n - 1) rest
      | some (.token kind, n) => .cons ⟨kind, String.ofList ((c :: rest).take n), here,
          here.after ((c :: rest).take n)⟩ (scan (here.advance c) (n - 1) rest) := by rfl

theorem scan_cons {here : Position} {c : Char} {rest : List Char} {cls : Lexeme.Class} {n : Nat}
    (h : Lexeme.lexeme (c :: rest) = some (cls, n)) :
    scan here 0 (c :: rest) = .prepend
      (Piece.token? ⟨cls, (c :: rest).take n, here, here.after ((c :: rest).take n)⟩).toList
      (scan (here.advance c) (n - 1) rest) := by
  rw [scan_zero, h]
  cases cls <;> rfl

theorem scan_skip (here : Position) (skip : Nat) (text : List Char) :
    scan here skip text = scan (here.after (text.take skip)) 0 (text.drop skip) := by
  induction skip generalizing here text with
  | zero => rfl
  | succ skip ih =>
    cases text with
    | nil => rfl
    | cons c rest =>
      rw [List.take_succ_cons, List.drop_succ_cons]
      exact ih (here.advance c) rest

theorem scan_of_token {here : Position} {text : List Char} {kind : Kind} {n : Nat}
    (h : Lexeme.lexeme text = some (.token kind, n)) (hn : n ≠ 0) :
    scan here 0 text = .cons
      ⟨kind, String.ofList (text.take n), here, here.after (text.take n)⟩
      (scan (here.after (text.take n)) 0 (text.drop n)) := by
  cases text with
  | nil => cases h
  | cons c rest =>
    obtain ⟨m, rfl⟩ := Nat.exists_eq_succ_of_ne_zero hn
    rw [scan_cons h, Nat.succ_sub_one, scan_skip]
    rfl

theorem lexeme_of_fault {here : Position} {skip : Nat} {text : List Char}
    (h : (scan here skip text).fault = none) (hlength : skip < text.length) :
    Lexeme.lexeme (text.drop skip) ≠ none := by
  rw [scan_skip] at h
  intro hnone
  cases hdrop : text.drop skip with
  | nil =>
    have := congrArg List.length hdrop
    simp only [List.length_drop, List.length_nil] at this
    omega
  | cons c rest =>
    rw [hdrop] at h hnone
    rw [scan_zero, hnone] at h
    cases h

/-- The tokens of lines further down. -/
theorem moved_scan_pushDown {k : Int} {here : Position} (hhere : k ≤ here.line) {skip : Nat}
    {text : List Char} (h : (scan here skip text).fault = none) :
    (scan here skip text).Moved (Position.pushDown k) (scan (here.pushDown k) skip text) := by
  fun_induction scan here skip text with
  | case1 => exact ⟨.nil, rfl⟩
  | case2 here skip c rest ih =>
    have hstep : scan (here.pushDown k) (skip + 1) (c :: rest) =
        scan ((here.pushDown k).advance c) skip rest := rfl
    rw [hstep, Position.advance_pushDown hhere]
    exact ih (Int.le_trans hhere (here.line_le_after [c])) h
  | case3 => cases h
  | case4 here c rest n hlexeme ih =>
    rw [scan_zero, hlexeme]
    simp only [Position.advance_pushDown hhere]
    exact ih (Int.le_trans hhere (here.line_le_after [c])) h
  | case5 here c rest kind n hlexeme text ih =>
    rw [scan_zero, hlexeme]
    simp only [Position.advance_pushDown hhere]
    refine .cons ?_ (ih (Int.le_trans hhere (here.line_le_after [c])) h)
    exact ⟨rfl, rfl, Position.after_pushDown hhere _, fun _ => rfl, fun _ => rfl⟩

end Lexer

/-! ## A comment line -/

/-- A line of tabs and spaces, a number sign and anything. A form feed before the number sign would
break the run of line ends that takes such a line along in two. -/
def CommentOnly (line : List Char) : Prop :=
  ∃ blanks text, line = blanks ++ '#' :: text ∧
    (∀ c ∈ blanks, Lexeme.isIndentation c = true) ∧ '\n' ∉ text

namespace CommentOnly

variable {line : List Char}

theorem newline_notMem (h : CommentOnly line) : '\n' ∉ line := by
  obtain ⟨blanks, text, rfl, hblanks, htext⟩ := h
  intro hmem
  rcases List.mem_append.mp hmem with hmem | hmem
  · exact absurd (hblanks _ hmem) (by decide)
  · rcases List.mem_cons.mp hmem with hmem | hmem
    · exact absurd hmem (by decide)
    · exact htext hmem

theorem breakLength_eq (h : CommentOnly line) (v : List Char) :
    Lexeme.breakLength (some false) (line ++ '\n' :: v) =
      line.length + 1 + Lexeme.breakLength (some false) v := by
  obtain ⟨blanks, text, rfl, hblanks, htext⟩ := h
  rw [List.append_assoc]
  exact Lexeme.breakLength_comment hblanks htext v

end CommentOnly

namespace Lexer

/-- No string and no joined line reaches the beginning of a line. -/
def Fresh (ps : List Piece) (k : Int) : Prop :=
  ∀ p ∈ ps, p.Reaches k → p.isString = false ∧ p.isJoin = false

instance (ps : List Piece) (k : Int) : Decidable (Fresh ps k) :=
  inferInstanceAs (Decidable (∀ p ∈ ps, _))

variable {line : List Char} {k : Int}

/-- The line end before the new line takes it along, and nothing else changes. -/
theorem moved_scan_break (hline : CommentOnly line) {here : Position} {u v : List Char}
    (hk : (here.after (u ++ ['\n'])).line = k)
    (hall : ∀ v', Lexeme.lexeme (u ++ '\n' :: v') =
      some (.token .newline, u.length + 1 + Lexeme.breakLength (some false) v'))
    (hfault : (scan here 0 (u ++ '\n' :: v)).fault = none) :
    (scan here 0 (u ++ '\n' :: v)).Moved (Position.pushDown k)
      (scan here 0 (u ++ '\n' :: (line ++ '\n' :: v))) := by
  have hold := hall v
  have hnew := hall (line ++ '\n' :: v)
  rw [hline.breakLength_eq] at hnew
  generalize Lexeme.breakLength (some false) v = b at hold hnew
  -- both line ends are what stands before `v`, and the same beginning of `v`
  have hsplit : u ++ '\n' :: v = (u ++ ['\n']) ++ v := by simp
  have hsplit' : u ++ '\n' :: (line ++ '\n' :: v) =
      (u ++ ['\n'] ++ (line ++ ['\n'])) ++ v := by
    simp
  have hlength : u.length + 1 + b = (u ++ ['\n']).length + b := by simp
  have hlength' : u.length + 1 + (line.length + 1 + b) =
      (u ++ ['\n'] ++ (line ++ ['\n'])).length + b := by
    simp only [List.length_append, List.length_singleton]
    omega
  have hstart : here.line < k := hk ▸ here.line_lt_after u
  have hplace : here.after (u ++ ['\n']) = ⟨k, 0⟩ := by
    rw [Position.after_line_feed] at hk ⊢
    exact congrArg (Position.mk · 0) hk
  have hplace' : here.after (u ++ ['\n'] ++ (line ++ ['\n'])) = Position.pushDown k ⟨k, 0⟩ := by
    rw [Position.after_append, hplace, Position.after_line_feed, Position.line_after,
      List.count_eq_zero_of_not_mem hline.newline_notMem, Position.pushDown_of_le (Int.le_refl k)]
    simp
  rw [scan_of_token hold (by omega)] at hfault ⊢
  rw [scan_of_token hnew (by omega)]
  rw [hsplit, hlength, List.take_length_add_append, List.drop_length_add_append,
    Position.after_append, hplace] at hfault ⊢
  rw [hsplit', hlength', List.take_length_add_append, List.drop_length_add_append,
    Position.after_append, hplace', Position.after_pushDown (Int.le_refl k)]
  have hhere := (Position.pushDown_of_lt hstart).symm
  refine .cons ⟨rfl, hhere, rfl, fun h => absurd rfl h, fun _ => ?_⟩ ?_
  · simp only [Layout.indentation, String.toList_ofList]
    have hpiece : u ++ ['\n'] ++ (line ++ ['\n']) ++ v.take b =
        (u ++ ['\n'] ++ line) ++ '\n' :: v.take b := by simp
    rw [hpiece, Text.lastPiece_append, List.append_assoc]
    exact (Text.lastPiece_append '\n' u _).symm
  · exact moved_scan_pushDown (Position.line_le_after ⟨k, 0⟩ _) hfault

theorem mem_pieces (here : Position) {text : List Char} {cls : Lexeme.Class} {n : Nat}
    (h : Lexeme.lexeme text = some (cls, n)) :
    ⟨cls, text.take n, here, here.after (text.take n)⟩ ∈ pieces here 0 text := by
  cases text with
  | nil => cases h
  | cons c rest =>
    rw [pieces_zero, h]
    exact List.mem_cons_self

/-- A piece over the line feed before a fresh line is a line end. -/
theorem break_of_fresh {here : Position} {u v : List Char} {cls : Lexeme.Class} {n : Nat}
    (hk : (here.after (u ++ ['\n'])).line = k)
    (h : Lexeme.lexeme (u ++ '\n' :: v) = some (cls, n)) (hn : u.length < n)
    (hfresh : Fresh (pieces here 0 (u ++ '\n' :: v)) k) (v' : List Char) :
    Lexeme.lexeme (u ++ '\n' :: v') =
      some (.token .newline, u.length + 1 + Lexeme.breakLength (some false) v') := by
  have htake : (u ++ '\n' :: v).take n = (u ++ ['\n']) ++ v.take (n - (u ++ ['\n']).length) := by
    have hsplit : u ++ '\n' :: v = (u ++ ['\n']) ++ v := by simp
    rw [hsplit, List.take_append, List.take_of_length_le (by simpa [Nat.succ_le_iff] using hn)]
  have hreaches : here.line < k ∧ k ≤ (here.after ((u ++ '\n' :: v).take n)).line := by
    refine ⟨hk ▸ here.line_lt_after u, ?_⟩
    rw [htake, Position.after_append, ← hk]
    exact Position.line_le_after _ _
  obtain ⟨hstring, hjoin⟩ := hfresh _ (mem_pieces here h) hreaches
  rcases Lexeme.lexeme_over_line h hn with hcls | ⟨hcls, hhead⟩ | ⟨_, hall⟩
  · rcases hcls with rfl | rfl <;> cases hstring
  · have hfirst : ((u ++ '\n' :: v).take n).head? = some '\\' := by
      cases u with
      | nil => cases hhead
      | cons c u =>
        rw [htake]
        exact hhead
    simp [Piece.isJoin, hcls, hfirst] at hjoin
  · exact hall v'

theorem moved_above {t : Token} (hstart : t.start.line < k) (hstop : t.stop.line < k) :
    t.Moved (Position.pushDown k) t where
  kind := rfl
  start := (Position.pushDown_of_lt hstart).symm
  stop := (Position.pushDown_of_lt hstop).symm
  text _ := rfl
  indentation _ := rfl

/-- One more comment line before a fresh line leaves every token what it was. The induction is on
the text before the line feed that the new line follows. -/
theorem moved_scan_insert (hline : CommentOnly line) {v : List Char} (u : List Char)
    {here : Position} {skip : Nat} (hskip : skip ≤ u.length)
    (hk : (here.after (u ++ ['\n'])).line = k)
    (hfault : (scan here skip (u ++ '\n' :: v)).fault = none)
    (hfresh : Fresh (pieces here skip (u ++ '\n' :: v)) k) :
    (scan here skip (u ++ '\n' :: v)).Moved (Position.pushDown k)
      (scan here skip (u ++ '\n' :: (line ++ '\n' :: v))) := by
  induction u generalizing here skip with
  | nil =>
    cases Nat.le_zero.mp hskip
    refine moved_scan_break hline hk ?_ hfault
    intro v'
    rw [List.nil_append, Lexeme.lexeme_line_feed, List.length_nil, Nat.zero_add]
  | cons c u ih =>
    cases skip with
    | succ skip => exact ih (Nat.le_of_succ_le_succ hskip) hk hfault hfresh
    | zero =>
      cases hlexeme : Lexeme.lexeme (c :: u ++ '\n' :: v) with
      | none =>
        rw [List.cons_append] at hfault hlexeme
        rw [scan_zero, hlexeme] at hfault
        cases hfault
      | some found =>
        obtain ⟨cls, n⟩ := found
        by_cases hn : n ≤ (c :: u).length
        · rw [List.cons_append] at hfault hfresh hlexeme ⊢
          rw [scan_cons hlexeme] at hfault ⊢
          have hnext : Lexeme.lexeme ((c :: (u ++ '\n' :: v)).drop n) ≠ none := by
            cases n with
            | zero =>
              rw [List.drop_zero, hlexeme]
              exact Option.some_ne_none _
            | succ n => exact lexeme_of_fault hfault (by simp at hn ⊢; omega)
          have hlexeme' := Lexeme.lexeme_line hlexeme hn hnext (line ++ '\n' :: v)
          rw [List.cons_append] at hlexeme'
          rw [List.cons_append, scan_cons hlexeme']
          have htake : ∀ v, (c :: (u ++ '\n' :: v)).take n = (c :: u).take n :=
            fun v => List.take_append_of_le_length hn
          rw [htake, htake]
          refine .prepend ?_ (ih (Nat.sub_le_of_le_add hn) hk hfault ?_)
          · have hstart : here.line < k := hk ▸ here.line_lt_after (c :: u)
            have hstop : (here.after ((c :: u).take n)).line < k := by
              have hwhole : here.after (c :: u ++ ['\n']) =
                  (here.after ((c :: u).take n)).after ((c :: u).drop n ++ ['\n']) := by
                rw [← Position.after_append, ← List.append_assoc, List.take_append_drop]
              rw [← hk, hwhole]
              exact Position.line_lt_after _ _
            cases cls with
            | token kind => exact .cons (moved_above hstart hstop) .nil
            | skipped => exact .nil
          · rw [pieces_zero, hlexeme] at hfresh
            exact fun p hp => hfresh p (List.mem_cons_of_mem _ hp)
        · exact moved_scan_break hline hk (break_of_fresh hk hlexeme (by omega) hfresh) hfault

end Lexer

theorem endLine_append (u v : List Char) :
    endLine (u ++ '\n' :: v) = u ++ endLine ('\n' :: v) := by
  have hlast : (u ++ '\n' :: v).getLast? = ('\n' :: v).getLast? := by
    rw [List.getLast?_append, List.getLast?_cons]
    rfl
  unfold endLine
  rw [hlast]
  split
  · rfl
  · rw [List.append_assoc]

theorem exists_endLine (v : List Char) : ∃ v', endLine ('\n' :: v) = '\n' :: v' := by
  unfold endLine
  split
  · exact ⟨v, rfl⟩
  · exact ⟨v ++ ['\n'], rfl⟩

/-- The tokens of a text with one more comment line before one of its lines: the same ones, further
down from that line on. -/
theorem moved_tokenize_insert {line u v : List Char} {k : Int} (hline : CommentOnly line)
    (hk : u.count '\n' + 2 = k) (hfault : (tokenize (endLine (u ++ '\n' :: v))).fault = none)
    (hfresh : Lexer.Fresh (Lexer.pieces ⟨1, 0⟩ 0 (endLine (u ++ '\n' :: v))) k) :
    (tokenize (endLine (u ++ '\n' :: v))).Moved (Position.pushDown k)
      (tokenize (endLine (u ++ '\n' :: (line ++ '\n' :: v)))) := by
  obtain ⟨v', hv'⟩ := exists_endLine v
  have hold : endLine (u ++ '\n' :: v) = u ++ '\n' :: v' := by rw [endLine_append, hv']
  have hnew : endLine (u ++ '\n' :: (line ++ '\n' :: v)) = u ++ '\n' :: (line ++ '\n' :: v') := by
    rw [← List.cons_append, ← List.append_assoc, endLine_append, hv']
    simp
  rw [hold] at hfault hfresh ⊢
  rw [hnew]
  refine moved_tokenize ?_ hfault
  have hplace : (Position.after ⟨1, 0⟩ (u ++ ['\n'])).line = k := by
    rw [Position.after_line_feed, Position.line_after]
    dsimp only
    omega
  exact Lexer.moved_scan_insert hline u (Nat.zero_le _) hplace
    (Layout.fault_of_layoutFrom hfault) hfresh

end ScopeLint
