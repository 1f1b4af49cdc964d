import Mathlib.Data.List.Forall2
import ScopeLint.Parse

/-! # Token streams at other places

Layout and the folding of semicolons look at kinds, at the indentation behind a
line end and at nothing else. Two streams that differ in the places of their
tokens and in what a line end holds before its indentation come out of them
differing in no more than that. -/
namespace ScopeLint

/-- The same token at another place. A line end may hold other lines, before the same
indentation. -/
structure Token.Moved (move : Position → Position) (t t' : Token) : Prop where
  kind : t'.kind = t.kind
  start : t'.start = move t.start
  stop : t'.stop = move t.stop
  text : t.kind ≠ .newline → t'.text = t.text
  indentation : t.kind = .newline → Layout.indentation t' = Layout.indentation t

/-- The same tokens at other places, up to the same fault. -/
structure Stream.Moved (move : Position → Position) (s s' : Stream) : Prop where
  tokens : List.Forall₂ (Token.Moved move) s.tokens s'.tokens
  fault : s'.fault = s.fault

variable {move : Position → Position}

namespace Token.Moved

variable {t t' : Token}

theorem marker (h : t.Moved move t') (kind : Kind) (hkind : kind ≠ .newline)
    (text : List Char) : (Layout.marker kind text t).Moved move (Layout.marker kind text t') where
  kind := rfl
  start := h.start
  stop := h.stop
  text _ := rfl
  indentation heq := absurd heq hkind

theorem emptyStatement (h : t.Moved move t') (hkind : t.kind ≠ .newline) :
    (Separator.emptyStatement t).Moved move (Separator.emptyStatement t') where
  kind := rfl
  start := h.start
  stop := h.stop
  text _ := h.text hkind
  indentation heq := nomatch heq

end Token.Moved

namespace Stream.Moved

theorem prepend {ts ts' : List Token} {s s' : Stream}
    (hts : List.Forall₂ (Token.Moved move) ts ts') (h : s.Moved move s') :
    (Stream.prepend ts s).Moved move (Stream.prepend ts' s') :=
  ⟨List.rel_append hts h.tokens, h.fault⟩

theorem cons {t t' : Token} {s s' : Stream} (ht : t.Moved move t') (h : s.Moved move s') :
    (Stream.cons t s).Moved move (Stream.cons t' s') :=
  ⟨.cons ht h.tokens, h.fault⟩

end Stream.Moved

/-! ## Layout -/

namespace Layout

theorem moved_markers {t t' : Token} (h : t.Moved move t') (kind : Kind) (hkind : kind ≠ .newline)
    (text : List Char) (levels : List Nat) :
    List.Forall₂ (Token.Moved move) (levels.map fun _ => marker kind text t)
      (levels.map fun _ => marker kind text t') := by
  induction levels with
  | nil => exact .nil
  | cons level levels ih => exact .cons (h.marker kind hkind text) ih

theorem moved_closing {last last' : Option Token} (h : Option.Rel (Token.Moved move) last last')
    (levels : List Nat) :
    List.Forall₂ (Token.Moved move) (closing levels last) (closing levels last') := by
  cases h with
  | none => exact .nil
  | some h => exact moved_markers h .dedent nofun [] levels

theorem moved_layoutFrom {tokens tokens' : List Token}
    (h : List.Forall₂ (Token.Moved move) tokens tokens') (depth : Nat) (levels : List Nat)
    {last last' : Option Token} (hlast : Option.Rel (Token.Moved move) last last') :
    (layoutFrom none depth levels last tokens).Moved move
      (layoutFrom none depth levels last' tokens') := by
  induction h generalizing depth levels last last' with
  | nil => exact ⟨moved_closing hlast levels, rfl⟩
  | @cons t t' rest rest' ht _ ih =>
    have hnext := fun depth levels => ih depth levels (.some ht)
    unfold layoutFrom
    dsimp only
    rw [ht.kind]
    by_cases hline : t.kind = .newline
    · rw [if_pos hline, if_pos hline]
      split
      · exact hnext depth levels
      · simp only [ht.indentation hline]
        split
        · exact .prepend (.cons ht (.cons (ht.marker .indent nofun _) .nil)) (hnext 0 _)
        · have htokens := List.Forall₂.cons ht (moved_markers ht .dedent nofun (indentation t)
            (levels.takeWhile (width (indentation t) < ·)))
          split
          · exact .prepend htokens (hnext 0 _)
          · exact ⟨htokens, rfl⟩
    · rw [if_neg hline, if_neg hline]
      split
      · exact .cons ht (hnext _ levels)
      · split
        · cases depth with
          | zero => exact ⟨.cons ht .nil, rfl⟩
          | succ depth => exact .cons ht (hnext depth levels)
        · exact .cons ht (hnext depth levels)

/-- Layout passes on the fault that the tokens end with. -/
theorem fault_of_layoutFrom {fault : Option Fault} {depth : Nat} {levels : List Nat}
    {last : Option Token} {tokens : List Token}
    (h : (layoutFrom fault depth levels last tokens).fault = none) : fault = none := by
  fun_induction layoutFrom fault depth levels last tokens with
  | case1 => cases h
  | case2 _ _ _ hfault => exact hfault
  | case3 _ _ _ _ _ _ _ ih => exact ih h
  | case4 _ _ _ _ _ _ _ _ _ _ ih => exact ih h
  | case5 _ _ _ _ _ _ _ _ _ _ _ _ _ _ ih => exact ih h
  | case6 => cases h
  | case7 _ _ _ _ _ _ _ ih => exact ih h
  | case8 => cases h
  | case9 _ _ _ _ _ _ _ _ ih => exact ih h
  | case10 _ _ _ _ _ _ _ _ ih => exact ih h

end Layout

/-! ## Semicolons -/

namespace Separator

theorem moved_toList {pending pending' : Option Token}
    (h : Option.Rel (Token.Moved move) pending pending') :
    List.Forall₂ (Token.Moved move) pending.toList pending'.toList := by
  cases h with
  | none => exact .nil
  | some h => exact .cons h .nil

theorem moved_foldFrom {tokens tokens' : List Token}
    (h : List.Forall₂ (Token.Moved move) tokens tokens') (inStatement : Bool)
    {pending pending' : Option Token} (hpending : Option.Rel (Token.Moved move) pending pending') :
    List.Forall₂ (Token.Moved move) (foldFrom pending inStatement tokens)
      (foldFrom pending' inStatement tokens') := by
  induction h generalizing inStatement pending pending' with
  | nil => exact .nil
  | @cons t t' rest rest' ht _ ih =>
    rw [foldFrom, foldFrom, ht.kind]
    split
    · next hseparator =>
      split
      · exact ih false (.some ht)
      · refine List.rel_append (moved_toList hpending) (.cons ?_ (ih false (.some ht)))
        exact ht.emptyStatement (by simp [hseparator])
    · split
      · exact .cons ht (ih false .none)
      · exact List.rel_append (moved_toList hpending) (.cons ht (ih true .none))

end Separator

/-- Tokens at other places are laid out and told apart alike. -/
theorem moved_tokenize {text text' : List Char}
    (h : (Lexer.lex text).Moved move (Lexer.lex text')) (hfault : (tokenize text).fault = none) :
    (tokenize text).Moved move (tokenize text') := by
  have hnone : (Lexer.lex text).fault = none := Layout.fault_of_layoutFrom hfault
  have hlayout := Layout.moved_layoutFrom h.tokens 0 [] .none
  unfold tokenize Separator.fold Layout.layout
  rw [h.fault, hnone]
  exact ⟨Separator.moved_foldFrom hlayout.tokens false .none, hlayout.fault⟩

end ScopeLint
