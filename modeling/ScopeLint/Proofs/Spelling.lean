import ScopeLint.Parse

/-! # Where tokens come from

Layout adds tokens of its own and semicolons change their kind; every other token
is a stretch of the text, spelled as its kind says, at the place that counting
characters and line feeds leads to. -/
namespace ScopeLint

/-! ## Layout and semicolons -/

/-- The kinds that are not read off the text. -/
def Kind.isAdded : Kind → Bool
  | .indent | .dedent | .emptyStatement => true
  | _ => false

namespace Layout

theorem isAdded_of_mem_closing {levels : List Nat} {last : Option Token} {t : Token}
    (h : t ∈ closing levels last) : t.kind.isAdded = true := by
  cases last with
  | none => cases h
  | some u =>
    obtain ⟨_, _, rfl⟩ := List.mem_map.mp h
    rfl

/-- Layout keeps tokens, drops some and adds marks. -/
theorem mem_layoutFrom {fault : Option Fault} {depth : Nat} {levels : List Nat}
    {last : Option Token} {tokens : List Token} {t : Token}
    (h : t ∈ (layoutFrom fault depth levels last tokens).tokens) :
    t ∈ tokens ∨ t.kind.isAdded = true := by
  have hmarks : ∀ {closed : List Nat} {blanks : List Char} {u : Token} {rest : List Token},
      t ∈ u :: closed.map (fun _ => marker .dedent blanks u) →
      t ∈ u :: rest ∨ t.kind.isAdded = true := by
    intro closed blanks u rest h
    rcases List.mem_cons.mp h with h | h
    · exact .inl (h ▸ List.mem_cons_self)
    · obtain ⟨_, _, rfl⟩ := List.mem_map.mp h
      exact .inr rfl
  have hkeep : ∀ {u : Token} {rest : List Token},
      t ∈ rest ∨ t.kind.isAdded = true → t ∈ u :: rest ∨ t.kind.isAdded = true :=
    fun h => h.imp_left (List.mem_cons_of_mem _)
  have hcons : ∀ {u : Token} {rest : List Token} {s : Stream},
      (t ∈ s.tokens → t ∈ rest ∨ t.kind.isAdded = true) → t ∈ (Stream.cons u s).tokens →
      t ∈ u :: rest ∨ t.kind.isAdded = true := by
    intro u rest s ih h
    rcases List.mem_cons.mp h with h | h
    · exact .inl (h ▸ List.mem_cons_self)
    · exact hkeep (ih h)
  fun_induction layoutFrom fault depth levels last tokens with
  | case1 => cases h
  | case2 => exact .inr (isAdded_of_mem_closing h)
  | case3 _ _ _ u _ _ _ ih => exact hkeep (ih h)
  | case4 _ _ _ u rest _ _ blanks column _ ih =>
    rcases List.mem_append.mp h with h | h
    · rcases List.mem_cons.mp h with h | h
      · exact .inl (h ▸ List.mem_cons_self)
      · rw [List.mem_singleton.mp h]
        exact .inr rfl
    · exact hkeep (ih h)
  | case5 _ _ _ u rest _ _ blanks column _ closed levels' tokens _ ih =>
    rcases List.mem_append.mp h with h | h
    · exact hmarks h
    · exact hkeep (ih h)
  | case6 _ _ _ u rest _ _ blanks column _ closed levels' tokens _ =>
    exact hmarks h
  | case7 _ _ _ u _ _ _ ih => exact hcons ih h
  | case8 _ _ u _ _ _ _ =>
    rw [List.mem_singleton.mp h]
    exact .inl List.mem_cons_self
  | case9 _ _ u _ _ _ _ _ ih => exact hcons ih h
  | case10 _ _ _ u _ _ _ _ ih => exact hcons ih h

theorem filter_dedents {q : Token → Bool} (hq : ∀ t : Token, t.kind = .dedent → q t = false)
    (levels : List Nat) (blanks : List Char) (t : Token) :
    (levels.map fun _ => marker .dedent blanks t).filter q = [] := by
  refine List.filter_eq_nil_iff.mpr fun u hu => ?_
  obtain ⟨_, _, rfl⟩ := List.mem_map.mp hu
  exact Bool.not_eq_true _ ▸ hq _ rfl

/-- Layout keeps the order of the tokens that it does not add itself. -/
theorem filter_layoutFrom {q : Token → Bool}
    (hq : ∀ t : Token, t.kind = .indent ∨ t.kind = .dedent → q t = false)
    (fault : Option Fault) (depth : Nat) (levels : List Nat) (last : Option Token)
    (tokens : List Token) :
    ((layoutFrom fault depth levels last tokens).tokens.filter q).Sublist (tokens.filter q) := by
  have hdedents := filter_dedents fun t ht => hq t (.inr ht)
  have hcons : ∀ (t : Token) {some all : List Token}, (some.filter q).Sublist (all.filter q) →
      ((t :: some).filter q).Sublist ((t :: all).filter q) := by
    intro t some all h
    rw [List.filter_cons, List.filter_cons]
    split
    · exact h.cons_cons t
    · exact h
  fun_induction layoutFrom fault depth levels last tokens with
  | case1 => exact List.nil_sublist _
  | case2 _ levels last =>
    cases last with
    | none => exact List.nil_sublist _
    | some t =>
      rw [closing, hdedents]
      exact List.nil_sublist _
  | case3 _ _ _ t rest _ _ ih => exact ih.trans ((List.sublist_cons_self t rest).filter q)
  | case4 _ levels _ t rest _ _ blanks column _ ih =>
    have htokens : (marker .indent blanks t ::
        (layoutFrom fault 0 (column :: levels) (some t) rest).tokens).filter q =
        (layoutFrom fault 0 (column :: levels) (some t) rest).tokens.filter q :=
      List.filter_cons_of_neg (Bool.not_eq_true _ ▸ hq _ (.inl rfl))
    exact hcons t (htokens ▸ ih)
  | case5 _ _ _ t rest _ _ blanks column _ closed levels' tokens _ ih =>
    have htokens : ((closed.map fun _ => marker .dedent blanks t) ++
        (layoutFrom fault 0 levels' (some t) rest).tokens).filter q =
        (layoutFrom fault 0 levels' (some t) rest).tokens.filter q := by
      rw [List.filter_append, hdedents, List.nil_append]
    exact hcons t (htokens ▸ ih)
  | case6 _ _ _ t rest _ _ blanks column _ closed levels' tokens _ =>
    refine hcons t ?_
    rw [hdedents]
    exact List.nil_sublist _
  | case7 _ _ _ t _ _ _ ih => exact hcons t ih
  | case8 _ _ t rest _ _ _ => exact hcons t (List.nil_sublist (rest.filter q))
  | case9 _ _ t _ _ _ _ _ ih => exact hcons t ih
  | case10 _ _ _ t _ _ _ _ ih => exact hcons t ih

end Layout

namespace Separator

theorem mem_foldFrom {pending : Option Token} {inStatement : Bool} {tokens : List Token}
    {t : Token} (h : t ∈ foldFrom pending inStatement tokens) :
    t ∈ pending ∨ t ∈ tokens ∨ t.kind.isAdded = true := by
  induction tokens generalizing pending inStatement with
  | nil => cases h
  | cons u rest ih =>
    have hrest : ∀ {p : Option Token} {b : Bool}, (t ∈ p → t = u) → t ∈ foldFrom p b rest →
        t ∈ u :: rest ∨ t.kind.isAdded = true := by
      intro p b hp h
      rcases ih h with h | h | h
      · exact .inl (hp h ▸ List.mem_cons_self)
      · exact .inl (List.mem_cons_of_mem _ h)
      · exact .inr h
    rw [foldFrom] at h
    split at h
    · split at h
      · exact .inr (hrest (by simp [eq_comm]) h)
      · rcases List.mem_append.mp h with h | h
        · exact .inl (Option.mem_toList.mp h)
        · rcases List.mem_cons.mp h with rfl | h
          · exact .inr (.inr rfl)
          · exact .inr (hrest (by simp [eq_comm]) h)
    · split at h
      · rcases List.mem_cons.mp h with h | h
        · exact .inr (.inl (h ▸ List.mem_cons_self))
        · exact .inr (hrest (p := none) nofun h)
      · rcases List.mem_append.mp h with h | h
        · exact .inl (Option.mem_toList.mp h)
        · rcases List.mem_cons.mp h with h | h
          · exact .inr (.inl (h ▸ List.mem_cons_self))
          · exact .inr (hrest (p := none) nofun h)

end Separator

theorem mem_tokenize {text : List Char} {t : Token} (h : t ∈ (tokenize text).tokens) :
    t ∈ (Lexer.lex text).tokens ∨ t.kind.isAdded = true := by
  rcases Separator.mem_foldFrom h with h | h | h
  · cases h
  · exact Layout.mem_layoutFrom h
  · exact .inr h

/-! ## Lexemes -/

namespace Lexeme

theorem kind_quotedAt {s : List Char} {n : Nat} {kind : Kind} (h : quotedAt s = some (n, kind)) :
    kind = .string ∨ kind = .longString := by
  cases s with
  | nil => cases h
  | cons quote rest =>
    rw [quotedAt] at h
    split at h
    · cases h
    · split at h
      · obtain ⟨_, _, h⟩ := Option.map_eq_some_iff.mp h
        cases h
        exact .inr rfl
      · obtain ⟨_, _, h⟩ := Option.map_eq_some_iff.mp h
        cases h
        exact .inl rfl

theorem kind_stringAt {s : List Char} {n : Nat} {kind : Kind} (h : stringAt s = some (n, kind)) :
    kind = .string ∨ kind = .longString := by
  cases s with
  | nil => cases h
  | cons c rest =>
    rw [stringAt] at h
    split at h
    · obtain ⟨⟨_, _⟩, hquoted, h⟩ := Option.map_eq_some_iff.mp h
      cases h
      exact kind_quotedAt hquoted
    · exact kind_quotedAt h

theorem spelled_operatorAt {s : List Char} {n : Nat} {kind : Kind}
    (h : operatorAt s = some (n, kind)) :
    ∃ text, (text, kind) ∈ Token.operators ∧ text.toList = s.take n := by
  obtain ⟨⟨text, k⟩, hfind, h⟩ := Option.map_eq_some_iff.mp h
  cases h
  have hfound := List.find?_some hfind
  have hprefix : text.toList <+: s := List.isPrefixOf_iff_prefix.mp hfound
  refine ⟨text, List.mem_of_find?_eq_some hfind, ?_⟩
  rw [← String.length_toList]
  exact List.prefix_iff_eq_take.mp hprefix

/-- The kinds of tokens that have no fixed spelling: literals and line ends. -/
def isFree : Kind → Bool
  | .string | .longString | .number | .newline => true
  | _ => false

theorem of_orElse {α : Type} {a b : Option α} {x : α} (h : (a <|> b) = some x) :
    a = some x ∨ b = some x := by
  cases a with
  | none => exact .inr h
  | some y => exact .inl h

/-- What a token is read from: a literal or a line end, a word, or an operator. -/
theorem lexeme_token {s : List Char} {kind : Kind} {n : Nat}
    (h : lexeme s = some (.token kind, n)) :
    isFree kind = true ∨ (nameAt s = some n ∧ kind = wordKind (s.take n)) ∨
      ∃ text, (text, kind) ∈ Token.operators ∧ text.toList = s.take n := by
  rcases of_orElse h with h | h
  · obtain ⟨⟨_, _⟩, hstring, h⟩ := Option.map_eq_some_iff.mp h
    cases h
    rcases kind_stringAt hstring with rfl | rfl <;> exact .inl rfl
  rcases of_orElse h with h | h
  · obtain ⟨_, _, h⟩ := Option.map_eq_some_iff.mp h
    cases h
    exact .inl rfl
  rcases of_orElse h with h | h
  · obtain ⟨_, hname, h⟩ := Option.map_eq_some_iff.mp h
    cases h
    exact .inr (.inl ⟨hname, rfl⟩)
  rcases of_orElse h with h | h
  · obtain ⟨_, _, h⟩ := Option.map_eq_some_iff.mp h
    cases h
    exact .inl rfl
  rcases of_orElse h with h | h
  · obtain ⟨_, _, h⟩ := Option.map_eq_some_iff.mp h
    cases h
  rcases of_orElse h with h | h
  · obtain ⟨_, _, h⟩ := Option.map_eq_some_iff.mp h
    cases h
  · obtain ⟨⟨_, _⟩, hoperator, h⟩ := Option.map_eq_some_iff.mp h
    cases h
    exact .inr (.inr (spelled_operatorAt hoperator))

/-- A word is a name, or listed among the keywords. -/
theorem wordKind_cases (word : List Char) :
    wordKind word = .name ∨ (String.ofList word, wordKind word) ∈ Token.keywords := by
  unfold wordKind
  cases h : Token.keywords.lookup (String.ofList word) with
  | none => exact .inl rfl
  | some kind =>
    obtain ⟨before, after, heq, _⟩ := List.lookup_eq_some_iff.mp h
    rw [heq]
    exact .inr (List.mem_append_right _ List.mem_cons_self)

end Lexeme

/-! ## Where a token stands -/

/-- A token is read off a text that starts at a place: what comes before it leads to its own place,
and what begins there is its lexeme. -/
def Token.ReadFrom (here : Position) (text : List Char) (t : Token) : Prop :=
  ∃ before rest n, text = before ++ rest ∧ Lexeme.lexeme rest = some (.token t.kind, n) ∧
    t.text = String.ofList (rest.take n) ∧ t.start = here.after before ∧
    t.stop = t.start.after (rest.take n)

theorem Token.ReadFrom.cons {here : Position} {c : Char} {text : List Char} {t : Token}
    (h : t.ReadFrom (here.advance c) text) : t.ReadFrom here (c :: text) := by
  obtain ⟨before, rest, n, htext, hplace⟩ := h
  exact ⟨c :: before, rest, n, by rw [htext, List.cons_append], hplace⟩

theorem readFrom_of_mem_scan {here : Position} {skip : Nat} {text : List Char} {t : Token}
    (h : t ∈ (Lexer.scan here skip text).tokens) : t.ReadFrom here text := by
  fun_induction Lexer.scan here skip text with
  | case1 => cases h
  | case2 _ _ _ _ ih => exact (ih h).cons
  | case3 => cases h
  | case4 _ _ _ _ _ ih => exact (ih h).cons
  | case5 here c rest kind n hlexeme text ih =>
    rcases List.mem_cons.mp h with rfl | h
    · exact ⟨[], c :: rest, n, rfl, hlexeme, rfl, rfl, rfl⟩
    · exact (ih h).cons

/-! ## How a token is spelled -/

/-- The kinds of which the grammar does not name the text. -/
def Kind.isOpen : Kind → Bool
  | .name => true
  | kind => kind.isAdded || Lexeme.isFree kind

/-- The text of a token is the one of its kind, if the kind has one. -/
def Token.Spelled (t : Token) : Prop :=
  t.kind.isOpen = true ∨ (t.text, t.kind) ∈ Token.keywords ++ Token.operators

theorem spelled_tokenize {text : List Char} {t : Token} (h : t ∈ (tokenize text).tokens) :
    t.Spelled := by
  rcases mem_tokenize h with h | h
  · obtain ⟨before, rest, n, _, hlexeme, htext, _⟩ := readFrom_of_mem_scan h
    rcases Lexeme.lexeme_token hlexeme with hfree | ⟨_, hword⟩ | ⟨text, hmem, hprefix⟩
    · left
      unfold Kind.isOpen
      split
      · rfl
      · rw [hfree, Bool.or_true]
    · rcases Lexeme.wordKind_cases (rest.take n) with hname | hkeyword
      · left
        rw [hword, hname]
        rfl
      · right
        rw [htext, hword]
        exact List.mem_append_left _ hkeyword
    · right
      rw [htext, ← hprefix, String.ofList_toList]
      exact List.mem_append_right _ hmem
  · left
    unfold Kind.isOpen
    split
    · rfl
    · rw [h, Bool.true_or]

end ScopeLint
