import ScopeLint.Proofs.History
import ScopeLint.Proofs.OrderedMeaning
import ScopeLint.Proofs.Pointing
import ScopeLint.Proofs.Semicolons

/-! # Bindings are made in the order of the text

The tokens of a text start one after the other. The names of a scope are bound in
the order in which a derivation reads them, so the bindings of a scope start one
after the other too, and a binding that takes over a name starts after the one it
replaces. -/
namespace ScopeLint

/-! ## Places in a text -/

namespace Position

/-- On an earlier line, or further left on the same one. -/
def Before (p q : Position) : Prop := p.line < q.line ∨ p.line = q.line ∧ p.col < q.col

theorem Before.trans {p q r : Position} (h : p.Before q) (h' : q.Before r) : p.Before r := by
  unfold Before at *
  omega

theorem before_advance (p : Position) (c : Char) : p.Before (p.advance c) := by
  unfold Before advance
  split
  · exact .inl (Int.lt_succ p.line)
  · exact .inr ⟨rfl, Int.lt_succ p.col⟩

theorem eq_or_before_after (p : Position) (text : List Char) :
    p.after text = p ∨ p.Before (p.after text) := by
  induction text generalizing p with
  | nil => exact .inl rfl
  | cons c text ih =>
    have hstep := p.before_advance c
    rcases ih (p.advance c) with h | h
    · exact .inr (h.symm ▸ hstep)
    · exact .inr (hstep.trans h)

end Position

/-- A token that starts before another. -/
def Token.Precedes (t u : Token) : Prop := t.start.Before u.start

theorem Lexer.before_of_mem_scan {here : Position} {c : Char} {skip : Nat} {text : List Char}
    {t : Token} (h : t ∈ (scan (here.advance c) skip text).tokens) : here.Before t.start := by
  obtain ⟨before, _, _, _, _, _, hstart, _⟩ := readFrom_of_mem_scan h
  have hstep := here.before_advance c
  rw [hstart]
  rcases (here.advance c).eq_or_before_after before with heq | hlater
  · exact heq.symm ▸ hstep
  · exact hstep.trans hlater

theorem Lexer.pairwise_scan (here : Position) (skip : Nat) (text : List Char) :
    (scan here skip text).tokens.Pairwise Token.Precedes := by
  fun_induction scan here skip text with
  | case1 => exact .nil
  | case2 _ _ _ _ ih => exact ih
  | case3 => exact .nil
  | case4 _ _ _ _ _ ih => exact ih
  | case5 here c rest kind n hlexeme text ih =>
    exact List.pairwise_cons.mpr ⟨fun t ht => before_of_mem_scan ht, ih⟩

/-! ## Names among the tokens -/

/-- The names among tokens. -/
def namesOf (tokens : List Token) : List Token := tokens.filter fun t => t.kind = .name

/-- The tokens of a text that are neither semicolons nor added start one after the other. -/
theorem pairwise_filter_tokenize {q : Token → Bool}
    (hq : ∀ t : Token, t.kind = .separator ∨ t.kind.isAdded = true → q t = false)
    (text : List Char) : ((tokenize text).tokens.filter q).Pairwise Token.Precedes := by
  have hfold : (tokenize text).tokens.filter q =
      (Layout.layout (Lexer.lex text)).tokens.filter q :=
    Separator.filter_foldFrom (fun t ht => hq t (ht.imp_right fun h => by rw [h]; rfl))
      none (by simp) false _
  have hlayout := Layout.filter_layoutFrom (q := q)
    (fun t ht => hq t (.inr (by rcases ht with ht | ht <;> (rw [ht]; rfl))))
    (Lexer.lex text).fault 0 [] none (Lexer.lex text).tokens
  rw [hfold]
  exact (Lexer.pairwise_scan ⟨1, 0⟩ 0 text).sublist (hlayout.trans List.filter_sublist)

theorem pairwise_namesOf_tokenize (text : List Char) :
    (namesOf (tokenize text).tokens).Pairwise Token.Precedes := by
  refine pairwise_filter_tokenize (fun t ht => decide_eq_false fun hkind => ?_) text
  rw [hkind] at ht
  rcases ht with ht | ht <;> cases ht

/-! ## Bindings -/

/-- Both spans have a known start, and that of the first comes first. -/
def Span.StartsBefore (a b : Span) : Prop :=
  ∃ p q, a.start = some p ∧ b.start = some q ∧ p.Before q

theorem Span.eq_between {s : Span} {p : Position} (h : s.place? = some p) :
    ∃ q, s = .between p q := by
  obtain ⟨start, stop⟩ := s
  obtain ⟨q, hq, hp⟩ := Option.bind_eq_some_iff.mp h
  exact ⟨q, by rw [Span.between]; exact congrArg₂ Span.mk hp hq⟩

theorem Span.StartsBefore.line_le {a b : Span} (h : a.StartsBefore b) :
    ∃ other line, a.line = some other ∧ b.line = some line ∧ other ≤ line := by
  obtain ⟨p, q, hp, hq, hbefore⟩ := h
  refine ⟨p.line, q.line, by simp [line, hp], by simp [line, hq], ?_⟩
  rcases hbefore with hlt | ⟨heq, _⟩
  · exact hlt.le
  · exact heq.le

/-- The names that a derivation reads are bound where they start, in every scope of the tree. -/
theorem scopes_of_parse {code : String} {root : Node} (h : parse code = .ok root) :
    ∀ t ∈ root.scopes, t.Sublist
      ((namesOf (tokenize (endLine code.toList)).tokens).map fun t => some t.start) := by
  obtain ⟨tree, node, hread, hnode, rfl⟩ := read_of_parse h
  have hordered : Grammar.Symbol.Ordered _ (.rule .file) tree.meaning := tree.ordered_meaning
  rw [Grammar.read_eq_ok_iff.mp hread] at hordered
  rw [Node.scopes_number]
  exact (hordered node hnode).scopes

namespace Scope

/-- The bindings of a scope have known places, one after the other. -/
structure InSourceOrder (s : Scope) : Prop where
  known : ∀ b ∈ s.history, ∃ p q, b.span = .between p q
  ordered : (s.history.map (·.span)).Pairwise Span.StartsBefore

theorem inSourceOrder_of_sublist {s : Scope} {names : List Token}
    (h : (s.history.map (·.span.place?)).Sublist (names.map fun t => some t.start))
    (hnames : names.Pairwise Token.Precedes) : s.InSourceOrder := by
  have hplaces : (names.map fun t => some t.start).Pairwise
      fun a b => ∃ p q, a = some p ∧ b = some q ∧ Position.Before p q := by
    rw [List.pairwise_map]
    exact hnames.imp fun hbefore => ⟨_, _, rfl, rfl, hbefore⟩
  refine ⟨?_, ?_⟩
  · intro b hb
    obtain ⟨t, _, ht⟩ := List.mem_map.mp (h.subset (List.mem_map_of_mem hb))
    exact ⟨_, Span.eq_between ht.symm⟩
  · have hpairs := hplaces.sublist h
    rw [List.pairwise_map] at hpairs ⊢
    refine hpairs.imp ?_
    intro a b ⟨p, q, hp, hq, hbefore⟩
    obtain ⟨_, ha⟩ := Span.eq_between hp
    obtain ⟨_, hb⟩ := Span.eq_between hq
    exact ⟨p, q, by rw [ha]; rfl, by rw [hb]; rfl, hbefore⟩

theorem InSourceOrder.startsBefore {s : Scope} (h : s.InSourceOrder) {i j : Nat}
    {previous current : Binding} (hlt : i < j) (hi : s.history[i]? = some previous)
    (hj : s.history[j]? = some current) : previous.span.StartsBefore current.span := by
  obtain ⟨_, rfl⟩ := List.getElem?_eq_some_iff.mp hi
  obtain ⟨_, rfl⟩ := List.getElem?_eq_some_iff.mp hj
  exact List.pairwise_iff_getElem.mp (List.pairwise_map.mp h.ordered) _ _ _ _ hlt

/-- A report of a loop variable is about a shadowing: it gives the lines of its two bindings. -/
theorem lines_of_shadowed {s : Scope} {filename : String} {d : Diagnostic}
    (h : d ∈ s.shadowedMessages filename) :
    ∃ r ∈ s.shadowed, ∃ previous current, s.history[r.previous]? = some previous ∧
      s.history[r.current]? = some current ∧ d.otherLine = previous.span.line ∧
      d.startLine = current.span.line := by
  obtain ⟨⟨name, previous, current⟩, hentry, hd⟩ := List.mem_filterMap.mp h
  obtain ⟨r, hr, hentry⟩ := List.mem_filterMap.mp hentry
  obtain ⟨_, hprevious, hentry⟩ := Option.bind_eq_some_iff.mp hentry
  obtain ⟨_, hcurrent, hentry⟩ := Option.bind_eq_some_iff.mp hentry
  cases hentry
  dsimp only at hd
  split at hd
  · cases hd
    exact ⟨r, hr, _, _, hprevious, hcurrent, rfl, rfl⟩
  · cases hd

end Scope

/-- In every scope of a text that parses, names are bound in the order of the text: the bindings
have known places, each one after the one before it, and a shadowing names two bindings of its
name in this order. A report of a shadowing loop variable knows both lines. -/
theorem bindings_in_source_order {code : String} {root : Node} (hparse : parse code = .ok root)
    (filename : String) (builtins : List String) :
    ∃ w report, walk root filename = .ok w ∧ lint code filename builtins = .ok report ∧
      (∀ i s, w.arena.scopes[i]? = some s →
        s.history.map Binding.record =
          (root.actionsIn filename i).filterMap (Event.record? s.isToplevel) ∧
        (∀ b ∈ s.history, ∃ p q, b.span = .between p q) ∧
        (s.history.map (·.span)).Pairwise Span.StartsBefore ∧
        ∀ r ∈ s.shadowed, ∃ previous current, s.history[r.previous]? = some previous ∧
          s.history[r.current]? = some current ∧ previous.name = r.name ∧ current.name = r.name ∧
          previous.span.StartsBefore current.span) ∧
      ∀ d ∈ report.diagnostics, d.ident = "loop-shadowed" →
        ∃ other line, d.otherLine = some other ∧ d.startLine = some line ∧ other ≤ line := by
  obtain ⟨w, hw⟩ := walk_parse_ok hparse filename
  obtain ⟨notes, hlint⟩ := lint_of_walk hparse hw builtins
  have hrecalls := Walk.Recalls.replay (walk_ok_iff.mp hw).1
  have horder : ∀ {i : Nat} {s : Scope}, w.arena.scopes[i]? = some s → s.InSourceOrder := by
    intro i s hs
    obtain ⟨t, ht, hsub⟩ := history_sublist hw hs
    exact Scope.inSourceOrder_of_sublist (hsub.trans (scopes_of_parse hparse t ht))
      (pairwise_namesOf_tokenize _)
  refine ⟨w, _, hw, hlint, ?_, ?_⟩
  · intro i s hs
    refine ⟨(hrecalls.recalls hs).history, (horder hs).known, (horder hs).ordered, ?_⟩
    intro r hr
    obtain ⟨hlt, previous, current, hprevious, hcurrent, hname, hname'⟩ :=
      Scope.shadows_of_walk hw hs r hr
    exact ⟨previous, current, hprevious, hcurrent, hname, hname',
      (horder hs).startsBefore hlt hprevious hcurrent⟩
  · intro d hd hident
    obtain ⟨i, s, hs, hd⟩ := Resolve.scope_of_resolve hw hd (by rw [hident]; decide)
    rcases Scope.mem_messages hd with ⟨_, hi⟩ | ⟨_, hi | hi⟩ | ⟨hd, _⟩
    · exact absurd (hi.symm.trans hident) (by decide)
    · exact absurd (hi.symm.trans hident) (by decide)
    · exact absurd (hi.symm.trans hident) (by decide)
    · obtain ⟨r, hr, previous, current, hprevious, hcurrent, hother, hline⟩ :=
        Scope.lines_of_shadowed hd
      have hlt := (Scope.shadows_of_walk hw hs r hr).1
      rw [hother, hline]
      exact ((horder hs).startsBefore hlt hprevious hcurrent).line_le

/-- Names bound in a chain, by `with`, by a loop that takes one of them over, and once more. -/
def rebound : String :=
  "def f(p):\n\ta, b = c = p\n\twith a as d:\n\t\tfor b in c:\n\t\t\tc = d\n" ++
  "\treturn [c for c in b]\n"

theorem bindings_of_rebound_in_order :
    ∃ root w report, parse rebound = .ok root ∧ walk root "rebound" = .ok w ∧
      lint rebound "rebound" [] = .ok report ∧
      w.arena.scopes.map (fun s => s.history.map (·.name)) =
        [["f"], ["p", "a", "b", "c", "d", "b", "c"], ["c"]] ∧
      report.diagnostics.map (fun d => (d.ident, d.name, d.otherLine, d.startLine)) =
        [("loop-shadowed", "b", some 2, some 4)] ∧
      (∀ i s, w.arena.scopes[i]? = some s →
        s.history.map Binding.record =
          (root.actionsIn "rebound" i).filterMap (Event.record? s.isToplevel) ∧
        (∀ b ∈ s.history, ∃ p q, b.span = .between p q) ∧
        (s.history.map (·.span)).Pairwise Span.StartsBefore ∧
        ∀ r ∈ s.shadowed, ∃ previous current, s.history[r.previous]? = some previous ∧
          s.history[r.current]? = some current ∧ previous.name = r.name ∧ current.name = r.name ∧
          previous.span.StartsBefore current.span) ∧
      ∀ d ∈ report.diagnostics, d.ident = "loop-shadowed" →
        ∃ other line, d.otherLine = some other ∧ d.startLine = some line ∧ other ≤ line := by
  have hwalk : ((parse rebound).toOption.bind fun root => (walk root "rebound").toOption.map
      fun w => w.arena.scopes.map fun s => s.history.map (·.name)) =
      some [["f"], ["p", "a", "b", "c", "d", "b", "c"], ["c"]] := by decide +kernel
  have hreport : (lint rebound "rebound" []).map (fun report =>
      report.diagnostics.map fun d => (d.ident, d.name, d.otherLine, d.startLine)) =
      .ok [("loop-shadowed", "b", some 2, some 4)] := by decide +kernel
  cases hparse : parse rebound with
  | error e =>
    rw [hparse] at hwalk
    cases hwalk
  | ok root =>
    obtain ⟨w, report, hw, hlint, hscopes, hlines⟩ := bindings_in_source_order hparse "rebound" []
    rw [hparse] at hwalk
    simp only [Except.toOption, Option.bind_some, hw, Option.map_some, Option.some.injEq] at hwalk
    rw [hlint] at hreport
    exact ⟨root, w, report, rfl, hw, hlint, hwalk, Except.ok.inj hreport, hscopes, hlines⟩

end ScopeLint
