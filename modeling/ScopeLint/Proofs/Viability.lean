import Mathlib.Data.List.Induction
import ScopeLint.Proofs.Acceptance

/-! # The first token that nothing can follow up

The reader takes a token only where a phrase can be completed behind it, and what
it makes of the tokens hangs on no more of them than the next one. So it stops at
the first token with which the tokens so far cannot be continued to a file, and
what stands behind that token is not looked at. -/
namespace ScopeLint

namespace Grammar

/-! ## Every rule has a phrase -/

/-- The kinds of a short phrase of the rule, with one behind it where the reader has to see that it
ends. -/
def Rule.phrase : Rule → List Kind
  | .statement | .suite | .simple => [.passWord, .newline]
  | .small => [.passWord]
  | .elif => [.elifWord, .name, .colon, .passWord, .newline]
  | .tryTail => [.finallyWord, .colon, .passWord, .newline]
  | .handler => [.exceptWord, .colon, .passWord, .newline]
  | .decorator => [.atSign, .name, .newline]
  | .definition => [.classWord, .name, .colon, .passWord, .newline]
  | .compareOp => [.relation]
  | .mulOp => [.star]
  | .trailer => [.dot, .name]
  | .subscript => [.colon, .closeBracket]
  | .parenTail => [.closeParen]
  | .listTail | .listRest => [.closeBracket]
  | .dictTail | .dictRest => [.closeBrace]
  | .dictItem => [.name, .colon, .name]
  | .compFor => [.forWord, .name, .inWord, .name]
  | .statements => [.dedent]
  | .handlerHead => [.colon]
  | .optArguments => [.closeParen]
  | .optUpper => [.closeBracket]
  | r => if r.nullable then [] else [.name]

/-- A token of the kind, written nowhere. -/
def sampleToken (kind : Kind) : Token := ⟨kind, "", ⟨1, 0⟩, ⟨1, 0⟩⟩

theorem toBool_readRule_phrase (r : Rule) :
    (readRule depthPerToken r (r.phrase.map sampleToken)).toBool = true := by
  cases r <;> decide +kernel

theorem nonempty_tree (s : Symbol) : Nonempty (Tree s) := by
  cases s with
  | token kind => exact ⟨.leaf (sampleToken kind) rfl⟩
  | rule r =>
    have hread := toBool_readRule_phrase r
    cases hresult : readRule depthPerToken r (r.phrase.map sampleToken) with
    | ok found => exact ⟨found.1⟩
    | error e =>
      rw [hresult] at hread
      cases hread

theorem nonempty_forest (ss : List Symbol) : Nonempty (Forest ss) := by
  induction ss with
  | nil => exact ⟨.nil⟩
  | cons s ss ih =>
    obtain ⟨head⟩ := nonempty_tree s
    obtain ⟨tail⟩ := ih
    exact ⟨.cons head tail⟩

/-! ## One token ahead -/

/-- A reader that takes the tokens of what it finds, and answers the same whatever stands behind the
next token. Where it stops, what it has taken begins something that it could find. -/
structure Steady {α : Type} (yield : α → List Token)
    (read : List Token → Except Rejection (α × List Token)) : Prop where
  ok : ∀ {tokens rest : List Token} {a : α}, read tokens = .ok (a, rest) →
    yield a ++ rest = tokens ∧
      ∀ rest', rest'.head? = rest.head? → read (yield a ++ rest') = .ok (a, rest')
  error : ∀ {tokens : List Token} {e : Rejection}, read tokens = .error e →
    ∃ taken rest, taken ++ rest = tokens ∧ rest.head? = e ∧ (∃ a, taken <+: yield a) ∧
      ∀ rest', rest'.head? = e → read (taken ++ rest') = .error e

theorem head?_append_congr (first : List Token) {rest rest' : List Token}
    (h : rest'.head? = rest.head?) : (first ++ rest').head? = (first ++ rest).head? := by
  rw [List.head?_append, List.head?_append, h]

/-- A reader that stops before it takes anything is steady there. -/
theorem Steady.stop {α : Type} [Nonempty α] (yield : α → List Token)
    {read : List Token → Except Rejection (α × List Token)} (tokens : List Token)
    (h : ∀ rest', rest'.head? = tokens.head? → read rest' = .error tokens.head?) :
    ∃ taken rest, taken ++ rest = tokens ∧ rest.head? = tokens.head? ∧
      (∃ a, taken <+: yield a) ∧
      ∀ rest', rest'.head? = tokens.head? → read (taken ++ rest') = .error tokens.head? := by
  obtain ⟨a⟩ := ‹Nonempty α›
  exact ⟨[], tokens, rfl, rfl, ⟨a, List.nil_prefix⟩, h⟩

section Rows

variable {readRule : (r : Rule) → List Token → Except Rejection (Tree (.rule r) × List Token)}

/-- A token in front of a row that is read steadily. -/
theorem Steady.afterToken {ss : List Symbol} (h : Steady Forest.tokens (readForest readRule ss))
    (kind : Kind) : Steady Forest.tokens (readForest readRule (.token kind :: ss)) := by
  have : Nonempty (Forest (.token kind :: ss)) := nonempty_forest _
  have hfits : ∀ (t : Token) (fits : t.kind = kind) (tokens : List Token),
      readForest readRule (.token kind :: ss) (t :: tokens) =
        (readForest readRule ss tokens >>= fun found =>
          pure (.cons (.leaf t fits) found.1, found.2)) := by
    intro t fits tokens
    rw [readForest, dif_pos fits]
  have hstray : ∀ (t : Token), t.kind ≠ kind → ∀ tokens : List Token,
      readForest readRule (.token kind :: ss) (t :: tokens) = .error (some t) := by
    intro t hkind tokens
    rw [readForest, dif_neg hkind]
  refine ⟨fun {tokens rest ts} hread => ?_, fun {tokens e} hread => ?_⟩
  · cases tokens with
    | nil => cases hread
    | cons t tokens =>
      by_cases fits : t.kind = kind
      · rw [hfits t fits] at hread
        obtain ⟨⟨tail, left⟩, htail, heq⟩ := bind_eq_ok.mp hread
        cases heq
        obtain ⟨htokens, hlocal⟩ := h.ok htail
        refine ⟨congrArg (t :: ·) htokens, fun rest' hrest' => ?_⟩
        exact (hfits t fits _).trans (bind_eq_ok.mpr ⟨_, hlocal rest' hrest', rfl⟩)
      · rw [hstray t fits] at hread
        cases hread
  · cases tokens with
    | nil =>
      cases hread
      refine Steady.stop Forest.tokens [] fun rest' hrest' => ?_
      rw [List.head?_eq_none_iff.mp hrest']
      rfl
    | cons t tokens =>
      by_cases fits : t.kind = kind
      · rw [hfits t fits] at hread
        rcases bind_eq_error.mp hread with htail | ⟨_, _, hnone⟩
        · obtain ⟨taken, rest, rfl, hrest, ⟨tail, hbegins⟩, hlocal⟩ := h.error htail
          refine ⟨t :: taken, rest, rfl, hrest, ⟨.cons (.leaf t fits) tail, ?_⟩, fun rest' h' => ?_⟩
          · exact List.prefix_cons_inj t |>.mpr hbegins
          · exact (hfits t fits _).trans (bind_eq_error.mpr (.inl (hlocal rest' h')))
        · cases hnone
      · rw [hstray t fits] at hread
        cases hread
        refine Steady.stop Forest.tokens (t :: tokens) fun rest' hrest' => ?_
        obtain ⟨more, rfl⟩ := List.head?_eq_some_iff.mp hrest'
        exact hstray t fits more

/-- A rule that is read steadily in front of a row that is. -/
theorem Steady.beforeRow {r : Rule} {ss : List Symbol} (h : Steady Tree.tokens (readRule r))
    (hrow : Steady Forest.tokens (readForest readRule ss)) :
    Steady Forest.tokens (readForest readRule (.rule r :: ss)) := by
  have hboth : ∀ tokens : List Token, readForest readRule (.rule r :: ss) tokens =
      (readRule r tokens >>= fun found => readForest readRule ss found.2 >>= fun more =>
        pure (.cons found.1 more.1, more.2)) := fun tokens => by rw [readForest]
  refine ⟨fun {tokens rest ts} hread => ?_, fun {tokens e} hread => ?_⟩
  · rw [hboth] at hread
    obtain ⟨⟨head, middle⟩, hhead, hread⟩ := bind_eq_ok.mp hread
    obtain ⟨⟨tail, left⟩, htail, heq⟩ := bind_eq_ok.mp hread
    cases heq
    obtain ⟨rfl, hlocal⟩ := h.ok hhead
    obtain ⟨rfl, hlocal'⟩ := hrow.ok htail
    refine ⟨List.append_assoc .., fun rest' hrest' => ?_⟩
    rw [hboth, Forest.tokens, List.append_assoc]
    exact bind_eq_ok.mpr ⟨_, hlocal _ (head?_append_congr tail.tokens hrest'),
      bind_eq_ok.mpr ⟨_, hlocal' rest' hrest', rfl⟩⟩
  · rw [hboth] at hread
    rcases bind_eq_error.mp hread with hhead | ⟨⟨head, middle⟩, hhead, hread⟩
    · obtain ⟨taken, rest, rfl, hrest, ⟨head, hbegins⟩, hlocal⟩ := h.error hhead
      obtain ⟨tail⟩ := nonempty_forest ss
      refine ⟨taken, rest, rfl, hrest, ⟨.cons head tail, ?_⟩, fun rest' h' => ?_⟩
      · exact hbegins.trans (List.prefix_append ..)
      · rw [hboth]
        exact bind_eq_error.mpr (.inl (hlocal rest' h'))
    · rcases bind_eq_error.mp hread with htail | ⟨_, _, hnone⟩
      · obtain ⟨rfl, hlocal⟩ := h.ok hhead
        obtain ⟨taken, rest, rfl, hrest, ⟨tail, hbegins⟩, hlocal'⟩ := hrow.error htail
        refine ⟨head.tokens ++ taken, rest, List.append_assoc .., hrest,
          ⟨.cons head tail, ?_⟩, fun rest' h' => ?_⟩
        · exact (List.prefix_append_right_inj _).mpr hbegins
        · rw [hboth, List.append_assoc]
          have hsame := head?_append_congr taken (h'.trans hrest.symm)
          exact bind_eq_error.mpr (.inr ⟨_, hlocal _ hsame,
            bind_eq_error.mpr (.inl (hlocal' rest' h'))⟩)
      · cases hnone

theorem steady_readForest (h : ∀ r, Steady Tree.tokens (readRule r)) (ss : List Symbol) :
    Steady Forest.tokens (readForest readRule ss) := by
  induction ss with
  | nil =>
    refine ⟨fun hread => ?_, fun hread => by cases hread⟩
    cases hread
    exact ⟨rfl, fun _ _ => rfl⟩
  | cons s ss ih =>
    cases s with
    | token kind => exact ih.afterToken kind
    | rule r => exact (h r).beforeRow ih

end Rows

theorem steady_readRule (fuel : Nat) (r : Rule) : Steady Tree.tokens (readRule fuel r) := by
  induction fuel generalizing r with
  | zero =>
    have : Nonempty (Tree (.rule r)) := nonempty_tree _
    refine ⟨fun hread => (by cases hread), fun {tokens e} hread => ?_⟩
    cases hread
    exact Steady.stop Tree.tokens tokens fun rest' hrest' => congrArg Except.error hrest'
  | succ fuel ih =>
    have hnone : ∀ tokens : List Token, predict r (next tokens) = none →
        readRule (fuel + 1) r tokens = .error tokens.head? := by
      intro tokens hpredict
      rw [next] at hpredict
      rw [readRule, hpredict]
    have hsome : ∀ (tokens : List Token) (p : Production r), predict r (next tokens) = some p →
        readRule (fuel + 1) r tokens = (readForest (readRule fuel) p.symbols tokens >>=
          fun found => pure (.node p found.1, found.2)) := by
      intro tokens p hpredict
      rw [next] at hpredict
      rw [readRule, hpredict]
    have hnext : ∀ {tokens tokens' : List Token}, tokens'.head? = tokens.head? →
        next tokens' = next tokens := fun h => congrArg (Option.map Token.kind) h
    refine ⟨fun {tokens rest t} hread => ?_, fun {tokens e} hread => ?_⟩
    · cases hpredict : predict r (next tokens) with
      | none =>
        rw [hnone tokens hpredict] at hread
        cases hread
      | some p =>
        rw [hsome tokens p hpredict] at hread
        obtain ⟨⟨children, left⟩, hchildren, heq⟩ := bind_eq_ok.mp hread
        cases heq
        obtain ⟨rfl, hlocal⟩ := (steady_readForest ih p.symbols).ok hchildren
        refine ⟨rfl, fun rest' hrest' => ?_⟩
        rw [← hnext (head?_append_congr children.tokens hrest')] at hpredict
        exact (hsome _ p hpredict).trans (bind_eq_ok.mpr ⟨_, hlocal rest' hrest', rfl⟩)
    · cases hpredict : predict r (next tokens) with
      | none =>
        rw [hnone tokens hpredict] at hread
        cases hread
        have : Nonempty (Tree (.rule r)) := nonempty_tree _
        refine Steady.stop Tree.tokens tokens fun rest' hrest' => ?_
        rw [← hnext hrest'] at hpredict
        exact (hnone rest' hpredict).trans (congrArg Except.error hrest')
      | some p =>
        rw [hsome tokens p hpredict] at hread
        rcases bind_eq_error.mp hread with hchildren | ⟨_, _, hnever⟩
        · obtain ⟨taken, rest, rfl, hrest, ⟨children, hbegins⟩, hlocal⟩ :=
            (steady_readForest ih p.symbols).error hchildren
          refine ⟨taken, rest, rfl, hrest, ⟨.node p children, hbegins⟩, fun rest' h' => ?_⟩
          rw [← hnext (head?_append_congr taken (h'.trans hrest.symm))] at hpredict
          exact (hsome _ p hpredict).trans (bind_eq_error.mpr (.inl (hlocal rest' h')))
        · cases hnever

/-! ## More fuel -/

/-- Every rule of a row that the reader comes to before it takes a token has a rank below the
bound. -/
def guarded (bound : Nat) : List Symbol → Bool
  | [] => true
  | .token _ :: _ => true
  | .rule r :: ss => r.rank < bound && (!r.nullable || guarded bound ss)

theorem Production.guarded_symbols {r : Rule} (p : Production r) :
    guarded r.rank p.symbols = true := by
  cases p <;> decide +kernel

section Fuel

variable {readRule readRule' :
    (r : Rule) → List Token → Except Rejection (Tree (.rule r) × List Token)} {limit : Nat}

/-- Two readers that agree on what nests no deeper than the limit agree on a row, if a token was
taken before it or the row is guarded. -/
theorem readForest_congr
    (hagree : ∀ r tokens, depthPerToken * tokens.length + r.rank ≤ limit →
      readRule r tokens = readRule' r tokens)
    (hsteady : ∀ r, Steady Tree.tokens (readRule r)) {bound : Nat} (hbound : 0 < bound)
    {ss : List Symbol} {tokens : List Token}
    (h : depthPerToken * (tokens.length + 1) ≤ limit ∨
      guarded bound ss = true ∧ depthPerToken * tokens.length + bound ≤ limit + 1) :
    readForest readRule ss tokens = readForest readRule' ss tokens := by
  induction ss generalizing tokens with
  | nil => rfl
  | cons s ss ih =>
    cases s with
    | token kind =>
      cases tokens with
      | nil => rfl
      | cons t tokens =>
        have htail : readForest readRule ss tokens = readForest readRule' ss tokens := by
          refine ih (.inl ?_)
          simp only [depthPerToken, List.length_cons] at h ⊢
          omega
        rw [readForest, readForest, htail]
    | rule r =>
      have hrank := r.rank_lt
      have hhead : readRule r tokens = readRule' r tokens := by
        refine hagree r tokens ?_
        simp only [depthPerToken, guarded, Bool.and_eq_true, decide_eq_true_eq] at h hrank ⊢
        omega
      rw [readForest, readForest, ← hhead]
      cases hread : readRule r tokens with
      | error e => rfl
      | ok found =>
        obtain ⟨head, rest⟩ := found
        have htail : readForest readRule ss rest = readForest readRule' ss rest := by
          obtain ⟨rfl, _⟩ := (hsteady r).ok hread
          refine ih ?_
          rw [List.length_append] at h
          by_cases hempty : head.tokens = []
          · -- nothing was taken, so the next rule is guarded as this one was
            have hnullable : r.nullable = true := head.nullable_of_tokens hempty
            simpa [guarded, hnullable, hempty, and_assoc] using h.imp_right fun h =>
              (⟨(Bool.and_eq_true_iff.mp h.1).2, h.2⟩ : _ ∧ _)
          · have htaken := List.length_pos_iff.mpr hempty
            simp only [depthPerToken] at h ⊢
            omega
        show (readForest readRule ss rest >>= _) = (readForest readRule' ss rest >>= _)
        rw [htail]

end Fuel

/-- Enough fuel is as good as more. -/
theorem readRule_congr {fuel fuel' : Nat} {r : Rule} {tokens : List Token}
    (h : depthPerToken * tokens.length + r.rank ≤ fuel)
    (h' : depthPerToken * tokens.length + r.rank ≤ fuel') :
    readRule fuel r tokens = readRule fuel' r tokens := by
  have hrank := r.rank_pos
  induction fuel generalizing fuel' r tokens with
  | zero => omega
  | succ fuel ih =>
    cases fuel' with
    | zero => omega
    | succ fuel' =>
      rw [readRule, readRule]
      cases predict r (tokens.head?.map Token.kind) with
      | none => rfl
      | some p =>
        have hagree : ∀ r tokens, depthPerToken * tokens.length + r.rank ≤ min fuel fuel' →
            readRule fuel r tokens = readRule fuel' r tokens := fun r tokens hle =>
          ih (Nat.le_min.mp hle).1 (Nat.le_min.mp hle).2 r.rank_pos
        have hchildren : readForest (readRule fuel) p.symbols tokens =
            readForest (readRule fuel') p.symbols tokens :=
          readForest_congr hagree (steady_readRule fuel) hrank
            (.inr ⟨p.guarded_symbols, by omega⟩)
        show (readForest (readRule fuel) p.symbols tokens >>= _) = _
        rw [hchildren]

/-! ## Where the reader stops -/

/-- The tokens begin a file. -/
def Viable (tokens : List Token) : Prop := ∃ t : Tree (.rule .file), tokens <+: t.tokens

theorem viable_nil : Viable [] := by
  obtain ⟨t⟩ := nonempty_tree (.rule .file)
  exact ⟨t, List.nil_prefix⟩

theorem Viable.of_append {tokens more : List Token} (h : Viable (tokens ++ more)) :
    Viable tokens := by
  obtain ⟨t, ht⟩ := h
  exact ⟨t, (List.prefix_append tokens more).trans ht⟩

/-- Tokens that begin no file have a first one that is to blame. -/
theorem exists_hopeless {tokens : List Token} (h : ¬ Viable tokens) :
    ∃ before t after, tokens = before ++ t :: after ∧ Viable before ∧ ¬ Viable (before ++ [t]) := by
  induction tokens using List.reverseRecOn with
  | nil => exact absurd viable_nil h
  | append_singleton tokens last ih =>
    by_cases htokens : Viable tokens
    · exact ⟨tokens, last, [], rfl, htokens, h⟩
    · obtain ⟨before, t, after, rfl, hbefore, ht⟩ := ih htokens
      exact ⟨before, t, after ++ [last], by simp, hbefore, ht⟩

/-- Where the reader stops, what it has taken begins a file, but no file whose tree the fuel
suffices for goes on as the tokens do. -/
theorem stopped_of_read {tokens : List Token} {e : Rejection} (h : read tokens = .error e)
    {fuel : Nat} (hfuel : depthPerToken * (tokens.length + 1) ≤ fuel) :
    ∃ taken rest, taken ++ rest = tokens ∧ rest.head? = e ∧ Viable taken ∧
      ∀ (t : Tree (.rule .file)) (rest' : List Token), t.height ≤ fuel →
        t.tokens = taken ++ rest' → rest'.head? ≠ e := by
  have hsame : readRule (depthPerToken * (tokens.length + 1)) .file tokens =
      readRule fuel .file tokens := by
    have hrank : Rule.rank .file ≤ depthPerToken := by decide
    refine readRule_congr ?_ ?_ <;> (rw [Nat.mul_add, Nat.mul_one] at *; omega)
  have htree : ∀ t : Tree (.rule .file), t.height ≤ fuel →
      readRule fuel .file t.tokens = .ok (t, []) := by
    intro t hheight
    have hread := readRule_tokens t [] hheight (by decide)
    rwa [List.append_nil] at hread
  rw [read, hsame] at h
  rcases bind_eq_error.mp h with hread | ⟨⟨tree, rest⟩, hread, hrest⟩
  · obtain ⟨taken, rest, htokens, hrest, hviable, hlocal⟩ :=
      (steady_readRule fuel .file).error hread
    refine ⟨taken, rest, htokens, hrest, hviable, fun t rest' hheight ht hrest' => ?_⟩
    have hstop := hlocal rest' hrest'
    rw [← ht, htree t hheight] at hstop
    cases hstop
  · obtain ⟨htokens, hlocal⟩ := (steady_readRule fuel .file).ok hread
    cases rest with
    | nil => cases hrest
    | cons x rest =>
      cases hrest
      refine ⟨tree.tokens, x :: rest, htokens, rfl, ⟨tree, List.prefix_refl _⟩,
        fun t rest' hheight ht hrest' => ?_⟩
      have hstop := hlocal rest' hrest'
      rw [← ht, htree t hheight] at hstop
      cases hstop
      cases hrest'

/-- The reader stops at the first token that is to blame. -/
theorem read_of_hopeless {before after : List Token} {t : Token} (hbefore : Viable before)
    (ht : ¬ Viable (before ++ [t])) : read (before ++ t :: after) = .error (some t) := by
  cases hread : read (before ++ t :: after) with
  | ok tree =>
    refine absurd ⟨tree, after, ?_⟩ ht
    rw [read_eq_ok_iff.mp hread, List.append_assoc]
    rfl
  | error e =>
    obtain ⟨tree, behind, htree⟩ := hbefore
    obtain ⟨taken, rest, htokens, rfl, hviable, hstop⟩ :=
      stopped_of_read hread (Nat.le_max_right tree.height _)
    rcases List.append_eq_append_iff.mp htokens with ⟨early, rfl, rfl⟩ | ⟨late, rfl, hlate⟩
    · cases early with
      | nil => rfl
      | cons x early =>
        -- the tree could be read further
        refine absurd rfl (hstop tree (x :: early ++ behind) (Nat.le_max_left _ _) ?_)
        rw [← htree, List.append_assoc]
    · cases late with
      | nil =>
        cases hlate
        rfl
      | cons x late =>
        obtain ⟨rfl, -⟩ := List.cons.inj hlate
        rw [List.append_cons] at hviable
        exact absurd hviable.of_append ht

/-- Tokens that only lack an end are read to the last. -/
theorem read_of_incomplete {tokens : List Token} (h : Viable tokens)
    (hnone : ∀ t : Tree (.rule .file), t.tokens ≠ tokens) : read tokens = .error none := by
  cases hread : read tokens with
  | ok tree => exact absurd (read_eq_ok_iff.mp hread) (hnone tree)
  | error e =>
    obtain ⟨tree, behind, htree⟩ := h
    obtain ⟨taken, rest, rfl, rfl, -, hstop⟩ :=
      stopped_of_read hread (Nat.le_max_right tree.height _)
    cases rest with
    | nil => rfl
    | cons x rest =>
      refine absurd rfl (hstop tree (x :: rest ++ behind) (Nat.le_max_left _ _) ?_)
      rw [← htree, List.append_assoc]

theorem not_viable_of_read {tokens : List Token} {t : Token}
    (h : read tokens = .error (some t)) : ¬ Viable tokens := by
  intro hviable
  have hnone : ∀ tree : Tree (.rule .file), tree.tokens ≠ tokens := by
    intro tree htree
    rw [read_eq_ok_iff.mpr htree] at h
    cases h
  rw [read_of_incomplete hviable hnone] at h
  cases h

end Grammar

/-! ## Tokens stand in the text -/

namespace Layout

/-- A mark of layout stands where a token does. -/
theorem start_layoutFrom {P : Position → Prop} {fault : Option Fault} {depth : Nat}
    {levels : List Nat} {last : Option Token} {tokens : List Token}
    (hlast : ∀ t ∈ last, P t.start) (h : ∀ t ∈ tokens, P t.start) :
    ∀ t ∈ (layoutFrom fault depth levels last tokens).tokens, P t.start := by
  have hmarks : ∀ {u : Token}, P u.start → ∀ (closed : List Nat) (blanks : List Char),
      ∀ t ∈ u :: closed.map (fun _ => marker .dedent blanks u), P t.start := by
    intro u hu closed blanks t ht
    rcases List.mem_cons.mp ht with rfl | ht
    · exact hu
    · obtain ⟨_, _, rfl⟩ := List.mem_map.mp ht
      exact hu
  have happend : ∀ {first : List Token} {s : Stream}, (∀ t ∈ first, P t.start) →
      (∀ t ∈ s.tokens, P t.start) → ∀ t ∈ (Stream.prepend first s).tokens, P t.start := by
    intro first s hfirst hs t ht
    exact (List.mem_append.mp ht).elim (hfirst t) (hs t)
  have hcons : ∀ {u : Token} {s : Stream}, P u.start → (∀ t ∈ s.tokens, P t.start) →
      ∀ t ∈ (Stream.cons u s).tokens, P t.start := by
    intro u s hu hs
    exact happend (List.forall_mem_singleton.mpr hu) hs
  have hread : ∀ {u : Token} {rest : List Token}, (∀ t ∈ u :: rest, P t.start) →
      (∀ t ∈ some u, P t.start) ∧ ∀ t ∈ rest, P t.start := fun h =>
    ⟨fun t ht => Option.mem_some_iff.mp ht ▸ h _ List.mem_cons_self,
      fun t ht => h t (List.mem_cons_of_mem _ ht)⟩
  fun_induction layoutFrom fault depth levels last tokens with
  | case1 => simp [Stream.failed]
  | case2 _ levels last =>
    intro t ht
    cases last with
    | none => cases ht
    | some u =>
      obtain ⟨_, _, rfl⟩ := List.mem_map.mp ht
      exact hlast u rfl
  | case3 _ _ _ u rest _ _ ih => exact ih (hread h).1 (hread h).2
  | case4 _ _ _ u rest _ _ blanks column _ ih =>
    refine happend ?_ (ih (hread h).1 (hread h).2)
    have hu := h u List.mem_cons_self
    simpa [marker] using hu
  | case5 _ _ _ u rest _ _ blanks column _ closed levels' tokens _ ih =>
    exact happend (hmarks (h u List.mem_cons_self) closed blanks) (ih (hread h).1 (hread h).2)
  | case6 _ _ _ u rest _ _ blanks column _ closed levels' tokens _ =>
    exact hmarks (h u List.mem_cons_self) closed blanks
  | case7 _ _ _ u rest _ _ ih =>
    exact hcons (h u List.mem_cons_self) (ih (hread h).1 (hread h).2)
  | case8 _ _ u rest _ _ _ => simpa using h u List.mem_cons_self
  | case9 _ _ u rest _ _ _ _ ih =>
    exact hcons (h u List.mem_cons_self) (ih (hread h).1 (hread h).2)
  | case10 _ _ _ u rest _ _ _ ih =>
    exact hcons (h u List.mem_cons_self) (ih (hread h).1 (hread h).2)

end Layout

namespace Separator

theorem start_foldFrom {P : Position → Prop} {pending : Option Token} {inStatement : Bool}
    {tokens : List Token} (hpending : ∀ t ∈ pending, P t.start) (h : ∀ t ∈ tokens, P t.start) :
    ∀ t ∈ foldFrom pending inStatement tokens, P t.start := by
  induction tokens generalizing pending inStatement with
  | nil => simp [foldFrom]
  | cons u rest ih =>
    have hu : P u.start := h u List.mem_cons_self
    have hrest := fun t ht => h t (List.mem_cons_of_mem u ht)
    have hsome : ∀ t ∈ some u, P t.start := fun t ht => Option.mem_some_iff.mp ht ▸ hu
    have hnone : ∀ t ∈ (none : Option Token), P t.start := fun t ht => by cases ht
    intro t ht
    rw [foldFrom] at ht
    split at ht
    · split at ht
      · exact ih hsome hrest t ht
      · rcases List.mem_append.mp ht with ht | ht
        · exact hpending t (Option.mem_toList.mp ht)
        · rcases List.mem_cons.mp ht with rfl | ht
          · exact hu
          · exact ih hsome hrest t ht
    · split at ht
      · rcases List.mem_cons.mp ht with rfl | ht
        · exact hu
        · exact ih hnone hrest t ht
      · rcases List.mem_append.mp ht with ht | ht
        · exact hpending t (Option.mem_toList.mp ht)
        · rcases List.mem_cons.mp ht with rfl | ht
          · exact hu
          · exact ih hnone hrest t ht

end Separator

/-- The place is one of a text. -/
def Position.IsIn (text : List Char) (place : Position) : Prop :=
  ∃ before rest, text = before ++ rest ∧ place = (⟨1, 0⟩ : Position).after before

theorem start_tokenize {text : List Char} {t : Token} (h : t ∈ (tokenize text).tokens) :
    t.start.IsIn text := by
  have hlex : ∀ t ∈ (Lexer.lex text).tokens, t.start.IsIn text := by
    intro t ht
    obtain ⟨before, rest, n, htext, -, -, hstart, -⟩ := readFrom_of_mem_scan ht
    exact ⟨before, rest, htext, hstart⟩
  exact Separator.start_foldFrom (by simp) (Layout.start_layoutFrom (by simp) hlex) t h

/-! ## Syntax errors -/

open Ebnf

/-- The tokens can be continued to a file. -/
def Extendable (tokens : List Token) : Prop :=
  ∃ d : Derivation (ph .fileInput), tokens <+: d.tokens

theorem extendable_iff {tokens : List Token} : Extendable tokens ↔ Grammar.Viable tokens := by
  constructor
  · intro h
    obtain ⟨d, hd⟩ := h
    obtain ⟨t, rfl⟩ := Grammar.exists_tree (r := .file) d
    exact ⟨t, t.tokens_derivation ▸ hd⟩
  · intro h
    obtain ⟨t, ht⟩ := h
    exact ⟨t.derivation, t.tokens_derivation.symm ▸ ht⟩

/-- No tokens at all are a file. -/
theorem ne_nil_of_not_derived {tokens : List Token}
    (h : ∀ d : Derivation (ph .fileInput), d.tokens ≠ tokens) : tokens ≠ [] := by
  intro hnil
  let empty : Grammar.Tree (.rule .file) := .node .file (.cons (.node .linesEnd .nil) .nil)
  exact h empty.derivation (empty.tokens_derivation.trans hnil.symm)

theorem parse_of_hopeless {source : String} {before : List Token} {t : Token}
    (htokens : before ++ [t] <+: (sourceTokens source).tokens) (hbefore : Extendable before)
    (ht : ¬ Extendable (before ++ [t])) : parse source = .error (.unexpectedToken t) := by
  obtain ⟨after, hafter⟩ := htokens
  rw [extendable_iff] at hbefore ht
  have hread : Grammar.read (before ++ t :: after) = .error (some t) :=
    Grammar.read_of_hopeless hbefore ht
  rw [List.append_cons, hafter] at hread
  unfold sourceTokens at hread
  unfold parse
  simp only [hread]

theorem parse_of_incomplete {source : String} (h : Extendable (sourceTokens source).tokens)
    (hfault : (sourceTokens source).fault = none)
    (hnone : ∀ d : Derivation (ph .fileInput), d.tokens ≠ (sourceTokens source).tokens) :
    parse source = .error (.unexpectedEnd (endPlace (sourceTokens source).tokens)) := by
  have hread := Grammar.read_of_incomplete (extendable_iff.mp h)
    fun t ht => hnone t.derivation (t.tokens_derivation.trans ht)
  unfold sourceTokens at hread hfault ⊢
  unfold parse
  simp only [hread, hfault]

/-- A source that the grammar rejects, and not a fault in the text behind its tokens, is blamed on a
token that stands in the text. This is the first one with which the tokens cannot be continued to a
file, and then any source whose tokens begin the same up to it is rejected with the same error; or
it is the last one, if the tokens can be continued and only end too early. -/
theorem error_blames_first_hopeless {source : String}
    (hrejected : ¬ Extendable (sourceTokens source).tokens ∨
      (sourceTokens source).fault = none ∧
        ∀ d : Derivation (ph .fileInput), d.tokens ≠ (sourceTokens source).tokens) :
    ∃ (e : SyntaxError) (t : Token), parse source = .error e ∧ e.place = some t.start ∧
      t.start.IsIn (endLine source.toList) ∧
      ((∃ before after, (sourceTokens source).tokens = before ++ t :: after ∧
          Extendable before ∧ ¬ Extendable (before ++ [t]) ∧
          ∀ source', before ++ [t] <+: (sourceTokens source').tokens →
            parse source' = .error e) ∨
        Extendable (sourceTokens source).tokens ∧
          (sourceTokens source).tokens.getLast? = some t) := by
  by_cases h : Extendable (sourceTokens source).tokens
  · obtain ⟨hfault, hnone⟩ := hrejected.resolve_left (not_not.mpr h)
    obtain ⟨t, hlast⟩ : ∃ t, (sourceTokens source).tokens.getLast? = some t :=
      ⟨_, List.getLast?_eq_some_getLast (ne_nil_of_not_derived hnone)⟩
    have hplace : endPlace (sourceTokens source).tokens = t.start := by
      rw [endPlace, hlast]
      rfl
    exact ⟨_, t, parse_of_incomplete h hfault hnone, congrArg some hplace,
      start_tokenize (List.mem_of_getLast? hlast), .inr ⟨h, hlast⟩⟩
  · obtain ⟨before, t, after, htokens, hbefore, ht⟩ :=
      Grammar.exists_hopeless (mt extendable_iff.mpr h)
    rw [← extendable_iff] at hbefore ht
    have hmem : t ∈ (sourceTokens source).tokens := by
      rw [htokens]
      exact List.mem_append_right _ List.mem_cons_self
    have hbegins : before ++ [t] <+: (sourceTokens source).tokens :=
      ⟨after, by rw [htokens, List.append_assoc]; rfl⟩
    exact ⟨_, t, parse_of_hopeless hbegins hbefore ht, rfl, start_tokenize hmem,
      .inl ⟨before, after, htokens, hbefore, ht, fun source' h' => parse_of_hopeless h' hbefore ht⟩⟩

/-- A text with a sign too many in its second line, and a character of no token in its third. -/
def doubled : String := "x = 1\ny = = 2\n?\n"

theorem blame_in_doubled : ¬ Extendable (sourceTokens doubled).tokens ∧
    (sourceTokens doubled).fault = some (.badCharacter '?' ⟨3, 0⟩) ∧
    ∃ (e : SyntaxError) (t : Token), parse doubled = .error e ∧ e.place = some ⟨2, 4⟩ ∧
      t.start = ⟨2, 4⟩ ∧ t.start.IsIn (endLine doubled.toList) ∧
      ∃ before after, (sourceTokens doubled).tokens = before ++ t :: after ∧
        Extendable before ∧ ¬ Extendable (before ++ [t]) ∧
        ∀ source', before ++ [t] <+: (sourceTokens source').tokens →
          parse source' = .error e := by
  have hread : (Grammar.read (sourceTokens doubled).tokens).map (fun _ => ()) =
      .error (some ⟨.assign, "=", ⟨2, 4⟩, ⟨2, 5⟩⟩) := by
    decide +kernel
  have hplace : (parse doubled).map (fun _ => ()) =
      .error (.unexpectedToken ⟨.assign, "=", ⟨2, 4⟩, ⟨2, 5⟩⟩) := by
    decide +kernel
  have hfault : (sourceTokens doubled).fault = some (.badCharacter '?' ⟨3, 0⟩) := by
    decide +kernel
  have hnot : ¬ Extendable (sourceTokens doubled).tokens := by
    rw [extendable_iff]
    cases h : Grammar.read (sourceTokens doubled).tokens with
    | ok tree =>
      rw [h] at hread
      cases hread
    | error e =>
      rw [h] at hread
      cases hread
      exact Grammar.not_viable_of_read h
  obtain ⟨e, t, hparse, herror, hin, hblame⟩ := error_blames_first_hopeless (.inl hnot)
  have hblame := hblame.resolve_right fun h => hnot h.1
  rw [hparse] at hplace
  cases hplace
  have hstart : t.start = ⟨2, 4⟩ := (Option.some.inj herror).symm
  exact ⟨hnot, hfault, _, t, hparse, rfl, hstart, hin, hblame⟩

end ScopeLint
