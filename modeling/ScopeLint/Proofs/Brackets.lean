import ScopeLint.Parse

/-! # Brackets

Layout stops at a closing bracket when no bracket is open. The grammar opens every
bracket that it closes, so it refuses such a bracket before layout has a say: in
all that the grammar has taken so far, no bracket closes that was not opened. -/
namespace ScopeLint

/-- How many brackets are open after a token. A closing one needs one to close. -/
def Kind.nest (kind : Kind) (depth : Nat) : Option Nat :=
  if kind.isOpener then some (depth + 1)
  else if kind.isCloser then if 0 < depth then some (depth - 1) else none
  else some depth

/-- How many brackets are open after a list of tokens. -/
def nestTokens : (depth : Nat) → List Token → Option Nat
  | depth, [] => some depth
  | depth, t :: rest => (t.kind.nest depth).bind fun depth => nestTokens depth rest

/-- With more brackets open to begin with, as many more are open in the end. -/
theorem Kind.nest_add {kind : Kind} {depth after : Nat} (h : kind.nest depth = some after)
    (more : Nat) : kind.nest (depth + more) = some (after + more) := by
  unfold nest at h ⊢
  split
  · next ho =>
    rw [if_pos ho] at h
    cases h
    simp only [Option.some.injEq]
    omega
  · next ho =>
    rw [if_neg ho] at h
    split
    · next hc =>
      rw [if_pos hc] at h
      split at h
      · next hpos =>
        cases h
        rw [if_pos (by omega)]
        simp only [Option.some.injEq]
        omega
      · cases h
    · next hc =>
      rw [if_neg hc] at h
      cases h
      rfl

theorem nestTokens_add {tokens : List Token} {depth after : Nat}
    (h : nestTokens depth tokens = some after) (more : Nat) :
    nestTokens (depth + more) tokens = some (after + more) := by
  induction tokens generalizing depth with
  | nil =>
    cases h
    rfl
  | cons t rest ih =>
    obtain ⟨next, hnext, hrest⟩ := Option.bind_eq_some_iff.mp h
    rw [nestTokens, Kind.nest_add hnext more, Option.bind_some]
    exact ih hrest

theorem nestTokens_cons {t : Token} {depth next : Nat} (h : t.kind.nest depth = some next)
    (rest : List Token) : nestTokens depth (t :: rest) = nestTokens next rest := by
  rw [nestTokens, h]
  rfl

theorem nestTokens_append (depth : Nat) (first second : List Token) :
    nestTokens depth (first ++ second) =
      (nestTokens depth first).bind fun depth => nestTokens depth second := by
  induction first generalizing depth with
  | nil => rfl
  | cons t rest ih =>
    simp only [List.cons_append, nestTokens, Option.bind_assoc, ih]

theorem nestTokens_isSome_add {tokens : List Token} {depth : Nat}
    (h : (nestTokens depth tokens).isSome = true) (more : Nat) :
    (nestTokens (depth + more) tokens).isSome = true := by
  obtain ⟨after, hafter⟩ := Option.isSome_iff_exists.mp h
  rw [nestTokens_add hafter more]
  rfl

namespace Grammar

/-! ## What the grammar takes -/

/-- How many brackets a rule closes that it does not open. -/
def Rule.closes : Rule → Nat
  | .parenTail | .listTail | .listRest | .dictTail | .dictRest => 1
  | _ => 0

def Symbol.nest : Symbol → (depth : Nat) → Option Nat
  | .token kind, depth => kind.nest depth
  | .rule r, depth => if r.closes ≤ depth then some (depth - r.closes) else none

def nestSymbols : (depth : Nat) → List Symbol → Option Nat
  | depth, [] => some depth
  | depth, s :: rest => (s.nest depth).bind fun depth => nestSymbols depth rest

/-- Every production closes what its rule has to close, and all that it opens. -/
theorem Production.nest_symbols {r : Rule} (p : Production r) :
    nestSymbols r.closes p.symbols = some 0 := by
  cases p <;> rfl

/-- A reading that begins with `depth` brackets open takes tokens up to where `after` are open. If
it lacks a token, all the tokens close only what is open. -/
def Nests {α : Type} (depth after : Nat) (tokens : List Token) :
    Except Rejection (α × List Token) → Prop
  | .ok (_, rest) => ∃ taken, tokens = taken ++ rest ∧ nestTokens depth taken = some after
  | .error none => (nestTokens depth tokens).isSome = true
  | .error (some _) => True

theorem Nests.add {α : Type} {depth after : Nat} {tokens : List Token}
    {result : Except Rejection (α × List Token)} (h : Nests depth after tokens result)
    (more : Nat) : Nests (depth + more) (after + more) tokens result := by
  match result with
  | .ok (_, rest) =>
    obtain ⟨taken, htokens, htaken⟩ := h
    exact ⟨taken, htokens, nestTokens_add htaken more⟩
  | .error none => exact nestTokens_isSome_add h more
  | .error (some _) => trivial

theorem nests_head? {α : Type} (depth after : Nat) (tokens : List Token) :
    Nests (α := α) depth after tokens (.error tokens.head?) := by
  cases tokens with
  | nil => rfl
  | cons t rest => trivial

theorem Nests.bind {α β : Type} {depth middle after : Nat} {tokens : List Token}
    {result : Except Rejection (α × List Token)}
    {next : α × List Token → Except Rejection (β × List Token)}
    (h : Nests depth middle tokens result)
    (hnext : ∀ a rest, Nests middle after rest (next (a, rest))) :
    Nests depth after tokens (result >>= next) := by
  match result with
  | .error none => exact h
  | .error (some _) => trivial
  | .ok (a, rest) =>
    obtain ⟨taken, rfl, htaken⟩ := h
    have hrest := hnext a rest
    show Nests depth after (taken ++ rest) (next (a, rest))
    match hresult : next (a, rest) with
    | .error (some _) => trivial
    | .error none =>
      rw [hresult] at hrest
      show (nestTokens depth (taken ++ rest)).isSome = true
      rw [nestTokens_append, htaken]
      exact hrest
    | .ok (b, last) =>
      rw [hresult] at hrest
      obtain ⟨more, rfl, hmore⟩ := hrest
      refine ⟨taken ++ more, (List.append_assoc ..).symm, ?_⟩
      rw [nestTokens_append, htaken]
      exact hmore

theorem Nests.map {α β : Type} {depth after : Nat} {tokens : List Token}
    {result : Except Rejection (α × List Token)} (h : Nests depth after tokens result)
    (f : α → β) : Nests depth after tokens (result >>= fun (a, rest) => pure (f a, rest)) :=
  h.bind fun _ _ => ⟨[], rfl, rfl⟩

theorem Nests.cons {α : Type} {t : Token} {depth next after : Nat} {tokens : List Token}
    {result : Except Rejection (α × List Token)} (ht : t.kind.nest depth = some next)
    (h : Nests next after tokens result) : Nests depth after (t :: tokens) result := by
  match result with
  | .ok (_, rest) =>
    obtain ⟨taken, rfl, htaken⟩ := h
    exact ⟨t :: taken, rfl, (nestTokens_cons ht taken).trans htaken⟩
  | .error none =>
    show (nestTokens depth (t :: tokens)).isSome = true
    rw [nestTokens_cons ht]
    exact h
  | .error (some _) => trivial

theorem nests_readForest
    {readRule : (r : Rule) → List Token → Except Rejection (Tree (.rule r) × List Token)}
    (hrule : ∀ r tokens, Nests r.closes 0 tokens (readRule r tokens)) (ss : List Symbol)
    {depth after : Nat} (hss : nestSymbols depth ss = some after) (tokens : List Token) :
    Nests depth after tokens (readForest readRule ss tokens) := by
  induction ss generalizing depth tokens with
  | nil =>
    cases hss
    exact ⟨[], rfl, rfl⟩
  | cons s ss ih =>
    obtain ⟨next, hnext, hrest⟩ := Option.bind_eq_some_iff.mp hss
    cases s with
    | token kind =>
      cases tokens with
      | nil => rfl
      | cons t tokens =>
        rw [readForest]
        split
        · next fits => exact ((ih hrest tokens).map _).cons (fits ▸ hnext)
        · trivial
    | rule r =>
      rw [readForest]
      simp only [Symbol.nest] at hnext
      split at hnext
      · next hle =>
        cases hnext
        have hhead := (hrule r tokens).add (depth - r.closes)
        rw [Nat.add_sub_cancel' hle, Nat.zero_add] at hhead
        exact hhead.bind fun _ rest => (ih hrest rest).map _
      · cases hnext

theorem nests_readRule (fuel : Nat) (r : Rule) (tokens : List Token) :
    Nests r.closes 0 tokens (readRule fuel r tokens) := by
  induction fuel generalizing r tokens with
  | zero => exact nests_head? _ _ tokens
  | succ fuel ih =>
    rw [readRule]
    split
    · exact nests_head? _ _ tokens
    · next p _ => exact (nests_readForest ih p.symbols p.nest_symbols tokens).map _

/-- Where a bracket closes that was not opened, the grammar has found fault with a token. -/
theorem read_of_unmatched {tokens : List Token} (h : nestTokens 0 tokens = none) :
    ∃ t, read tokens = .error (some t) := by
  have hread := nests_readRule (depthPerToken * (tokens.length + 1)) .file tokens
  unfold read
  match hresult : readRule (depthPerToken * (tokens.length + 1)) .file tokens with
  | .error (some t) => exact ⟨t, rfl⟩
  | .error none =>
    rw [hresult] at hread
    have hsome : (nestTokens 0 tokens).isSome = true := hread
    rw [h] at hsome
    cases hsome
  | .ok (tree, []) =>
    rw [hresult] at hread
    obtain ⟨taken, htokens, htaken⟩ := hread
    rw [htokens, List.append_nil] at h
    cases htaken.symm.trans h
  | .ok (tree, t :: rest) => exact ⟨t, rfl⟩

end Grammar
/-! ## What layout and semicolons leave of it -/

theorem nestTokens_dedents (levels : List Nat) (blanks : List Char) (t : Token) (depth : Nat)
    (tokens : List Token) :
    nestTokens depth ((levels.map fun _ => Layout.marker .dedent blanks t) ++ tokens) =
      nestTokens depth tokens := by
  induction levels with
  | nil => rfl
  | cons level rest ih => exact ih

/-- If layout stops for a bracket, it is a bracket that closes none. -/
theorem nestTokens_of_unmatched {fault : Option Fault} (hfault : fault ≠ some .unmatchedCloser)
    (depth : Nat) (levels : List Nat) (last : Option Token) (tokens : List Token)
    (h : (Layout.layoutFrom fault depth levels last tokens).fault = some .unmatchedCloser) :
    nestTokens depth (Layout.layoutFrom fault depth levels last tokens).tokens = none := by
  have hnewline : ∀ {t : Token} {depth : Nat}, t.kind = .newline →
      t.kind.nest depth = some depth := by
    intro t depth ht
    rw [ht]
    rfl
  fun_induction Layout.layoutFrom fault depth levels last tokens with
  | case1 _ _ _ f hf => exact absurd (hf.trans h) hfault
  | case2 | case6 => cases h
  | case3 _ _ _ _ _ _ _ ih => exact ih h
  | case4 depth levels _ t rest ht hdepth blanks column _ ih =>
    obtain rfl : depth = 0 := by omega
    exact (nestTokens_cons (hnewline ht) _).trans (ih h)
  | case5 depth levels _ t rest ht hdepth blanks column _ closed levels' tokens _ ih =>
    obtain rfl : depth = 0 := by omega
    have hdedents := nestTokens_dedents closed blanks t 0
      (Layout.layoutFrom fault 0 levels' (some t) rest).tokens
    exact (nestTokens_cons (hnewline ht) _).trans (hdedents.trans (ih h))
  | case7 depth _ _ t _ _ ho ih =>
    exact (nestTokens_cons (by simp [Kind.nest, ho]) _).trans (ih h)
  | case8 _ _ t _ _ ho hc => simp [nestTokens, Kind.nest, ho, hc]
  | case9 _ _ t _ _ ho hc depth ih =>
    exact (nestTokens_cons (by simp [Kind.nest, ho, hc]) _).trans (ih h)
  | case10 depth _ _ t _ _ ho hc ih =>
    exact (nestTokens_cons (by simp [Kind.nest, ho, hc]) _).trans (ih h)

theorem fault_scan (here : Position) (skip : Nat) (text : List Char) :
    (Lexer.scan here skip text).fault ≠ some .unmatchedCloser := by
  fun_induction Lexer.scan here skip text with
  | case1 => simp [Stream.done]
  | case3 => simp [Stream.failed]
  | case2 _ _ _ _ ih => exact ih
  | case4 _ _ _ _ _ ih => exact ih
  | case5 _ _ _ _ _ _ _ ih => exact ih

/-- Semicolons are no brackets, whatever becomes of them. -/
theorem nestTokens_fold (pending : Option Token) (inStatement : Bool) (tokens : List Token)
    (hpending : ∀ t ∈ pending, t.kind = .separator) (depth : Nat) :
    nestTokens depth (Separator.foldFrom pending inStatement tokens) = nestTokens depth tokens := by
  have hseparator : ∀ {t : Token} (rest : List Token) (depth : Nat), t.kind = .separator →
      nestTokens depth (t :: rest) = nestTokens depth rest := by
    intro t rest depth ht
    refine nestTokens_cons ?_ rest
    rw [ht]
    rfl
  have htoList : ∀ {pending : Option Token} (rest : List Token) (depth : Nat),
      (∀ t ∈ pending, t.kind = .separator) →
      nestTokens depth (pending.toList ++ rest) = nestTokens depth rest := by
    intro pending rest depth hp
    cases pending with
    | none => rfl
    | some t => exact hseparator rest depth (hp t rfl)
  induction tokens generalizing pending inStatement depth with
  | nil => rfl
  | cons t rest ih =>
    rw [Separator.foldFrom]
    split
    · next ht =>
      have hself : ∀ u ∈ some t, u.kind = .separator := by simpa using ht
      rw [hseparator rest depth ht]
      split
      · exact ih (some t) false hself depth
      · rw [htoList _ depth hpending]
        exact ih (some t) false hself depth
    · split
      · simp only [nestTokens, ih none false (by simp)]
      · rw [htoList _ depth hpending]
        simp only [nestTokens, ih none true (by simp)]

/-- The grammar finds fault with a token before a bracket is closed that was not opened. -/
theorem read_of_unmatchedCloser {text : List Char}
    (h : (tokenize text).fault = some .unmatchedCloser) :
    ∃ t, Grammar.read (tokenize text).tokens = .error (some t) := by
  apply Grammar.read_of_unmatched
  have hlayout := nestTokens_of_unmatched (fault_scan ⟨1, 0⟩ 0 text) 0 [] none _ h
  exact (nestTokens_fold none false _ (by simp) 0).trans hlayout

theorem parse_ne_unmatchedCloser (source : String) :
    parse source ≠ .error (.fault .unmatchedCloser) := by
  intro h
  unfold parse at h
  dsimp only at h
  split at h
  · cases h
  · next f hfault hnot =>
    cases h
    obtain ⟨t, ht⟩ := read_of_unmatchedCloser hfault
    exact hnot t ht
  · cases h
  · split at h <;> cases h

end ScopeLint
