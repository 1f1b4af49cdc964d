import ScopeLint.Proofs.Suppression

/-! # The words that are directives

A line carries a directive if its last word is the marker, or the marker, a colon and
a list. The word may have a number sign before it. A word that goes on behind the
marker without a colon is taken for a directive too. -/
namespace ScopeLint

namespace Text

/-! ## Words, pieces and what is left of them -/

/-- A text without the blanks at its end. -/
def TrimmedEnd (s t : List Char) : Prop :=
  ∃ gap, s = t ++ gap ∧ (∀ c ∈ gap, isBlank c = true) ∧ ∀ c ∈ t.getLast?, isBlank c = false

/-- A text without the blanks at either end. -/
def Trimmed (s t : List Char) : Prop :=
  ∃ gap t', s = gap ++ t' ∧ (∀ c ∈ gap, isBlank c = true) ∧ (∀ c ∈ t.head?, isBlank c = false) ∧
    TrimmedEnd t' t

/-- The stretch behind the last separator. -/
def LastPiece (sep : Char) (s word : List Char) : Prop :=
  sep ∉ word ∧ ∃ before, s = before ++ word ∧ (before = [] ∨ before.getLast? = some sep)

/-- A stretch between two separators that follow each other, or the ends. -/
def IsPiece (sep : Char) (s piece : List Char) : Prop :=
  sep ∉ piece ∧ ∃ before after, s = before ++ (piece ++ after) ∧
    (before = [] ∨ before.getLast? = some sep) ∧ (after = [] ∨ after.head? = some sep)

theorem trimmedEnd_iff {s t : List Char} : TrimmedEnd s t ↔ t = trimEnd s := by
  constructor
  · rintro ⟨gap, rfl, hgap, hlast⟩
    rw [trimEnd_append_of_blank t hgap]
    rcases List.eq_nil_or_concat t with rfl | ⟨first, c, rfl⟩
    · rfl
    · rw [List.concat_eq_append] at hlast ⊢
      have hc : isBlank c = false := hlast c (by simp)
      exact (trimEnd_append_of_solid first (by simp) (by simpa using hc)).symm
  · rintro rfl
    obtain ⟨gap, hs, hgap⟩ := exists_trimEnd s
    refine ⟨gap, hs, hgap, ?_⟩
    intro c hc
    have hne : s.rdropWhile isBlank ≠ [] := by
      intro hnil
      rw [show trimEnd s = s.rdropWhile isBlank from rfl, hnil] at hc
      cases hc
    have hlast := List.rdropWhile_last_not isBlank s hne
    rw [show trimEnd s = s.rdropWhile isBlank from rfl, List.getLast?_eq_some_getLast hne] at hc
    cases hc
    simpa using hlast

theorem trimmed_iff {s t : List Char} : Trimmed s t ↔ t = trim s := by
  constructor
  · rintro ⟨gap, t', rfl, hgap, hhead, htrimmed⟩
    have hstart : trimStart (gap ++ t') = trimStart t' := by
      rw [trimStart, List.dropWhile_append_of_pos hgap]
      rfl
    rw [trim, hstart]
    cases t with
    | nil =>
      obtain ⟨rest, hrest, hblank, _⟩ := htrimmed
      rw [List.nil_append] at hrest
      have hnil : trimStart t' = [] := List.dropWhile_eq_nil_iff.mpr (hrest ▸ hblank)
      rw [hnil]
      rfl
    | cons c t =>
      have hc : isBlank c = false := hhead c rfl
      have hkeep : trimStart t' = t' := by
        obtain ⟨rest, rfl, _⟩ := htrimmed
        exact List.dropWhile_cons_of_neg (by simp [hc])
      rw [hkeep]
      exact trimmedEnd_iff.mp htrimmed
  · rintro rfl
    refine ⟨s.takeWhile isBlank, trimStart s, List.takeWhile_append_dropWhile.symm,
      fun c hc => List.mem_takeWhile_imp hc, ?_, trimmedEnd_iff.mpr rfl⟩
    intro c hc
    obtain ⟨gap, hsplit, _⟩ := exists_trimEnd (trimStart s)
    have hhead : (trimStart s).head? = some c := by
      rw [hsplit, List.head?_append, show (trimEnd (trimStart s)).head? = some c from hc]
      rfl
    have hfirst := List.head?_dropWhile_not isBlank s
    rw [show s.dropWhile isBlank = trimStart s from rfl, hhead] at hfirst
    exact hfirst

theorem lastPiece_iff {sep : Char} {s word : List Char} :
    LastPiece sep s word ↔ word = lastPiece sep s := by
  constructor
  · rintro ⟨hword, before, rfl, hbefore⟩
    rcases hbefore with rfl | hbefore
    · have hall : ∀ c ∈ word.reverse, decide (c ≠ sep) = true := by
        intro c hc
        refine decide_eq_true ?_
        rintro rfl
        exact hword (List.mem_reverse.mp hc)
      rw [List.nil_append, lastPiece, List.takeWhile_eq_self_iff.mpr hall, List.reverse_reverse]
    · obtain ⟨first, rfl⟩ := List.getLast?_eq_some_iff.mp hbefore
      rw [List.append_assoc, List.singleton_append, lastPiece_append_cons first hword]
  · rintro rfl
    refine ⟨?_, s.rdropWhile (· ≠ sep), ?_, ?_⟩
    · intro hmem
      have := List.mem_rtakeWhile_imp (p := fun c => decide (c ≠ sep)) (l := s) hmem
      simp at this
    · exact List.rdropWhile_append_rtakeWhile.symm
    · by_cases hnil : s.rdropWhile (fun c => decide (c ≠ sep)) = []
      · exact .inl hnil
      · right
        have hlast := List.rdropWhile_last_not (fun c => decide (c ≠ sep)) s hnil
        rw [List.getLast?_eq_some_getLast hnil]
        simpa using hlast

theorem isPiece_iff {sep : Char} {s piece : List Char} :
    IsPiece sep s piece ↔ piece ∈ splitAt sep s := by
  rw [splitAt_eq_splitOn]
  constructor
  · rintro ⟨hpiece, before, after, rfl, hbefore, hafter⟩
    -- the separators on either side cut the piece out
    have hrest : piece ∈ (piece ++ after).splitOn sep := by
      rcases hafter with rfl | hafter
      · rw [List.append_nil, List.splitOn_eq_singleton hpiece]
        exact List.mem_cons_self
      · obtain ⟨rest, rfl⟩ : ∃ rest, after = sep :: rest :=
          ⟨after.tail, List.eq_cons_of_mem_head? hafter⟩
        rw [List.splitOn_append_cons_self_of_not_mem hpiece]
        exact List.mem_cons_self
    rcases hbefore with rfl | hbefore
    · exact hrest
    · obtain ⟨first, rfl⟩ := List.getLast?_eq_some_iff.mp hbefore
      rw [List.append_assoc, List.singleton_append, List.splitOn_append_cons_self]
      exact List.mem_append_right _ hrest
  · intro hmem
    induction hlength : s.length using Nat.strongRecOn generalizing s with
    | ind length ih =>
      by_cases hsep : sep ∈ s
      · obtain ⟨first, rest, rfl, hfirst⟩ := List.eq_append_cons_of_mem hsep
        rw [List.splitOn_append_cons_self_of_not_mem hfirst] at hmem
        rcases List.mem_cons.mp hmem with rfl | hmem
        · exact ⟨hfirst, [], sep :: rest, rfl, .inl rfl, .inr rfl⟩
        · have hshorter : rest.length < length := by
            rw [← hlength, List.length_append, List.length_cons]
            omega
          obtain ⟨hpiece, before, after, rfl, hbefore, hafter⟩ := ih _ hshorter hmem rfl
          refine ⟨hpiece, first ++ sep :: before, after, by simp, .inr ?_, hafter⟩
          rcases hbefore with rfl | hbefore
          · exact List.getLast?_concat
          · rw [List.getLast?_append_of_ne_nil _ (List.cons_ne_nil _ _), List.getLast?_cons,
              hbefore]
            rfl
      · rw [List.splitOn_eq_singleton hsep, List.mem_singleton] at hmem
        subst hmem
        exact ⟨hsep, [], [], by simp, .inl rfl, .inl rfl⟩

/-- The last word of a line: behind the last space, without the blanks at the end of the line. -/
def LastWord (line word : List Char) : Prop := ∃ t, TrimmedEnd line t ∧ LastPiece ' ' t word

theorem lastWord_iff {line word : List Char} :
    LastWord line word ↔ word = lastPiece ' ' (trimEnd line) := by
  simp only [LastWord, trimmedEnd_iff, lastPiece_iff, exists_eq_left]

end Text

namespace Directive

/-! ## Directives -/

/-- A word without a number sign before it. -/
def unmarked (word : List Char) : List Char := if word.head? = some '#' then word.tail else word

/-- The marker, in capitals or not. -/
def IsMarker (word : List Char) : Prop := word.map Char.toLower = marker

instance (word : List Char) : Decidable (IsMarker word) := inferInstanceAs (Decidable (_ = _))

/-- The marker, a colon and a list. -/
def Lists (word listed : List Char) : Prop := ∃ m, word = m ++ ':' :: listed ∧ IsMarker m

/-- The marker with something else than a colon behind it. -/
def RunsOn (word : List Char) : Prop := ∃ m c rest, word = m ++ c :: rest ∧ IsMarker m ∧ c ≠ ':'

/-- An identifier that a list names: what is left of one of its pieces between commas. -/
def Names (listed : List Char) (ident : String) : Prop :=
  ∃ piece, Text.IsPiece ',' listed piece ∧ Text.Trimmed piece ident.toList

theorem IsMarker.colon_notMem {m : List Char} (h : IsMarker m) : ':' ∉ m := by
  intro hmem
  have hlower : ':' ∈ marker := h ▸ List.mem_map.mpr ⟨':', hmem, by decide⟩
  exact absurd hlower (by decide)

theorem IsMarker.length_eq {m : List Char} (h : IsMarker m) : m.length = marker.length := by
  rw [← List.length_map (f := Char.toLower), h]

/-- A word that the marker begins, or does not. -/
theorem isMarker_take_iff {word : List Char} :
    IsMarker (word.take marker.length) ↔ ∃ m rest, word = m ++ rest ∧ IsMarker m := by
  constructor
  · intro h
    exact ⟨_, _, (List.take_append_drop marker.length word).symm, h⟩
  · rintro ⟨m, rest, rfl, h⟩
    rwa [← h.length_eq, List.take_left' rfl]

theorem unmarked_of_ne {word : List Char} (h : ∀ rest, word ≠ '#' :: rest) :
    unmarked word = word := by
  refine if_neg fun hhead => ?_
  exact h word.tail (List.eq_cons_of_mem_head? hhead)

theorem parse_of_not_isMarker {word : List Char}
    (h : ¬ IsMarker ((unmarked word).take marker.length)) : parse word = none := by
  unfold parse
  dsimp only
  split
  · exact if_pos h
  · next hhead =>
    rw [unmarked_of_ne hhead] at h
    exact if_pos h

/-- What is suppressed, if the marker begins the word, is decided by what stands from the first
colon on. -/
theorem parse_of_isMarker_take {word : List Char}
    (h : IsMarker ((unmarked word).take marker.length)) :
    ((unmarked word).dropWhile (· ≠ ':') = [] → parse word = some Check.idents) ∧
      ∀ c listed, (unmarked word).dropWhile (· ≠ ':') = c :: listed → parse word =
        some ((Text.splitAt ',' listed).map fun part => String.ofList (Text.trim part)) := by
  have hbody : ∀ body : List Char, IsMarker (body.take marker.length) →
      ¬ (body.take marker.length).map Char.toLower ≠ marker := fun _ h => not_not.mpr h
  unfold parse
  dsimp only
  split
  · have hword : ∀ rest, unmarked ('#' :: rest) = rest := fun _ => rfl
    rw [hword] at h ⊢
    rw [if_neg (hbody _ h)]
    exact ⟨fun hnil => by rw [hnil], fun c listed hlisted => by rw [hlisted]⟩
  · next hhead =>
    rw [unmarked_of_ne hhead] at h ⊢
    rw [if_neg (hbody _ h)]
    exact ⟨fun hnil => by rw [hnil], fun c listed hlisted => by rw [hlisted]⟩

theorem parse_ne_none {word m rest : List Char} (hword : unmarked word = m ++ rest)
    (hm : IsMarker m) : parse word ≠ none := by
  obtain ⟨hall, hlist⟩ := parse_of_isMarker_take (isMarker_take_iff.mpr ⟨m, rest, hword, hm⟩)
  cases hdrop : (unmarked word).dropWhile (· ≠ ':') with
  | nil =>
    rw [hall hdrop]
    exact Option.some_ne_none _
  | cons c listed =>
    rw [hlist c listed hdrop]
    exact Option.some_ne_none _

/-- The marker by itself suppresses everything. -/
theorem parse_of_isMarker {word : List Char} (h : IsMarker (unmarked word)) :
    parse word = some Check.idents := by
  have hbegins := isMarker_take_iff.mpr ⟨_, [], (List.append_nil _).symm, h⟩
  refine (parse_of_isMarker_take hbegins).1 (List.dropWhile_eq_nil_iff.mpr fun c hc => ?_)
  refine decide_eq_true ?_
  rintro rfl
  exact h.colon_notMem hc

/-- With a colon, what is listed behind it is suppressed. -/
theorem parse_of_lists {word listed : List Char} (h : Lists (unmarked word) listed) :
    ∃ idents, parse word = some idents ∧ ∀ ident, ident ∈ idents ↔ Names listed ident := by
  obtain ⟨m, hword, hm⟩ := h
  have hlisted : (unmarked word).dropWhile (· ≠ ':') = ':' :: listed := by
    have hall : ∀ c ∈ m, decide (c ≠ ':') = true := by
      intro c hc
      refine decide_eq_true ?_
      rintro rfl
      exact hm.colon_notMem hc
    rw [hword, List.dropWhile_append_of_pos hall]
    rfl
  have hbegins := isMarker_take_iff.mpr ⟨m, _, hword, hm⟩
  refine ⟨_, (parse_of_isMarker_take hbegins).2 ':' listed hlisted, ?_⟩
  intro ident
  simp only [List.mem_map, Names, Text.isPiece_iff, Text.trimmed_iff]
  refine exists_congr fun piece => and_congr_right fun _ => ?_
  constructor
  · rintro rfl
    exact String.toList_ofList
  · intro heq
    rw [← heq, String.ofList_toList]

/-- A word is a directive if the marker begins it. -/
theorem parse_ne_none_iff {word : List Char} : parse word ≠ none ↔
    IsMarker (unmarked word) ∨ (∃ listed, Lists (unmarked word) listed) ∨
      RunsOn (unmarked word) := by
  constructor
  · intro h
    have hbegins : IsMarker ((unmarked word).take marker.length) := by
      by_contra hnone
      exact h (parse_of_not_isMarker hnone)
    obtain ⟨m, rest, hword, hm⟩ := isMarker_take_iff.mp hbegins
    cases rest with
    | nil =>
      rw [List.append_nil] at hword
      exact .inl (hword ▸ hm)
    | cons c rest =>
      by_cases hc : c = ':'
      · exact .inr (.inl ⟨rest, m, hc ▸ hword, hm⟩)
      · exact .inr (.inr ⟨m, c, rest, hword, hm, hc⟩)
  · rintro (hm | ⟨listed, m, hword, hm⟩ | ⟨m, c, rest, hword, hm, _⟩)
    · exact parse_ne_none (List.append_nil _).symm hm
    · exact parse_ne_none hword hm
    · exact parse_ne_none hword hm

end Directive

open Directive in
/-- The last word of a line decides what is suppressed on it: everything for the marker, what is
listed for the marker with a list, and nothing for a word that the marker does not begin. Only a
word that runs on behind the marker is no directive and suppresses all the same. -/
theorem last_word_decides_directive {code : String} {i : Nat} {line : List Char}
    (hline : (linesOf code)[i]? = some line) (filename : String) :
    let entry := (LineScan.scan code filename).filters.lookup (i + 1 : Int)
    ∃ word, (∀ w, Text.LastWord line w ↔ w = word) ∧
      (IsMarker (unmarked word) → entry = some Check.idents) ∧
      (∀ listed, Lists (unmarked word) listed →
        ∃ idents, entry = some idents ∧ ∀ ident, ident ∈ idents ↔ Names listed ident) ∧
      (entry ≠ none ↔ IsMarker (unmarked word) ∨ (∃ listed, Lists (unmarked word) listed) ∨
        RunsOn (unmarked word)) := by
  intro entry
  have hentry : entry = Directive.parse (Text.lastPiece ' ' (Text.trimEnd line)) :=
    LineScan.lookup_scan hline filename
  rw [hentry]
  exact ⟨_, fun w => Text.lastWord_iff, parse_of_isMarker, fun listed => parse_of_lists,
    parse_ne_none_iff⟩

open Directive in
/-- A list in a directive with capitals, with a tab in it and blanks behind it. -/
theorem directive_of_tabbed_list :
    (linesOf "x #NO-lint:undef,\tloop-shadowed \t\ny")[0]? =
      some "x #NO-lint:undef,\tloop-shadowed \t".toList ∧
    Lists (unmarked "#NO-lint:undef,\tloop-shadowed".toList) "undef,\tloop-shadowed".toList ∧
    Names "undef,\tloop-shadowed".toList "loop-shadowed" ∧
    ∃ idents, (LineScan.scan "x #NO-lint:undef,\tloop-shadowed \t\ny" "m").filters.lookup 1 =
      some idents ∧ "loop-shadowed" ∈ idents := by
  have hline : (linesOf "x #NO-lint:undef,\tloop-shadowed \t\ny")[0]? =
      some "x #NO-lint:undef,\tloop-shadowed \t".toList := by decide +kernel
  have hlast : Text.LastWord "x #NO-lint:undef,\tloop-shadowed \t".toList
      "#NO-lint:undef,\tloop-shadowed".toList := Text.lastWord_iff.mpr (by decide +kernel)
  have hlists : Lists (unmarked "#NO-lint:undef,\tloop-shadowed".toList)
      "undef,\tloop-shadowed".toList :=
    ⟨"NO-lint".toList, by decide +kernel, by decide +kernel⟩
  have hnames : Names "undef,\tloop-shadowed".toList "loop-shadowed" :=
    ⟨"\tloop-shadowed".toList, Text.isPiece_iff.mpr (by decide +kernel),
      Text.trimmed_iff.mpr (by decide +kernel)⟩
  obtain ⟨word, hword, _, hlisted, _⟩ := last_word_decides_directive hline "m"
  obtain rfl := (hword _).mp hlast
  obtain ⟨idents, hentry, hidents⟩ := hlisted _ hlists
  exact ⟨hline, hlists, hnames, idents, hentry, (hidents _).mpr hnames⟩

open Directive in
/-- A word that only begins with the marker switches off the whole line. -/
theorem directive_of_run_on_word :
    (linesOf "x # no-lintish")[0]? = some "x # no-lintish".toList ∧
    Text.LastWord "x # no-lintish".toList "no-lintish".toList ∧
    ¬ IsMarker (unmarked "no-lintish".toList) ∧
    (¬ ∃ listed, Lists (unmarked "no-lintish".toList) listed) ∧
    (LineScan.scan "x # no-lintish" "m").filters.lookup 1 = some Check.idents := by
  refine ⟨by decide +kernel, Text.lastWord_iff.mpr (by decide +kernel), by decide +kernel, ?_,
    by decide +kernel⟩
  rintro ⟨listed, m, hword, _⟩
  have hcolon : ':' ∈ unmarked "no-lintish".toList := by
    rw [hword]
    simp
  exact absurd hcolon (by decide +kernel)

end ScopeLint
