import Mathlib.Data.List.Basic
import ScopeLint.LineScan

/-! # The lines of a text

A text is its lines with a line feed between them, so that it can be changed line
by line: a line gets something at its end, or a new line comes in. The scan of raw
lines looks at each line by itself, and only numbers them. -/
namespace ScopeLint

namespace Text

theorem splitAt_eq_splitOn (sep : Char) (text : List Char) :
    splitAt sep text = text.splitOn sep := by
  induction text with
  | nil => rfl
  | cons c rest ih =>
    rw [List.splitOn, List.splitOnP_cons_eq_if_modifyHead, splitAt, ih, List.splitOn]
    by_cases hc : c = sep
    · simp [hc]
    · simp only [hc, if_false, beq_iff_eq]
      cases hsplit : List.splitOnP (· == sep) rest with
      | nil => exact absurd hsplit (List.splitOnP_ne_nil _ rest)
      | cons piece pieces => rfl

theorem splitAt_intercalate {sep : Char} {pieces : List (List Char)}
    (h : ∀ piece ∈ pieces, sep ∉ piece) (hne : pieces ≠ []) :
    splitAt sep ([sep].intercalate pieces) = pieces := by
  rw [splitAt_eq_splitOn]
  exact List.splitOn_intercalate sep h hne

theorem intercalate_splitAt (sep : Char) (text : List Char) :
    [sep].intercalate (splitAt sep text) = text := by
  rw [splitAt_eq_splitOn]
  exact List.intercalate_splitOn sep

theorem splitAt_ne_nil (sep : Char) (text : List Char) : splitAt sep text ≠ [] := by
  rw [splitAt_eq_splitOn]
  exact List.splitOnP_ne_nil _ _

theorem sep_notMem_of_mem_splitAt {sep : Char} {text piece : List Char}
    (h : piece ∈ splitAt sep text) : sep ∉ piece := by
  induction text generalizing piece with
  | nil => simp_all [splitAt]
  | cons c rest ih =>
    rw [splitAt] at h
    split at h
    · rcases List.mem_cons.mp h with rfl | h
      · exact List.not_mem_nil
      · exact ih h
    · next hc =>
      cases hsplit : splitAt sep rest with
      | nil => exact absurd hsplit (splitAt_ne_nil sep rest)
      | cons first others =>
        rw [hsplit] at h ih
        rcases List.mem_cons.mp h with rfl | h
        · exact List.not_mem_cons_of_ne_of_not_mem (Ne.symm hc) (ih List.mem_cons_self)
        · exact ih (List.mem_cons_of_mem _ h)

end Text

/-- The lines of a text. -/
def linesOf (code : String) : List (List Char) := Text.splitAt '\n' code.toList

/-- The text with these lines. -/
def ofLines (lines : List (List Char)) : String := String.ofList (['\n'].intercalate lines)

/-- The text with something more at the end of a line; lines count from zero. -/
def extendLine (code : String) (line : Nat) (more : String) : String :=
  ofLines ((linesOf code).modify line (· ++ more.toList))

/-- The text with a new line before one of its lines. -/
def insertLine (code : String) (line : Nat) (new : String) : String :=
  ofLines ((linesOf code).insertIdx line new.toList)

theorem linesOf_ofLines {lines : List (List Char)} (h : ∀ line ∈ lines, '\n' ∉ line)
    (hne : lines ≠ []) : linesOf (ofLines lines) = lines := by
  rw [linesOf, ofLines, String.toList_ofList]
  exact Text.splitAt_intercalate h hne

theorem ofLines_linesOf (code : String) : ofLines (linesOf code) = code := by
  rw [linesOf, ofLines, Text.intercalate_splitAt, String.ofList_toList]

theorem linesOf_extendLine {more : String} (hmore : '\n' ∉ more.toList) (code : String)
    (line : Nat) : linesOf (extendLine code line more) =
      (linesOf code).modify line (· ++ more.toList) := by
  refine linesOf_ofLines ?_ ?_
  · intro piece hpiece
    obtain ⟨i, hi⟩ := List.getElem?_of_mem hpiece
    rw [List.getElem?_modify] at hi
    obtain ⟨old, hold, rfl⟩ := Option.map_eq_some_iff.mp hi
    have hfree : '\n' ∉ old := Text.sep_notMem_of_mem_splitAt (List.mem_of_getElem? hold)
    split
    · simp [hfree, hmore]
    · exact hfree
  · intro hnil
    have hlength := congrArg List.length hnil
    rw [List.length_modify] at hlength
    exact Text.splitAt_ne_nil _ _ (List.length_eq_zero_iff.mp hlength)

theorem ofLines_append {first rest : List (List Char)} (hfirst : first ≠ []) (hrest : rest ≠ []) :
    (ofLines (first ++ rest)).toList = (ofLines first).toList ++ '\n' :: (ofLines rest).toList := by
  simp only [ofLines, String.toList_ofList]
  induction first with
  | nil => exact absurd rfl hfirst
  | cons line first ih =>
    cases first with
    | nil =>
      rw [List.singleton_append, List.intercalate_cons_of_ne_nil hrest, List.intercalate_singleton,
        List.append_assoc, List.singleton_append]
    | cons next first =>
      have hne : next :: first ++ rest ≠ [] := List.cons_ne_nil _ _
      rw [List.cons_append, List.intercalate_cons_of_ne_nil hne, ih (List.cons_ne_nil _ _),
        List.intercalate_cons_cons, List.append_assoc (line ++ ['\n'])]

/-- A text has a line feed less than lines. -/
theorem count_ofLines {lines : List (List Char)} (h : ∀ line ∈ lines, '\n' ∉ line)
    (hne : lines ≠ []) : (ofLines lines).toList.count '\n' + 1 = lines.length := by
  simp only [ofLines, String.toList_ofList]
  induction lines with
  | nil => exact absurd rfl hne
  | cons line lines ih =>
    have hline := List.count_eq_zero_of_not_mem (h line List.mem_cons_self)
    cases lines with
    | nil => simp [List.intercalate_singleton, hline]
    | cons next lines =>
      have hrest := ih (fun l hl => h l (List.mem_cons_of_mem _ hl)) (List.cons_ne_nil _ _)
      rw [List.intercalate_cons_cons, List.count_append, List.count_append, hline,
        List.count_singleton_self, List.length_cons, ← hrest]
      omega

section

variable {code : String} {first rest : List (List Char)} (hcode : linesOf code = first ++ rest)
include hcode

theorem insertLine_eq (new : String) :
    insertLine code first.length new = ofLines (first ++ new.toList :: rest) := by
  have hinsert : (first ++ rest).insertIdx first.length new.toList =
      first ++ new.toList :: rest := by
    clear hcode
    induction first with
    | nil => rfl
    | cons line first ih =>
      rw [List.cons_append, List.length_cons, List.insertIdx_succ_cons, ih, List.cons_append]
  rw [insertLine, hcode, hinsert]

theorem linesOf_insertLine {new : String} (hnew : '\n' ∉ new.toList) :
    linesOf (insertLine code first.length new) = first ++ new.toList :: rest := by
  rw [insertLine_eq hcode]
  refine linesOf_ofLines ?_ (by simp)
  intro line hline
  have hmem : line = new.toList ∨ line ∈ linesOf code := by
    rw [hcode]
    simp only [List.mem_append, List.mem_cons] at hline ⊢
    tauto
  rcases hmem with rfl | hmem
  · exact hnew
  · exact Text.sep_notMem_of_mem_splitAt hmem

/-- A text cut before one of its lines, and the same with a new line there. -/
theorem toList_insertLine (hfirst : first ≠ []) (hrest : rest ≠ []) (new : String) :
    code.toList = (ofLines first).toList ++ '\n' :: (ofLines rest).toList ∧
      (insertLine code first.length new).toList =
        (ofLines first).toList ++ '\n' :: (new.toList ++ '\n' :: (ofLines rest).toList) := by
  have hnew : (ofLines (new.toList :: rest)).toList =
      new.toList ++ '\n' :: (ofLines rest).toList := by
    have hsingle : (ofLines [new.toList]).toList = new.toList := by
      simp [ofLines, List.intercalate_singleton]
    rw [← hsingle, ← ofLines_append (List.cons_ne_nil _ _) hrest, hsingle, List.singleton_append]
  refine ⟨?_, ?_⟩
  · rw [← ofLines_append hfirst hrest, ← hcode, ofLines_linesOf]
  · rw [insertLine_eq hcode, ofLines_append hfirst (List.cons_ne_nil _ _), hnew]

end

/-! ## The scan of raw lines -/

namespace LineScan

theorem scanFrom_append (filename : String) (number : Int) (first second : List (List Char)) :
    scanFrom filename number (first ++ second) =
      { messages := (scanFrom filename number first).messages ++
          (scanFrom filename (number + first.length) second).messages
        filters := (scanFrom filename number first).filters ++
          (scanFrom filename (number + first.length) second).filters } := by
  induction first generalizing number with
  | nil => simp [scanFrom]
  | cons line first ih =>
    have hnumber : number + 1 + first.length = number + ((line :: first).length : Nat) := by
      simp only [List.length_cons]
      omega
    simp only [List.cons_append, scanFrom, ih, hnumber, List.append_assoc]

/-- The suppressed identifiers of a line are what that line says. -/
theorem lookup_scanFrom (filename : String) (number m : Int) (lines : List (List Char)) :
    (scanFrom filename number lines).filters.lookup m =
      if number ≤ m then (lines[(m - number).toNat]?).bind lineFilter else none := by
  induction lines generalizing number with
  | nil => simp [scanFrom]
  | cons line lines ih =>
    have hrest := ih (number + 1)
    rw [scanFrom]
    dsimp only
    by_cases hm : m = number
    · subst hm
      rw [if_neg (by omega)] at hrest
      cases hfilter : lineFilter line with
      | none =>
        simp only [Option.map_none, Option.toList_none, List.nil_append, hrest]
        simp [hfilter]
      | some idents => simp [hfilter]
    · have hskip : (((lineFilter line).map (number, ·)).toList ++
          (scanFrom filename (number + 1) lines).filters).lookup m =
            (scanFrom filename (number + 1) lines).filters.lookup m := by
        cases lineFilter line with
        | none => rfl
        | some idents => simp [List.lookup_cons, beq_false_of_ne hm]
      rw [hskip, hrest]
      by_cases hlt : number ≤ m
      · have hplace : (m - number).toNat = (m - (number + 1)).toNat + 1 := by omega
        rw [if_pos hlt, if_pos (by omega), hplace, List.getElem?_cons_succ]
      · rw [if_neg hlt, if_neg (by omega)]

theorem startLine_of_mem_lineMessages {filename : String} {number : Int} {line : List Char}
    {d : Diagnostic} (h : d ∈ lineMessages filename number line) : d.startLine = some number := by
  unfold lineMessages at h
  dsimp only at h
  split at h
  · rw [List.mem_singleton.mp h]
    rfl
  · cases h

end LineScan
end ScopeLint
