import Mathlib.Data.List.Sort
import ScopeLint.Resolve

/-! # Sorting diagnostics

The sort is the stable insertion sort by place. So dropping diagnostics before it
or after it comes to the same, and so does moving them, if they keep their order. -/
namespace ScopeLint.Resolve

theorem precedes_iff {a b : Diagnostic} :
    precedes a b = true ↔
      (key a).1 < (key b).1 ∨ (key a).1 = (key b).1 ∧ (key a).2 ≤ (key b).2 := by
  simp [precedes]

theorem precedes_trans {a b c : Diagnostic} (hab : precedes a b = true)
    (hbc : precedes b c = true) : precedes a c = true := by
  rw [precedes_iff] at *
  omega

theorem precedes_total (a b : Diagnostic) : precedes a b = true ∨ precedes b a = true := by
  rw [precedes_iff, precedes_iff]
  omega

instance : IsTrans Diagnostic (precedes · ·) := ⟨fun _ _ _ => precedes_trans⟩

instance : Std.Total fun a b : Diagnostic => precedes a b = true := ⟨precedes_total⟩

theorem insert_eq_orderedInsert (d : Diagnostic) (sorted : List Diagnostic) :
    insert d sorted = sorted.orderedInsert (precedes · ·) d := by
  induction sorted with
  | nil => rfl
  | cons e rest ih => rw [insert, List.orderedInsert_cons, ih]

theorem sort_eq_insertionSort (diagnostics : List Diagnostic) :
    sort diagnostics = diagnostics.insertionSort (precedes · ·) := by
  induction diagnostics with
  | nil => rfl
  | cons d rest ih => rw [sort, insert_eq_orderedInsert, ih, List.insertionSort_cons]

theorem perm_sort (diagnostics : List Diagnostic) : (sort diagnostics).Perm diagnostics := by
  rw [sort_eq_insertionSort]
  exact List.perm_insertionSort _ _

theorem pairwise_sort (diagnostics : List Diagnostic) :
    (sort diagnostics).Pairwise (precedes · ·) := by
  rw [sort_eq_insertionSort]
  exact List.pairwise_insertionSort _ _

/-- Where a diagnostic comes before all others it comes first. -/
theorem insert_of_precedes {d : Diagnostic} {sorted : List Diagnostic}
    (h : ∀ e ∈ sorted, precedes d e = true) : insert d sorted = d :: sorted := by
  cases sorted with
  | nil => rfl
  | cons e rest => rw [insert, if_pos (h e List.mem_cons_self)]

theorem filter_insert {keep : Diagnostic → Bool} {d : Diagnostic} {sorted : List Diagnostic}
    (h : sorted.Pairwise (precedes · ·)) :
    (insert d sorted).filter keep =
      if keep d then insert d (sorted.filter keep) else sorted.filter keep := by
  induction sorted with
  | nil => cases hd : keep d <;> simp [insert, hd]
  | cons e rest ih =>
    obtain ⟨hfirst, hrest⟩ := List.pairwise_cons.mp h
    rw [insert]
    split
    · next hde =>
      -- all the others come after `e`, so `d` is before whatever stays of them
      have hall : ∀ x ∈ (e :: rest).filter keep, precedes d x = true := by
        intro x hx
        rcases List.mem_cons.mp (List.mem_of_mem_filter hx) with rfl | hx
        · exact hde
        · exact precedes_trans hde (hfirst x hx)
      rw [insert_of_precedes hall, List.filter_cons]
    · next hde =>
      rw [List.filter_cons, ih hrest, List.filter_cons]
      cases keep d <;> cases keep e <;> simp [insert, hde]

/-- What is dropped may as well be dropped before sorting. -/
theorem filter_sort (keep : Diagnostic → Bool) (diagnostics : List Diagnostic) :
    (sort diagnostics).filter keep = sort (diagnostics.filter keep) := by
  induction diagnostics with
  | nil => rfl
  | cons d rest ih =>
    rw [sort, filter_insert (pairwise_sort rest), ih, List.filter_cons]
    split <;> rfl

/-- What is sorted stays as it is. -/
theorem sort_of_pairwise {diagnostics : List Diagnostic}
    (h : diagnostics.Pairwise (precedes · ·)) : sort diagnostics = diagnostics := by
  rw [sort_eq_insertionSort]
  exact h.insertionSort_eq

/-- Diagnostics of one place stay in order. -/
theorem filter_sort_place (place : Int × Int) (diagnostics : List Diagnostic) :
    (sort diagnostics).filter (key · = place) = diagnostics.filter (key · = place) := by
  rw [filter_sort]
  refine sort_of_pairwise (List.pairwise_filter.mpr (List.pairwise_of_forall fun a b ha hb => ?_))
  rw [precedes_iff, of_decide_eq_true ha, of_decide_eq_true hb]
  exact .inr ⟨rfl, Int.le_refl _⟩

/-- What keeps the order of places may as well be done before sorting. -/
theorem map_sort {move : Diagnostic → Diagnostic}
    (h : ∀ a b, precedes (move a) (move b) = precedes a b) (diagnostics : List Diagnostic) :
    (sort diagnostics).map move = sort (diagnostics.map move) := by
  rw [sort_eq_insertionSort, sort_eq_insertionSort]
  refine List.map_insertionSort _ _ move diagnostics ?_
  intro a _ b _
  rw [h]

end ScopeLint.Resolve
