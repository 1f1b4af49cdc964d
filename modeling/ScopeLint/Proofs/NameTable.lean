import Mathlib.Data.List.Nodup
import ScopeLint.NameTable

/-! # Name tables as finite maps

What a table answers after a name was put in or taken out, and what its list of
entries looks like at one name. The second needs that no name is entered twice
(`Distinct`), which every table built from the empty one satisfies. -/
namespace ScopeLint.NameTable

variable {α : Type}

/-- No name has two entries. -/
def Distinct (t : NameTable α) : Prop := t.names.Nodup

/-- The table with all the given names taken out. -/
def without (t : NameTable α) (names : List String) : NameTable α :=
  ⟨t.entries.filter (·.1 ∉ names)⟩

/-- The table with all the given entries put in, one after the other. -/
def putAll (t : NameTable α) (entries : List (String × α)) : NameTable α :=
  entries.foldl (fun t entry => t.put entry.1 entry.2) t

theorem find?_cons (key name : String) (value : α) (rest : List (String × α)) :
    find? ⟨(key, value) :: rest⟩ name = if name = key then some value else find? ⟨rest⟩ name := by
  rw [find?, List.lookup_cons]
  by_cases h : name = key
  · simp [h]
  · simp [h, beq_false_of_ne h, find?]

@[simp] theorem find?_empty (name : String) : (empty : NameTable α).find? name = none := rfl

theorem contains_iff {t : NameTable α} {name : String} :
    t.contains name = true ↔ ∃ value, t.find? name = some value :=
  Option.isSome_iff_exists

theorem find?_put (t : NameTable α) (name other : String) (value : α) :
    (t.put name value).find? other = if other = name then some value else t.find? other := by
  obtain ⟨entries⟩ := t
  unfold put
  induction entries with
  | nil => rw [putEntry, find?_cons]
  | cons entry rest ih =>
    obtain ⟨key, old⟩ := entry
    unfold putEntry
    split
    · next h =>
      subst h
      simp only [find?_cons]
      split <;> rfl
    · next h =>
      simp only [find?_cons, ih]
      grind

theorem find?_filter (keep : String → Bool) (entries : List (String × α)) (name : String) :
    find? ⟨entries.filter (keep ·.1)⟩ name = if keep name then find? ⟨entries⟩ name else none := by
  induction entries with
  | nil => simp [find?]
  | cons entry rest ih =>
    obtain ⟨key, value⟩ := entry
    rw [List.filter_cons, find?_cons]
    split
    · rw [find?_cons, ih]; grind
    · rw [ih]; grind

theorem find?_without (t : NameTable α) (names : List String) (other : String) :
    (t.without names).find? other = if other ∈ names then none else t.find? other := by
  have h := find?_filter (fun key => decide (key ∉ names)) t.entries other
  rw [without, h]
  by_cases ho : other ∈ names <;> simp [ho]

@[simp] theorem without_nil (t : NameTable α) : t.without [] = t := by
  simp [without]

theorem erase_eq_without (t : NameTable α) (name : String) : t.erase name = t.without [name] := by
  simp [without, erase]

theorem without_without (t : NameTable α) (first second : List String) :
    (t.without first).without second = t.without (first ++ second) := by
  simp only [without, List.filter_filter, mk.injEq]
  apply List.filter_congr
  intro entry _
  simp [not_or, Bool.and_comm]

/-- Taking out a name that is not there changes nothing, not even the order. -/
theorem erase_of_not_contains {t : NameTable α} {name : String} (h : t.contains name = false) :
    t.erase name = t := by
  obtain ⟨entries⟩ := t
  simp only [erase, mk.injEq, List.filter_eq_self]
  induction entries with
  | nil => simp
  | cons entry rest ih =>
    obtain ⟨key, value⟩ := entry
    rw [contains, find?_cons] at h
    intro e he
    rcases List.mem_cons.mp he with rfl | he
    · by_cases hk : name = key
      · simp [hk] at h
      · simpa using Ne.symm hk
    · refine ih ?_ e he
      by_cases hk : name = key
      · simp [hk] at h
      · simpa [hk, contains] using h

theorem mem_names_iff {t : NameTable α} {name : String} :
    name ∈ t.names ↔ t.contains name = true := by
  obtain ⟨entries⟩ := t
  induction entries with
  | nil => simp [names, contains, find?]
  | cons entry rest ih =>
    obtain ⟨key, value⟩ := entry
    rw [contains, find?_cons]
    simp only [names, List.map_cons, List.mem_cons]
    by_cases h : name = key
    · simp [h]
    · simpa [h, contains, names] using ih

theorem names_put (t : NameTable α) (name : String) (value : α) :
    (t.put name value).names = if t.contains name then t.names else t.names ++ [name] := by
  obtain ⟨entries⟩ := t
  simp only [put]
  induction entries with
  | nil => rfl
  | cons entry rest ih =>
    obtain ⟨key, old⟩ := entry
    rw [contains, find?_cons]
    by_cases h : key = name
    · simp [putEntry, names, h]
    · simp only [putEntry, h, if_false, Ne.symm h]
      simp only [names, List.map_cons, contains] at ih ⊢
      rw [ih]
      split <;> simp_all

theorem putAll_append (t : NameTable α) (first second : List (String × α)) :
    (t.putAll first).putAll second = t.putAll (first ++ second) :=
  List.foldl_append.symm

/-- Entries with different names do not get into each other's way. -/
theorem find?_putAll (t : NameTable α) (entries : List (String × α))
    (h : (entries.map Prod.fst).Nodup) (name : String) :
    (t.putAll entries).find? name = (find? ⟨entries⟩ name).or (t.find? name) := by
  induction entries generalizing t with
  | nil => simp [putAll, find?]
  | cons entry rest ih =>
    obtain ⟨key, value⟩ := entry
    obtain ⟨hk, hr⟩ := List.nodup_cons.mp h
    rw [putAll, List.foldl_cons, ← putAll, ih _ hr, find?_put, find?_cons]
    by_cases hn : name = key
    · subst hn
      have hnone : find? ⟨rest⟩ name = none := by
        by_contra hc
        exact hk (mem_names_iff.mpr (Option.isSome_iff_ne_none.mpr hc))
      simp [hnone]
    · simp [hn]

theorem distinct_empty : (empty : NameTable α).Distinct := List.nodup_nil

theorem Distinct.put {t : NameTable α} (h : t.Distinct) (name : String) (value : α) :
    (t.put name value).Distinct := by
  unfold Distinct
  rw [names_put]
  split
  · exact h
  · next hn =>
    refine List.nodup_append.mpr ⟨h, List.nodup_singleton name, ?_⟩
    rintro a ha b hb rfl
    rw [List.mem_singleton.mp hb] at ha
    exact hn (mem_names_iff.mp ha)

theorem Distinct.putAll {t : NameTable α} (h : t.Distinct) (entries : List (String × α)) :
    (t.putAll entries).Distinct := by
  induction entries generalizing t with
  | nil => exact h
  | cons entry rest ih => exact ih (h.put entry.1 entry.2)

theorem Distinct.filter {t : NameTable α} (h : t.Distinct) (keep : String × α → Bool) :
    Distinct ⟨t.entries.filter keep⟩ :=
  List.Nodup.sublist (List.filter_sublist.map _) h

/-- The entries at one name are what the table answers for it, once. -/
theorem Distinct.filter_name {t : NameTable α} (h : t.Distinct) (name : String) :
    t.entries.filter (·.1 = name) = (t.find? name).toList.map (name, ·) := by
  obtain ⟨entries⟩ := t
  induction entries with
  | nil => rfl
  | cons entry rest ih =>
    obtain ⟨key, value⟩ := entry
    obtain ⟨hk, hr⟩ := List.nodup_cons.mp h
    rw [List.filter_cons, find?_cons]
    by_cases hn : key = name
    · subst hn
      have hnone : find? ⟨rest⟩ key = none := by
        by_contra hc
        exact hk (mem_names_iff.mpr (Option.isSome_iff_ne_none.mpr hc))
      rw [ih hr, hnone]
      simp
    · rw [ih hr]
      simp [hn, Ne.symm hn]

theorem Distinct.mem_entries_iff {t : NameTable α} (h : t.Distinct) {name : String} {value : α} :
    (name, value) ∈ t.entries ↔ t.find? name = some value := by
  have hf := h.filter_name name
  constructor
  · intro hm
    have hm' : (name, value) ∈ t.entries.filter (·.1 = name) := by simpa using hm
    rw [hf] at hm'
    simpa using hm'
  · intro hs
    have hm : (name, value) ∈ t.entries.filter (·.1 = name) := by simp [hf, hs]
    exact (List.mem_filter.mp hm).1

end ScopeLint.NameTable
