import ScopeLint.Proofs.Pointing

/-! # Trees without shared nodes

A walk visits a node once, so what it does at a node depends on what it has seen.
It looks for the nodes of the tree at hand only, and what it adds are these. In a
list of trees that share no nodes it therefore does at each tree what it would do
at that tree alone. -/
namespace ScopeLint.Node

mutual

/-- The identities of the nodes of a tree, parents before children. -/
def ids : Node → List Nat
  | mk id _ _ parts => id :: idsParts parts

def idsParts : List (List Node) → List Nat
  | [] => []
  | part :: parts => idsPart part ++ idsParts parts

def idsPart : List Node → List Nat
  | [] => []
  | n :: rest => ids n ++ idsPart rest

end

theorem ids_eq (n : Node) : n.ids = n.id :: idsParts n.parts := by
  cases n
  rfl

theorem idsPart_eq_flatMap (part : List Node) : idsPart part = part.flatMap ids := by
  induction part with
  | nil => rfl
  | cons n rest ih => rw [idsPart, ih, List.flatMap_cons]

theorem idsParts_eq_flatMap (parts : List (List Node)) :
    idsParts parts = parts.flatMap idsPart := by
  induction parts with
  | nil => rfl
  | cons part parts ih => rw [idsParts, ih, List.flatMap_cons]

theorem id_mem_ids (n : Node) : n.id ∈ n.ids := by
  rw [ids_eq]
  exact List.mem_cons_self

theorem ids_subset_of_child {n c : Node} (h : c ∈ n.children) : c.ids ⊆ n.ids := by
  intro j hj
  obtain ⟨part, hpart, hc⟩ := List.mem_flatten.mp h
  rw [ids_eq, idsParts_eq_flatMap]
  refine List.mem_cons_of_mem _ (List.mem_flatMap.mpr ⟨part, hpart, ?_⟩)
  rw [idsPart_eq_flatMap]
  exact List.mem_flatMap.mpr ⟨c, hc, hj⟩

/-- What a node claims is in its tree. -/
theorem claims_subset_ids (n : Node) : n.claims ⊆ n.ids := by
  intro j hj
  obtain ⟨⟨name, node, isLoop⟩, hbound, rfl⟩ := List.mem_map.mp hj
  rcases (mem_boundNames hbound).2 with hchild | ⟨target, htarget, _, hchild⟩
  · exact ids_subset_of_child hchild node.id_mem_ids
  · exact ids_subset_of_child htarget (ids_subset_of_child hchild node.id_mem_ids)

theorem seen_trace_mk (id : Nat) (span : Span) (form : Form) (parts : List (List Node))
    (seen : IdSet) :
    ((mk id span form parts).trace seen).2 = if seen.contains id then seen else
      (traceParts parts ((seen.insert id).insertAll (mk id span form parts).claims)).2 := by
  rw [trace]
  split <;> rfl

/-! ## What a walk adds to what it has seen -/

mutual

theorem contains_trace {j : Nat} (n : Node) (seen : IdSet) (hj : j ∉ n.ids) :
    (n.trace seen).2.contains j = seen.contains j := by
  match n with
  | mk id span form parts =>
    rw [seen_trace_mk]
    split
    · rfl
    · have hparts : j ∉ idsParts parts := fun h => hj (List.mem_cons_of_mem _ h)
      have hid : id ≠ j := fun h => hj (h ▸ List.mem_cons_self)
      have hclaims : j ∉ (mk id span form parts).claims := fun h => hj (claims_subset_ids _ h)
      rw [contains_traceParts parts _ hparts, IdSet.contains_insertAll, IdSet.contains_insert,
        decide_eq_false hid, decide_eq_false hclaims, Bool.or_false, Bool.or_false]

theorem contains_traceParts {j : Nat} (parts : List (List Node)) (seen : IdSet)
    (hj : j ∉ idsParts parts) : (traceParts parts seen).2.contains j = seen.contains j := by
  match parts with
  | [] => rfl
  | part :: parts =>
    rw [idsParts, List.mem_append, not_or] at hj
    exact (contains_traceParts parts _ hj.2).trans (contains_tracePart part seen hj.1)

theorem contains_tracePart {j : Nat} (part : List Node) (seen : IdSet) (hj : j ∉ idsPart part) :
    (tracePart part seen).2.contains j = seen.contains j := by
  match part with
  | [] => rfl
  | n :: rest =>
    rw [idsPart, List.mem_append, not_or] at hj
    exact (contains_tracePart rest _ hj.2).trans (contains_trace n seen hj.1)

end

/-! ## What a walk looks for in what it has seen -/

/-- Two sets with the same identities among some. -/
def SeenAlike (ids : List Nat) (seen seen' : IdSet) : Prop :=
  ∀ j ∈ ids, seen.contains j = seen'.contains j

mutual

/-- A tree is traced alike if its nodes are seen alike, and then all others stay so. -/
theorem trace_congr (n : Node) {seen seen' : IdSet} (h : SeenAlike n.ids seen seen') :
    (n.trace seen).1 = (n.trace seen').1 ∧ ∀ j, seen.contains j = seen'.contains j →
      (n.trace seen).2.contains j = (n.trace seen').2.contains j := by
  match n with
  | mk id span form parts =>
    rw [trace_mk, trace_mk, seen_trace_mk, seen_trace_mk, h id List.mem_cons_self]
    split
    · exact ⟨rfl, fun _ hj => hj⟩
    · have hinsert : ∀ j, seen.contains j = seen'.contains j →
          ((seen.insert id).insertAll (mk id span form parts).claims).contains j =
            ((seen'.insert id).insertAll (mk id span form parts).claims).contains j := by
        intro j hj
        rw [IdSet.contains_insertAll, IdSet.contains_insert, hj, IdSet.contains_insertAll,
          IdSet.contains_insert]
      obtain ⟨hevents, hseen⟩ := traceParts_congr parts
        fun j hj => hinsert j (h j (List.mem_cons_of_mem _ hj))
      exact ⟨by rw [hevents], fun j hj => hseen j (hinsert j hj)⟩

theorem traceParts_congr (parts : List (List Node)) {seen seen' : IdSet}
    (h : SeenAlike (idsParts parts) seen seen') :
    (traceParts parts seen).1 = (traceParts parts seen').1 ∧
      ∀ j, seen.contains j = seen'.contains j →
        (traceParts parts seen).2.contains j = (traceParts parts seen').2.contains j := by
  match parts with
  | [] => exact ⟨rfl, fun _ hj => hj⟩
  | part :: parts =>
    obtain ⟨hfirst, hseen⟩ := tracePart_congr part
      fun j hj => h j (List.mem_append_left (idsParts parts) hj)
    obtain ⟨hrest, hseen'⟩ := traceParts_congr parts
      fun j hj => hseen j (h j (List.mem_append_right (idsPart part) hj))
    exact ⟨congrArg₂ (· ++ ·) hfirst hrest, fun j hj => hseen' j (hseen j hj)⟩

theorem tracePart_congr (part : List Node) {seen seen' : IdSet}
    (h : SeenAlike (idsPart part) seen seen') :
    (tracePart part seen).1 = (tracePart part seen').1 ∧
      ∀ j, seen.contains j = seen'.contains j →
        (tracePart part seen).2.contains j = (tracePart part seen').2.contains j := by
  match part with
  | [] => exact ⟨rfl, fun _ hj => hj⟩
  | n :: rest =>
    obtain ⟨hfirst, hseen⟩ := trace_congr n
      fun j hj => h j (List.mem_append_left (idsPart rest) hj)
    obtain ⟨hrest, hseen'⟩ := tracePart_congr rest
      fun j hj => hseen j (h j (List.mem_append_right n.ids hj))
    exact ⟨congrArg₂ (· ++ ·) hfirst hrest, fun j hj => hseen' j (hseen j hj)⟩

end

/-! ## Trees side by side -/

/-- Trees that share no nodes are traced each by itself. -/
theorem tracePart_eq_flatMap {part : List Node} (hids : (idsPart part).Nodup) {seen : IdSet}
    (hseen : ∀ j ∈ idsPart part, seen.contains j = false) :
    (tracePart part seen).1 = part.flatMap fun n => (n.trace .empty).1 := by
  induction part generalizing seen with
  | nil => rfl
  | cons n rest ih =>
    rw [idsPart] at hids hseen
    obtain ⟨_, hrest, hapart⟩ := List.nodup_append.mp hids
    have hfirst : (n.trace seen).1 = (n.trace .empty).1 := by
      refine (trace_congr n fun j hj => ?_).1
      rw [hseen j (List.mem_append_left _ hj), IdSet.contains_empty]
    have hlater : ∀ j ∈ idsPart rest, (n.trace seen).2.contains j = false := by
      intro j hj
      rw [contains_trace n seen fun hn => hapart j hn j hj rfl]
      exact hseen j (List.mem_append_right _ hj)
    rw [List.flatMap_cons, ← hfirst, ← ih hrest hlater]
    rfl

/-- The trace of a module without shared nodes, by the statements of its body. -/
theorem trace_module {id : Nat} {span : Span} {body : List Node}
    (hids : (mk id span .module [body]).ids.Nodup) :
    ((mk id span .module [body]).trace .empty).1 =
      .enter true :: (body.map fun n => (n.trace .empty).1).flatten ++ [.leave] := by
  have hbody : idsParts [body] = idsPart body := List.append_nil _
  rw [ids, hbody] at hids
  obtain ⟨hid, hdistinct⟩ := List.nodup_cons.mp hids
  have hseen : ∀ j ∈ idsPart body,
      ((IdSet.empty.insert id).insertAll (mk id span .module [body]).claims).contains j =
        false := by
    intro j hj
    have hne : id ≠ j := fun h => hid (h ▸ hj)
    have hclaims : (mk id span .module [body]).claims = [] := rfl
    simp [hclaims, hne]
  have hpart := tracePart_eq_flatMap hdistinct hseen
  rw [trace_mk, IdSet.contains_empty, if_neg Bool.false_ne_true, ← List.flatMap_def, ← hpart]
  simp [traceParts, events, Form.after, Form.opensScope, form]

end ScopeLint.Node
