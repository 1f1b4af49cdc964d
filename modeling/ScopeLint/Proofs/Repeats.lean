import ScopeLint.Proofs.Visits

/-! # Statements that are repeated

A statement that was seen before the walk comes to it does nothing there, so it
can as well be taken out of the list it stands in (`trace_cut`). A node stands
with its lists wherever it is shared, and the statement is taken out everywhere. -/
namespace ScopeLint

/-- Whether a part of a node of this form is a list of statements. -/
def Form.isBody : Form → (part : Nat) → Bool
  | module, 0 | tryBlock, 0 | whileLoop, 1 | ifBranch, 1 | withBlock, 1 => true
  | functionDef .., 2 | classDef .., 2 | forIn, 2 | whileLoop, 2 | ifBranch, 2 | tryBlock, 2 => true
  | handler, 2 | forIn, 3 | tryBlock, 3 => true
  | _, _ => false

namespace Node

mutual

/-- Takes an entry out of a list of statements of the node `owner`, wherever that stands. -/
def cut (owner part index : Nat) : Node → Node
  | mk id span form parts =>
    mk id span form
      (if id = owner ∧ form.isBody part = true then
        (cutParts owner part index parts).modify part (·.eraseIdx index)
      else cutParts owner part index parts)

def cutParts (owner part index : Nat) : List (List Node) → List (List Node)
  | [] => []
  | list :: parts => cutPart owner part index list :: cutParts owner part index parts

def cutPart (owner part index : Nat) : List Node → List Node
  | [] => []
  | n :: rest => cut owner part index n :: cutPart owner part index rest

end

section

variable (owner part index : Nat)

@[simp] theorem id_cut (n : Node) : (n.cut owner part index).id = n.id := by
  cases n
  rfl

@[simp] theorem span_cut (n : Node) : (n.cut owner part index).span = n.span := by
  cases n
  rfl

@[simp] theorem form_cut (n : Node) : (n.cut owner part index).form = n.form := by
  cases n
  rfl

@[simp] theorem name?_cut (n : Node) : (n.cut owner part index).name? = n.name? := by
  rw [name?, name?, form_cut]

theorem cutPart_eq_map (list : List Node) :
    cutPart owner part index list = list.map (cut owner part index) := by
  induction list with
  | nil => rfl
  | cons n rest ih => exact congrArg (n.cut owner part index :: ·) ih

theorem cutParts_eq_map (parts : List (List Node)) :
    cutParts owner part index parts = parts.map (List.map (cut owner part index)) := by
  induction parts with
  | nil => rfl
  | cons list parts ih => rw [cutParts, ih, cutPart_eq_map, List.map_cons]

theorem map_modify_eraseIdx (f : Node → Node) (parts : List (List Node)) :
    (parts.map (List.map f)).modify part (·.eraseIdx index) =
      (parts.modify part (·.eraseIdx index)).map (List.map f) := by
  refine List.ext_getElem? fun k => ?_
  rw [List.getElem?_modify, List.getElem?_map, List.getElem?_map, List.getElem?_modify]
  cases parts[k]? with
  | none => rfl
  | some list =>
    show some (if part = k then (list.map f).eraseIdx index else list.map f) =
      some ((if part = k then list.eraseIdx index else list).map f)
    rw [List.eraseIdx_map, apply_ite (List.map f)]

/-- The node loses the entry if it is the owner, and the nodes below it as they are. -/
theorem parts_cut (n : Node) : (n.cut owner part index).parts =
    (if n.id = owner ∧ n.form.isBody part = true then n.parts.modify part (·.eraseIdx index)
      else n.parts).map (List.map (cut owner part index)) := by
  obtain ⟨id, span, form, parts⟩ := n
  show (if id = owner ∧ form.isBody part = true then _ else _) = _
  rw [cutParts_eq_map, map_modify_eraseIdx, ← apply_ite (List.map _)]
  rfl

theorem parts_cut_of_not_body {n : Node} (h : n.form.isBody part = false) :
    (n.cut owner part index).parts = n.parts.map (List.map (cut owner part index)) := by
  rw [parts_cut, if_neg]
  intro hbody
  rw [h] at hbody
  cases hbody.2

theorem children_cut_of_not_body {n : Node} (h : n.form.isBody part = false) :
    (n.cut owner part index).children = n.children.map (cut owner part index) := by
  rw [children, parts_cut_of_not_body owner part index h, children, List.map_flatten]

/-- The first part loses nothing if it is no list of statements. -/
theorem head?_parts_cut {n : Node} (h : n.form.isBody 0 = false) :
    (n.cut owner part index).parts.head? = n.parts.head?.map (List.map (cut owner part index)) := by
  rw [parts_cut]
  split
  · next hbody =>
    cases part with
    | zero =>
      rw [h] at hbody
      cases hbody.2
    | succ part => cases n.parts <;> rfl
  · exact List.head?_map

/-! ## What a node does stays -/

theorem targetNames_cut (n : Node) : (n.cut owner part index).targetNames =
    n.targetNames.map fun bound => (bound.1, bound.2.cut owner part index) := by
  have hnamed : ∀ m : Node, m.name?.map (·, m.cut owner part index) =
      (m.name?.map (·, m)).map fun bound => (bound.1, bound.2.cut owner part index) := by
    intro m
    cases m.name? <;> rfl
  unfold targetNames
  simp only [form_cut, name?_cut]
  split
  · next harray =>
    have hbody : n.form.isBody part = false := by
      rw [harray]
      rfl
    rw [children_cut_of_not_body owner part index hbody, List.filterMap_map, List.map_filterMap]
    simp only [Function.comp_def, name?_cut, hnamed]
  · rw [hnamed]
    cases n.name? <;> rfl

/-- Of the parts of a node, what it binds depends on the first alone. -/
theorem boundTarget_eq (n : Node) : n.boundTarget = match n.form, n.parts.head? with
    | .assign op, some [target] =>
      if target.name?.isSome ∧ op ≠ "=" then none else some (target, false)
    | .forIn, some [target] => some (target, true)
    | .comprehension, some [target] => some (target, true)
    | _, _ => none := by
  unfold boundTarget
  rcases n.parts with _ | ⟨_ | ⟨target, _ | ⟨second, rest⟩⟩, parts⟩ <;> cases n.form <;> rfl

theorem boundTarget_cut (n : Node) : (n.cut owner part index).boundTarget =
    n.boundTarget.map fun bound => (bound.1.cut owner part index, bound.2) := by
  rw [boundTarget_eq, boundTarget_eq, form_cut]
  cases hform : n.form with
  | assign op =>
    rw [head?_parts_cut owner part index (by rw [hform]; rfl)]
    rcases n.parts.head? with _ | _ | ⟨target, _ | ⟨second, rest⟩⟩
    · rfl
    · rfl
    · simp only [Option.map_some, List.map_cons, List.map_nil, name?_cut]
      split <;> rfl
    · rfl
  | forIn | comprehension =>
    rw [head?_parts_cut owner part index (by rw [hform]; rfl)]
    rcases n.parts.head? with _ | _ | ⟨target, _ | ⟨second, rest⟩⟩ <;> rfl
  | _ => rfl

theorem boundNames_cut (n : Node) : (n.cut owner part index).boundNames =
    n.boundNames.map fun bound => (bound.1, bound.2.1.cut owner part index, bound.2.2) := by
  rw [boundNames, boundTarget_cut, boundNames]
  cases n.boundTarget with
  | none => rfl
  | some bound => simp [targetNames_cut]

@[simp] theorem claims_cut (n : Node) : (n.cut owner part index).claims = n.claims := by
  simp [claims, boundNames_cut]

theorem targetEvents_cut (n : Node) :
    (n.cut owner part index).targetEvents = n.targetEvents := by
  simp [targetEvents, boundNames_cut]

@[simp] theorem events_cut (n : Node) : (n.cut owner part index).events = n.events := by
  unfold events
  rw [form_cut, span_cut, targetEvents_cut]
  cases hform : n.form with
  | varDef name nameSpan =>
    have hbody : n.form.isBody part = false := by rw [hform]; rfl
    dsimp only
    rw [children_cut_of_not_body owner part index hbody, List.head?_map, Option.map_map]
    simp [Function.comp_def]
  | _ => rfl

end

/-! ## Skipped entries -/

theorem tracePart_eraseIdx {list : List Node} {index : Nat} {c : Node} {seen : IdSet}
    (hc : list[index]? = some c)
    (hseen : (tracePart (list.take index) seen).2.contains c.id = true) :
    tracePart (list.eraseIdx index) seen = tracePart list seen := by
  induction list generalizing index seen with
  | nil => rfl
  | cons n rest ih =>
    cases index with
    | zero =>
      obtain rfl : n = c := Option.some.inj hc
      have hseen : seen.contains n.id = true := hseen
      rw [List.eraseIdx_cons_zero, tracePart_cons, trace_of_seen hseen]
      rfl
    | succ index =>
      rw [List.eraseIdx_cons_succ, tracePart_cons, tracePart_cons, ih hc hseen]

theorem traceParts_modify {parts : List (List Node)} {part : Nat} {list : List Node} {seen : IdSet}
    {f : List Node → List Node} (hlist : parts[part]? = some list)
    (hf : tracePart (f list) (traceParts (parts.take part) seen).2 =
      tracePart list (traceParts (parts.take part) seen).2) :
    traceParts (parts.modify part f) seen = traceParts parts seen := by
  induction parts generalizing part seen with
  | nil => cases hlist
  | cons first parts ih =>
    cases part with
    | zero =>
      obtain rfl : first = list := Option.some.inj hlist
      have hfirst : tracePart (f first) seen = tracePart first seen := hf
      rw [List.modify_zero_cons, traceParts_cons, traceParts_cons, hfirst]
    | succ part => rw [List.modify_succ_cons, traceParts_cons, traceParts_cons, ih hlist hf]

section

variable (owner part index : Nat)

theorem trace_cut_of_parts {n : Node} {seen : IdSet}
    (h : seen.contains n.id = false →
      traceParts (n.cut owner part index).parts ((seen.insert n.id).insertAll n.claims) =
        traceParts n.parts ((seen.insert n.id).insertAll n.claims)) :
    (n.cut owner part index).trace seen = n.trace seen := by
  cases hseen : seen.contains n.id with
  | true =>
    rw [trace_of_seen hseen]
    exact trace_of_seen (by rw [id_cut]; exact hseen)
  | false =>
    rw [trace_of_not_seen hseen, ← h hseen]
    rw [← id_cut owner part index n] at hseen
    rw [trace_of_not_seen hseen, id_cut, claims_cut, events_cut, form_cut]

/-- At this visit the parts of the node do the same without the entry. -/
def CanSpare (v : Visit) : Prop :=
  traceParts (v.node.cut owner part index).parts v.leaves = traceParts v.node.parts v.leaves

mutual

/-- If the owner can spare the entry where it acts, so can the walk. -/
theorem trace_cut (n : Node) (seen : IdSet)
    (h : ∀ w ∈ n.visits seen, w.acts = true → w.node.id = owner → CanSpare owner part index w) :
    (n.cut owner part index).trace seen = n.trace seen := by
  match n with
  | mk id span form parts =>
    refine trace_cut_of_parts owner part index fun hseen => ?_
    have hacts : Visit.acts ⟨mk id span form parts, seen⟩ = true := by
      rw [Visit.acts, hseen]
      rfl
    rw [visits_eq, if_pos hacts] at h
    by_cases hid : id = owner
    · have hspare := h _ List.mem_cons_self hacts hid
      rwa [CanSpare, Visit.leaves, if_pos hacts] at hspare
    · rw [parts_cut, if_neg fun hbody => hid hbody.1]
      rw [Visit.leaves, if_pos hacts] at h
      exact traceParts_cut parts _ fun w hw => h w (List.mem_cons_of_mem _ hw)

theorem traceParts_cut (parts : List (List Node)) (seen : IdSet)
    (h : ∀ w ∈ visitsParts parts seen,
      w.acts = true → w.node.id = owner → CanSpare owner part index w) :
    traceParts (parts.map (List.map (cut owner part index))) seen = traceParts parts seen := by
  match parts with
  | [] => rfl
  | list :: parts =>
    rw [List.map_cons, traceParts_cons, traceParts_cons,
      tracePart_cut list seen fun w hw => h w (List.mem_append_left _ hw),
      traceParts_cut parts _ fun w hw => h w (List.mem_append_right _ hw)]

theorem tracePart_cut (list : List Node) (seen : IdSet)
    (h : ∀ w ∈ visitsPart list seen,
      w.acts = true → w.node.id = owner → CanSpare owner part index w) :
    tracePart (list.map (cut owner part index)) seen = tracePart list seen := by
  match list with
  | [] => rfl
  | n :: rest =>
    rw [List.map_cons, tracePart_cons, tracePart_cons,
      trace_cut n seen fun w hw => h w (List.mem_append_left _ hw),
      tracePart_cut rest _ fun w hw => h w (List.mem_append_right _ hw)]

end

/-- An owner that was seen acts no more, and nothing is found missing. -/
theorem traceParts_cut_of_seen (parts : List (List Node)) {seen : IdSet}
    (howner : seen.contains owner = true) :
    traceParts (parts.map (List.map (cut owner part index))) seen = traceParts parts seen := by
  refine traceParts_cut owner part index parts seen fun w hw hacts hid => ?_
  have hquiet := (threaded_visitsParts parts seen).acts_of_seen hw (hid ▸ howner)
  rw [hacts] at hquiet
  cases hquiet

end

/-- An entry that was seen can be spared. -/
theorem canSpare_of_arrival {w : Visit} (hacts : w.acts = true) {part index : Nat}
    {list : List Node} {c : Node} (hlist : w.node.parts[part]? = some list)
    (hc : list[index]? = some c) (hseen : (w.arrival part index).contains c.id = true) :
    CanSpare w.node.id part index w := by
  have howner : w.leaves.contains w.node.id = true :=
    (w.contains_leaves _).mpr (.inr ⟨hacts, .inl rfl⟩)
  rw [CanSpare, parts_cut, traceParts_cut_of_seen _ _ _ _ howner]
  split
  · rw [Visit.arrival_eq hlist] at hseen
    exact traceParts_modify hlist (tracePart_eraseIdx hc hseen)
  · rfl

/-- The entry that a walk found seen can be taken out. -/
theorem trace_cut_of_arrival {n : Node} {seen : IdSet} {w : Visit} (hw : w ∈ n.visits seen)
    (hacts : w.acts = true) {part index : Nat} {list : List Node} {c : Node}
    (hlist : w.node.parts[part]? = some list) (hc : list[index]? = some c)
    (hseen : (w.arrival part index).contains c.id = true) :
    (n.cut w.node.id part index).trace seen = n.trace seen := by
  refine trace_cut _ _ _ n seen fun u hu hacts' hid => ?_
  rw [(n.threaded_visits seen).acting_unique hu hw hacts' hacts hid]
  exact canSpare_of_arrival hacts hlist hc hseen

end Node

/-- However often a node stands in a tree, it acts once at most: at its first visit, unless it was
claimed before. A node that is claimed before the walk comes to it does nothing, so it is no use of
a name. And a statement that was seen when the walk comes to it can be taken out of its list. Nodes
of one identity need not be alike here, so a cycle may be broken off where it comes back. -/
theorem shared_nodes_act_once (root : Node) (filename : String) :
    ((root.trace .empty).1.filter (!·.isClosing) = (root.visits .empty).flatMap Visit.events ∧
      (((root.visits .empty).filter Visit.acts).map (·.node.id)).Nodup) ∧
    (∀ before v after, root.visits .empty = before ++ v :: after →
      (v.acts = true ↔
        ∀ u ∈ before, u.acts = true → v.node.id ≠ u.node.id ∧ v.node.id ∉ u.node.claims) ∧
      (v.acts = true → ∀ j ∈ v.node.claims, (∀ u ∈ before ++ [v], u.node.id ≠ j) →
        ∀ u ∈ root.visits .empty, u.node.id = j → u.events = [])) ∧
    ∀ w ∈ root.visits .empty, w.acts = true → ∀ (part index : Nat) (list : List Node) (c : Node),
      w.node.parts[part]? = some list → list[index]? = some c →
        ⟨c, w.arrival part index⟩ ∈ root.visits .empty ∧
        (w.node.form.isBody part = true → (w.arrival part index).contains c.id = true →
          walk (root.cut w.node.id part index) filename = walk root filename) := by
  have hthreaded := root.threaded_visits .empty
  refine ⟨⟨root.opening_trace .empty, hthreaded.acting_nodup⟩, ?_, ?_⟩
  · intro before v after hsplit
    rw [hsplit] at hthreaded ⊢
    exact ⟨hthreaded.acts_iff, hthreaded.events_of_claimed⟩
  · intro w hw hacts part index list c hlist hc
    refine ⟨Node.mem_visits_arrival hw hacts hlist hc, fun _ hseen => ?_⟩
    rw [walk, Node.trace_cut_of_arrival hw hacts hlist hc hseen]
    rfl

def bindingOfX : Node :=
  .mk 1 .unknown (.assign "=")
    [[.mk 2 .unknown (.name "x") []], [.mk 3 .unknown (.literal .none) []]]

/-- A module that binds a name, and then branches on the very node that was the target. -/
def branchOnTarget (body : List Node) : Node :=
  .mk 0 .unknown .module
    [[bindingOfX, .mk 4 .unknown .ifBranch [[.mk 2 .unknown (.name "x") []], body, []]]]

/-- The target is no use in the test, and the binding can be left out where it is repeated. -/
theorem walk_of_repeated_binding :
    (∀ u ∈ (branchOnTarget [bindingOfX]).visits .empty, u.node.id = 2 → u.events = []) ∧
      walk (branchOnTarget []) "t.pyj" = walk (branchOnTarget [bindingOfX]) "t.pyj" := by
  obtain ⟨_, hclaimed, hentries⟩ := shared_nodes_act_once (branchOnTarget [bindingOfX]) "t.pyj"
  have hroot : ⟨branchOnTarget [bindingOfX], .empty⟩ ∈
      (branchOnTarget [bindingOfX]).visits .empty := by
    rw [Node.visits_eq]
    exact List.mem_cons_self
  have hbranch := (hentries _ hroot rfl 0 1 _ _ rfl rfl).1
  refine ⟨?_, (hentries _ hbranch rfl 1 0 [bindingOfX] bindingOfX rfl rfl).2 rfl rfl⟩
  -- the module alone is visited before the binding
  refine (hclaimed [⟨branchOnTarget [bindingOfX], .empty⟩] ⟨bindingOfX, ⟨1⟩⟩ _ rfl).2 rfl 2
    (List.mem_singleton_self 2) ?_
  simp [branchOnTarget, bindingOfX, Node.id]

end ScopeLint
