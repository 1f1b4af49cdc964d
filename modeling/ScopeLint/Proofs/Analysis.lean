import ScopeLint.Proofs.Built
import ScopeLint.Proofs.Chronicle
import ScopeLint.Proofs.Locating

/-! # Every identifier is analysed once

In a module whose nodes are all different, every occurrence of an identifier does
what it does where it stands, once, in the scope of the nearest node around that
opens one, and nothing else happens (`occurrences_analysed_once`). Parsed modules
are such. -/
namespace ScopeLint

theorem Form.complete_of_fits {form : Form} {counts : List Nat} (h : form.fits counts = true) :
    form.complete counts = true := by
  cases form with
  | name name =>
    cases counts with
    | nil => rfl
    | cons count counts => cases h
  | assign op | forIn | comprehension =>
    match counts, h with
    | 1 :: _, _ => rfl
  | _ => exact namesImport_of_fits h

/-- How many identifiers a node of this form carries itself. -/
def Form.identifiers : Form → Nat
  | .name _ | .param .. | .decorator _ | .functionDef .. | .classDef .. | .varDef .. => 1
  | .importModule .. | .importedName .. => 1
  | .declaration _ names => names.length
  | _ => 0

theorem Occurrence.length_actions {o : Occurrence} (h : o.node.form.namesImport = true) :
    o.actions.length = o.node.form.identifiers := by
  unfold actions
  cases hform : o.node.form with
  | name name =>
    dsimp only
    cases nameRole o.around <;> rfl
  | importModule path asName asSpan =>
    rw [hform] at h
    dsimp only
    cases hword : Node.word? asName with
    | some other => rfl
    | none => cases path <;> simp_all [Form.namesImport, Form.identifiers]
  | declaration keyword names => exact List.length_map _
  | _ => rfl

theorem Form.namesImport_of_complete {form : Form} {counts : List Nat}
    (h : form.complete counts = true) : form.namesImport = true := by
  cases form <;> first | rfl | exact h

namespace Node

/-! ## Parsed modules are whole -/

mutual

/-- Numbering gives the nodes of a tree consecutive identities. -/
theorem ids_numberFrom (next : Nat) (around : Around) (n : Node) :
    ∃ count, idsOf ((n.numberFrom next).1.occurrences around) = List.range' next count ∧
      (n.numberFrom next).2 = next + count := by
  match n with
  | mk _ span form parts =>
    obtain ⟨count, hids, hafter⟩ := ids_numberParts (next + 1)
      (mk next span form (numberParts (next + 1) parts).1) around 0 parts
    refine ⟨count + 1, ?_, ?_⟩
    · exact congrArg (next :: ·) hids
    · rw [numberFrom, hafter]
      omega

theorem ids_numberParts (next : Nat) (parent : Node) (around : Around) (k : Nat)
    (parts : List (List Node)) :
    ∃ count, idsOf (occurrencesParts parent around k (numberParts next parts).1) =
        List.range' next count ∧ (numberParts next parts).2 = next + count := by
  match parts with
  | [] => exact ⟨0, rfl, rfl⟩
  | part :: rest =>
    obtain ⟨count, hids, hafter⟩ := ids_numberPart next ((parent, k) :: around) part
    obtain ⟨more, hids', hafter'⟩ := ids_numberParts (numberPart next part).2 parent around (k + 1)
      rest
    refine ⟨count + more, ?_, ?_⟩
    · rw [numberParts, occurrencesParts, idsOf_append, hids, hids', hafter, List.range'_append_1]
    · rw [numberParts, hafter', hafter, Nat.add_assoc]

theorem ids_numberPart (next : Nat) (around : Around) (part : List Node) :
    ∃ count, idsOf (occurrencesPart around (numberPart next part).1) = List.range' next count ∧
      (numberPart next part).2 = next + count := by
  match part with
  | [] => exact ⟨0, rfl, rfl⟩
  | n :: rest =>
    obtain ⟨count, hids, hafter⟩ := ids_numberFrom next around n
    obtain ⟨more, hids', hafter'⟩ := ids_numberPart (n.numberFrom next).2 around rest
    refine ⟨count + more, ?_, ?_⟩
    · rw [numberPart, occurrencesPart, idsOf_append, hids, hids', hafter, List.range'_append_1]
    · rw [numberPart, hafter', hafter, Nat.add_assoc]

end

theorem whole_parse {source : String} {root : Node} (h : parse source = .ok root) :
    root.Whole := by
  obtain ⟨hform, hwell⟩ := wellFormed_parse h
  obtain ⟨_, node, _, _, rfl⟩ := read_of_parse h
  obtain ⟨count, hids, _⟩ := ids_numberFrom 0 [] node
  refine ⟨hform, ?_, ?_⟩
  · change (idsOf (node.number.occurrences [])).Nodup
    rw [number, hids]
    exact List.nodup_range'
  · intro o ho
    exact Form.complete_of_fits ((wellFormed_iff.mp hwell).of_mem_occurrences ho).here

/-! ## The scopes of a whole module -/

/-- The nodes that open a scope, at their places. -/
def openers (root : Node) : List Occurrence :=
  (root.occurrences []).filter (·.node.form.opensScope)

/-- The place of a node among those that open a scope. -/
def scopeIndex (root : Node) (id : Nat) : Nat := (openersOf (root.occurrences [])).idxOf id

/-- The scope of an occurrence is one from around the tree, or a node of the tree opens it. -/
theorem home_of_mem_occurrences {n : Node} (hn : n.Complete) {around : Around} {o : Occurrence}
    (ho : o ∈ n.occurrences around) :
    o.home = homeOf around ∨
      ∃ m ∈ n.occurrences around, m.node.form.opensScope = true ∧ o.home = some m.node.id := by
  unfold Complete at hn
  induction hn generalizing around with
  | mk here inner ih =>
    rcases List.mem_cons.mp ho with rfl | ho
    · exact .inl rfl
    obtain ⟨j, part, hpart, c, hc, ho, hsub⟩ := mem_occurrencesParts ho
    rcases ih part hpart c hc ho with hhome | ⟨m, hm, hopens, hhome⟩
    · rw [homeOf_cons] at hhome
      split at hhome
      · next hscope => exact .inr ⟨_, List.mem_cons_self, hscope, hhome⟩
      · exact .inl hhome
    · exact .inr ⟨m, List.mem_cons_of_mem _ (hsub hm), hopens, hhome⟩

theorem filter_items (os : List Occurrence) (p : Option Nat → Bool) :
    ((os.flatMap Occurrence.items).filter fun item => p item.1).map Prod.snd =
      (os.filter fun o => p o.home).flatMap Occurrence.actions := by
  induction os with
  | nil => rfl
  | cons o os ih =>
    rw [List.flatMap_cons, List.filter_append, List.map_append, ih, List.filter_cons,
      Occurrence.items, List.filter_map, List.map_map]
    cases hp : p o.home <;> simp [Function.comp_def, hp]

namespace Whole

variable {root : Node} (h : root.Whole)
include h

theorem tree : root.Complete := each_of_occurrences h.complete

theorem distinct_openers : (openersOf (root.occurrences [])).Nodup :=
  List.Nodup.sublist (List.filter_sublist.map _) h.distinct

theorem opensScope : root.form.opensScope = true := by
  rw [h.isModule]
  rfl

/-- Every occurrence but the module itself is in a scope that a node of the module opens. -/
theorem exists_home {o : Occurrence} (ho : o ∈ root.occurrences [])
    (hform : o.node.form ≠ .module) : ∃ m ∈ root.openers, o.home = some m.node.id := by
  have hroot : ⟨root, []⟩ ∈ root.openers := by
    refine List.mem_filter.mpr ⟨?_, h.opensScope⟩
    rw [occurrences_eq]
    exact List.mem_cons_self
  rw [occurrences_eq] at ho
  rcases List.mem_cons.mp ho with rfl | ho
  · exact absurd h.isModule hform
  obtain ⟨j, part, hpart, c, hc, ho, hsub⟩ := mem_occurrencesParts ho
  have hcomplete : c.Complete := h.tree.children (List.mem_flatten.mpr ⟨part, hpart, hc⟩)
  rcases home_of_mem_occurrences hcomplete ho with hhome | ⟨m, hm, hopens, hhome⟩
  · rw [homeOf_cons, if_pos h.opensScope] at hhome
    exact ⟨⟨root, []⟩, hroot, hhome⟩
  · refine ⟨m, List.mem_filter.mpr ⟨?_, hopens⟩, hhome⟩
    rw [occurrences_eq]
    exact List.mem_cons_of_mem _ (hsub hm)

theorem exists_opener {o : Occurrence} (ho : o ∈ root.occurrences []) (hacts : o.actions ≠ []) :
    ∃ m ∈ root.openers, o.home = some m.node.id := by
  refine h.exists_home ho fun hform => hacts ?_
  simp [Occurrence.actions, hform]

theorem scopeIndex_opener {i : Nat} {m : Occurrence} (hm : root.openers[i]? = some m) :
    root.scopeIndex m.node.id = i := by
  obtain ⟨hi, rfl⟩ := List.getElem?_eq_some_iff.mp hm
  have hi' : i < (openersOf (root.occurrences [])).length := by
    rw [openersOf, idsOf, List.length_map]
    exact hi
  have hid : (openersOf (root.occurrences []))[i] = (root.openers[i]).node.id := List.getElem_map _
  rw [← hid]
  exact h.distinct_openers.idxOf_getElem i hi'

/-- The scope that an occurrence is in, by its index. -/
theorem map_home_eq_some_iff {o : Occurrence} (ho : o ∈ root.occurrences []) (i : Nat) :
    o.home.map root.scopeIndex = some i ↔
      ∃ m, root.openers[i]? = some m ∧ o.home = some m.node.id := by
  constructor
  · intro hi
    obtain ⟨id, hid, hindex⟩ := Option.map_eq_some_iff.mp hi
    rcases home_of_mem_occurrences h.tree ho with hnone | ⟨m, hm, hopens, hhome⟩
    · rw [hnone] at hid
      cases hid
    have hopener : m ∈ root.openers := List.mem_filter.mpr ⟨hm, hopens⟩
    obtain ⟨j, hj⟩ := List.getElem?_of_mem hopener
    cases hid.symm.trans hhome
    rw [h.scopeIndex_opener hj] at hindex
    exact ⟨m, hindex ▸ hj, hhome⟩
  · intro hi
    obtain ⟨m, hm, hhome⟩ := hi
    rw [hhome, Option.map_some, h.scopeIndex_opener hm]

theorem boundFrom_root : root.boundFrom [] = [] := by
  simp [boundFrom, h.isModule]

theorem ready : Ready root.scopeIndex .empty (root.occurrences []) (root.boundFrom []) 0 := by
  refine ⟨h.distinct, ?_, ?_⟩
  · intro j _
    rw [h.boundFrom_root, IdSet.contains_empty]
    simp
  · refine List.ext_getElem (by simp) fun i hi _ => ?_
    rw [List.length_map] at hi
    rw [List.getElem_map, List.getElem_range', Nat.zero_add, Nat.one_mul]
    exact h.distinct_openers.idxOf_getElem i hi

theorem walk_ok (filename : String) : ∃ w, walk root filename = .ok w := by
  refine walk_module_ok h.isModule (fun p hp => ?_) filename
  exact Form.namesImport_of_complete (h.tree.of_mem_preorder hp).here

/-- The entries and actions of the walk, told from the tree. -/
theorem locate_trace :
    Walk.locate [] 0 (root.trace .empty).1 = (located [] root).map (relabel root.scopeIndex) := by
  have htraced : Traced root.scopeIndex .empty [] 0 (root.trace .empty) (root.occurrences [])
      (located [] root) := traced_trace [] root h.tree h.ready rfl
  have hlocated := htraced.located []
  rwa [List.append_nil, Walk.locate, List.append_nil] at hlocated

theorem locates {filename : String} {w : Walk} (hw : walk root filename = .ok w) :
    Walk.Locates { filename } w (Walk.moments { filename } (root.trace .empty).1)
      ((located [] root).map (relabel root.scopeIndex)) := by
  rw [← h.locate_trace]
  exact Walk.replay_locate (Walk.orderly_start filename) (walk_ok_iff.mp hw).1

/-- Scopes are entered in the order of the nodes that open them, from the scopes of these. -/
theorem entries :
    (((located [] root).map (relabel root.scopeIndex)).filter (·.2.isEntry)).map Prod.fst =
      root.openers.map fun m => m.home.map root.scopeIndex := by
  have hentries := congrArg (List.map (Option.map root.scopeIndex)) (entries_located [] root h.tree)
  rw [List.map_map, List.map_map] at hentries
  rw [List.filter_map, List.map_map]
  exact hentries

theorem parent_iff {i : Nat} {m : Occurrence} (hm : root.openers[i]? = some m) (p : Nat) :
    (m.home.map root.scopeIndex).map Int.ofNat = some (p : Int) ↔
      ∃ outer, root.openers[p]? = some outer ∧ m.home = some outer.node.id := by
  have hmem : m ∈ root.occurrences [] := List.mem_of_mem_filter (List.mem_of_getElem? hm)
  rw [← h.map_home_eq_some_iff hmem p, Option.map_eq_some_iff]
  constructor
  · intro hp
    obtain ⟨j, hj, hp⟩ := hp
    rw [hj, Int.ofNat.inj hp]
  · intro hp
    exact ⟨p, hp, rfl⟩

/-- What a walk does is what the occurrences do. -/
theorem perm_located_actions :
    ((located [] root).filter (·.2.isAction)).Perm
      ((root.occurrences []).flatMap Occurrence.items) := by
  have hperm := perm_located [] root h.tree
  rwa [h.boundFrom_root, List.map_nil, List.append_nil] at hperm

theorem perm_trace :
    ((root.trace .empty).1.filter Event.isAction).Perm
      ((root.occurrences []).flatMap Occurrence.actions) := by
  have hperm := h.perm_located_actions.map Prod.snd
  have hall := filter_items (root.occurrences []) fun _ => true
  rw [List.filter_true, List.filter_true] at hall
  rw [hall] at hperm
  rw [← Walk.actions_locate [] 0, h.locate_trace, List.filter_map, List.map_map]
  exact hperm

/-- What happens in a scope while the walk is at a node is what the occurrences there do in it. -/
theorem perm_actions_at {o : Occurrence} (ho : o ∈ root.occurrences [])
    (hbound : o.node.boundFrom o.around = []) {i : Nat} {m : Occurrence}
    (hm : root.openers[i]? = some m) :
    ((((located o.around o.node).map (relabel root.scopeIndex)).filter fun item =>
      item.2.isAction && decide (item.1 = some i)).map Prod.snd).Perm
    (((o.node.occurrences o.around).filter fun p => p.home = some m.node.id).flatMap
      Occurrence.actions) := by
  have hperm := perm_located o.around o.node (h.tree.of_mem_occurrences ho)
  rw [hbound, List.map_nil, List.append_nil] at hperm
  have hhere := (hperm.filter fun item =>
    decide (item.1.map root.scopeIndex = some i)).map Prod.snd
  have hsame : ∀ p ∈ o.node.occurrences o.around,
      decide (p.home.map root.scopeIndex = some i) = decide (p.home = some m.node.id) := by
    intro p hp
    have hp := (h.tree.infix_occurrences ho).subset hp
    rw [decide_eq_decide, h.map_home_eq_some_iff hp, hm]
    simp
  rw [filter_items _ fun home => decide (home.map root.scopeIndex = some i),
    List.filter_congr hsame, List.filter_filter] at hhere
  rw [List.filter_map, List.map_map]
  simp only [Bool.and_comm] at hhere
  exact hhere

/-- What happens in a scope is what the occurrences in it do. -/
theorem perm_actions {i : Nat} {m : Occurrence} (hm : root.openers[i]? = some m) :
    ((((located [] root).map (relabel root.scopeIndex)).filter fun item =>
      item.2.isAction && decide (item.1 = some i)).map Prod.snd).Perm
    (((root.occurrences []).filter fun o => o.home = some m.node.id).flatMap
      Occurrence.actions) := by
  have hroot : (⟨root, []⟩ : Occurrence) ∈ root.occurrences [] := by
    rw [occurrences_eq]
    exact List.mem_cons_self
  exact h.perm_actions_at hroot h.boundFrom_root hm

end Whole

/-- What a walk over a module comes to if it analyses every identifier once, in its scope. -/
structure Analysed (root : Node) (filename : String) (w : Walk) : Prop where
  /-- A node does as much as it carries identifiers. -/
  once : ∀ o ∈ root.occurrences [], o.actions.length = o.node.form.identifiers
  /-- Nothing else happens. -/
  total : ((root.trace .empty).1.filter Event.isAction).Perm
    ((root.occurrences []).flatMap Occurrence.actions)
  /-- There is a scope for each node that opens one. -/
  size : w.arena.size = root.openers.length
  /-- It is inside that of the nearest such node around. -/
  parent : ∀ (i : Nat) (m : Occurrence), root.openers[i]? = some m →
    ∃ s : Scope, w.arena.scopes[i]? = some s ∧ ∀ p : Nat, s.parent = some (p : Int) ↔
      ∃ outer, root.openers[p]? = some outer ∧ m.home = some outer.node.id
  /-- What does something has such a node around. -/
  home : ∀ o ∈ root.occurrences [], o.actions ≠ [] → ∃ m ∈ root.openers, o.home = some m.node.id
  /-- What happens in a scope is, in some order, what those do that have it nearest around them. -/
  actions : ∀ (i : Nat) (m : Occurrence), root.openers[i]? = some m →
    (root.actionsIn filename i).Perm
      (((root.occurrences []).filter fun o => o.home = some m.node.id).flatMap Occurrence.actions)
  /-- A scope holds the bindings that this makes, one on top of the other, and no others. -/
  bindings : ∀ (i : Nat) (s : Scope), w.arena.scopes[i]? = some s →
    s.core = (Scope.made s.isToplevel (root.actionsIn filename i)).core
  /-- What is left undefined in it was used there first. -/
  undefined : ∀ (i : Nat) (s : Scope), w.arena.scopes[i]? = some s → ∀ name span,
    s.undefined.find? name = some span → UsedFirst name span (root.actionsIn filename i)

end Node

/-- Every occurrence of an identifier in a module is analysed exactly once, in the right scope, and
nothing else is. -/
theorem occurrences_analysed_once {root : Node}
    (hroot : (∃ code, parse code = .ok root) ∨ root.Whole) (filename : String) :
    root.Whole ∧ ∃ w, walk root filename = .ok w ∧ root.Analysed filename w := by
  have h : root.Whole := by
    rcases hroot with ⟨code, hcode⟩ | h
    · exact Node.whole_parse hcode
    · exact h
  obtain ⟨w, hw⟩ := h.walk_ok filename
  have hlocates := h.locates hw
  refine ⟨h, w, hw, ?_⟩
  constructor
  case once =>
    intro o ho
    exact Occurrence.length_actions (Form.namesImport_of_complete (h.complete o ho))
  case total => exact h.perm_trace
  case size =>
    rw [hlocates.size, ← List.length_map Prod.fst, h.entries, List.length_map]
    exact Nat.zero_add _
  case parent =>
    intro i m hm
    have hentry : (root.openers.map fun m => m.home.map root.scopeIndex)[i]? =
        some (m.home.map root.scopeIndex) := by
      rw [List.getElem?_map, hm]
      rfl
    obtain ⟨s, hs, hparent⟩ := hlocates.parent (h.entries ▸ hentry)
    refine ⟨s, ?_, fun p => ?_⟩
    · rw [← hs]
      exact congrArg (w.arena.scopes[·]?) (Nat.zero_add i).symm
    · rw [hparent]
      exact h.parent_iff hm p
  case home => exact fun o => h.exists_opener
  case actions =>
    intro i m hm
    have hactions := hlocates.actions i
    unfold Node.actionsIn
    rw [hactions]
    exact h.perm_actions hm
  case bindings => exact fun i s hs => Scope.core_of_replay (walk_ok_iff.mp hw).1 hs
  case undefined =>
    intro i s hs name span hfind
    obtain ⟨hresolves, hopen⟩ := resolves_walk hw
    exact ((hresolves.undefined_iff hopen hs name span).mp hfind).1

/-- A list as a target with an attribute in it, a comprehension over pairs, and an assignment that
is no plain one, in a function with a decorator and a default. -/
def unpacking : Node :=
  let name (id : Nat) (word : String) : Node := .mk id .unknown (.name word) []
  .mk 0 .unknown .module [[
    .mk 1 .unknown (.functionDef "f" .unknown) [
      [.mk 2 .unknown (.decorator "d") [[]]],
      [.mk 3 .unknown (.param "p" "") [[name 4 "q"]]], [
      .mk 5 .unknown (.declaration "global" [("g", .unknown)]) [],
      .mk 6 .unknown (.assign "=") [
        [.mk 7 .unknown .array [[
          name 8 "a", .mk 9 .unknown (.attribute "x") [[name 10 "o"]], name 11 "g"]]],
        [.mk 12 .unknown .comprehension [
          [.mk 13 .unknown .array [[name 14 "k", name 15 "v"]]], [name 16 "pairs"], [],
          [name 17 "k"], []]]],
      .mk 18 .unknown (.assign "+=") [[name 19 "a"], [name 20 "p"]]]]]]

theorem unpacking_analysed_once :
    unpacking.Whole ∧ ∃ w, walk unpacking "unpacking" = .ok w ∧ w.arena.size = 3 ∧
      (unpacking.actionsIn "unpacking" 0).Perm
        [.bind "f" .unknown (Form.traits (.functionDef "f" .unknown)) false false] ∧
      (unpacking.actionsIn "unpacking" 1).Perm
        [.use "d" .unknown, .bind "p" .unknown (Form.traits (.param "p" "")) false false,
          .use "q" .unknown, .bind "g" .unknown {} false true, .bind "a" .unknown {} false false,
          .use "o" .unknown, .bind "g" .unknown {} false false, .use "a" .unknown,
          .use "p" .unknown] ∧
      (unpacking.actionsIn "unpacking" 2).Perm
        [.bind "k" .unknown {} true false, .bind "v" .unknown {} true false,
          .use "pairs" .unknown, .use "k" .unknown] ∧
      ∃ s, w.arena.scopes[2]? = some s ∧ s.undefined.find? "pairs" = some .unknown ∧
        UsedFirst "pairs" .unknown (unpacking.actionsIn "unpacking" 2) ∧
        s.core = (Scope.made false (unpacking.actionsIn "unpacking" 2)).core ∧
        s.history.map Binding.name = ["k", "v"] := by
  have hwhole : unpacking.Whole := ⟨rfl, by decide, by decide⟩
  obtain ⟨_, w, hw, h⟩ := occurrences_analysed_once (.inr hwhole) "unpacking"
  obtain ⟨s, hs, htop, hfind, hhistory⟩ : ∃ s, w.arena.scopes[2]? = some s ∧
      s.isToplevel = false ∧ s.undefined.find? "pairs" = some .unknown ∧
      s.history.map Binding.name = ["k", "v"] := by
    cases hw
    exact ⟨_, rfl, rfl, rfl, rfl⟩
  exact ⟨hwhole, w, hw, h.size, h.actions 0 _ rfl, h.actions 1 _ rfl, h.actions 2 _ rfl, s, hs,
    hfind, h.undefined 2 s hs _ _ hfind, htop ▸ h.bindings 2 s hs, hhistory⟩

end ScopeLint
