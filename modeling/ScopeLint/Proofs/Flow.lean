import ScopeLint.Proofs.Analysis
import ScopeLint.Proofs.Blocks
import ScopeLint.Proofs.History
import ScopeLint.Proofs.Relocation

/-! # The order in which a scope is filled

Every node binds names in the scope around it, itself or through what it holds,
and a node that opens a scope binds names in that one. Where these names stand can
be read off the tree (`flow`, `scopes`); a walk that leaves out what it has seen
before fills each scope with a sublist of that. -/
namespace ScopeLint

/-- Where a span starts, if it is known where it ends as well. -/
def Span.place? (s : Span) : Option Position := s.stop.bind fun _ => s.start

/-- Where the name starts that an event binds. -/
def Event.boundAt? : Event → Option (Option Position)
  | .bind _ span _ _ _ => some span.place?
  | _ => none

/-- Where the names start that events bind, in order. -/
def starts (events : List Event) : List (Option Position) := events.filterMap Event.boundAt?

theorem starts_append (first second : List Event) :
    starts (first ++ second) = starts first ++ starts second := List.filterMap_append

theorem starts_of_not_action {e : Event} (h : e.isAction = false) : starts [e] = [] := by
  cases e <;> first | rfl | cases h

namespace Node

/-- What a node does in the scope around it. -/
def outward (n : Node) : List Event := n.events.takeWhile (!·.isEntry)

/-- What a node does in the scope that it opens. -/
def inward (n : Node) : List Event := n.events.dropWhile (!·.isEntry)

mutual

/-- Where the names start that a tree binds in the scope around it, in the order of a walk. -/
def flow : Node → List (Option Position)
  | mk id span form parts =>
    starts (mk id span form parts).outward ++ if form.opensScope then [] else flowParts parts

def flowParts : List (List Node) → List (Option Position)
  | [] => []
  | part :: parts => flowPart part ++ flowParts parts

def flowPart : List Node → List (Option Position)
  | [] => []
  | n :: rest => flow n ++ flowPart rest

end

/-- The same for the scope that a node opens. -/
def inside (n : Node) : List (Option Position) := starts n.inward ++ flowParts n.parts

mutual

/-- The same for every scope that is opened in a tree. -/
def scopes : Node → List (List (Option Position))
  | mk id span form parts =>
    (if form.opensScope then [(mk id span form parts).inside] else []) ++ scopesParts parts

def scopesParts : List (List Node) → List (List (Option Position))
  | [] => []
  | part :: parts => scopesPart part ++ scopesParts parts

def scopesPart : List Node → List (List (Option Position))
  | [] => []
  | n :: rest => scopes n ++ scopesPart rest

end

theorem flowPart_eq_flatMap (part : List Node) : flowPart part = part.flatMap flow := by
  induction part with
  | nil => rfl
  | cons n rest ih => rw [flowPart, ih, List.flatMap_cons]

theorem flowParts_eq_flatMap (parts : List (List Node)) :
    flowParts parts = parts.flatMap flowPart := by
  induction parts with
  | nil => rfl
  | cons part parts ih => rw [flowParts, ih, List.flatMap_cons]

theorem scopesPart_eq_flatMap (part : List Node) : scopesPart part = part.flatMap scopes := by
  induction part with
  | nil => rfl
  | cons n rest ih => rw [scopesPart, ih, List.flatMap_cons]

theorem scopesParts_eq_flatMap (parts : List (List Node)) :
    scopesParts parts = parts.flatMap scopesPart := by
  induction parts with
  | nil => rfl
  | cons part parts ih => rw [scopesParts, ih, List.flatMap_cons]

/-! ## Identities do not matter -/

section Identities

variable (name : Nat → Nat)

theorem relocate_event (e : Event) : e.relocate (fun p => p) = e := by
  cases e <;> simp [Event.relocate]

theorem events_renamed (n : Node) : (n.relocate name (fun p => p)).events = n.events := by
  rw [events_relocate]
  exact List.map_id'' relocate_event n.events

mutual

theorem flow_renamed (n : Node) : (n.relocate name (fun p => p)).flow = n.flow := by
  match n with
  | mk id span form parts =>
    have hevents := events_renamed name (mk id span form parts)
    simp only [relocate] at hevents ⊢
    simp only [flow, outward, hevents, Form.opensScope_relocate, flowParts_renamed]

theorem flowParts_renamed (parts : List (List Node)) :
    flowParts (relocateParts name (fun p => p) parts) = flowParts parts := by
  match parts with
  | [] => rfl
  | part :: parts => simp only [relocateParts, flowParts, flowPart_renamed, flowParts_renamed]

theorem flowPart_renamed (part : List Node) :
    flowPart (relocatePart name (fun p => p) part) = flowPart part := by
  match part with
  | [] => rfl
  | n :: rest => simp only [relocatePart, flowPart, flow_renamed, flowPart_renamed]

end

mutual

theorem scopes_renamed (n : Node) : (n.relocate name (fun p => p)).scopes = n.scopes := by
  match n with
  | mk id span form parts =>
    have hevents := events_renamed name (mk id span form parts)
    simp only [relocate] at hevents ⊢
    simp only [scopes, inside, inward, hevents, Form.opensScope_relocate, Node.parts,
      flowParts_renamed, scopesParts_renamed]

theorem scopesParts_renamed (parts : List (List Node)) :
    scopesParts (relocateParts name (fun p => p) parts) = scopesParts parts := by
  match parts with
  | [] => rfl
  | part :: parts =>
    simp only [relocateParts, scopesParts, scopesPart_renamed, scopesParts_renamed]

theorem scopesPart_renamed (part : List Node) :
    scopesPart (relocatePart name (fun p => p) part) = scopesPart part := by
  match part with
  | [] => rfl
  | n :: rest => simp only [relocatePart, scopesPart, scopes_renamed, scopesPart_renamed]

end

theorem scopes_number (n : Node) : n.number.scopes = n.scopes := by
  rw [← scopes_renamed (fun _ => 0) n.number, number, relocate_numberFrom, scopes_renamed]

end Identities

/-! ## What a walk leaves out -/

open Walk (locate advance Block)

/-- Where the names start that are bound in one scope. -/
def startsIn (j : Nat) (items : List (Option Nat × Event)) : List (Option Position) :=
  items.filterMap fun item => if item.1 = some j then item.2.boundAt? else none

theorem startsIn_append (j : Nat) (first second : List (Option Nat × Event)) :
    startsIn j (first ++ second) = startsIn j first ++ startsIn j second :=
  List.filterMap_append

theorem startsIn_singleton (j : Nat) (home : Option Nat) (e : Event) :
    startsIn j [(home, e)] = if home = some j then starts [e] else [] := by
  by_cases h : home = some j
  · rw [if_pos h]
    simp only [startsIn, starts, List.filterMap_cons, List.filterMap_nil, if_pos h]
  · rw [if_neg h]
    simp only [startsIn, List.filterMap_cons, List.filterMap_nil, if_neg h]

theorem startsIn_told (j : Nat) (home : Option Nat) (e : Event) :
    startsIn j (told home e) = if home = some j then starts [e] else [] := by
  unfold told
  split
  · exact startsIn_singleton j home e
  · next hquiet =>
    have haction : e.isAction = false := by
      rw [Bool.or_eq_true, not_or] at hquiet
      exact Bool.eq_false_of_not_eq_true hquiet.2
    rw [starts_of_not_action haction, ite_self]
    rfl

/-- A block of events binds `own` in the scope it finds open, and `inner` in the scopes that it
opens, in their order. -/
structure Fills (events : List Event) (own : List (Option Position))
    (inner : List (List (Option Position))) : Prop where
  block : Block events
  count : entryCount events = inner.length
  fills : ∀ {opened : List Nat} {next : Nat}, (∀ i ∈ opened.head?, i < next) → ∀ j,
    startsIn j (locate opened next events) =
      if opened.head? = some j then own else if next ≤ j then (inner[j - next]?).getD [] else []

theorem fills_nil : Fills [] [] [] := by
  refine ⟨.nil, rfl, ?_⟩
  intro opened next _ j
  simp [locate, startsIn]

theorem Fills.append {first second : List Event} {own own' : List (Option Position)}
    {inner inner' : List (List (Option Position))} (h : Fills first own inner)
    (h' : Fills second own' inner') : Fills (first ++ second) (own ++ own') (inner ++ inner') := by
  refine ⟨h.block.append h'.block, ?_, ?_⟩
  · rw [entryCount_append, h.count, h'.count, List.length_append]
  · intro opened next hopen j
    have hlater : ∀ i ∈ opened.head?, i < next + inner.length := by
      intro i hi
      have hlt := hopen i hi
      omega
    rw [h.block.locate_append, startsIn_append, h.fills hopen, h.count, h'.fills hlater]
    by_cases hhead : opened.head? = some j
    · simp [hhead]
    · simp only [hhead, if_false]
      by_cases hnext : next ≤ j
      · by_cases hinner : next + inner.length ≤ j
        · have hnone : inner[j - next]? = none := List.getElem?_eq_none (by omega)
          rw [if_pos hnext, if_pos hnext, if_pos hinner, hnone,
            List.getElem?_append_right (by omega), Nat.sub_add_eq]
          rfl
        · rw [if_pos hnext, if_pos hnext, if_neg hinner, List.append_nil,
            List.getElem?_append_left (by omega)]
      · have hinner : ¬ next + inner.length ≤ j := by omega
        simp [hnext, hinner]

theorem fills_level {events : List Event} (h : Level events) : Fills events (starts events) [] := by
  refine ⟨Walk.block_level h, ?_, ?_⟩
  · simp only [entryCount, List.length_nil, List.countP_eq_zero]
    intro e he
    simp [(h e he).1]
  · intro opened next _ j
    simp only [List.getElem?_nil, Option.getD_none, ite_self]
    induction events with
    | nil => simp [locate, startsIn, starts]
    | cons e events ih =>
      obtain ⟨hentry, hleave⟩ := h e List.mem_cons_self
      rw [locate, advance_of_level hentry hleave, startsIn_append, startsIn_told,
        ih fun e he => h e (List.mem_cons_of_mem _ he)]
      split
      · exact (starts_append [e] events).symm
      · rfl

/-- A scope with a block in it. -/
theorem Fills.scope {events : List Event} {own : List (Option Position)}
    {inner : List (List (Option Position))} (h : Fills events own inner) (top : Bool) :
    Fills (.enter top :: events ++ [.leave]) [] (own :: inner) := by
  refine ⟨.scope top h.block .nil, ?_, ?_⟩
  · simp [entryCount, Event.isEntry, List.countP_cons, ← h.count]
  · intro opened next hopen j
    have htold : startsIn j (told opened.head? (.enter top)) = [] := by
      rw [startsIn_told, starts_of_not_action rfl, ite_self]
    have hleave : ∀ {opened : List Nat} {next : Nat},
        startsIn j (locate opened next [.leave]) = [] := by
      intro opened next
      rw [locate, startsIn_append, startsIn_told, starts_of_not_action rfl, ite_self]
      rfl
    rw [List.cons_append, locate, startsIn_append, htold, List.nil_append,
      h.block.locate_append, startsIn_append, hleave, List.append_nil]
    simp only [advance]
    rw [h.fills (by simp)]
    simp only [List.head?_cons, Option.some.injEq]
    by_cases hj : next = j
    · subst hj
      have hhead : opened.head? ≠ some next := fun hh => Nat.lt_irrefl _ (hopen next hh)
      simp [hhead]
    · by_cases hlt : next + 1 ≤ j
      · have hhead : opened.head? ≠ some j := by
          intro hh
          have := hopen j hh
          omega
        have hle : next ≤ j := by omega
        obtain ⟨k, rfl⟩ := Nat.exists_eq_add_of_le hlt
        rw [if_neg hj, if_pos hlt, if_neg hhead, if_pos hle]
        have hk : next + 1 + k - next = k + 1 := by omega
        simp [hk]
      · have hle : ¬ next ≤ j := by omega
        simp [hj, hlt, hle]

/-- A block binds no more than this in the scope it finds open, and no more than one of these in
each scope that it opens. -/
def FillsWithin (events : List Event) (flow : List (Option Position))
    (scopes : List (List (Option Position))) : Prop :=
  ∃ own inner, Fills events own inner ∧ own.Sublist flow ∧
    ∀ s ∈ inner, ∃ t ∈ scopes, s.Sublist t

theorem fillsWithin_nil (flow : List (Option Position)) (scopes : List (List (Option Position))) :
    FillsWithin [] flow scopes :=
  ⟨[], [], fills_nil, List.nil_sublist _, by simp⟩

theorem FillsWithin.append {first second : List Event} {flow flow' : List (Option Position)}
    {scopes scopes' : List (List (Option Position))} (h : FillsWithin first flow scopes)
    (h' : FillsWithin second flow' scopes') :
    FillsWithin (first ++ second) (flow ++ flow') (scopes ++ scopes') := by
  obtain ⟨own, inner, hfills, hown, hinner⟩ := h
  obtain ⟨own', inner', hfills', hown', hinner'⟩ := h'
  refine ⟨own ++ own', inner ++ inner', hfills.append hfills', hown.append hown', ?_⟩
  intro s hs
  rcases List.mem_append.mp hs with hs | hs
  · obtain ⟨t, ht, hst⟩ := hinner s hs
    exact ⟨t, List.mem_append_left _ ht, hst⟩
  · obtain ⟨t, ht, hst⟩ := hinner' s hs
    exact ⟨t, List.mem_append_right _ ht, hst⟩

theorem outward_of_level {n : Node} (h : Level n.events) : n.outward = n.events := by
  have hquiet : ∀ e ∈ n.events, (!e.isEntry) = true := fun e he => by simp [(h e he).1]
  simpa [outward] using @List.takeWhile_append_of_pos _ _ _ [] hquiet

theorem outward_inward_of_enter {n : Node} {before after : List Event} {top : Bool}
    (hevents : n.events = before ++ .enter top :: after) (hbefore : Level before) :
    n.outward = before ∧ n.inward = .enter top :: after := by
  have hquiet : ∀ e ∈ before, (!e.isEntry) = true := fun e he => by simp [(hbefore e he).1]
  unfold outward inward
  rw [hevents, List.takeWhile_append_of_pos hquiet, List.dropWhile_append_of_pos hquiet]
  simp [Event.isEntry]

/-- A node around a block of its children. -/
theorem fillsWithin_around (n : Node) {inner : List Event}
    (h : FillsWithin inner (flowParts n.parts) (scopesParts n.parts)) :
    FillsWithin (n.events ++ inner ++ n.form.after) n.flow n.scopes := by
  obtain ⟨id, span, form, parts⟩ := n
  obtain ⟨own, scopes, hfills, hown, hscopes⟩ := h
  rw [flow, Node.scopes]
  rcases (mk id span form parts).events_level_or_enter with ⟨hscope, hlevel⟩ | ⟨hscope, before,
    top, after, hevents, hbefore, hafter⟩
  · have hblock := ((fills_level hlevel).append hfills).append (fills_level (level_after hscope))
    have hquiet : starts form.after = [] := by
      unfold Form.after
      split
      · rfl
      · split <;> rfl
    simp only [Node.form] at hscope hblock ⊢
    rw [List.append_nil, List.nil_append, hquiet, List.append_nil] at hblock
    rw [outward_of_level hlevel, if_neg (by simp [hscope]), if_neg (by simp [hscope])]
    exact ⟨_, _, hblock, (List.Sublist.refl _).append hown, hscopes⟩
  · have hleave : form.after = [.leave] := by
      simp only [Node.form] at hscope
      simp [Form.after, hscope]
    obtain ⟨houtward, hinward⟩ := outward_inward_of_enter hevents hbefore
    have hblock := (fills_level hbefore).append (((fills_level hafter).append hfills).scope top)
    simp only [Node.form] at hscope ⊢
    rw [hevents, hleave, houtward, if_pos hscope, if_pos hscope]
    refine ⟨_, _, by simpa using hblock, by simp, ?_⟩
    intro s hs
    rcases List.mem_cons.mp hs with rfl | hs
    · refine ⟨_, List.mem_append_left _ List.mem_cons_self, ?_⟩
      rw [inside, hinward]
      exact (List.Sublist.refl _).append hown
    · obtain ⟨t, ht, hst⟩ := hscopes s hs
      exact ⟨t, List.mem_append_right _ ht, hst⟩

mutual

theorem fillsWithin_trace (n : Node) (seen : IdSet) :
    FillsWithin (n.trace seen).1 n.flow n.scopes := by
  match n with
  | mk id span form parts =>
    rw [trace_mk]
    split
    · exact fillsWithin_nil _ _
    · exact fillsWithin_around (mk id span form parts) (fillsWithin_traceParts parts _)

theorem fillsWithin_traceParts (parts : List (List Node)) (seen : IdSet) :
    FillsWithin (traceParts parts seen).1 (flowParts parts) (scopesParts parts) := by
  match parts with
  | [] => exact fillsWithin_nil _ _
  | part :: parts =>
    exact (fillsWithin_tracePart part seen).append (fillsWithin_traceParts parts _)

theorem fillsWithin_tracePart (part : List Node) (seen : IdSet) :
    FillsWithin (tracePart part seen).1 (flowPart part) (scopesPart part) := by
  match part with
  | [] => exact fillsWithin_nil _ _
  | n :: rest => exact (fillsWithin_trace n seen).append (fillsWithin_tracePart rest _)

end

end Node

/-- What a scope recalls to have bound stands where its actions bound it. -/
theorem Scope.Recalls.starts {s : Scope} {actions : List Event} (h : s.Recalls actions) :
    s.history.map (·.span.place?) = ScopeLint.starts actions := by
  have hrecord : s.history.map (·.span.place?) =
      (s.history.map Binding.record).map (·.2.1.place?) := by
    rw [List.map_map]
    rfl
  rw [hrecord, h.history, List.map_filterMap, ScopeLint.starts]
  congr 1
  funext e
  cases e <;> rfl

theorem Node.startsIn_eq_starts (j : Nat) (items : List (Option Nat × Event)) :
    startsIn j items =
      starts ((items.filter fun item => item.2.isAction && decide (item.1 = some j)).map
        Prod.snd) := by
  induction items with
  | nil => rfl
  | cons item items ih =>
    obtain ⟨home, e⟩ := item
    rw [← List.singleton_append, startsIn_append, ih, List.filter_append, List.map_append,
      starts_append]
    congr 1
    rw [startsIn_singleton]
    cases haction : e.isAction with
    | false =>
      rw [starts_of_not_action haction, ite_self]
      simp [haction, starts]
    | true => by_cases hhome : home = some j <;> simp [haction, hhome, starts]

/-- The bindings of a scope in a finished walk stand, in the order in which they were made, where
the tree says for one of its scopes; what is left out was seen before. -/
theorem history_sublist {root : Node} {filename : String} {w : Walk}
    (hw : walk root filename = .ok w) {i : Nat} {s : Scope} (hs : w.arena.scopes[i]? = some s) :
    ∃ t ∈ root.scopes, (s.history.map (·.span.place?)).Sublist t := by
  obtain ⟨hr, _, _⟩ := walk_ok_iff.mp hw
  have hlocates : Walk.Locates { filename } w _ (Walk.locate [] 0 (root.trace .empty).1) :=
    Walk.replay_locate (Walk.orderly_start filename) hr
  obtain ⟨own, inner, hfills, _, hinner⟩ := Node.fillsWithin_trace root .empty
  have hstarts := @Node.Fills.fills _ _ _ hfills [] 0 (by simp) i
  have hlt : i < inner.length := by
    have hsize := hlocates.size
    rw [Walk.entryCount_locate, hfills.count] at hsize
    exact Nat.zero_add inner.length ▸ hsize ▸ Arena.getElem?_lt hs
  rw [((Walk.Recalls.replay hr).recalls hs).starts, hlocates.actions i,
    ← Node.startsIn_eq_starts]
  refine hinner _ ?_
  rw [hstarts]
  simp [hlt]

end ScopeLint
