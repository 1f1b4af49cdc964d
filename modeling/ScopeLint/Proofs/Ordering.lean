import ScopeLint.Proofs.Flow

/-! # Nodes that bind names in order

A node binds names in the order of a given list of places if what it binds around
it, and what is bound in every scope inside it, are sublists of that list. Most
nodes bind what their parts bind, one part after the other. An expression binds
nothing around it, but the names that it would bind as a target matter: a node
that binds a target binds them before anything else. -/
namespace ScopeLint

/-- Places in a row, known or not. -/
abbrev Places := List (Option Position)

/-- What is bound around, and what in each of some scopes, is bound in the order of `names`. -/
structure Fits (names flow : Places) (scopes : List Places) : Prop where
  flow : flow.Sublist names
  scopes : ∀ s ∈ scopes, s.Sublist names

section Fits

variable {names more flow flow' : Places} {scopes scopes' : List Places}

theorem fits_nil (names : Places) : Fits names [] [] := ⟨List.nil_sublist _, by simp⟩

theorem Fits.mono (h : Fits names flow scopes) (hmore : names.Sublist more) :
    Fits more flow scopes :=
  ⟨h.flow.trans hmore, fun s hs => (h.scopes s hs).trans hmore⟩

theorem Fits.left (h : Fits names flow scopes) (more : Places) :
    Fits (names ++ more) flow scopes :=
  h.mono (List.sublist_append_left _ _)

theorem Fits.right (h : Fits names flow scopes) (more : Places) :
    Fits (more ++ names) flow scopes :=
  h.mono (List.sublist_append_right _ _)

theorem Fits.append (h : Fits names flow scopes) (h' : Fits more flow' scopes') :
    Fits (names ++ more) (flow ++ flow') (scopes ++ scopes') := by
  refine ⟨h.flow.append h'.flow, ?_⟩
  intro s hs
  rcases List.mem_append.mp hs with hs | hs
  · exact (h.left more).scopes s hs
  · exact (h'.right names).scopes s hs

/-- More scopes, with nothing bound around them. -/
theorem Fits.add (h : Fits names [] scopes) (h' : Fits names flow scopes') :
    Fits names flow (scopes ++ scopes') := by
  refine ⟨h'.flow, ?_⟩
  intro s hs
  rcases List.mem_append.mp hs with hs | hs
  · exact h.scopes s hs
  · exact h'.scopes s hs

end Fits

/-- The forms that bind nothing and open no scope. -/
def Form.isInert : Form → Bool
  | .module | .functionDef .. | .classDef .. | .lambda | .comprehension | .param ..
  | .importModule .. | .importedName .. | .assign _ | .varDef .. | .forIn
  | .declaration .. => false
  | _ => true

/-- The forms that a target can have, if it is to bind anything. -/
def Form.isTarget : Form → Bool
  | .name _ | .array => true
  | _ => false

namespace Node

/-- Where the names start that a node binds as a target. -/
def targets (n : Node) : Places := n.targetNames.map (·.2.span.place?)

/-- A node that binds nothing around it. -/
structure Quiet (names : Places) (n : Node) : Prop where
  flow : n.flow = []
  fits : Fits names [] n.scopes

/-- A node that binds nothing around it, and binds names in order as a target. -/
structure Value (names : Places) (n : Node) : Prop extends Quiet names n where
  targets : n.targets.Sublist names

/-- A node that binds names in order. -/
def Ordered (names : Places) (n : Node) : Prop := Fits names n.flow n.scopes

/-- Nodes that bind names in order, one after the other. -/
def InOrder (names : Places) (ns : List Node) : Prop := Fits names (flowPart ns) (scopesPart ns)

variable {names more : Places}

theorem Quiet.ordered {n : Node} (h : n.Quiet names) : n.Ordered names := by
  unfold Ordered
  rw [h.flow]
  exact h.fits

theorem Quiet.mono {n : Node} (h : n.Quiet names) (hmore : names.Sublist more) : n.Quiet more :=
  ⟨h.flow, h.fits.mono hmore⟩

theorem Value.mono {n : Node} (h : n.Value names) (hmore : names.Sublist more) : n.Value more :=
  ⟨h.toQuiet.mono hmore, h.targets.trans hmore⟩

theorem Ordered.mono {n : Node} (h : n.Ordered names) (hmore : names.Sublist more) :
    n.Ordered more := Fits.mono h hmore

theorem InOrder.mono {ns : List Node} (h : InOrder names ns) (hmore : names.Sublist more) :
    InOrder more ns := Fits.mono h hmore

theorem inOrder_nil (names : Places) : InOrder names [] := fits_nil names

theorem inOrder_cons {n : Node} {ns : List Node} (hn : n.Ordered names) (hns : InOrder more ns) :
    InOrder (names ++ more) (n :: ns) := hn.append hns

theorem inOrder_singleton {n : Node} (h : n.Ordered names) : InOrder names [n] := by
  have hone := inOrder_cons h (inOrder_nil [])
  rwa [List.append_nil] at hone

theorem InOrder.append {first second : List Node} (h : InOrder names first)
    (h' : InOrder more second) : InOrder (names ++ more) (first ++ second) := by
  have hboth := Fits.append h h'
  simp only [flowPart_eq_flatMap, scopesPart_eq_flatMap, ← List.flatMap_append] at hboth
  simpa only [InOrder, flowPart_eq_flatMap, scopesPart_eq_flatMap] using hboth

/-! ## Nodes made of parts -/

theorem flowPart_of_quiet {ns : List Node} (h : ∀ n ∈ ns, n.Quiet names) : flowPart ns = [] := by
  rw [flowPart_eq_flatMap]
  exact List.flatMap_eq_nil_iff.mpr fun n hn => (h n hn).flow

theorem fits_of_quiet {ns : List Node} (h : ∀ n ∈ ns, n.Quiet names) :
    Fits names [] (scopesPart ns) := by
  refine ⟨List.nil_sublist _, ?_⟩
  intro s hs
  rw [scopesPart_eq_flatMap] at hs
  obtain ⟨n, hn, hs⟩ := List.mem_flatMap.mp hs
  exact (h n hn).fits.scopes s hs

theorem inOrder_of_quiet {ns : List Node} (h : ∀ n ∈ ns, n.Quiet names) : InOrder names ns := by
  unfold InOrder
  rw [flowPart_of_quiet h]
  exact fits_of_quiet h

theorem flowParts_of_quiet {parts : List (List Node)} (h : ∀ p ∈ parts, ∀ n ∈ p, n.Quiet names) :
    flowParts parts = [] := by
  rw [flowParts_eq_flatMap]
  exact List.flatMap_eq_nil_iff.mpr fun p hp => flowPart_of_quiet (h p hp)

theorem fitsParts_of_quiet {parts : List (List Node)} (h : ∀ p ∈ parts, ∀ n ∈ p, n.Quiet names) :
    Fits names [] (scopesParts parts) := by
  refine ⟨List.nil_sublist _, ?_⟩
  intro s hs
  rw [scopesParts_eq_flatMap] at hs
  obtain ⟨p, hp, hs⟩ := List.mem_flatMap.mp hs
  exact (fits_of_quiet (h p hp)).scopes s hs

theorem flow_make (span : Span) (form : Form) (parts : List (List Node)) :
    (make span form parts).flow = starts (make span form parts).outward ++
      if form.opensScope then [] else flowParts parts := rfl

theorem scopes_make (span : Span) (form : Form) (parts : List (List Node)) :
    (make span form parts).scopes =
      (if form.opensScope then [(make span form parts).inside] else []) ++ scopesParts parts := rfl

theorem starts_of_inert {n : Node} (h : n.form.isInert = true) : starts n.outward = [] := by
  have hevents : ∀ e ∈ n.events, e.boundAt? = none := by
    unfold events
    cases hform : n.form with
    | empty marker =>
      dsimp only
      split <;> simp [Event.boundAt?]
    | _ => simp_all [Form.isInert, Event.boundAt?]
  refine List.filterMap_eq_nil_iff.mpr fun e he => hevents e ?_
  exact List.takeWhile_subset _ he

theorem opensScope_of_inert {form : Form} (h : form.isInert = true) : form.opensScope = false := by
  cases form <;> first | rfl | cases h

theorem ordered_make {span : Span} {form : Form} {parts : List (List Node)}
    (hform : form.isInert = true) (h : Fits names (flowParts parts) (scopesParts parts)) :
    (make span form parts).Ordered names := by
  have hscope := opensScope_of_inert hform
  unfold Ordered
  rw [flow_make, scopes_make, hscope, starts_of_inert (n := make span form parts) hform]
  exact h

theorem quiet_make {span : Span} {form : Form} {parts : List (List Node)}
    (hform : form.isInert = true) (h : ∀ p ∈ parts, ∀ n ∈ p, n.Quiet names) :
    (make span form parts).Quiet names := by
  have hscope := opensScope_of_inert hform
  refine ⟨?_, ?_⟩
  · rw [flow_make, hscope, starts_of_inert (n := make span form parts) hform,
      flowParts_of_quiet h]
    rfl
  · rw [scopes_make, hscope]
    exact fitsParts_of_quiet h

theorem targets_of_not_target {n : Node} (h : n.form.isTarget = false) : n.targets = [] := by
  unfold targets targetNames name?
  cases hform : n.form <;> simp_all [Form.isTarget]

theorem value_make {span : Span} {form : Form} {parts : List (List Node)}
    (hform : form.isInert = true) (htarget : form.isTarget = false)
    (h : ∀ p ∈ parts, ∀ n ∈ p, n.Quiet names) : (make span form parts).Value names := by
  refine ⟨quiet_make hform h, ?_⟩
  rw [targets_of_not_target (n := make span form parts) htarget]
  exact List.nil_sublist _

/-- The names that a list binds are among those that its elements would bind. -/
theorem targets_array_sublist (span : Span) (ns : List Node) :
    (make span .array [ns]).targets.Sublist (ns.flatMap targets) := by
  have hnames : (make span .array [ns]).targets =
      (ns.filterMap fun n => n.name?.map (·, n)).map (·.2.span.place?) := by
    simp [targets, targetNames, make, Node.form, children, Node.parts]
  rw [hnames]
  clear hnames
  induction ns with
  | nil => exact List.Sublist.refl _
  | cons n ns ih =>
    rw [List.flatMap_cons]
    cases hname : n.name? with
    | none =>
      rw [List.filterMap_cons_none (by simp [hname])]
      exact ih.trans (List.sublist_append_right _ _)
    | some word =>
      have hform : n.form ≠ .array := by
        intro hform
        simp [name?, hform] at hname
      have htargets : n.targets = [n.span.place?] := by
        simp [targets, targetNames, hform, hname]
      rw [List.filterMap_cons_some (b := (word, n)) (by simp [hname]), htargets]
      exact ih.cons_cons _

theorem value_array {span : Span} {ns : List Node} (hquiet : ∀ n ∈ ns, n.Quiet names)
    (htargets : (ns.flatMap targets).Sublist names) : (make span .array [ns]).Value names := by
  refine ⟨quiet_make rfl ?_, (targets_array_sublist span ns).trans htargets⟩
  intro p hp
  rw [List.mem_singleton.mp hp]
  exact hquiet

/-! ## Nodes that bind -/

theorem fitsParts_cons {part : List Node} {parts : List (List Node)} (h : InOrder names part)
    (h' : Fits more (flowParts parts) (scopesParts parts)) :
    Fits (names ++ more) (flowParts (part :: parts)) (scopesParts (part :: parts)) :=
  Fits.append h h'

theorem fitsParts_quiet_cons {part : List Node} {parts : List (List Node)}
    (h : ∀ n ∈ part, n.Quiet names) (h' : Fits names (flowParts parts) (scopesParts parts)) :
    Fits names (flowParts (part :: parts)) (scopesParts (part :: parts)) := by
  rw [flowParts, flowPart_of_quiet h]
  exact (fits_of_quiet h).add h'

theorem fitsParts_singleton {part : List Node} (h : InOrder names part) :
    Fits names (flowParts [part]) (scopesParts [part]) := by
  have hone : Fits (names ++ []) (flowParts [part]) (scopesParts [part]) :=
    fitsParts_cons h (fits_nil [])
  rwa [List.append_nil] at hone

/-- A node that binds names around it, and whose parts bind nothing there. -/
theorem ordered_binder_quiet {span : Span} {form : Form} {parts : List (List Node)}
    (hscope : form.opensScope = false)
    (hown : (starts (make span form parts).outward).Sublist names)
    (h : ∀ p ∈ parts, ∀ n ∈ p, n.Quiet names) : (make span form parts).Ordered names := by
  unfold Ordered
  rw [flow_make, scopes_make, hscope, flowParts_of_quiet h]
  refine ⟨?_, (fitsParts_of_quiet h).scopes⟩
  simpa using hown

/-- A node that opens a scope. -/
theorem ordered_opener {span : Span} {form : Form} {parts : List (List Node)}
    (hscope : form.opensScope = true)
    (hown : (starts (make span form parts).outward).Sublist names)
    (h : Fits names (starts (make span form parts).inward ++ flowParts parts)
      (scopesParts parts)) : (make span form parts).Ordered names := by
  unfold Ordered
  rw [flow_make, scopes_make, hscope]
  refine ⟨by simpa using hown, ?_⟩
  intro s hs
  rcases List.mem_append.mp hs with hs | hs
  · rw [List.mem_singleton.mp hs]
    exact h.flow
  · exact h.scopes s hs

/-- An expression that opens a scope, and binds nothing around it. -/
theorem value_opener {span : Span} {form : Form} {parts : List (List Node)}
    (hscope : form.opensScope = true) (htarget : form.isTarget = false)
    (hown : starts (make span form parts).outward = [])
    (h : Fits names (starts (make span form parts).inward ++ flowParts parts)
      (scopesParts parts)) : (make span form parts).Value names := by
  have hordered : (make span form parts).Ordered names :=
    ordered_opener hscope (hown ▸ List.nil_sublist _) h
  have hflow : (make span form parts).flow = [] := by
    rw [flow_make, hscope, hown]
    rfl
  refine ⟨⟨hflow, ⟨List.nil_sublist _, hordered.scopes⟩⟩, ?_⟩
  rw [targets_of_not_target (n := make span form parts) htarget]
  exact List.nil_sublist _

/-- What a node binds as its target. -/
theorem starts_targetEvents_sublist {n target : Node} {others : List (List Node)}
    (hparts : n.parts = [target] :: others) : (starts n.targetEvents).Sublist target.targets := by
  have hstarts : starts n.targetEvents = n.boundNames.map (·.2.1.span.place?) := by
    simp [starts, targetEvents, List.filterMap_map, Function.comp_def, Event.boundAt?]
  have hbound : n.boundTarget = none ∨ ∃ isLoop, n.boundTarget = some (target, isLoop) := by
    unfold boundTarget
    rw [hparts]
    cases n.form with
    | assign op =>
      dsimp only
      split
      · exact .inl rfl
      · exact .inr ⟨false, rfl⟩
    | forIn | comprehension => exact .inr ⟨true, rfl⟩
    | _ => exact .inl rfl
  rw [hstarts, boundNames]
  rcases hbound with hnone | ⟨isLoop, hsome⟩
  · rw [hnone]
    exact List.nil_sublist _
  · rw [hsome]
    simp [targets, Function.comp_def]

theorem outward_targetEvents {n : Node} (h : n.events = n.targetEvents) :
    n.outward = n.targetEvents := by
  have hlevel : Level n.events := h ▸ level_of_actions isAction_targetEvents
  rw [outward_of_level hlevel, h]

/-- A node that binds its target, before what the other parts bind. -/
theorem ordered_target {span : Span} {form : Form} {target : Node} {parts : List (List Node)}
    (hscope : form.opensScope = false)
    (hevents : (make span form ([target] :: parts)).events =
      (make span form ([target] :: parts)).targetEvents)
    (htarget : target.Value names) (h : Fits more (flowParts parts) (scopesParts parts)) :
    (make span form ([target] :: parts)).Ordered (names ++ more) := by
  have hquiet : ∀ n ∈ [target], n.Quiet names := by simp [htarget.toQuiet]
  have hown : (starts (make span form ([target] :: parts)).outward).Sublist names := by
    rw [outward_targetEvents hevents]
    exact (starts_targetEvents_sublist rfl).trans htarget.targets
  unfold Ordered
  rw [flow_make, scopes_make, hscope, flowParts, flowPart_of_quiet hquiet]
  exact ⟨hown.append h.flow, ((fits_of_quiet hquiet).append h).scopes⟩

/-- What stands in a list that binds nothing binds nothing. -/
theorem Quiet.children {n c : Node} (h : n.Quiet names) (hform : n.form = .array)
    (hc : c ∈ n.children) : c.Quiet names := by
  obtain ⟨id, span, form, parts⟩ := n
  cases hform
  obtain ⟨part, hpart, hc⟩ := List.mem_flatten.mp hc
  have hflows : flowParts parts = [] := (List.append_eq_nil_iff.mp h.flow).2
  rw [flowParts_eq_flatMap, List.flatMap_eq_nil_iff] at hflows
  have hflow := hflows part hpart
  rw [flowPart_eq_flatMap, List.flatMap_eq_nil_iff] at hflow
  refine ⟨hflow c hc, List.nil_sublist _, ?_⟩
  intro s hs
  refine h.fits.scopes s (List.mem_append_right _ ?_)
  rw [scopesParts_eq_flatMap]
  refine List.mem_flatMap.mpr ⟨part, hpart, ?_⟩
  rw [scopesPart_eq_flatMap]
  exact List.mem_flatMap.mpr ⟨c, hc, hs⟩

end Node
end ScopeLint
