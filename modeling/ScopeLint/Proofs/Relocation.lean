import ScopeLint.Trace

/-! # Trees at other places

A tree can be given other places and other identities, node by node, and what it
does keeps in step: the same events at the new places. Numbering gives new
identities and nothing else, so it does not matter whether places are changed
before or after it. -/
namespace ScopeLint

/-- The same column on a line with another number. -/
def Position.renumber (number : Int → Int) (p : Position) : Position := ⟨number p.line, p.col⟩

/-- Another place for every end that is known. -/
def Span.relocate (move : Position → Position) (s : Span) : Span :=
  ⟨s.start.map move, s.stop.map move⟩

def Form.relocate (move : Position → Position) : Form → Form
  | .functionDef word place => .functionDef word (place.relocate move)
  | .classDef word place => .classDef word (place.relocate move)
  | .varDef word place => .varDef word (place.relocate move)
  | .importModule path asName asSpan =>
    .importModule path asName (asSpan.map (Span.relocate move))
  | .declaration keyword names =>
    .declaration keyword (names.map fun (word, place) => (word, place.relocate move))
  | form => form

def Event.relocate (move : Position → Position) : Event → Event
  | .bind name span traits isLoop declared =>
    .bind name (span.relocate move) traits isLoop declared
  | .use name span => .use name (span.relocate move)
  | .define name span => .define name (span.relocate move)
  | .semicolon span => .semicolon (span.relocate move)
  | e => e

namespace Node

mutual

/-- The tree with other identities and other places. -/
def relocate (name : Nat → Nat) (move : Position → Position) : Node → Node
  | mk id span form parts =>
    mk (name id) (span.relocate move) (form.relocate move) (relocateParts name move parts)

def relocateParts (name : Nat → Nat) (move : Position → Position) :
    List (List Node) → List (List Node)
  | [] => []
  | part :: parts => relocatePart name move part :: relocateParts name move parts

def relocatePart (name : Nat → Nat) (move : Position → Position) : List Node → List Node
  | [] => []
  | n :: rest => relocate name move n :: relocatePart name move rest

end

end Node

namespace Span

@[simp] theorem relocate_same (s : Span) : s.relocate (fun p => p) = s := by
  cases s
  simp [relocate]

theorem relocate_cover (move : Position → Position) (a b : Span) :
    (a.cover b).relocate move = (a.relocate move).cover (b.relocate move) := by
  obtain ⟨astart, astop⟩ := a
  obtain ⟨bstart, bstop⟩ := b
  cases astart <;> cases bstop <;> simp [cover, relocate]

end Span

namespace Form

variable (move : Position → Position)

@[simp] theorem opensScope_relocate (form : Form) :
    (form.relocate move).opensScope = form.opensScope := by
  cases form <;> rfl

@[simp] theorem traits_relocate (form : Form) : (form.relocate move).traits = form.traits := by
  cases form <;> rfl

@[simp] theorem after_relocate (form : Form) : (form.relocate move).after = form.after := by
  cases form <;> rfl

theorem relocate_eq_array_iff {form : Form} : form.relocate move = .array ↔ form = .array := by
  cases form <;> simp [relocate]

end Form

namespace Node

variable (name : Nat → Nat) (move : Position → Position)

@[simp] theorem id_relocate (n : Node) : (n.relocate name move).id = name n.id := by
  cases n
  rfl

@[simp] theorem span_relocate (n : Node) :
    (n.relocate name move).span = n.span.relocate move := by
  cases n
  rfl

@[simp] theorem form_relocate (n : Node) :
    (n.relocate name move).form = n.form.relocate move := by
  cases n
  rfl

theorem relocatePart_eq_map (part : List Node) :
    relocatePart name move part = part.map (relocate name move) := by
  induction part with
  | nil => rfl
  | cons n rest ih => exact congrArg (n.relocate name move :: ·) ih

theorem relocateParts_eq_map (parts : List (List Node)) :
    relocateParts name move parts = parts.map (List.map (relocate name move)) := by
  induction parts with
  | nil => rfl
  | cons part parts ih => rw [relocateParts, ih, relocatePart_eq_map, List.map_cons]

@[simp] theorem parts_relocate (n : Node) :
    (n.relocate name move).parts = n.parts.map (List.map (relocate name move)) := by
  cases n
  exact relocateParts_eq_map name move _

@[simp] theorem children_relocate (n : Node) :
    (n.relocate name move).children = n.children.map (relocate name move) := by
  simp [children]

/-! ## What a relocated node does -/

@[simp] theorem name?_relocate (n : Node) : (n.relocate name move).name? = n.name? := by
  unfold name?
  rw [form_relocate]
  cases n.form <;> rfl

theorem targetNames_relocate (n : Node) :
    (n.relocate name move).targetNames =
      n.targetNames.map fun (word, m) => (word, m.relocate name move) := by
  have hnamed : ∀ m : Node, (m.name?.map (·, m.relocate name move)) =
      (m.name?.map (·, m)).map fun (word, m) => (word, m.relocate name move) := by
    intro m
    cases m.name? <;> rfl
  unfold targetNames
  simp only [form_relocate, Form.relocate_eq_array_iff, name?_relocate, children_relocate]
  split
  · simp only [List.filterMap_map, List.map_filterMap]
    simp only [Function.comp_def, name?_relocate, hnamed]
  · rw [hnamed]
    cases n.name? <;> rfl

theorem boundTarget_relocate (n : Node) :
    (n.relocate name move).boundTarget =
      n.boundTarget.map fun (target, isLoop) => (target.relocate name move, isLoop) := by
  unfold boundTarget
  rw [form_relocate, parts_relocate]
  rcases n.parts with _ | ⟨_ | ⟨target, _ | ⟨second, rest⟩⟩, parts⟩ <;> cases n.form <;> try rfl
  simp only [Form.relocate, List.map_cons, List.map_nil, name?_relocate]
  split <;> rfl

theorem boundNames_relocate (n : Node) :
    (n.relocate name move).boundNames =
      n.boundNames.map fun (word, m, isLoop) => (word, m.relocate name move, isLoop) := by
  unfold boundNames
  rw [boundTarget_relocate]
  cases n.boundTarget with
  | none => rfl
  | some bound => simp [targetNames_relocate]

theorem claims_relocate (n : Node) : (n.relocate name move).claims = n.claims.map name := by
  simp [claims, boundNames_relocate]

theorem targetEvents_relocate (n : Node) :
    (n.relocate name move).targetEvents = n.targetEvents.map (Event.relocate move) := by
  simp [targetEvents, boundNames_relocate, Event.relocate]

theorem events_relocate (n : Node) :
    (n.relocate name move).events = n.events.map (Event.relocate move) := by
  unfold events
  simp only [form_relocate, span_relocate, Form.traits_relocate, targetEvents_relocate,
    children_relocate, List.head?_map, Option.map_map]
  cases n.form with
  | importModule path asName asSpan =>
    simp only [Form.relocate]
    cases word? asName with
    | some other => cases asSpan <;> rfl
    | none => cases path <;> rfl
  | declaration keyword names => simp [Form.relocate, Event.relocate]
  | empty marker =>
    simp only [Form.relocate]
    split <;> rfl
  | varDef word place =>
    simp only [Form.relocate, List.map_cons, List.map_nil, Event.relocate]
    cases n.children.head? <;> simp
  | _ => rfl

mutual

/-- The trace keeps in step, if the identities stay. -/
theorem trace_relocate (n : Node) (seen : IdSet) :
    (n.relocate (fun i => i) move).trace seen =
      ((n.trace seen).1.map (Event.relocate move), (n.trace seen).2) := by
  match n with
  | mk ident span form parts =>
    have hevents := events_relocate (fun i => i) move (mk ident span form parts)
    have hclaims := claims_relocate (fun i => i) move (mk ident span form parts)
    rw [List.map_id'] at hclaims
    simp only [relocate] at hevents hclaims ⊢
    simp only [trace, hevents, hclaims]
    split
    · rfl
    · simp only [traceParts_relocate, Form.after_relocate, List.map_append]
      have hafter : form.after.map (Event.relocate move) = form.after := by
        unfold Form.after
        split
        · rfl
        · split <;> rfl
      rw [hafter]

theorem traceParts_relocate (parts : List (List Node)) (seen : IdSet) :
    traceParts (relocateParts (fun i => i) move parts) seen =
      ((traceParts parts seen).1.map (Event.relocate move), (traceParts parts seen).2) := by
  match parts with
  | [] => rfl
  | part :: parts =>
    simp only [relocateParts, traceParts, tracePart_relocate, traceParts_relocate,
      List.map_append]

theorem tracePart_relocate (part : List Node) (seen : IdSet) :
    tracePart (relocatePart (fun i => i) move part) seen =
      ((tracePart part seen).1.map (Event.relocate move), (tracePart part seen).2) := by
  match part with
  | [] => rfl
  | n :: rest =>
    simp only [relocatePart, tracePart, trace_relocate, tracePart_relocate, List.map_append]

end

/-! ## Numbering -/

mutual

theorem numberFrom_relocate (n : Node) (next : Nat) :
    (n.relocate name move).numberFrom next =
      ((n.numberFrom next).1.relocate (fun i => i) move, (n.numberFrom next).2) := by
  match n with
  | mk ident span form parts =>
    simp only [relocate, numberFrom, numberParts_relocate]

theorem numberParts_relocate (parts : List (List Node)) (next : Nat) :
    numberParts next (relocateParts name move parts) =
      (relocateParts (fun i => i) move (numberParts next parts).1, (numberParts next parts).2) := by
  match parts with
  | [] => rfl
  | part :: parts =>
    simp only [relocateParts, numberParts, numberPart_relocate, numberParts_relocate]

theorem numberPart_relocate (part : List Node) (next : Nat) :
    numberPart next (relocatePart name move part) =
      (relocatePart (fun i => i) move (numberPart next part).1, (numberPart next part).2) := by
  match part with
  | [] => rfl
  | n :: rest =>
    simp only [relocatePart, numberPart, numberFrom_relocate, numberPart_relocate]

end

theorem number_relocate (n : Node) :
    (n.relocate name move).number = n.number.relocate (fun i => i) move := by
  unfold number
  rw [numberFrom_relocate]

mutual

/-- Without the identities, a numbered tree is the tree itself. -/
theorem relocate_numberFrom (n : Node) (next : Nat) :
    (n.numberFrom next).1.relocate (fun _ => 0) move = n.relocate (fun _ => 0) move := by
  match n with
  | mk ident span form parts => simp only [numberFrom, relocate, relocateParts_number]

theorem relocateParts_number (parts : List (List Node)) (next : Nat) :
    relocateParts (fun _ => 0) move (numberParts next parts).1 =
      relocateParts (fun _ => 0) move parts := by
  match parts with
  | [] => rfl
  | part :: parts =>
    simp only [numberParts, relocateParts, relocatePart_number, relocateParts_number]

theorem relocatePart_number (part : List Node) (next : Nat) :
    relocatePart (fun _ => 0) move (numberPart next part).1 =
      relocatePart (fun _ => 0) move part := by
  match part with
  | [] => rfl
  | n :: rest =>
    simp only [numberPart, relocatePart, relocate_numberFrom, relocatePart_number]

end

end Node
end ScopeLint
