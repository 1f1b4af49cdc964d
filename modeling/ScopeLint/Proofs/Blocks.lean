import ScopeLint.Proofs.Locating

/-! # Blocks of events

The trace of a tree closes every scope that it opens, whatever was seen before, so
it can be cut out of a run: the events behind it find the scopes that were open in
front of it. -/
namespace ScopeLint

/-- How many scopes events open. -/
def entryCount (events : List Event) : Nat := events.countP Event.isEntry

theorem entryCount_append (first second : List Event) :
    entryCount (first ++ second) = entryCount first + entryCount second :=
  List.countP_append

namespace Walk

theorem entryCount_locate (opened : List Nat) (next : Nat) (events : List Event) :
    ((locate opened next events).filter (·.2.isEntry)).length = entryCount events := by
  induction events generalizing opened next with
  | nil => rfl
  | cons e events ih =>
    rw [locate, List.filter_append, List.length_append, ih, entries_told, entryCount, entryCount,
      List.countP_cons]
    cases e.isEntry <;> simp [Nat.add_comm]

/-- Events that leave the scopes they find open, and close those that they open. -/
inductive Block : List Event → Prop where
  | nil : Block []
  | level {e : Event} {events : List Event} (hentry : e.isEntry = false) (hleave : e ≠ .leave)
      (rest : Block events) : Block (e :: events)
  | scope (top : Bool) {inner rest : List Event} (hinner : Block inner) (hrest : Block rest) :
      Block (.enter top :: inner ++ .leave :: rest)

theorem Block.append {first second : List Event} (h : Block first) (h' : Block second) :
    Block (first ++ second) := by
  induction h with
  | nil => exact h'
  | level hentry hleave _ ih => exact .level hentry hleave ih
  | scope top hinner _ _ ih =>
    rw [List.append_assoc, List.cons_append]
    exact .scope top hinner ih

theorem block_level {events : List Event} (h : Node.Level events) : Block events := by
  induction events with
  | nil => exact .nil
  | cons e events ih =>
    obtain ⟨hentry, hleave⟩ := h e List.mem_cons_self
    exact .level hentry hleave (ih fun e he => h e (List.mem_cons_of_mem _ he))

theorem block_flatten {blocks : List (List Event)} (h : ∀ b ∈ blocks, Block b) :
    Block blocks.flatten := by
  induction blocks with
  | nil => exact .nil
  | cons b blocks ih =>
    rw [List.flatten_cons]
    exact (h b List.mem_cons_self).append (ih fun b hb => h b (List.mem_cons_of_mem _ hb))

theorem entryCount_scope (top : Bool) (inner rest : List Event) :
    entryCount (.enter top :: inner ++ .leave :: rest) =
      1 + entryCount inner + entryCount rest := by
  have hleave : entryCount (.leave :: rest) = entryCount rest := by
    simp [entryCount, Event.isEntry]
  have henter : entryCount (.enter top :: inner) = 1 + entryCount inner := by
    simp [entryCount, List.countP_cons, Event.isEntry, Nat.add_comm]
  rw [entryCount_append, henter, hleave]

/-- What comes behind a block finds the scopes that were open in front of it. -/
theorem Block.locate_append {events : List Event} (h : Block events) (opened : List Nat)
    (next : Nat) (rest : List Event) :
    locate opened next (events ++ rest) =
      locate opened next events ++ locate opened (next + entryCount events) rest := by
  induction h generalizing opened next rest with
  | nil => rfl
  | @level e events hentry hleave _ ih =>
    have hcount : entryCount (e :: events) = entryCount events := by
      simp [entryCount, hentry]
    rw [List.cons_append, locate, locate, Node.advance_of_level hentry hleave, ih, hcount,
      List.append_assoc]
  | @scope top inner later _ _ ihinner ihlater =>
    rw [entryCount_scope, List.append_assoc, List.cons_append, List.cons_append]
    simp only [List.cons_append, locate, advance, ihinner, ihlater, List.tail_cons,
      List.append_assoc]
    congr 5
    omega

/-- What happens in a block happens in the scope around it or in a scope that it opens. -/
theorem Block.home {events : List Event} (h : Block events) {opened : List Nat} {next : Nat}
    {item : Option Nat × Event} (hitem : item ∈ locate opened next events) :
    item.1 = opened.head? ∨
      ∃ j, item.1 = some j ∧ next ≤ j ∧ j < next + entryCount events := by
  have htold : ∀ {opened : List Nat} {e : Event}, item ∈ Node.told opened.head? e →
      item.1 = opened.head? := by
    intro opened e h
    unfold Node.told at h
    split at h
    · rw [List.mem_singleton.mp h]
    · cases h
  induction h generalizing opened next with
  | nil => cases hitem
  | @level e events hentry hleave _ ih =>
    rw [locate, Node.advance_of_level hentry hleave] at hitem
    rcases List.mem_append.mp hitem with hitem | hitem
    · exact .inl (htold hitem)
    · have hcount : entryCount (e :: events) = entryCount events := by
        simp [entryCount, hentry]
      exact hcount ▸ ih hitem
  | @scope top inner later hinner _ ihinner ihlater =>
    rw [entryCount_scope]
    rw [List.cons_append, locate, advance, hinner.locate_append, locate, advance] at hitem
    rcases List.mem_append.mp hitem with hitem | hitem
    · exact .inl (htold hitem)
    rcases List.mem_append.mp hitem with hitem | hitem
    · rcases ihinner hitem with hhome | ⟨j, hj, hlow, hhigh⟩
      · exact .inr ⟨next, hhome, by omega, by omega⟩
      · exact .inr ⟨j, hj, by omega, by omega⟩
    · rcases List.mem_append.mp hitem with hitem | hitem
      · cases hitem
      · rcases ihlater hitem with hhome | ⟨j, hj, hlow, hhigh⟩
        · exact .inl hhome
        · exact .inr ⟨j, hj, by omega, by omega⟩

end Walk

namespace Node

open Walk

theorem level_after {form : Form} (h : form.opensScope = false) : Level form.after := by
  unfold Form.after
  rw [h]
  cases form.isBranch <;> simp [Level, Event.isEntry]

/-- What a node does around a block of its children is a block. -/
theorem block_around (n : Node) {inner : List Event} (h : Block inner) :
    Block (n.events ++ inner ++ n.form.after) := by
  rcases n.events_level_or_enter with ⟨hscope, hlevel⟩ | ⟨hscope, before, top, after, hevents,
    hbefore, hafter⟩
  · exact ((block_level hlevel).append h).append (block_level (level_after hscope))
  · have hleave : n.form.after = [.leave] := by simp [Form.after, hscope]
    have hblock := (block_level hbefore).append
      (.scope top ((block_level hafter).append h) .nil)
    simpa [hevents, hleave] using hblock

mutual

theorem block_trace (n : Node) (seen : IdSet) : Block (n.trace seen).1 := by
  match n with
  | mk id span form parts =>
    rw [trace_mk]
    split
    · exact .nil
    · exact block_around (mk id span form parts) (block_traceParts parts _)

theorem block_traceParts (parts : List (List Node)) (seen : IdSet) :
    Block (traceParts parts seen).1 := by
  match parts with
  | [] => exact .nil
  | part :: parts => exact (block_tracePart part seen).append (block_traceParts parts _)

theorem block_tracePart (part : List Node) (seen : IdSet) : Block (tracePart part seen).1 := by
  match part with
  | [] => exact .nil
  | n :: rest => exact (block_trace n seen).append (block_tracePart rest _)

end

end Node
end ScopeLint
