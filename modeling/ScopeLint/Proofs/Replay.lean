import Mathlib.Algebra.Ring.Int.Defs
import ScopeLint.Proofs.Blocks

/-! # Replaying blocks

Whether events can be replayed depends on how many scopes are open, so a block can
be replayed in one module if it can in another. What a walk remarks on its way is
told by the events and by the branches that have begun. -/
namespace ScopeLint

namespace Walk

/-! ## Which replays succeed -/

/-- Whether a step succeeds depends on how many scopes are open, and nothing else. -/
theorem step_of_length {u u' x : Walk} {e : Event} (hlength : x.opened.length = u.opened.length)
    (h : u.step e = .ok u') :
    ∃ x', x.step e = .ok x' ∧ x'.opened.length = u'.opened.length := by
  obtain ⟨_, _, opened, _, _, _, _⟩ := u
  obtain ⟨_, _, opened', _, _, _, _⟩ := x
  cases e with
  | enter top =>
    cases h
    exact ⟨_, rfl, congrArg (· + 1) hlength⟩
  | leave | bind | use =>
    cases opened with
    | nil => cases h
    | cons i rest =>
      cases opened' with
      | nil => cases hlength
      | cons j rest' =>
        cases h
        exact ⟨_, rfl, by simpa using hlength⟩
  | define name span =>
    cases h
    refine ⟨_, rfl, ?_⟩
    split <;> split <;> exact hlength
  | emptyImport => cases h
  | _ =>
    cases h
    exact ⟨_, rfl, hlength⟩

theorem replay_of_length {u u' x : Walk} {events : List Event}
    (hlength : x.opened.length = u.opened.length) (h : u.replay events = .ok u') :
    ∃ x', x.replay events = .ok x' := by
  induction events generalizing u x with
  | nil => exact ⟨x, rfl⟩
  | cons e events ih =>
    obtain ⟨v, hstep, hrest⟩ := replay_cons_iff.mp h
    obtain ⟨y, hy, hlength'⟩ := step_of_length hlength hstep
    obtain ⟨x', hx'⟩ := ih hlength' hrest
    exact ⟨x', replay_cons_iff.mpr ⟨y, hy, hx'⟩⟩

theorem Block.opened_replay {events : List Event} (h : Block events) {w w' : Walk}
    (hr : w.replay events = .ok w') : w'.opened = w.opened := by
  induction h generalizing w w' with
  | nil =>
    cases hr
    rfl
  | @level e events hentry hleave _ ih =>
    obtain ⟨v, hstep, hrest⟩ := replay_cons_iff.mp hr
    rw [ih hrest]
    cases effect_of_step hstep with
    | enter top => cases hentry
    | leave hopen => exact absurd rfl hleave
    | act haction hopen => rfl
    | quiet hquiet harena hopen => exact hopen
  | @scope top inner rest _ _ ihinner ihrest =>
    rw [List.cons_append] at hr
    obtain ⟨u, henter, hr⟩ := replay_cons_iff.mp hr
    obtain ⟨v, hinner, hr⟩ := replay_append_iff.mp hr
    obtain ⟨x, hleave, hrest⟩ := replay_cons_iff.mp hr
    have hopen := ihinner hinner
    cases henter
    rw [ihrest hrest]
    cases effect_of_step hleave with
    | leave hopen' =>
      rw [hopen] at hopen'
      exact (List.cons.inj hopen').2.symm
    | act haction => cases haction
    | quiet hquiet => cases hquiet

/-- Events that can be replayed in a module. -/
def Runs (events : List Event) : Prop :=
  ∀ w : Walk, w.opened.length = 1 → ∃ w', w.replay events = .ok w'

theorem runs_of_replay {blocks : List (List Event)} (hblocks : ∀ b ∈ blocks, Block b)
    {w w' : Walk} (hopen : w.opened.length = 1) (hr : w.replay blocks.flatten = .ok w') :
    ∀ b ∈ blocks, Runs b := by
  induction blocks generalizing w with
  | nil => simp
  | cons b blocks ih =>
    rw [List.flatten_cons] at hr
    obtain ⟨v, hfirst, hrest⟩ := replay_append_iff.mp hr
    have hv : v.opened = w.opened := (hblocks b List.mem_cons_self).opened_replay hfirst
    refine List.forall_mem_cons.mpr ⟨?_, ?_⟩
    · exact fun x hx => replay_of_length (hx.trans hopen.symm) hfirst
    · exact ih (fun b hb => hblocks b (List.mem_cons_of_mem _ hb)) (hv ▸ hopen) hrest

theorem runs_flatten {blocks : List (List Event)} (hblocks : ∀ b ∈ blocks, Block b)
    (hruns : ∀ b ∈ blocks, Runs b) : Runs blocks.flatten := by
  induction blocks with
  | nil => exact fun w _ => ⟨w, rfl⟩
  | cons b blocks ih =>
    intro w hopen
    obtain ⟨v, hfirst⟩ := hruns b List.mem_cons_self w hopen
    have hv : v.opened = w.opened := (hblocks b List.mem_cons_self).opened_replay hfirst
    obtain ⟨w', hrest⟩ := ih (fun b hb => hblocks b (List.mem_cons_of_mem _ hb))
      (fun b hb => hruns b (List.mem_cons_of_mem _ hb)) v (hv ▸ hopen)
    rw [List.flatten_cons]
    exact ⟨w', replay_append_iff.mpr ⟨v, hfirst, hrest⟩⟩

theorem runs_actions {events : List Event} (h : ∀ e ∈ events, e.isAction = true) :
    Runs events := by
  intro w hopen
  obtain ⟨w', hr, _⟩ := reaches_actions (w := w) (by rintro hnil; simp [hnil] at hopen) h
  exact ⟨w', hr⟩

/-- What runs in a module is replayed as one. -/
theorem replay_module {events : List Event} (hblock : Block events) (hruns : Runs events)
    (filename : String) :
    ∃ w, replay { filename } (.enter true :: events ++ [.leave]) = .ok w ∧ w.opened = [] := by
  obtain ⟨u, henter, hopen⟩ : ∃ u, step { filename } (.enter true) = .ok u ∧ u.opened = [0] :=
    ⟨_, rfl, rfl⟩
  obtain ⟨v, hinner⟩ := hruns u (by rw [hopen]; rfl)
  have hv : v.opened = [0] := (hblock.opened_replay hinner).trans hopen
  obtain ⟨w, hleave, hw⟩ : ∃ w, v.step .leave = .ok w ∧ w.opened = [] := by
    simp only [step, hv, Except.ok.injEq, exists_eq_left']
  refine ⟨w, replay_cons_iff.mpr ⟨u, henter, replay_append_iff.mpr ⟨v, hinner, ?_⟩⟩, hw⟩
  exact replay_cons_iff.mpr ⟨w, hleave, rfl⟩

end Walk

/-! ## What a walk remarks on its way -/

/-- How many branches an event begins. -/
def Event.begun : Event → Int
  | .branch => 1
  | .join => -1
  | _ => 0

/-- What is remarked at an event, with so many branches begun. -/
def Event.remarks (filename : String) (branches : Int) : Event → List Diagnostic
  | .define name span =>
    if branches = 0 then []
    else [Diagnostic.make filename .functionInBranch name span .error none]
  | .semicolon span => [Diagnostic.make filename .extraSemicolon ";" span .warning none]
  | _ => []

namespace Walk

def begun (events : List Event) : Int := (events.map Event.begun).sum

theorem begun_append (first second : List Event) :
    begun (first ++ second) = begun first + begun second := by
  simp [begun]

theorem begun_eq_zero {events : List Event} (h : ∀ e ∈ events, e.begun = 0) :
    begun events = 0 := by
  induction events with
  | nil => rfl
  | cons e events ih =>
    have hrest := ih fun e he => h e (List.mem_cons_of_mem _ he)
    have hcons : begun (e :: events) = e.begun + begun events := by simp [begun]
    rw [hcons, h e List.mem_cons_self, hrest, Int.add_zero]

def remarks (filename : String) (branches : Int) : List Event → List Diagnostic
  | [] => []
  | e :: events => e.remarks filename branches ++ remarks filename (branches + e.begun) events

theorem remarks_append (filename : String) (branches : Int) (first second : List Event) :
    remarks filename branches (first ++ second) =
      remarks filename branches first ++ remarks filename (branches + begun first) second := by
  induction first generalizing branches with
  | nil => simp [remarks, begun]
  | cons e first ih =>
    have hbegun : begun (e :: first) = e.begun + begun first := by simp [begun]
    rw [List.cons_append, remarks, remarks, ih, hbegun, List.append_assoc, Int.add_assoc]

theorem step_remarks {w w' : Walk} {e : Event} (h : w.step e = .ok w') :
    w'.filename = w.filename ∧ w'.branches = w.branches + e.begun ∧
      w'.messages = w.messages ++ e.remarks w.filename w.branches := by
  cases e with
  | enter top =>
    cases h
    exact ⟨rfl, (Int.add_zero _).symm, (List.append_nil _).symm⟩
  | leave | bind | use =>
    cases hopen : w.opened with
    | nil => simp [step, hopen] at h
    | cons i rest =>
      simp only [step, hopen, Except.ok.injEq] at h
      subst h
      exact ⟨rfl, (Int.add_zero _).symm, (List.append_nil _).symm⟩
  | branch | join =>
    cases h
    exact ⟨rfl, rfl, (List.append_nil _).symm⟩
  | define name span =>
    simp only [step, Except.ok.injEq] at h
    subst h
    by_cases hbranches : w.branches = 0
    · simp [hbranches, Event.begun, Event.remarks]
    · simp [hbranches, Event.begun, Event.remarks, report, severityOf]
  | semicolon span =>
    cases h
    simp [Event.begun, Event.remarks, report, severityOf]
  | emptyImport => cases h

theorem replay_remarks {w w' : Walk} {events : List Event} (h : w.replay events = .ok w') :
    w'.filename = w.filename ∧ w'.branches = w.branches + begun events ∧
      w'.messages = w.messages ++ remarks w.filename w.branches events := by
  induction events generalizing w with
  | nil =>
    cases h
    simp [begun, remarks]
  | cons e events ih =>
    obtain ⟨v, hstep, hrest⟩ := replay_cons_iff.mp h
    obtain ⟨hfile, hbranches, hmessages⟩ := step_remarks hstep
    obtain ⟨hfile', hbranches', hmessages'⟩ := ih hrest
    have hbegun : begun (e :: events) = e.begun + begun events := by simp [begun]
    refine ⟨hfile'.trans hfile, ?_, ?_⟩
    · rw [hbranches', hbranches, hbegun, Int.add_assoc]
    · rw [hmessages', hmessages, hfile, hbranches, remarks, List.append_assoc]

end Walk

end ScopeLint
