import ScopeLint.Proofs.Relocation
import ScopeLint.Resolve

/-! # Walks at other places

A walk records places and never looks at them. The same events at other places do
the same, and what is reported in the end stands at the other places. -/
namespace ScopeLint

namespace NameTable

variable {α β : Type}

def map (f : α → β) (t : NameTable α) : NameTable β := ⟨t.entries.map (Prod.map (fun n => n) f)⟩

theorem find?_map (f : α → β) (t : NameTable α) (name : String) :
    (t.map f).find? name = (t.find? name).map f := by
  obtain ⟨entries⟩ := t
  simp only [find?, map]
  induction entries with
  | nil => rfl
  | cons entry entries ih =>
    obtain ⟨key, value⟩ := entry
    simp only [List.map_cons, Prod.map_apply, List.lookup_cons, ih]
    cases name == key <;> rfl

@[simp] theorem contains_map (f : α → β) (t : NameTable α) (name : String) :
    (t.map f).contains name = t.contains name := by
  rw [contains, find?_map, Option.isSome_map, contains]

@[simp] theorem put_map (f : α → β) (t : NameTable α) (name : String) (value : α) :
    (t.map f).put name (f value) = (t.put name value).map f := by
  obtain ⟨entries⟩ := t
  simp only [put, map, mk.injEq]
  induction entries with
  | nil => rfl
  | cons entry entries ih =>
    obtain ⟨key, old⟩ := entry
    simp only [List.map_cons, Prod.map_apply, putEntry, ih]
    split <;> rfl

@[simp] theorem erase_map (f : α → β) (t : NameTable α) (name : String) :
    (t.map f).erase name = (t.erase name).map f := by
  simp only [erase, map, List.filter_map]
  rfl

end NameTable

/-! ## Scopes -/

variable (move : Position → Position)

def Binding.relocate (b : Binding) : Binding := { b with span := b.span.relocate move }

def Scope.relocate (s : Scope) : Scope :=
  { s with
    history := s.history.map (Binding.relocate move)
    undefined := s.undefined.map (Span.relocate move) }

def Arena.relocate (a : Arena) : Arena := ⟨a.scopes.map (Scope.relocate move)⟩

theorem modify_map {α β : Type} {f : α → β} {g : α → α} {g' : β → β} (h : ∀ a, g' (f a) = f (g a))
    (l : List α) (i : Nat) : (l.map f).modify i g' = (l.modify i g).map f := by
  refine List.ext_getElem? fun j => ?_
  simp only [List.getElem?_modify, List.getElem?_map]
  cases l[j]? with
  | none => rfl
  | some a =>
    by_cases hij : i = j
    · simp [hij, h]
    · simp [hij]

namespace Scope

@[simp] theorem bind_relocate (s : Scope) (name : String) (span : Span) (traits : Traits) :
    (s.relocate move).bind name (span.relocate move) traits =
      (s.bind name span traits).relocate move := by
  have hfresh : Binding.declare name (span.relocate move) traits =
      (Binding.declare name span traits).relocate move := rfl
  simp only [bind, relocate, hfresh, List.length_map, List.getElem?_map, Option.any_map]
  cases s.bindings.find? name with
  | none => simp
  | some previous =>
    simp only [List.map_append]
    rfl

theorem mark_relocate {f : Binding → Binding} (h : ∀ b, f (b.relocate move) = (f b).relocate move)
    (s : Scope) (name : String) :
    (s.relocate move).mark name f = (s.mark name f).relocate move := by
  simp only [mark, relocate]
  cases s.bindings.find? name with
  | none => rfl
  | some place => simp only [modify_map h]

@[simp] theorem markLoop_relocate (s : Scope) (name : String) (value : Bool) :
    (s.relocate move).markLoop name value = (s.markLoop name value).relocate move := by
  refine mark_relocate move ?_ s name
  intro b
  rfl

@[simp] theorem markUsed_relocate (s : Scope) (name : String) (value : Bool) :
    (s.relocate move).markUsed name value = (s.markUsed name value).relocate move := by
  refine mark_relocate move ?_ s name
  intro b
  rfl

@[simp] theorem use_relocate (s : Scope) (name : String) (span : Span) :
    (s.relocate move).use name (span.relocate move) = (s.use name span).relocate move := by
  have hbound : (s.relocate move).bindings = s.bindings := rfl
  have hparked : (s.relocate move).undefined = s.undefined.map (Span.relocate move) := rfl
  rw [use, hbound, hparked, NameTable.contains_map, markUsed_relocate, NameTable.put_map, use]
  split
  · rfl
  · split <;> rfl

end Scope

namespace Arena

variable {move} in
theorem modify_relocate {f g : Scope → Scope} (h : ∀ s, g (s.relocate move) = (f s).relocate move)
    (a : Arena) (place : Nat) :
    (a.relocate move).modify place g = (a.modify place f).relocate move :=
  congrArg Arena.mk (modify_map h a.scopes place)

@[simp] theorem size_relocate (a : Arena) : (a.relocate move).size = a.size := List.length_map _

theorem getElem?_relocate (a : Arena) (i : Nat) :
    (a.relocate move).scopes[i]? = (a.scopes[i]?).map (Scope.relocate move) := List.getElem?_map

theorem place?_relocate (a : Arena) (index : Int) :
    (a.relocate move).place? index = a.place? index := by
  rw [place?, size_relocate, place?]

theorem add_relocate (a : Arena) (parent : Option Int) (isToplevel : Bool) :
    (a.relocate move).add parent isToplevel =
      ((a.add parent isToplevel).1.relocate move, (a.add parent isToplevel).2) := by
  have hadded : (⟨(a.relocate move).scopes ++ [{ index := a.size, isToplevel, parent }]⟩ : Arena) =
      Arena.relocate move ⟨a.scopes ++ [{ index := a.size, isToplevel, parent }]⟩ := by
    simp only [relocate, List.map_append, List.map_singleton]
    rfl
  simp only [add, size_relocate, hadded, place?_relocate]
  cases parent with
  | none => rfl
  | some parent =>
    dsimp only
    split
    · rfl
    · refine congrArg (·, true) (modify_relocate ?_ _ _)
      intro s
      rfl

theorem descend_relocate (a : Arena) (fuel : Nat) (stack : List Nat) :
    (a.relocate move).descend fuel stack = a.descend fuel stack := by
  induction fuel generalizing stack with
  | zero => rfl
  | succ fuel ih =>
    cases stack with
    | nil => rfl
    | cons place stack =>
      rw [descend, descend, getElem?_relocate]
      cases a.scopes[place]? with
      | none => exact ih stack
      | some s => exact congrArg (place :: ·) (ih (s.children ++ stack))

theorem descendants_relocate (a : Arena) (place : Nat) :
    (a.relocate move).descendants place = a.descendants place := by
  rw [descendants, descendants, getElem?_relocate]
  cases a.scopes[place]? with
  | none => rfl
  | some s =>
    simp only [Option.map_some, size_relocate, descend_relocate]
    rfl

theorem parks_relocate (a : Arena) (name : String) (place : Nat) :
    (a.relocate move).parks name place = a.parks name place := by
  rw [parks, parks, getElem?_relocate, Option.any_map]
  cases a.scopes[place]? with
  | none => rfl
  | some s => exact NameTable.contains_map _ _ _

theorem clear_relocate (a : Arena) (name : String) (places : List Nat) :
    (a.relocate move).clear name places = (a.clear name places).relocate move := by
  unfold clear
  induction places generalizing a with
  | nil => rfl
  | cons place places ih =>
    have hstep : ∀ s : Scope, { s.relocate move with
          undefined := (s.relocate move).undefined.erase name } =
        Scope.relocate move { s with undefined := s.undefined.erase name } := by
      intro s
      simp only [Scope.relocate, NameTable.erase_map]
    rw [List.foldl_cons, List.foldl_cons, modify_relocate hstep, ih]

theorem resolve_relocate (place : Nat) (a : Arena) (resolved : Nat) (entry : String × Nat) :
    resolve place (a.relocate move, resolved) entry =
      ((resolve place (a, resolved) entry).1.relocate move,
        (resolve place (a, resolved) entry).2) := by
  obtain ⟨name, binding⟩ := entry
  have hparks : (a.relocate move).parks name = a.parks name := funext (parks_relocate move a name)
  have hused : (((a.relocate move).scopes[place]?).bind (·.history[binding]?)).any Binding.used =
      ((a.scopes[place]?).bind (·.history[binding]?)).any Binding.used := by
    rw [getElem?_relocate]
    cases a.scopes[place]? with
    | none => rfl
    | some s =>
      simp only [Option.map_some, Option.bind_some, Scope.relocate, List.getElem?_map,
        Option.any_map]
      rfl
  simp only [resolve, descendants_relocate, hparks, hused, clear_relocate]
  split
  · refine congrArg (·, _) (modify_relocate ?_ _ _)
    intro s
    rfl
  · rfl

theorem close_relocate (a : Arena) (place : Nat) :
    (a.relocate move).close place = ((a.close place).1.relocate move, (a.close place).2) := by
  have hfold : ∀ (entries : List (String × Nat)) (a : Arena) (resolved : Nat),
      entries.foldl (resolve place) (a.relocate move, resolved) =
        ((entries.foldl (resolve place) (a, resolved)).1.relocate move,
          (entries.foldl (resolve place) (a, resolved)).2) := by
    intro entries
    induction entries with
    | nil => exact fun _ _ => rfl
    | cons entry entries ih =>
      intro a resolved
      rw [List.foldl_cons, List.foldl_cons, resolve_relocate, ih]
  have hentries : (((a.relocate move).scopes[place]?).map (·.bindings.entries)).getD [] =
      ((a.scopes[place]?).map (·.bindings.entries)).getD [] := by
    rw [getElem?_relocate]
    cases a.scopes[place]? <;> rfl
  have hunused : ∀ a : Arena, (((a.relocate move).scopes[place]?).map (·.unused.size)).getD 0 =
      ((a.scopes[place]?).map (·.unused.size)).getD 0 := by
    intro a
    rw [getElem?_relocate]
    cases a.scopes[place]? <;> rfl
  simp only [close, hentries, hfold, hunused]

end Arena

/-! ## Diagnostics -/

variable (number : Int → Int)

/-- The diagnostic with other line numbers, also in the one message that tells a line. -/
def Diagnostic.renumber (d : Diagnostic) : Diagnostic :=
  { d with
    startLine := d.startLine.map number
    endLine := d.endLine.map number
    otherLine := d.otherLine.map number
    message := if d.ident = Check.loopShadowed.ident
      then Check.loopShadowed.render d.name (d.otherLine.map number)
      else d.message }

variable {number} in
theorem Diagnostic.make_renumber {check : Check} {line : Option Int}
    (h : check = .loopShadowed ∨ line = none) (filename name : String) (span : Span)
    (severity : Severity) :
    make filename check name (span.relocate (Position.renumber number)) severity
        (line.map number) = (make filename check name span severity line).renumber number := by
  have hmessage : check.render name (line.map number) =
      if check.ident = Check.loopShadowed.ident
        then Check.loopShadowed.render name (line.map number) else check.render name line := by
    by_cases hcheck : check = .loopShadowed
    · rw [hcheck, if_pos rfl]
    · have hident : check.ident ≠ Check.loopShadowed.ident := by
        cases check <;> first | decide | exact absurd rfl hcheck
      rw [if_neg hident, h.resolve_left hcheck]
      rfl
  simp only [make, renumber, hmessage, Span.relocate, Option.map_map]
  rfl

namespace Scope

theorem undefinedMessages_renumber (s : Scope) (filename : String) :
    (s.relocate (Position.renumber number)).undefinedMessages filename =
      (s.undefinedMessages filename).map (Diagnostic.renumber number) := by
  simp only [undefinedMessages, relocate, NameTable.map, List.map_map]
  refine List.map_congr_left fun entry _ => ?_
  exact Diagnostic.make_renumber (.inr rfl) filename entry.1 entry.2 .error

theorem unusedReport_renumber (filename name : String) (b : Binding) :
    unusedReport filename name (b.relocate (Position.renumber number)) =
      (unusedReport filename name b).map (Diagnostic.renumber number) := by
  have hmake : ∀ {check : Check}, Diagnostic.make filename check name
      (b.span.relocate (Position.renumber number)) .error none =
        (Diagnostic.make filename check name b.span .error none).renumber number :=
    Diagnostic.make_renumber (.inr rfl) filename name b.span .error
  simp only [unusedReport, Binding.relocate, hmake]
  split
  · rfl
  · split <;> rfl

theorem unusedMessages_renumber (s : Scope) (filename : String) :
    (s.relocate (Position.renumber number)).unusedMessages filename =
      (s.unusedMessages filename).map (Diagnostic.renumber number) := by
  have hbindings : (s.relocate (Position.renumber number)).unusedBindings =
      s.unusedBindings.map
        (Prod.map (fun n => n) (Binding.relocate (Position.renumber number))) := by
    simp only [unusedBindings, relocate, List.map_filterMap, List.getElem?_map, Option.map_map]
    rfl
  simp only [unusedMessages, hbindings, List.filterMap_map, List.map_filterMap]
  refine congrArg (s.unusedBindings.filterMap ·) (funext fun entry => ?_)
  exact unusedReport_renumber number filename entry.1 entry.2

theorem shadowedMessages_renumber (s : Scope) (filename : String) :
    (s.relocate (Position.renumber number)).shadowedMessages filename =
      (s.shadowedMessages filename).map (Diagnostic.renumber number) := by
  have hshadowings : (s.relocate (Position.renumber number)).shadowings = s.shadowings.map
      (Prod.map (fun n => n) (Prod.map (Binding.relocate (Position.renumber number))
        (Binding.relocate (Position.renumber number)))) := by
    simp only [shadowings, relocate, List.map_filterMap, List.getElem?_map]
    refine congrArg (s.shadowed.filterMap ·) (funext fun r => ?_)
    cases s.history[r.previous]? with
    | none => rfl
    | some previous => cases s.history[r.current]? <;> rfl
  simp only [shadowedMessages, hshadowings, List.filterMap_map, List.map_filterMap]
  refine congrArg (s.shadowings.filterMap ·) (funext fun r => ?_)
  obtain ⟨name, previous, current⟩ := r
  have hline : (previous.span.relocate (Position.renumber number)).line =
      previous.span.line.map number := by
    simp only [Span.line, Span.relocate, Option.map_map]
    rfl
  simp only [Function.comp_apply, Prod.map_apply, Binding.relocate, hline,
    Diagnostic.make_renumber (.inl rfl)]
  split <;> rfl

theorem messages_renumber (s : Scope) (filename : String) :
    (s.relocate (Position.renumber number)).messages filename =
      (s.messages filename).map (Diagnostic.renumber number) := by
  rw [messages, undefinedMessages_renumber, unusedMessages_renumber, shadowedMessages_renumber,
    ← List.map_append, ← List.map_append, messages]

end Scope

/-! ## Walks -/

namespace Walk

def renumber (w : Walk) : Walk :=
  { w with
    arena := w.arena.relocate (Position.renumber number)
    messages := w.messages.map (Diagnostic.renumber number) }

theorem report_renumber (w : Walk) {check : Check} (name : String) (span : Span) :
    (w.renumber number).report check name (span.relocate (Position.renumber number)) =
      (w.report check name span).renumber number := by
  simp only [report, renumber, List.map_append, List.map_singleton]
  rw [← Diagnostic.make_renumber (.inr rfl)]
  rfl

theorem step_renumber (w : Walk) (e : Event) :
    (w.renumber number).step (e.relocate (Position.renumber number)) =
      (w.step e).map (renumber number) := by
  cases e with
  | enter isToplevel =>
    simp only [Event.relocate, step, renumber, Arena.size_relocate, Arena.add_relocate]
    rfl
  | leave =>
    simp only [Event.relocate, step, renumber, Arena.close_relocate]
    cases w.opened <;> rfl
  | branch => rfl
  | join => rfl
  | bind name span traits isLoop declared =>
    simp only [Event.relocate, step, renumber]
    cases w.opened with
    | nil => rfl
    | cons place opened =>
      refine congrArg (fun arena => Except.ok { w with
        arena, opened := place :: opened, messages := w.messages.map (Diagnostic.renumber number) })
          (Arena.modify_relocate ?_ _ _)
      intro s
      have htop : (s.relocate (Position.renumber number)).isToplevel = s.isToplevel := rfl
      cases isLoop <;> cases declared <;> simp [htop]
  | use name span =>
    simp only [Event.relocate, step, renumber]
    cases w.opened with
    | nil => rfl
    | cons place opened =>
      refine congrArg (fun arena => Except.ok { w with
        arena, opened := place :: opened, messages := w.messages.map (Diagnostic.renumber number) })
          (Arena.modify_relocate ?_ _ _)
      intro s
      exact Scope.use_relocate _ s name span
  | define name span =>
    have hbranches : (w.renumber number).branches = w.branches := rfl
    simp only [Event.relocate, step, hbranches, report_renumber]
    split <;> rfl
  | semicolon span =>
    simp only [Event.relocate, step, report_renumber]
    rfl
  | emptyImport => rfl

theorem replay_renumber (w : Walk) (events : List Event) :
    (w.renumber number).replay (events.map (Event.relocate (Position.renumber number))) =
      (w.replay events).map (renumber number) := by
  induction events generalizing w with
  | nil => rfl
  | cons e events ih =>
    rw [List.map_cons, replay, step_renumber, replay]
    cases w.step e with
    | error err => rfl
    | ok next => exact ih next

end Walk

theorem walk_renumber (root : Node) (filename : String) :
    walk (root.relocate (fun i => i) (Position.renumber number)) filename =
      (walk root filename).map (Walk.renumber number) := by
  have hreplay := Walk.replay_renumber number { filename } (root.trace .empty).1
  have hstart : Walk.renumber number { filename } = { filename } := rfl
  rw [hstart] at hreplay
  rw [walk, Node.trace_relocate, hreplay, walk]
  cases Walk.replay { filename } (root.trace .empty).1 with
  | error e => rfl
  | ok w =>
    have hopened : (w.renumber number).opened = w.opened := rfl
    have hbranches : (w.renumber number).branches = w.branches := rfl
    simp only [Except.map, bind, Except.bind, hopened, hbranches]
    split
    · rfl
    · split <;> rfl

theorem Resolve.scopeMessages_renumber (w : Walk) :
    scopeMessages (w.renumber number) = (scopeMessages w).map (Diagnostic.renumber number) := by
  simp only [scopeMessages, List.map_flatMap]
  refine congrArg (w.walked.flatMap ·) (funext fun place => ?_)
  have hscope := Arena.getElem?_relocate (Position.renumber number) w.arena place
  simp only [Walk.renumber, hscope]
  cases w.arena.scopes[place]? with
  | none => rfl
  | some s => exact Scope.messages_renumber number s w.filename

end ScopeLint
