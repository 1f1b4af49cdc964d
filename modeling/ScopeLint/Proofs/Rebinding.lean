import ScopeLint.Proofs.History
import ScopeLint.Proofs.Lexical

/-! # Names bound anew

A scope may bind a name again and again. Its shadowings of the name are then the
pairs of successive bindings, in order, and the name stands for the last one. This
is so whatever is done to the scopes of an arena (`Scope.Chained` is kept by every
call), so a loop variable is reported if and only if the binding just before it was
made otherwise. -/
namespace ScopeLint

/-! ## Successive elements -/

/-- Each element of a list with the next one. -/
def successive {α : Type} (l : List α) : List (α × α) := l.zip l.tail

@[simp] theorem successive_nil {α : Type} : successive ([] : List α) = [] := rfl

@[simp] theorem successive_singleton {α : Type} (a : α) : successive [a] = [] := rfl

@[simp] theorem successive_cons_cons {α : Type} (a b : α) (l : List α) :
    successive (a :: b :: l) = (a, b) :: successive (b :: l) := rfl

theorem successive_concat {α : Type} (l : List α) (a : α) :
    successive (l ++ [a]) = successive l ++ (l.getLast?.map (·, a)).toList := by
  induction l with
  | nil => rfl
  | cons b rest ih =>
    cases rest with
    | nil => rfl
    | cons c rest =>
      rw [List.getLast?_cons_cons, successive_cons_cons, List.cons_append]
      exact congrArg ((b, c) :: ·) ih

/-- Successive places hold successive elements. -/
theorem filterMap_successive {α β : Type} {f : α → Option β} {places : List α} {found : List β}
    (h : places.map f = found.map some) :
    ((successive places).filterMap fun pair => (f pair.1).bind fun b => (f pair.2).map (b, ·)) =
      successive found := by
  induction places generalizing found with
  | nil =>
    cases found with
    | nil => rfl
    | cons b found => cases h
  | cons a places ih =>
    cases found with
    | nil => cases h
    | cons b found =>
      obtain ⟨hb, hfound⟩ := List.cons_eq_cons.mp h
      cases places with
      | nil =>
        cases found with
        | nil => rfl
        | cons c found => cases hfound
      | cons a' places =>
        cases found with
        | nil => cases hfound
        | cons c found =>
          have hc := (List.cons_eq_cons.mp hfound).1
          simp only [successive_cons_cons, List.filterMap_cons, hb, hc, Option.bind_some,
            Option.map_some, ih hfound]

theorem map_getElem?_findIdxs {α : Type} (p : α → Bool) (before l : List α) :
    (l.findIdxs p before.length).map ((before ++ l)[·]?) = (l.filter p).map some := by
  induction l generalizing before with
  | nil => rfl
  | cons a l ih =>
    have hrest := ih (before ++ [a])
    rw [List.length_append, List.append_assoc] at hrest
    rw [List.findIdxs_cons, List.filter_cons]
    split
    · rw [List.map_cons, List.map_cons]
      exact congrArg₂ (· :: ·) (by simp) hrest
    · exact hrest

/-! ## The chain of a name -/

/-- How a binding was declared, which stays as it is. -/
def Binding.declaration (b : Binding) : String × Span × Traits := (b.name, b.span, b.traits)

namespace Scope

/-- The places in the history at which a name was bound, oldest first. -/
def places (s : Scope) (name : String) : List Nat :=
  (s.history.map Binding.name).findIdxs (· = name)

/-- The bindings of a name, oldest first. -/
def bindingsOf (s : Scope) (name : String) : List Binding := s.history.filter (·.name = name)

/-- The shadowings of a name are its successive bindings, and it stands for the last one. -/
structure Chained (s : Scope) (name : String) : Prop where
  shadowed : (s.shadowed.filter (·.name = name)).map (fun r => (r.previous, r.current)) =
    successive (s.places name)
  current : s.bindings.find? name = (s.places name).getLast?

theorem map_places (s : Scope) (name : String) :
    (s.places name).map (s.history[·]?) = (s.bindingsOf name).map some := by
  rw [places, List.findIdxs_map]
  exact map_getElem?_findIdxs (fun b : Binding => decide (b.name = name)) [] s.history

namespace Chained

variable {s t : Scope} {name : String} (h : s.Chained name)
include h

theorem congr (hnames : t.history.map Binding.name = s.history.map Binding.name)
    (hbindings : t.bindings = s.bindings) (hshadowed : t.shadowed = s.shadowed) :
    t.Chained name := by
  refine ⟨?_, ?_⟩
  · rw [hshadowed, places, hnames]
    exact h.shadowed
  · rw [hbindings, places, hnames]
    exact h.current

theorem of_core (hcore : t.core = s.core) : t.Chained name := by
  obtain ⟨_, hhistory, hbindings, hshadowed⟩ := core_eq_iff.mp hcore
  exact h.congr (by rw [hhistory]) hbindings hshadowed

/-- The chain in terms of the bindings themselves. -/
theorem shadowings :
    (s.shadowings.filter (·.1 = name)).map Prod.snd = successive (s.bindingsOf name) := by
  rw [← filterMap_successive (s.map_places name), ← h.shadowed, List.filterMap_map,
    Scope.shadowings, List.filter_filterMap, List.map_filterMap, List.filterMap_filter]
  congr 1
  funext r
  cases hprevious : s.history[r.previous]? with
  | none => simp [hprevious]
  | some previous =>
    cases hcurrent : s.history[r.current]? with
    | none => simp [hprevious, hcurrent]
    | some current => by_cases hname : r.name = name <;> simp [hprevious, hcurrent, hname]

theorem find? : s.find? name = (s.bindingsOf name).getLast? := by
  have hlast : ((s.places name).map (s.history[·]?)).getLast? =
      ((s.bindingsOf name).map some).getLast? := by rw [s.map_places]
  rw [List.getLast?_map, List.getLast?_map] at hlast
  rw [Scope.find?, h.current]
  cases hplace : (s.places name).getLast? with
  | none => cases hb : (s.bindingsOf name).getLast? <;> simp_all
  | some place => cases hb : (s.bindingsOf name).getLast? <;> simp_all

end Chained

theorem chained_fresh (index : Nat) (top : Bool) (parent : Option Int) (name : String) :
    Chained { index, isToplevel := top, parent } name := ⟨rfl, rfl⟩

theorem names_bind (s : Scope) (name : String) (span : Span) (traits : Traits) :
    (s.bind name span traits).history.map Binding.name = s.history.map Binding.name ++ [name] := by
  rw [history_bind, List.map_append]
  rfl

theorem places_bind (s : Scope) (bound name : String) (span : Span) (traits : Traits) :
    (s.bind bound span traits).places name =
      s.places name ++ if bound = name then [s.history.length] else [] := by
  rw [places, names_bind, List.findIdxs_append, List.findIdxs_singleton]
  simp [places]

theorem shadowed_bind (s : Scope) (name : String) (span : Span) (traits : Traits) :
    (s.bind name span traits).shadowed = s.shadowed ++
      ((s.bindings.find? name).map fun previous => ⟨name, previous, s.history.length⟩).toList := by
  unfold bind
  cases s.bindings.find? name <;> simp

/-- A binding continues the chain of its name and leaves the others alone. -/
theorem Chained.bind {s : Scope} {name : String} (h : s.Chained name) (bound : String) (span : Span)
    (traits : Traits) : (s.bind bound span traits).Chained name := by
  by_cases hname : bound = name
  · subst hname
    refine ⟨?_, ?_⟩
    · rw [shadowed_bind, places_bind, if_pos rfl, successive_concat, ← h.current, ← h.shadowed,
        List.filter_append, List.map_append]
      cases s.bindings.find? bound <;> simp
    · rw [bindings_bind, NameTable.find?_put, places_bind, if_pos rfl, if_pos rfl,
        List.getLast?_concat]
  · refine ⟨?_, ?_⟩
    · rw [shadowed_bind, places_bind, if_neg hname, List.append_nil, ← h.shadowed,
        List.filter_append]
      cases s.bindings.find? bound <;> simp [hname]
    · rw [bindings_bind, NameTable.find?_put, places_bind, if_neg hname, List.append_nil,
        ← h.current]
      simp [Ne.symm hname]

theorem Chained.modify {s : Scope} {name : String} (h : s.Chained name) (place : Nat)
    {f : Binding → Binding} (hf : ∀ b, (f b).name = b.name) :
    Chained { s with history := s.history.modify place f } name :=
  h.congr (map_modify_of_eq s.history place hf) rfl rfl

theorem Chained.mark {s : Scope} {name : String} (h : s.Chained name) (marked : String)
    {f : Binding → Binding} (hf : ∀ b, (f b).name = b.name) : (s.mark marked f).Chained name := by
  unfold Scope.mark
  split
  · exact h
  · exact h.modify _ hf

theorem Chained.use {s : Scope} {name : String} (h : s.Chained name) (used : String) (span : Span) :
    (s.use used span).Chained name := by
  unfold Scope.use
  split
  · exact h.mark used fun _ => rfl
  · split
    · exact h
    · exact h.of_core rfl

theorem Chained.perform {s : Scope} {name : String} (h : s.Chained name) (e : Event) :
    (s.perform e).Chained name := by
  cases e with
  | bind bound span traits isLoop declared =>
    have hbind := h.bind bound span { traits with isToplevel := s.isToplevel }
    have hloop := hbind.mark bound (f := fun b => { b with isLoop := true }) fun _ => rfl
    rw [Scope.perform]
    cases isLoop <;> cases declared
    · exact hbind
    · exact hbind.mark bound fun _ => rfl
    · exact hloop
    · exact hloop.mark bound fun _ => rfl
  | use used span => exact h.use used span
  | _ => exact h

/-! ## Calls on one scope -/

/-- What can be done to a scope. The flags of a binding may be set at any time, also after another
binding has taken its place. -/
inductive Call where
  | bind (name : String) (span : Span) (traits : Traits)
  | use (name : String) (span : Span)
  | setLoop (place : Nat) (value : Bool)
  | setUsed (place : Nat) (value : Bool)

def call (s : Scope) : Call → Scope
  | .bind name span traits => s.bind name span traits
  | .use name span => s.use name span
  | .setLoop place value =>
    { s with history := s.history.modify place fun b => { b with isLoop := value } }
  | .setUsed place value =>
    { s with history := s.history.modify place fun b => { b with used := value } }

/-- The binding that a call makes. -/
def Call.binding? : Call → Option Binding
  | .bind name span traits => some (Binding.declare name span traits)
  | _ => none

theorem Chained.call {s : Scope} {name : String} (h : s.Chained name) (c : Call) :
    (s.call c).Chained name := by
  cases c with
  | bind bound span traits => exact h.bind bound span traits
  | use used span => exact h.use used span
  | setLoop place value => exact h.modify place fun _ => rfl
  | setUsed place value => exact h.modify place fun _ => rfl

def declarations (s : Scope) : List (String × Span × Traits) := s.history.map Binding.declaration

theorem declarations_of_core {s t : Scope} (h : t.core = s.core) :
    t.declarations = s.declarations :=
  congrArg (fun core => core.2.1.map Binding.declaration) h

theorem declarations_mark (s : Scope) (name : String) {f : Binding → Binding}
    (hf : ∀ b, (f b).declaration = b.declaration) :
    (s.mark name f).declarations = s.declarations := by
  unfold mark
  split
  · rfl
  · exact map_modify_of_eq s.history _ hf

theorem declarations_call (s : Scope) (c : Call) :
    (s.call c).declarations = s.declarations ++ c.binding?.toList.map Binding.declaration := by
  cases c with
  | bind name span traits =>
    rw [call, declarations, history_bind, List.map_append]
    rfl
  | use name span =>
    refine Eq.trans ?_ (List.append_nil _).symm
    rw [call, use]
    split
    · exact s.declarations_mark name fun _ => rfl
    · split <;> rfl
  | setLoop place value =>
    refine Eq.trans ?_ (List.append_nil _).symm
    exact map_modify_of_eq s.history place fun _ => rfl
  | setUsed place value =>
    refine Eq.trans ?_ (List.append_nil _).symm
    exact map_modify_of_eq s.history place fun _ => rfl

end Scope

/-! ## Calls on an arena -/

namespace Arena

/-- What can be done to an arena. A call whose index stands for no scope changes nothing. -/
inductive Call where
  | add (parent : Option Int) (isToplevel : Bool)
  | act (index : Int) (call : Scope.Call)
  | close (index : Int)

def call (a : Arena) : Call → Arena
  | .add parent isToplevel => (a.add parent isToplevel).1
  | .act index c => match a.place? index with
    | none => a
    | some place => a.modify place (·.call c)
  | .close index => match a.place? index with
    | none => a
    | some place => (a.close place).1

/-- The arena after some calls. -/
def after (a : Arena) (calls : List Call) : Arena := calls.foldl call a

/-- The call that reaches the scope at `place`. -/
def reaching (a : Arena) (place : Nat) : Call → Option Scope.Call
  | .act index c => if a.place? index = some place then some c else none
  | _ => none

/-- The bindings that calls make in the scope at `place`, one after the other. -/
def bindingsMade (place : Nat) : Arena → List Call → List Binding
  | _, [] => []
  | a, c :: calls =>
    ((a.reaching place c).bind Scope.Call.binding?).toList ++ bindingsMade place (a.call c) calls

/-- What the scopes hold of their bindings. -/
def cores (a : Arena) : List (Bool × List Binding × NameTable Nat × List Shadowing) :=
  a.scopes.map Scope.core

theorem cores_modify (a : Arena) (place : Nat) {f : Scope → Scope} (hf : ∀ s, (f s).core = s.core) :
    (a.modify place f).cores = a.cores :=
  map_modify_of_eq a.scopes place hf

theorem cores_clear (a : Arena) (name : String) (places : List Nat) :
    (a.clear name places).cores = a.cores := by
  induction places generalizing a with
  | nil => rfl
  | cons place rest ih => exact (ih _).trans (a.cores_modify place fun _ => rfl)

theorem cores_resolve (place : Nat) (state : Arena × Nat) (entry : String × Nat) :
    (resolve place state entry).1.cores = state.1.cores := by
  unfold resolve
  dsimp only
  split
  · refine (cores_modify _ place ?_).trans (cores_clear _ _ _)
    exact fun _ => rfl
  · exact cores_clear _ _ _

/-- Closing a scope does not touch the bindings of any scope. -/
theorem cores_close (a : Arena) (place : Nat) : (a.close place).1.cores = a.cores := by
  have hfold : ∀ (entries : List (String × Nat)) (state : Arena × Nat),
      (entries.foldl (resolve place) state).1.cores = state.1.cores := by
    intro entries
    induction entries with
    | nil => exact fun _ => rfl
    | cons entry rest ih => exact fun state => (ih _).trans (cores_resolve place state entry)
  exact hfold _ (a, 0)

theorem cores_add (a : Arena) (parent : Option Int) (top : Bool) :
    (a.add parent top).1.cores = a.cores ++ [(top, [], .empty, [])] := by
  have hadded : cores ⟨a.scopes ++ [{ index := a.size, isToplevel := top, parent }]⟩ =
      a.cores ++ [(top, [], .empty, [])] := List.map_append
  unfold add
  cases parent with
  | none => exact hadded
  | some parent =>
    dsimp only
    split
    · exact hadded
    · refine (cores_modify _ _ ?_).trans hadded
      exact fun _ => rfl

/-- What stands at a place after a call: a fresh scope, or the scope that stood there, after what
the call did to it. -/
theorem core_call {a : Arena} {c : Call} {place : Nat} {s : Scope}
    (hs : (a.call c).scopes[place]? = some s) :
    (a.scopes[place]? = none ∧ s.core = (s.isToplevel, [], .empty, [])) ∨
    ∃ t, a.scopes[place]? = some t ∧ s.core = ((a.reaching place c).elim t t.call).core := by
  -- a call that leaves the bindings alone
  have hsame : (a.call c).cores = a.cores → ∃ t, a.scopes[place]? = some t ∧ s.core = t.core := by
    intro hcores
    have hcore := congrArg (·[place]?) hcores
    simp only [cores, List.getElem?_map, hs] at hcore
    obtain ⟨t, ht, hcore⟩ := Option.map_eq_some_iff.mp hcore.symm
    exact ⟨t, ht, hcore.symm⟩
  cases c with
  | add parent top =>
    have hcore := congrArg (·[place]?) (a.cores_add parent top)
    have hs' : (a.add parent top).1.scopes[place]? = some s := hs
    simp only [cores, List.getElem?_map, hs', List.getElem?_append, List.length_map,
      Option.map_some] at hcore
    split at hcore
    · obtain ⟨t, ht, hcore⟩ := Option.map_eq_some_iff.mp hcore.symm
      exact .inr ⟨t, ht, hcore.symm⟩
    · next hle =>
      refine .inl ⟨List.getElem?_eq_none (Nat.le_of_not_lt hle), ?_⟩
      have hlast := List.mem_singleton.mp (List.mem_of_getElem? hcore.symm)
      have htop : s.isToplevel = top := congrArg (·.1) hlast
      rw [hlast, htop]
  | act index c' =>
    simp only [call] at hs hsame
    rw [reaching]
    cases hplace : a.place? index with
    | none =>
      rw [hplace] at hsame
      exact .inr (hsame rfl)
    | some q =>
      rw [hplace, getElem?_modify] at hs
      obtain ⟨t, ht, rfl⟩ := Option.map_eq_some_iff.mp hs
      refine .inr ⟨t, ht, ?_⟩
      by_cases hq : place = q
      · rw [if_pos hq, if_pos (congrArg some hq.symm)]
        rfl
      · rw [if_neg hq, if_neg fun h => hq (Option.some.inj h).symm]
        rfl
  | close index =>
    refine .inr (hsame ?_)
    unfold call
    dsimp only
    split
    · rfl
    · exact a.cores_close _

theorem size_le_call (a : Arena) (c : Call) : a.size ≤ (a.call c).size := by
  have hlength : ∀ b : Arena, b.size = b.cores.length := fun b => (List.length_map _).symm
  cases c with
  | add parent top =>
    rw [hlength, hlength, call, cores_add, List.length_append]
    exact Nat.le_add_right _ _
  | act index c' =>
    unfold call
    dsimp only
    split
    · exact le_rfl
    · exact le_of_eq (List.length_modify _ _ _).symm
  | close index =>
    unfold call
    dsimp only
    split
    · exact le_rfl
    · rw [hlength, hlength, cores_close]

/-- The declarations of the scope at `place`. -/
def declarations (a : Arena) (place : Nat) : List (String × Span × Traits) :=
  ((a.scopes[place]?).map Scope.declarations).getD []

theorem lt_size_of_place? {a : Arena} {index : Int} {place : Nat}
    (h : a.place? index = some place) : place < a.size := by
  unfold place? at h
  split at h
  · split at h
    · cases h
      assumption
    · cases h
  · split at h
    · cases h
      omega
    · cases h

theorem reaching_of_size_le {a : Arena} {place : Nat} (h : a.size ≤ place) (c : Call) :
    a.reaching place c = none := by
  cases c with
  | act index c' =>
    refine if_neg fun hplace => ?_
    exact absurd (lt_size_of_place? hplace) (Nat.not_lt.mpr h)
  | _ => rfl

theorem declarations_call (a : Arena) (c : Call) (place : Nat) :
    (a.call c).declarations place = a.declarations place ++
      ((a.reaching place c).bind Scope.Call.binding?).toList.map Binding.declaration := by
  have hnone : a.scopes[place]? = none → a.declarations place = [] ∧ a.reaching place c = none := by
    intro h
    exact ⟨by rw [declarations, h]; rfl, reaching_of_size_le (List.getElem?_eq_none_iff.mp h) c⟩
  cases hs : (a.call c).scopes[place]? with
  | none =>
    have hsize := (size_le_call a c).trans (List.getElem?_eq_none_iff.mp hs)
    obtain ⟨hbefore, hreaching⟩ := hnone (List.getElem?_eq_none hsize)
    rw [hbefore, hreaching, declarations, hs]
    rfl
  | some s =>
    have hhere : (a.call c).declarations place = s.declarations := by
      rw [declarations, hs]
      rfl
    rw [hhere]
    rcases core_call hs with ⟨hfresh, hcore⟩ | ⟨t, ht, hcore⟩
    · obtain ⟨hbefore, hreaching⟩ := hnone hfresh
      rw [hbefore, hreaching]
      exact congrArg (fun core => core.2.1.map Binding.declaration) hcore
    · have hbefore : a.declarations place = t.declarations := by
        rw [declarations, ht]
        rfl
      rw [hbefore, Scope.declarations_of_core hcore]
      cases a.reaching place c with
      | none => exact (List.append_nil _).symm
      | some c' => exact t.declarations_call c'

/-- After any calls a scope has the bindings that the calls made in it. -/
theorem declarations_after (a : Arena) (calls : List Call) (place : Nat) :
    (a.after calls).declarations place =
      a.declarations place ++ (bindingsMade place a calls).map Binding.declaration := by
  induction calls generalizing a with
  | nil => exact (List.append_nil _).symm
  | cons c calls ih =>
    rw [after, List.foldl_cons, ← after, ih, declarations_call, bindingsMade, List.map_append,
      List.append_assoc]

/-- In every scope the names are chained. -/
def Chained (a : Arena) : Prop :=
  ∀ {place : Nat} {s : Scope}, a.scopes[place]? = some s → ∀ name, s.Chained name

theorem Chained.call {a : Arena} (h : a.Chained) (c : Call) : (a.call c).Chained := by
  intro place s hs name
  rcases core_call hs with ⟨_, hcore⟩ | ⟨t, ht, hcore⟩
  · exact (Scope.chained_fresh 0 s.isToplevel none name).of_core hcore
  · refine Scope.Chained.of_core ?_ hcore
    cases a.reaching place c with
    | none => exact h ht name
    | some c' => exact (h ht name).call c'

theorem Chained.after {a : Arena} (h : a.Chained) (calls : List Call) :
    (a.after calls).Chained := by
  induction calls generalizing a with
  | nil => exact h
  | cons c calls ih => exact ih (h.call c)

end Arena

/-! ## The chains of a walk -/

theorem Scope.chained_of_walk {root : Node} {filename : String} {w : Walk}
    (hw : walk root filename = .ok w) {i : Nat} {s : Scope} (hs : w.arena.scopes[i]? = some s)
    (name : String) : s.Chained name := by
  refine Walk.scopes_replay (P := fun _ s => s.Chained name) ?_ ?_ ?_ (walk_ok_iff.mp hw).1 hs
  · exact fun index top parent => chained_fresh index top parent name
  · exact fun h hcore => h.of_core hcore
  · exact fun _ h => h.perform _

/-- The binding comes from a loop and the one before it does not. -/
def takesOver (pair : Binding × Binding) : Bool := pair.2.isLoop && !pair.1.isLoop

theorem Scope.messages_loopShadowed {s : Scope} {name : String} (h : s.Chained name)
    (filename : String) :
    (s.messages filename).filter (Diagnostic.concerns [.loopShadowed] name) =
      ((successive (s.bindingsOf name)).filter takesOver).map fun pair =>
        Diagnostic.make filename .loopShadowed name pair.2.span .error pair.1.span.line := by
  have hundefined : (s.undefinedMessages filename).filter
      (Diagnostic.concerns [.loopShadowed] name) = [] := by
    refine Diagnostic.filter_concerns_eq_nil (fun d hd => ?_) name
    simp [ident_of_undefined hd, Check.ident_inj]
  have hunused : (s.unusedMessages filename).filter
      (Diagnostic.concerns [.loopShadowed] name) = [] := by
    refine Diagnostic.filter_concerns_eq_nil (fun d hd => ?_) name
    rcases ident_of_unused hd with hi | hi <;> simp [hi, Check.ident_inj]
  rw [messages, List.filter_append, List.filter_append, hundefined, hunused, List.nil_append,
    List.nil_append, ← h.shadowings, shadowedMessages, List.filter_filterMap, List.filter_map,
    List.map_map, List.filter_filter, ← List.filterMap_eq_map, List.filterMap_filter]
  refine congrArg (List.filterMap · s.shadowings) (funext fun entry => ?_)
  obtain ⟨other, previous, current⟩ := entry
  have hconcerns : Diagnostic.concerns [.loopShadowed] name (Diagnostic.make filename .loopShadowed
      other current.span .error previous.span.line) = decide (other = name) := by
    rw [Bool.eq_iff_iff, Diagnostic.concerns_make]
    simp
  change (if takesOver (previous, current) then some _ else none : Option Diagnostic).filter _ = _
  cases htakes : takesOver (previous, current) with
  | false => simp [htakes]
  | true =>
    by_cases hname : other = name
    · subst hname
      simp [htakes, hconcerns]
    · simp [htakes, hconcerns, hname]

/-! ## The words of the report -/

namespace Check

variable {key : List Char} {first : Char} (value : List Char)

theorem substitute_skip (passed rest : List Char) :
    substitute key value passed.length (passed ++ rest) = substitute key value 0 rest := by
  induction passed with
  | nil => rfl
  | cons c passed ih => exact ih

theorem substitute_key (rest : List Char) :
    substitute (first :: key) value 0 (first :: key ++ rest) =
      value ++ substitute (first :: key) value 0 rest := by
  have hfound : (first :: key).isPrefixOf (first :: (key ++ rest)) = true := by
    rw [List.isPrefixOf_iff_prefix]
    exact List.prefix_append _ _
  rw [List.cons_append, substitute, if_pos hfound]
  exact congrArg (value ++ ·) (substitute_skip value key rest)

/-- Where the key does not begin, the text stays. -/
theorem substitute_append_of_not_mem {text : List Char} (h : first ∉ text) (rest : List Char) :
    substitute (first :: key) value 0 (text ++ rest) =
      text ++ substitute (first :: key) value 0 rest := by
  induction text with
  | nil => rfl
  | cons c text ih =>
    obtain ⟨hc, htext⟩ := not_or.mp (List.mem_cons.not.mp h)
    have hother : ¬ (first :: key).isPrefixOf (c :: (text ++ rest)) = true := by
      simp [List.isPrefixOf, hc]
    rw [List.cons_append, substitute, if_neg hother, ih htext, List.cons_append]

theorem isPrefixOf_append_cons {key : List Char} {c : Char} (hc : c ∉ key) (text rest : List Char) :
    key.isPrefixOf (text ++ c :: rest) = key.isPrefixOf text := by
  induction key generalizing text with
  | nil => rfl
  | cons k key ih =>
    obtain ⟨hk, hkey⟩ := not_or.mp (List.mem_cons.not.mp hc)
    cases text with
    | nil => simp [List.isPrefixOf, Ne.symm hk]
    | cons t text => rw [List.cons_append, List.isPrefixOf, List.isPrefixOf, ih hkey]

/-- No key reaches across a character that it does not have. -/
theorem substitute_append_cons {c : Char} (hc : c ∉ first :: key) (rest : List Char)
    (text : List Char) (skip : Nat) (hskip : skip ≤ text.length) :
    substitute (first :: key) value skip (text ++ c :: rest) =
      substitute (first :: key) value skip text ++
        c :: substitute (first :: key) value 0 rest := by
  induction text generalizing skip with
  | nil =>
    cases Nat.le_zero.mp hskip
    have hother : ¬ (first :: key).isPrefixOf (c :: rest) = true := by
      have hne : first ≠ c := fun h => hc (h ▸ List.mem_cons_self)
      simp [List.isPrefixOf, hne]
    exact if_neg hother
  | cons d text ih =>
    cases skip with
    | succ skip => exact ih skip (Nat.le_of_succ_le_succ hskip)
    | zero =>
      -- an occurrence that begins here ends before the character
      have hsame : (first :: key).isPrefixOf (d :: (text ++ c :: rest)) =
          (first :: key).isPrefixOf (d :: text) :=
        isPrefixOf_append_cons hc (d :: text) rest
      rw [List.cons_append, substitute, substitute, hsame]
      split
      · next hfound =>
        have hlength := (List.isPrefixOf_iff_prefix.mp hfound).length_le
        rw [ih _ (by simpa using hlength), List.append_assoc]
      · rw [ih 0 (Nat.zero_le _), List.cons_append]

/-- A key at the end of a text is filled in there, whatever the part in front of `c` comes to. -/
theorem substitute_last {before between : List Char} (hbefore : first ∉ before)
    (hbetween : first ∉ between) {c : Char} (hc : c ∉ first :: key) (text : List Char) :
    substitute (first :: key) value 0 (before ++ (text ++ c :: (between ++ first :: key))) =
      before ++ (substitute (first :: key) value 0 text ++ c :: (between ++ value)) := by
  have hend : substitute (first :: key) value 0 (first :: key) = value := by
    have h : substitute (first :: key) value 0 (first :: key ++ []) = value ++ [] :=
      substitute_key value []
    rwa [List.append_nil, List.append_nil] at h
  rw [substitute_append_of_not_mem value hbefore,
    substitute_append_cons value hc _ text 0 (Nat.zero_le _),
    substitute_append_of_not_mem value hbetween, hend]

/-- The report of a loop variable ends with the line that it is told. -/
theorem render_loopShadowed (name : String) (line : Option Int) :
    ∃ shown, loopShadowed.render name line = "The loop variable \"" ++ shown ++
        "\" was previously used in this scope at line: " ++ (line.map toString).getD "" ∧
      ('\x7b' ∉ name.toList → shown = name) := by
  have hnameKey : "\x7bname\x7d".toList = '\x7b' :: "name\x7d".toList := by decide
  have hlineKey : "\x7bline\x7d".toList = '\x7b' :: "line\x7d".toList := by decide
  have htemplate : loopShadowed.template.toList = "The loop variable \"".toList ++
      ("\x7bname\x7d".toList ++ ("\" was previously used in this scope at line: ".toList ++
        "\x7bline\x7d".toList)) := by decide
  have hbetween : "\" was previously used in this scope at line: ".toList =
      '"' :: " was previously used in this scope at line: ".toList := by decide
  refine ⟨String.ofList (substitute "\x7bline\x7d".toList ((line.map toString).getD "").toList 0
    name.toList), ?_, ?_⟩
  · rw [render, htemplate, hnameKey, substitute_append_of_not_mem _ (by decide), substitute_key,
      substitute_append_of_not_mem _ (by decide)]
    have hrest : substitute ('\x7b' :: "name\x7d".toList) name.toList 0 "\x7bline\x7d".toList =
        "\x7bline\x7d".toList := rfl
    rw [hrest, hbetween, List.cons_append, hlineKey,
      substitute_last _ (by decide) (by decide) (by decide), ← String.toList_inj]
    simp only [String.toList_ofList, String.toList_append, hbetween, List.append_assoc,
      List.cons_append]
  · intro hname
    have h : substitute ('\x7b' :: "line\x7d".toList) ((line.map toString).getD "").toList 0
        (name.toList ++ []) = name.toList ++ [] := substitute_append_of_not_mem _ hname []
    rw [List.append_nil] at h
    rw [hlineKey, h, String.ofList_toList]

end Check

/-- Whatever is done to an arena, a scope has the bindings that were made in it, the shadowings of a
name are its successive bindings, in order, and the name stands for the last one. So a scope of a
walk reports a name as a loop variable once for each binding by a loop that comes right after
another one, at the later one, and tells the line of the earlier one. -/
theorem shadowings_are_rebindings :
    (∀ (calls : List Arena.Call) (i : Nat) (s : Scope),
      (Arena.after {} calls).scopes[i]? = some s →
        s.declarations = (Arena.bindingsMade i {} calls).map Binding.declaration ∧
        ∀ name, s.Chained name ∧
          (s.shadowings.filter (·.1 = name)).map Prod.snd = successive (s.bindingsOf name) ∧
          s.find? name = (s.bindingsOf name).getLast?) ∧
    ∀ (root : Node) (filename : String) (w : Walk), walk root filename = .ok w →
      ∀ (i : Nat) (s : Scope), w.arena.scopes[i]? = some s →
        s.history.map Binding.record =
          (root.actionsIn filename i).filterMap (Event.record? s.isToplevel) ∧
        ∀ name, s.Chained name ∧
          (s.messages filename).filter (Diagnostic.concerns [.loopShadowed] name) =
            ((successive (s.bindingsOf name)).filter takesOver).map (fun pair =>
              Diagnostic.make filename .loopShadowed name pair.2.span .error pair.1.span.line) ∧
          ∀ d ∈ (s.messages filename).filter (Diagnostic.concerns [.loopShadowed] name),
            ∃ shown, d.message = "The loop variable \"" ++ shown ++
                "\" was previously used in this scope at line: " ++
                (d.otherLine.map toString).getD "" ∧
              ('\x7b' ∉ name.toList → shown = name) := by
  refine ⟨?_, ?_⟩
  · intro calls i s hs
    have hempty : Arena.Chained {} := fun h => by simp at h
    have hdeclared := Arena.declarations_after {} calls i
    rw [Arena.declarations, hs] at hdeclared
    refine ⟨hdeclared, fun name => ?_⟩
    have hchained := hempty.after calls hs name
    exact ⟨hchained, hchained.shadowings, hchained.find?⟩
  · intro root filename w hw i s hs
    refine ⟨((Walk.Recalls.replay (walk_ok_iff.mp hw).1).recalls hs).history, fun name => ?_⟩
    have hchained := Scope.chained_of_walk hw hs name
    have hmessages := Scope.messages_loopShadowed hchained filename
    refine ⟨hchained, hmessages, ?_⟩
    intro d hd
    rw [hmessages] at hd
    obtain ⟨pair, _, rfl⟩ := List.mem_map.mp hd
    exact Check.render_loopShadowed name pair.1.span.line

/-- A name that is bound three times. The first binding is found out to be a loop variable after the
second one has taken its place, and the scope is closed before the third one is made. -/
def boundThrice : List Arena.Call :=
  [.add none true, .act 0 (.bind "x" (.point 1 0) {}), .act 0 (.use "x" (.point 2 0)),
    .act (-1) (.bind "x" (.point 3 0) {}), .act 0 (.setLoop 0 true), .close 0,
    .act 0 (.bind "y" (.point 4 0) {}), .act 0 (.bind "x" (.point 5 0) {})]

theorem shadowings_of_boundThrice :
    (∃ s, (Arena.after {} boundThrice).scopes[0]? = some s ∧
      s.declarations.map (·.2.1.line) = [some 1, some 3, some 4, some 5] ∧ s.Chained "x" ∧
      s.places "x" = [0, 1, 3] ∧
      (s.shadowings.filter (·.1 = "x")).map Prod.snd = successive (s.bindingsOf "x")) ∧
    ∃ root w s, parse "i = 1\nfor i in [1]:\n\tfor i in [2]:\n\t\tpass\n" = .ok root ∧
      walk root "m" = .ok w ∧ w.arena.scopes[0]? = some s ∧ s.Chained "i" ∧
      (s.bindingsOf "i").map (fun b => (b.span.line, b.isLoop)) =
        [(some 1, false), (some 2, true), (some 3, true)] ∧
      (s.messages "m").filter (Diagnostic.concerns [.loopShadowed] "i") =
        ((successive (s.bindingsOf "i")).filter takesOver).map fun pair =>
          Diagnostic.make "m" .loopShadowed "i" pair.2.span .error pair.1.span.line := by
  refine ⟨?_, ?_⟩
  · have hfacts : (Arena.after {} boundThrice).scopes[0]?.map
        (fun s => (s.declarations.map (·.2.1.line), s.places "x")) =
        some ([some 1, some 3, some 4, some 5], [0, 1, 3]) := by decide +kernel
    obtain ⟨s, hs, hfacts⟩ := Option.map_eq_some_iff.mp hfacts
    obtain ⟨hlines, hplaces⟩ := Prod.mk.inj hfacts
    obtain ⟨hchained, hshadowings, _⟩ := (shadowings_are_rebindings.1 boundThrice 0 s hs).2 "x"
    exact ⟨s, hs, hlines, hchained, hplaces, hshadowings⟩
  · have hfacts : (parse "i = 1\nfor i in [1]:\n\tfor i in [2]:\n\t\tpass\n").toOption.map
        (fun root => (walk root "m").toOption.bind fun w => w.arena.scopes[0]?.map fun s =>
          (s.bindingsOf "i").map fun b => (b.span.line, b.isLoop)) =
        some (some [(some 1, false), (some 2, true), (some 3, true)]) := by decide +kernel
    obtain ⟨root, hparse, hfacts⟩ := parsed_of_map hfacts
    obtain ⟨w, hw⟩ := walk_parse_ok hparse "m"
    rw [hw] at hfacts
    obtain ⟨s, hs, hbindings⟩ := Option.map_eq_some_iff.mp hfacts
    obtain ⟨hchained, hmessages, _⟩ := (shadowings_are_rebindings.2 root "m" w hw 0 s hs).2 "i"
    exact ⟨root, w, s, hparse, hw, hs, hchained, hbindings, hmessages⟩

end ScopeLint
