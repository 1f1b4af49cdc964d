import ScopeLint.Proofs.Forest
import ScopeLint.Proofs.NameTable

/-! # Closing a scope, as seen from every scope

`close` works through the bindings of a scope one after the other, and each of
them looks at what the ones before have left parked. Names differ, so none sees
what another did: `getElem?_close` says for every scope of the arena what is left
of it, in terms of the arena before. Links, bindings and histories stay. -/
namespace ScopeLint.Arena

variable {a : Arena}

/-- No use that is parked inside the scope at `place` meets the binding, and it was not used in its
own scope. -/
def unmet (a : Arena) (place : Nat) (entry : String × Nat) : Bool :=
  ((a.descendants place).filter (a.parks entry.1)).isEmpty &&
    !((a.scopes[place]?).bind (·.history[entry.2]?)).any Binding.used

/-- What is left of the scope at `i` when the bindings of the scope at `place` are resolved. -/
def resolved (a : Arena) (place i : Nat) (bound : List (String × Nat)) (s : Scope) : Scope :=
  if i ∈ a.descendants place then { s with undefined := s.undefined.without (bound.map Prod.fst) }
  else if i = place then { s with unused := s.unused.putAll (bound.filter (a.unmet place)) }
  else s

theorem link_resolved (place i : Nat) (bound : List (String × Nat)) (s : Scope) :
    link (a.resolved place i bound s) = link s := by
  unfold resolved
  split
  · rfl
  · split <;> rfl

theorem history_resolved (place i : Nat) (bound : List (String × Nat)) (s : Scope) :
    (a.resolved place i bound s).history = s.history := by
  unfold resolved
  split
  · rfl
  · split <;> rfl

theorem getElem?_clear (a : Arena) (name : String) (places : List Nat) (i : Nat) :
    (a.clear name places).scopes[i]? = (a.scopes[i]?).map fun s =>
      if i ∈ places then { s with undefined := s.undefined.erase name } else s := by
  induction places generalizing a with
  | nil => simp [clear]
  | cons place rest ih =>
    rw [clear, List.foldl_cons, ← clear, ih, getElem?_modify, Option.map_map]
    congr 1
    funext s
    have twice : (s.undefined.erase name).erase name = s.undefined.erase name := by
      simp [NameTable.erase]
    by_cases hp : i = place <;> by_cases hr : i ∈ rest <;> simp [hp, hr, twice]

theorem parks_iff {name : String} {i : Nat} {s : Scope} (hs : a.scopes[i]? = some s) :
    a.parks name i = s.undefined.contains name := by
  simp [parks, hs]

/-- One binding: what it does is what resolving a list of one binding does. -/
theorem getElem?_resolve (ha : a.Forest) (place count : Nat) (entry : String × Nat) (i : Nat) :
    (resolve place (a, count) entry).1.scopes[i]? =
      (a.scopes[i]?).map (a.resolved place i [entry]) := by
  obtain ⟨name, binding⟩ := entry
  have hself : place ∉ a.descendants place :=
    fun h => ha.acyclic place ((mem_descendants ha place place).mp h)
  -- a scope where nothing is parked under the name is as good as cleared
  have hcleared : ∀ s, a.scopes[i]? = some s →
      (if i ∈ (a.descendants place).filter (a.parks name) then
        { s with undefined := s.undefined.erase name } else s) =
      if i ∈ a.descendants place then { s with undefined := s.undefined.erase name } else s := by
    intro s hs
    by_cases hd : i ∈ a.descendants place
    · by_cases hp : a.parks name i = true
      · simp [hd, hp]
      · have hnot : s.undefined.contains name = false := by
          rw [← parks_iff hs]; simpa using hp
        simp [hd, hp, NameTable.erase_of_not_contains hnot]
    · simp [hd]
  have hun : (((a.descendants place).filter (a.parks name)).isEmpty &&
      !((a.scopes[place]?).bind (·.history[binding]?)).any Binding.used) =
      a.unmet place (name, binding) := rfl
  simp only [resolve]
  rw [hun]
  cases hs : a.scopes[i]? with
  | none => split <;> simp [getElem?_modify, getElem?_clear, hs]
  | some s =>
    by_cases hi : i = place
    · subst hi
      by_cases hu : a.unmet i (name, binding) = true <;>
        simp [hu, getElem?_modify, getElem?_clear, hs, resolved, hself, NameTable.putAll]
    · have hc := hcleared s hs
      rw [NameTable.erase_eq_without] at hc
      by_cases hu : a.unmet place (name, binding) = true <;>
        simp only [hu, if_true, if_false, getElem?_modify, getElem?_clear, hs, hi, Option.map_some,
          hc, resolved, List.map_cons, List.map_nil, NameTable.erase_eq_without,
          Bool.false_eq_true]

theorem sameLinks_resolve (ha : a.Forest) (place count : Nat) (entry : String × Nat) :
    SameLinks (resolve place (a, count) entry).1 a := by
  intro i
  rw [getElem?_resolve ha, Option.map_map]
  congr 1
  funext s
  exact link_resolved place i [entry] s

theorem descendants_congr {b : Arena} (h : SameLinks a b) (place : Nat) :
    a.descendants place = b.descendants place := by
  have hchildren : ∀ i : Nat,
      (a.scopes[i]?).map Scope.children = (b.scopes[i]?).map Scope.children := by
    intro i
    have := congrArg (Option.map (fun l : Nat × Option Int × List Nat => l.2.2)) (h i)
    simpa [Option.map_map, Function.comp_def, link] using this
  have hdescend : ∀ fuel stack, a.descend fuel stack = b.descend fuel stack := by
    intro fuel
    induction fuel with
    | zero => intro stack; rfl
    | succ fuel ih =>
      intro stack
      cases stack with
      | nil => rfl
      | cons p stack =>
        have hp := hchildren p
        simp only [descend]
        cases ha : a.scopes[p]? <;> cases hb : b.scopes[p]? <;> simp [ha, hb, ih] at hp ⊢
        rw [hp]
  have hp := hchildren place
  simp only [descendants, h.size]
  cases ha : a.scopes[place]? <;> cases hb : b.scopes[place]? <;> simp [ha, hb, hdescend] at hp ⊢
  rw [hp]

/-- Resolving a binding leaves the bindings of other names as they are met or not. -/
theorem unmet_resolve (ha : a.Forest) (place count : Nat) (entry other : String × Nat)
    (hne : other.1 ≠ entry.1) :
    (resolve place (a, count) entry).1.unmet place other = a.unmet place other := by
  have hl := sameLinks_resolve ha place count entry
  have hparks : (resolve place (a, count) entry).1.parks other.1 = a.parks other.1 := by
    funext i
    simp only [parks, getElem?_resolve ha]
    cases a.scopes[i]? with
    | none => rfl
    | some s =>
      simp only [Option.map_some, Option.any_some, resolved]
      split
      · simp [NameTable.contains, NameTable.find?_without, hne]
      · split <;> rfl
  have hhist : ((resolve place (a, count) entry).1.scopes[place]?).map Scope.history =
      (a.scopes[place]?).map Scope.history := by
    rw [getElem?_resolve ha, Option.map_map]
    congr 1
    funext s
    exact history_resolved place place [entry] s
  have hused : ((resolve place (a, count) entry).1.scopes[place]?).bind (·.history[other.2]?) =
      (a.scopes[place]?).bind (·.history[other.2]?) := by
    cases h₁ : (resolve place (a, count) entry).1.scopes[place]? <;>
      cases h₂ : a.scopes[place]? <;> simp [h₁, h₂] at hhist ⊢
    rw [hhist]
  simp only [unmet, descendants_congr hl, hparks, hused]

theorem getElem?_foldl_resolve (ha : a.Forest) (place count : Nat) (bound : List (String × Nat))
    (hd : (bound.map Prod.fst).Nodup) (i : Nat) :
    (bound.foldl (resolve place) (a, count)).1.scopes[i]? =
      (a.scopes[i]?).map (a.resolved place i bound) := by
  -- along the bindings; what one of them leaves behind is again a forest with the same links
  induction bound generalizing a count with
  | nil =>
    have hid : a.resolved place i [] = id := by
      funext s
      unfold resolved
      split
      · simp
      · split <;> simp [NameTable.putAll]
    simp [hid]
  | cons entry rest ih =>
    obtain ⟨hn, hd⟩ := List.nodup_cons.mp hd
    have hl := sameLinks_resolve ha place count entry
    have hstep : ∀ s, (resolve place (a, count) entry).1.resolved place i rest
        (a.resolved place i [entry] s) = a.resolved place i (entry :: rest) s := by
      intro s
      have hunmet : rest.filter ((resolve place (a, count) entry).1.unmet place) =
          rest.filter (a.unmet place) := by
        apply List.filter_congr
        intro other ho
        refine unmet_resolve ha place count entry other ?_
        intro he
        exact hn (he ▸ List.mem_map_of_mem ho)
      simp only [resolved, descendants_congr hl, hunmet]
      by_cases hi : i ∈ a.descendants place
      · simp [hi, NameTable.without_without]
      · by_cases hp : i = place
        · subst hp
          simp only [hi, if_false, if_true, NameTable.putAll_append, ← List.filter_append]
          rfl
        · simp [hi, hp]
    rw [List.foldl_cons, ← Prod.mk.eta (p := resolve place (a, count) entry),
      ih (hl.symm.forest ha) _ hd, getElem?_resolve ha, Option.map_map]
    congr 1
    funext s
    exact hstep s

/-- Closing a scope: every scope inside loses what is parked under the names bound here, the scope
itself lists the bindings that were not met, and no other scope changes. -/
theorem getElem?_close (ha : a.Forest) {place : Nat} {s : Scope} (hs : a.scopes[place]? = some s)
    (hd : s.bindings.Distinct) (i : Nat) :
    (a.close place).1.scopes[i]? = (a.scopes[i]?).map (a.resolved place i s.bindings.entries) := by
  simp only [close, hs, Option.map_some, Option.getD_some]
  exact getElem?_foldl_resolve ha place 0 s.bindings.entries hd i

theorem sameLinks_close (ha : a.Forest) {place : Nat} {s : Scope} (hs : a.scopes[place]? = some s)
    (hd : s.bindings.Distinct) : SameLinks (a.close place).1 a := by
  intro i
  rw [getElem?_close ha hs hd, Option.map_map]
  congr 1
  funext t
  exact link_resolved place i s.bindings.entries t

theorem close_scope_eq (a : Arena) (place : Nat) : (a.close place).2.scope = place := rfl

end ScopeLint.Arena
