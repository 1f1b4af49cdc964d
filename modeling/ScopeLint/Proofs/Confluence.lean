import ScopeLint.Proofs.Closing

/-! # The order of closing does not matter

A scope that closes looks into the scopes inside it and changes nothing else, so
two scopes of which neither lies in the other close in either order. An order
that has every scope after those inside it can be sorted into any other such
order by exchanging neighbours that lie apart. -/
namespace ScopeLint.Arena

variable {a : Arena}

/-- No scope enters a name twice among its bindings. -/
def Keyed (a : Arena) : Prop :=
  ∀ {i : Nat} {s : Scope}, a.scopes[i]? = some s → s.bindings.Distinct

/-- Closes the scopes of a list, one after the other. -/
def closeAll (a : Arena) (order : List Nat) : Arena := order.foldl (fun a i => (a.close i).1) a

/-- Every scope is listed once, and after all that lie inside it. -/
structure LeavesFirst (a : Arena) (order : List Nat) : Prop where
  once : order.Perm (List.range a.size)
  after : order.Pairwise fun earlier later => ¬ a.Inside later earlier

theorem Forest.close (forest : a.Forest) (keyed : a.Keyed) {i : Nat} (hi : i < a.size) :
    (a.close i).1.Forest := by
  obtain ⟨s, hs⟩ := exists_scope hi
  exact (sameLinks_close forest hs (keyed hs)).symm.forest forest

theorem Keyed.close (keyed : a.Keyed) (forest : a.Forest) {i : Nat} (hi : i < a.size) :
    (a.close i).1.Keyed := by
  intro j t ht
  obtain ⟨s, hs⟩ := exists_scope hi
  rw [getElem?_close forest hs (keyed hs)] at ht
  obtain ⟨u, hu, rfl⟩ := Option.map_eq_some_iff.mp ht
  have hsame : (a.resolved i j s.bindings.entries u).bindings = u.bindings := by
    unfold resolved
    split
    · rfl
    · split <;> rfl
  rw [hsame]
  exact keyed hu

/-- What closing a scope leaves alone: in the scope itself all but its unused list, in a scope
inside it all but what is parked there, and everything in all others. -/
theorem scope_of_close (forest : a.Forest) (keyed : a.Keyed) {place i : Nat} {s : Scope}
    (hplace : place < a.size) (hs : a.scopes[i]? = some s) :
    ∃ t, (a.close place).1.scopes[i]? = some t ∧
      t = { s with undefined := t.undefined, unused := t.unused } ∧
      (t.undefined ≠ s.undefined → a.Inside i place) ∧ (t.unused ≠ s.unused → i = place) := by
  obtain ⟨p, hp⟩ := exists_scope hplace
  refine ⟨_, by rw [getElem?_close forest hp (keyed hp), hs]; rfl, ?_⟩
  unfold resolved
  split
  · next hin =>
    rw [mem_descendants forest] at hin
    exact ⟨rfl, fun _ => hin, fun hne => absurd rfl hne⟩
  · split
    · next heq => exact ⟨rfl, fun hne => absurd rfl hne, fun _ => heq⟩
    · exact ⟨rfl, fun hne => absurd rfl hne, fun hne => absurd rfl hne⟩

theorem size_close (forest : a.Forest) (keyed : a.Keyed) {i : Nat} (hi : i < a.size) :
    (a.close i).1.size = a.size := by
  obtain ⟨s, hs⟩ := exists_scope hi
  exact (sameLinks_close forest hs (keyed hs)).size

theorem inside_close (forest : a.Forest) (keyed : a.Keyed) {i : Nat} (hi : i < a.size)
    {d j : Nat} : (a.close i).1.Inside d j ↔ a.Inside d j := by
  obtain ⟨s, hs⟩ := exists_scope hi
  exact (sameLinks_close forest hs (keyed hs)).inside_iff

/-! ## Scopes that lie apart -/

section Apart

variable {i j : Nat} (hne : i ≠ j) (hij : ¬ a.Inside i j) (hji : ¬ a.Inside j i)
include hne hij hji

/-- No scope lies inside two scopes that are apart. -/
theorem not_inside_both {d : Nat} (hi : a.Inside d i) : ¬ a.Inside d j := by
  intro hj
  rcases Within.total hi.within hj.within with h | h
  · rcases within_iff.mp h with h | h
    · exact hne h
    · exact hij h
  · rcases within_iff.mp h with h | h
    · exact hne h.symm
    · exact hji h

/-- A binding is met or not whether a scope apart is closed or open. -/
theorem unmet_close (forest : a.Forest) {s : Scope} (hs : a.scopes[i]? = some s)
    (hd : s.bindings.Distinct) (entry : String × Nat) :
    (a.close i).1.unmet j entry = a.unmet j entry := by
  have hlinks := sameLinks_close forest hs hd
  have hinside : ∀ d ∈ a.descendants j, d ∉ a.descendants i := by
    intro d hj hi
    rw [mem_descendants forest] at hj hi
    exact not_inside_both hne hij hji hi hj
  have hparks : (a.descendants j).filter ((a.close i).1.parks entry.1) =
      (a.descendants j).filter (a.parks entry.1) := by
    apply List.filter_congr
    intro d hdesc
    have hapart : d ≠ i := by
      intro heq
      rw [heq, mem_descendants forest] at hdesc
      exact hij hdesc
    simp only [parks, getElem?_close forest hs hd]
    cases a.scopes[d]? with
    | none => rfl
    | some u => simp [resolved, hinside d hdesc, hapart]
  have hused : ((a.close i).1.scopes[j]?).bind (·.history[entry.2]?) =
      (a.scopes[j]?).bind (·.history[entry.2]?) := by
    rw [getElem?_close forest hs hd]
    cases a.scopes[j]? with
    | none => rfl
    | some u => simp [history_resolved]
  simp only [unmet, descendants_congr hlinks, hparks, hused]

/-- Two scopes that lie apart do the same to a third one in either order. -/
theorem resolved_comm (forest : a.Forest) (k : Nat) (first second : List (String × Nat))
    (s : Scope) :
    a.resolved j k second (a.resolved i k first s) =
      a.resolved i k first (a.resolved j k second s) := by
  have hself : ∀ p, p ∉ a.descendants p :=
    fun p hp => forest.acyclic p ((mem_descendants forest p p).mp hp)
  have hi : i ∉ a.descendants j := fun h => hij ((mem_descendants forest j i).mp h)
  have hj : j ∉ a.descendants i := fun h => hji ((mem_descendants forest i j).mp h)
  have hboth : k ∈ a.descendants i → k ∉ a.descendants j := by
    intro h h'
    rw [mem_descendants forest] at h h'
    exact not_inside_both hne hij hji h h'
  unfold resolved
  by_cases hki : k = i
  · subst hki
    simp [hself, hi, hne]
  · by_cases hkj : k = j
    · subst hkj
      simp [hself, hj, hki]
    · by_cases hdi : k ∈ a.descendants i
      · simp [hdi, hboth hdi, hkj]
      · simp [hdi, hki, hkj]

/-- Scopes that lie apart close in either order. -/
theorem close_comm (forest : a.Forest) (keyed : a.Keyed) (hi : i < a.size) (hj : j < a.size) :
    ((a.close i).1.close j).1 = ((a.close j).1.close i).1 := by
  obtain ⟨s, hs⟩ := exists_scope hi
  obtain ⟨t, ht⟩ := exists_scope hj
  have hclosed : ∀ {x y : Nat} {u v : Scope}, x ≠ y → ¬ a.Inside x y → ¬ a.Inside y x →
      a.scopes[x]? = some u → a.scopes[y]? = some v → ∀ k : Nat,
      ((a.close x).1.close y).1.scopes[k]? =
        (a.scopes[k]?).map fun w =>
          a.resolved y k v.bindings.entries (a.resolved x k u.bindings.entries w) := by
    intro x y u v hxy hx hy hu hv k
    have hlinks := sameLinks_close forest hu (keyed hu)
    obtain ⟨v', hv', heq, _⟩ := scope_of_close forest keyed (getElem?_lt hu) hv
    have hbindings : v'.bindings = v.bindings := by rw [heq]
    have hkeyed : v'.bindings.Distinct := hbindings ▸ keyed hv
    -- what closes second sees the names it would have seen before
    have hresolved : ∀ w, (a.close x).1.resolved y k v.bindings.entries w =
        a.resolved y k v.bindings.entries w := by
      intro w
      have hunmet : (a.close x).1.unmet y = a.unmet y :=
        funext (unmet_close hxy hx hy forest hu (keyed hu))
      simp only [resolved, descendants_congr hlinks, hunmet]
    rw [getElem?_close (hlinks.symm.forest forest) hv' hkeyed, hbindings,
      getElem?_close forest hu (keyed hu), Option.map_map]
    congr 1
    funext w
    exact hresolved _
  have hscopes : ((a.close i).1.close j).1.scopes = ((a.close j).1.close i).1.scopes := by
    apply List.ext_getElem?
    intro k
    rw [hclosed hne hij hji hs ht, hclosed hne.symm hji hij ht hs]
    congr 1
    funext w
    exact resolved_comm hne hij hji forest k s.bindings.entries t.bindings.entries w
  exact congrArg Arena.mk hscopes

end Apart

/-! ## Orders -/

/-- A scope that lies apart from the scopes before it may be closed before them. -/
theorem closeAll_move (forest : a.Forest) (keyed : a.Keyed) {i : Nat} {before after : List Nat}
    (hi : i < a.size)
    (hbefore : ∀ j ∈ before, j < a.size ∧ j ≠ i ∧ ¬ a.Inside j i ∧ ¬ a.Inside i j) :
    a.closeAll (before ++ i :: after) = a.closeAll (i :: (before ++ after)) := by
  induction before generalizing a with
  | nil => rfl
  | cons j rest ih =>
    obtain ⟨hj, hne, hji, hij⟩ := hbefore j List.mem_cons_self
    have hrest : ∀ k ∈ rest, k < (a.close j).1.size ∧ k ≠ i ∧
        ¬ (a.close j).1.Inside k i ∧ ¬ (a.close j).1.Inside i k := by
      intro k hk
      rw [size_close forest keyed hj, inside_close forest keyed hj, inside_close forest keyed hj]
      exact hbefore k (List.mem_cons_of_mem _ hk)
    calc a.closeAll (j :: rest ++ i :: after)
        = (a.close j).1.closeAll (rest ++ i :: after) := rfl
      _ = (a.close j).1.closeAll (i :: (rest ++ after)) :=
          ih (forest.close keyed hj) (keyed.close forest hj) (by rwa [size_close forest keyed hj])
            hrest
      _ = ((a.close j).1.close i).1.closeAll (rest ++ after) := rfl
      _ = ((a.close i).1.close j).1.closeAll (rest ++ after) := by
          rw [close_comm hne hji hij forest keyed hj hi]
      _ = a.closeAll (i :: (j :: rest ++ after)) := rfl

/-- Two orders of the same scopes, each with every scope after those inside it. -/
theorem closeAll_eq_of_perm (forest : a.Forest) (keyed : a.Keyed) {first second : List Nat}
    (hperm : first.Perm second) (hnodup : first.Nodup) (hlt : ∀ i ∈ first, i < a.size)
    (hfirst : first.Pairwise fun earlier later => ¬ a.Inside later earlier)
    (hsecond : second.Pairwise fun earlier later => ¬ a.Inside later earlier) :
    a.closeAll first = a.closeAll second := by
  -- the first scope of one order is moved to the front of the other
  induction first generalizing a second with
  | nil => rw [List.nil_perm.mp hperm]
  | cons i rest ih =>
    obtain ⟨before, after, rfl⟩ := List.append_of_mem (hperm.subset List.mem_cons_self)
    have hrest : rest.Perm (before ++ after) := (hperm.trans List.perm_middle).cons_inv
    obtain ⟨hnew, hnodup⟩ := List.nodup_cons.mp hnodup
    obtain ⟨hafter, hfirst⟩ := List.pairwise_cons.mp hfirst
    obtain ⟨hb, hia, hcross⟩ := List.pairwise_append.mp hsecond
    have hi : i < a.size := hlt i List.mem_cons_self
    have hapart : ∀ j ∈ before, j < a.size ∧ j ≠ i ∧ ¬ a.Inside j i ∧ ¬ a.Inside i j := by
      intro j hj
      have hmem : j ∈ rest := hrest.symm.subset (List.mem_append_left _ hj)
      refine ⟨hlt j (List.mem_cons_of_mem _ hmem), ?_, hafter j hmem,
        hcross j hj i List.mem_cons_self⟩
      intro heq
      exact hnew (heq ▸ hmem)
    have hsecond : (before ++ after).Pairwise fun earlier later => ¬ a.Inside later earlier := by
      refine List.pairwise_append.mpr ⟨hb, (List.pairwise_cons.mp hia).2, ?_⟩
      intro x hx y hy
      exact hcross x hx y (List.mem_cons_of_mem _ hy)
    have hinside : (fun earlier later : Nat => ¬ (a.close i).1.Inside later earlier) =
        fun earlier later => ¬ a.Inside later earlier := by
      funext earlier later
      rw [inside_close forest keyed hi]
    rw [closeAll_move forest keyed hi hapart]
    refine ih (forest.close keyed hi) (keyed.close forest hi) hrest hnodup ?_
      (hinside ▸ hfirst) (hinside ▸ hsecond)
    intro j hj
    rw [size_close forest keyed hi]
    exact hlt j (List.mem_cons_of_mem _ hj)

/-- In whatever order the scopes of a forest are closed, each after all that lie inside it, the same
arena comes out, down to the order of entries in every table. A single closing changes the unused
list of its scope, what is parked in the scopes inside, and nothing else. -/
theorem closing_is_confluent (forest : a.Forest) (keyed : a.Keyed) :
    (∀ first second, a.LeavesFirst first → a.LeavesFirst second →
      a.closeAll first = a.closeAll second) ∧
    ∀ place, place < a.size → (a.close place).1.size = a.size ∧
      ∀ i s, a.scopes[i]? = some s → ∃ t, (a.close place).1.scopes[i]? = some t ∧
        t = { s with undefined := t.undefined, unused := t.unused } ∧
        (t.undefined ≠ s.undefined → a.Inside i place) ∧
        (t.unused ≠ s.unused → i = place) := by
  constructor
  · intro first second hfirst hsecond
    have hnodup : first.Nodup := hfirst.once.nodup_iff.mpr List.nodup_range
    refine closeAll_eq_of_perm forest keyed (hfirst.once.trans hsecond.once.symm) hnodup ?_
      hfirst.after hsecond.after
    intro i hi
    exact List.mem_range.mp (hfirst.once.subset hi)
  · intro place hplace
    exact ⟨size_close forest keyed hplace,
      fun i s hs => scope_of_close forest keyed hplace hs⟩

/-- Two scopes beside each other and one inside the first, with uses of `x` and `y` parked in all
three. The outermost scope and the first one bind `x`, the innermost binds `y`. -/
def branching : Arena where
  scopes :=
    [ { index := 0, isToplevel := true, parent := none, children := [1, 2],
        history := [.declare "x" .unknown {}], bindings := ⟨[("x", 0)]⟩ },
      { index := 1, isToplevel := false, parent := some 0, children := [3],
        history := [.declare "x" .unknown {}], bindings := ⟨[("x", 0)]⟩,
        undefined := ⟨[("y", .unknown)]⟩ },
      { index := 2, isToplevel := false, parent := some 0,
        undefined := ⟨[("x", .unknown), ("y", .unknown)]⟩ },
      { index := 3, isToplevel := false, parent := some 1,
        history := [.declare "y" .unknown {}], bindings := ⟨[("y", 0)]⟩,
        undefined := ⟨[("x", .unknown)]⟩ } ]

theorem parent_branching {c p : Nat} :
    branching.Parent c p ↔ (c = 1 ∧ p = 0) ∨ (c = 2 ∧ p = 0) ∨ (c = 3 ∧ p = 1) := by
  unfold Parent
  rcases c with _ | _ | _ | _ | c <;> simp [branching] <;> omega

theorem forest_branching : branching.Forest where
  parent_lt := by
    intro c p hp
    simp only [parent_branching] at hp
    have hsize : branching.size = 4 := rfl
    omega
  mem_children := by
    intro p s hs c
    rw [parent_branching]
    rcases p with _ | _ | _ | _ | p <;> simp [branching] at hs <;> subst hs <;> simp
  nodup := by
    intro p s hs
    rcases p with _ | _ | _ | _ | p <;> simp [branching] at hs <;> subst hs <;> decide
  acyclic := by
    intro i hi
    have hlt : i < i := Inside.index_lt (fun hp => by rw [parent_branching] at hp; omega) hi
    omega

theorem closing_is_confluent_branching :
    branching.closeAll [3, 1, 2, 0] = branching.closeAll [2, 3, 1, 0] := by
  have keyed : branching.Keyed := by
    intro i s hs
    have hall : ∀ s ∈ branching.scopes, s.bindings.names.Nodup := by decide
    exact hall s (List.mem_of_getElem? hs)
  have hafter : ∀ order : List Nat,
      order.Pairwise (fun earlier later => later ∉ branching.descendants earlier) →
      order.Pairwise (fun earlier later => ¬ branching.Inside later earlier) := by
    intro order h
    refine h.imp ?_
    intro earlier later hnot hin
    exact hnot ((mem_descendants forest_branching earlier later).mpr hin)
  exact (closing_is_confluent forest_branching keyed).1 [3, 1, 2, 0] [2, 3, 1, 0]
    ⟨by decide, hafter _ (by decide)⟩ ⟨by decide, hafter _ (by decide)⟩

end ScopeLint.Arena
