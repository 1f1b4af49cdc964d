import ScopeLint.Proofs.Hosting

/-! # Blocks in a module

A block of events that a module encloses opens its scopes where and as it always
does, with the indices moved on by the scopes opened before it. So any walk of a
module that encloses the block hosts the walk of a module that holds the block
alone. -/
namespace ScopeLint.Walk

open Node (relabel told)

/-! ## Entries and actions -/

/-- What happens in a scope. -/
def doneIn (i : Nat) (items : List (Option Nat × Event)) : List Event :=
  (items.filter fun item => item.2.isAction && decide (item.1 = some i)).map Prod.snd

theorem doneIn_append (i : Nat) (first second : List (Option Nat × Event)) :
    doneIn i (first ++ second) = doneIn i first ++ doneIn i second := by
  simp [doneIn]

theorem doneIn_eq_nil {i : Nat} {items : List (Option Nat × Event)}
    (h : ∀ item ∈ items, item.1 ≠ some i) : doneIn i items = [] := by
  have hnone : items.filter (fun item => item.2.isAction && decide (item.1 = some i)) = [] := by
    refine List.filter_eq_nil_iff.mpr fun item hitem => ?_
    simp [h item hitem]
  rw [doneIn, hnone, List.map_nil]

theorem doneIn_relabel {index : Nat → Nat} (hindex : Function.Injective index) (i : Nat)
    (items : List (Option Nat × Event)) :
    doneIn (index i) (items.map (relabel index)) = doneIn i items := by
  have hsame : ∀ item : Option Nat × Event,
      ((relabel index item).1 = some (index i)) = (item.1 = some i) := by
    intro item
    refine propext ⟨fun h => ?_, fun h => ?_⟩
    · obtain ⟨j, hj, heq⟩ := Option.map_eq_some_iff.mp h
      rw [hj, hindex heq]
    · rw [relabel, h, Option.map_some]
  rw [doneIn, List.filter_map, List.map_map, doneIn]
  simp only [Function.comp_def, hsame]
  rfl

/-- The scopes that the scopes are opened in. -/
def homesOf (items : List (Option Nat × Event)) : List (Option Nat) :=
  (items.filter (·.2.isEntry)).map Prod.fst

theorem homesOf_append (first second : List (Option Nat × Event)) :
    homesOf (first ++ second) = homesOf first ++ homesOf second := by
  simp [homesOf]

theorem homesOf_relabel (index : Nat → Nat) (items : List (Option Nat × Event)) :
    homesOf (items.map (relabel index)) = (homesOf items).map (Option.map index) := by
  rw [homesOf, List.filter_map, List.map_map, homesOf, List.map_map]
  rfl

theorem length_homesOf_locate (opened : List Nat) (next : Nat) (events : List Event) :
    (homesOf (locate opened next events)).length = entryCount events := by
  rw [homesOf, List.length_map, entryCount_locate]

theorem exists_item_of_mem_homesOf {items : List (Option Nat × Event)} {home : Option Nat}
    (h : home ∈ homesOf items) : ∃ item ∈ items, item.1 = home := by
  obtain ⟨item, hitem, rfl⟩ := List.mem_map.mp h
  exact ⟨item, List.mem_of_mem_filter hitem, rfl⟩

/-- The parents of scopes are those that they were opened in. -/
theorem parent_iff_home {filename : String} {events : List Event} {w : Walk}
    (hr : replay { filename } events = .ok w) (c p : Nat) :
    w.arena.Parent c p ↔ (homesOf (locate [] 0 events))[c]? = some (some p) := by
  have hlocates : Locates { filename } w _ (locate [] 0 events) :=
    replay_locate (orderly_start filename) hr
  have hparent : ∀ {home : Option Nat}, (homesOf (locate [] 0 events))[c]? = some home →
      ∃ s, w.arena.scopes[c]? = some s ∧ s.parent = home.map Int.ofNat := by
    intro home hhome
    obtain ⟨s, hs, hparent⟩ := hlocates.parent hhome
    exact ⟨s, Nat.zero_add c ▸ hs, hparent⟩
  constructor
  · intro h
    obtain ⟨s, hs, hp⟩ := h
    have hlt : c < (homesOf (locate [] 0 events)).length := by
      have hsize := hlocates.size
      rw [homesOf, List.length_map]
      exact Nat.zero_add ((locate [] 0 events).filter (·.2.isEntry)).length ▸ hsize ▸
        Arena.getElem?_lt hs
    obtain ⟨home, hhome⟩ : ∃ home, (homesOf (locate [] 0 events))[c]? = some home :=
      ⟨_, List.getElem?_eq_getElem hlt⟩
    obtain ⟨t, ht, hparent⟩ := hparent hhome
    cases hs.symm.trans ht
    obtain ⟨q, rfl, hq⟩ := Option.map_eq_some_iff.mp (hparent.symm.trans hp)
    rw [hhome, Int.ofNat.inj hq]
  · intro h
    obtain ⟨s, hs, hp⟩ := hparent h
    exact ⟨s, hs, hp⟩

/-- Whether a scope is at the top level was said when it was opened. -/
theorem toplevel_replay {filename : String} {events : List Event} {w : Walk}
    (hr : replay { filename } events = .ok w) {i : Nat} {s : Scope}
    (hs : w.arena.scopes[i]? = some s) :
    (events.filter Event.isEntry)[i]? = some (.enter s.isToplevel) := by
  induction events using List.reverseRecOn generalizing w i s with
  | nil =>
    cases hr
    simp at hs
  | append_singleton events e ih =>
    obtain ⟨u, hu, hlast⟩ := replay_append_iff.mp hr
    obtain ⟨_, hstep, hend⟩ := replay_cons_iff.mp hlast
    cases hend
    have horderly := (orderly_start filename).replay hu
    have hsize : (events.filter Event.isEntry).length = u.arena.size := by
      have hlocates : Locates { filename } u _ (locate [] 0 events) :=
        replay_locate (orderly_start filename) hu
      rw [hlocates.size, entryCount_locate, ← List.countP_eq_length_filter]
      exact (Nat.zero_add _).symm
    -- a scope that was there has the flag that it had
    have hkept : ∀ {t : Scope}, u.arena.scopes[i]? = some t → t.isToplevel = s.isToplevel →
        ((events ++ [e]).filter Event.isEntry)[i]? = some (.enter s.isToplevel) := by
      intro t ht htop
      have hi : i < (events.filter Event.isEntry).length := hsize ▸ Arena.getElem?_lt ht
      rw [List.filter_append, List.getElem?_append_left hi, ih hu ht, htop]
    cases effect_of_step hstep with
    | enter top =>
      rw [Arena.getElem?_add _ _ top horderly.nested.head_lt] at hs
      split at hs
      · next hi =>
        cases hs
        rw [List.filter_append, List.getElem?_append_right (by omega), hi, hsize, Nat.sub_self]
        rfl
      · obtain ⟨t, ht, rfl⟩ := Option.map_eq_some_iff.mp hs
        refine hkept ht ?_
        split <;> rfl
    | @leave k rest hopen =>
      obtain ⟨c, hc⟩ := horderly.head hopen
      rw [Arena.getElem?_close horderly.nested.forest hc (horderly.proper hc).distinct] at hs
      obtain ⟨t, ht, rfl⟩ := Option.map_eq_some_iff.mp hs
      exact hkept ht (congrArg (·.1) (Scope.core_resolved _ _ _ _ t)).symm
    | @act e k rest he hopen =>
      rw [Arena.getElem?_modify] at hs
      obtain ⟨t, ht, rfl⟩ := Option.map_eq_some_iff.mp hs
      refine hkept ht ?_
      split
      · exact (congrArg (·.2.1) (Scope.frame_perform t e)).symm
      · rfl
    | quiet hquiet harena => exact hkept (harena ▸ hs) rfl

/-! ## Blocks further on -/

/-- Events that find more scopes opened before them do what they do further on. -/
theorem locate_shift (d : Nat) (opened : List Nat) {next : Nat} (hnext : 0 < next)
    (events : List Event) :
    locate (opened.map (shift d)) (next + d) events =
      (locate opened next events).map (relabel (shift d)) := by
  induction events generalizing opened next with
  | nil => rfl
  | cons e events ih =>
    have hhead : (opened.map (shift d)).head? = opened.head?.map (shift d) := List.head?_map
    have hadvance : advance (opened.map (shift d)) (next + d) e =
        ((advance opened next e).1.map (shift d), (advance opened next e).2 + d) := by
      cases e with
      | enter top =>
        rw [advance, advance, List.map_cons, shift_of_pos hnext, Nat.add_right_comm]
      | leave => rw [advance, advance, List.map_tail]
      | _ => rfl
    have hpos : 0 < (advance opened next e).2 := by
      cases e <;> simp [advance, hnext]
    rw [locate, locate, hadvance, ih _ hpos, List.map_append, Node.map_told, hhead]

/-- A module that has a block in it, between others. -/
def enclosed (before block behind : List Event) : List Event :=
  .enter true :: (before ++ block ++ behind) ++ [.leave]

/-- What the scopes of the block come to in a walk `w` that opens `d` scopes in front of it. -/
structure Encloses (block : List Event) (w : Walk) (acts : Nat → List Event) (d : Nat) : Prop where
  orderly : w.Orderly
  size : d + entryCount block < w.arena.size
  actions : ∀ {k : Nat}, k < entryCount block →
    acts (shift d (k + 1)) = doneIn (k + 1) (locate [0] 1 block)
  parent : ∀ {k : Nat}, k < entryCount block → ∀ p, w.arena.Parent (shift d (k + 1)) p ↔
    ∃ q, p = shift d q ∧ (homesOf (locate [0] 1 block))[k]? = some (some q)
  child : ∀ {k : Nat}, k < entryCount block → ∀ {c : Nat}, w.arena.Parent c (shift d (k + 1)) →
    ∃ i, i < entryCount block ∧ c = shift d (i + 1)
  top : ∀ {k : Nat} {s : Scope}, k < entryCount block →
    w.arena.scopes[shift d (k + 1)]? = some s →
    (block.filter Event.isEntry)[k]? = some (.enter s.isToplevel)

section Enclosed

variable {before block behind : List Event} (hbefore : Block before) (hblock : Block block)
  (hbehind : Block behind)
include hbefore hblock hbehind

theorem locate_enclosed :
    locate [] 0 (enclosed before block behind) = (none, .enter true) ::
      (locate [0] 1 before ++
        (locate [0] 1 block).map (relabel (shift (entryCount before))) ++
        locate [0] (1 + entryCount before + entryCount block) behind) := by
  have hmoved := locate_shift (entryCount before) [0] Nat.one_pos block
  rw [enclosed, List.cons_append, locate, advance,
    ((hbefore.append hblock).append hbehind).locate_append, List.append_assoc,
    hbefore.locate_append, hblock.locate_append, ← hmoved]
  simp [locate, told, Event.isEntry, Event.isAction, shift, Nat.add_assoc]

/-- The scopes in which the scopes of a module are opened. -/
theorem homesOf_enclosed :
    homesOf (locate [] 0 (enclosed before block behind)) = none ::
      (homesOf (locate [0] 1 before) ++
        ((homesOf (locate [0] 1 block)).map (Option.map (shift (entryCount before))) ++
        homesOf (locate [0] (1 + entryCount before + entryCount block) behind))) := by
  rw [locate_enclosed hbefore hblock hbehind, ← homesOf_relabel, ← homesOf_append,
    ← homesOf_append, ← List.append_assoc]
  rfl

/-- The scope in which a scope of the block is opened. -/
theorem home_enclosed {k : Nat} (hk : k < entryCount block) :
    (homesOf (locate [] 0 (enclosed before block behind)))[shift (entryCount before) (k + 1)]? =
      ((homesOf (locate [0] 1 block))[k]?).map (Option.map (shift (entryCount before))) := by
  have hlength := length_homesOf_locate [0] 1 before
  have hlength' := length_homesOf_locate [0] 1 block
  rw [homesOf_enclosed hbefore hblock hbehind, shift_succ, List.getElem?_cons_succ,
    List.getElem?_append_right (by omega), hlength, Nat.add_sub_cancel,
    List.getElem?_append_left (by rw [List.length_map, hlength']; exact hk), List.getElem?_map]

omit hblock hbehind in
/-- Nothing in front of a block happens in its scopes. -/
theorem ne_home_before {k : Nat} {item : Option Nat × Event} (h : item ∈ locate [0] 1 before) :
    item.1 ≠ some (shift (entryCount before) (k + 1)) := by
  intro heq
  rw [shift_succ] at heq
  rcases hbefore.home h with hhome | ⟨j, hj, _, hhigh⟩
  · exact absurd (heq.symm.trans hhome) (by simp)
  · have := Option.some.inj (heq.symm.trans hj)
    omega

omit hbefore hblock in
/-- Nothing behind a block happens in its scopes. -/
theorem ne_home_behind {k : Nat} (hk : k < entryCount block) {item : Option Nat × Event}
    (h : item ∈ locate [0] (1 + entryCount before + entryCount block) behind) :
    item.1 ≠ some (shift (entryCount before) (k + 1)) := by
  intro heq
  rw [shift_succ] at heq
  rcases hbehind.home h with hhome | ⟨j, hj, hlow, _⟩
  · exact absurd (heq.symm.trans hhome) (by simp)
  · have := Option.some.inj (heq.symm.trans hj)
    omega

theorem doneIn_enclosed {k : Nat} (hk : k < entryCount block) :
    doneIn (shift (entryCount before) (k + 1)) (locate [] 0 (enclosed before block behind)) =
      doneIn (k + 1) (locate [0] 1 block) := by
  have hinjective : Function.Injective (shift (entryCount before)) := fun _ _ => shift_inj
  have hroot : ∀ i, doneIn i [(none, .enter true)] = [] := fun _ => rfl
  rw [locate_enclosed hbefore hblock hbehind, ← List.singleton_append, doneIn_append,
    doneIn_append, doneIn_append, hroot, doneIn_relabel hinjective,
    doneIn_eq_nil fun _ h => ne_home_before hbefore h,
    doneIn_eq_nil fun _ h => ne_home_behind hbehind hk h, List.nil_append, List.nil_append,
    List.append_nil]

/-- What is opened in a scope of the block is a scope of the block. -/
theorem exists_of_home {k c : Nat} (hk : k < entryCount block)
    (hc : (homesOf (locate [] 0 (enclosed before block behind)))[c]? =
      some (some (shift (entryCount before) (k + 1)))) :
    ∃ i, i < entryCount block ∧ c = shift (entryCount before) (i + 1) := by
  have hlength := length_homesOf_locate [0] 1 before
  have hlength' := length_homesOf_locate [0] 1 block
  rw [homesOf_enclosed hbefore hblock hbehind] at hc
  cases c with
  | zero => cases hc
  | succ c =>
    rw [List.getElem?_cons_succ] at hc
    rcases Nat.lt_or_ge c (entryCount before) with hlt | hge
    · rw [List.getElem?_append_left (by omega)] at hc
      obtain ⟨item, hitem, hhome⟩ := exists_item_of_mem_homesOf (List.mem_of_getElem? hc)
      exact absurd hhome (ne_home_before hbefore hitem)
    rcases Nat.lt_or_ge (c - entryCount before) (entryCount block) with hlt | hge'
    · refine ⟨c - entryCount before, hlt, ?_⟩
      rw [shift_succ]
      omega
    · rw [List.getElem?_append_right (by omega), List.getElem?_append_right
        (by rw [List.length_map]; omega)] at hc
      obtain ⟨item, hitem, hhome⟩ := exists_item_of_mem_homesOf (List.mem_of_getElem? hc)
      exact absurd hhome (ne_home_behind hbehind hk hitem)

omit hbefore hblock hbehind in
theorem entryCount_enclosed :
    entryCount (enclosed before block behind) =
      1 + entryCount before + entryCount block + entryCount behind := by
  rw [enclosed, entryCount_append, ← List.singleton_append, entryCount_append, entryCount_append,
    entryCount_append]
  simp [entryCount, Event.isEntry, Nat.add_assoc]

omit hbefore hblock hbehind in
theorem entry_enclosed {k : Nat} (hk : k < entryCount block) :
    ((enclosed before block behind).filter Event.isEntry)[shift (entryCount before) (k + 1)]? =
      (block.filter Event.isEntry)[k]? := by
  have hlength : (before.filter Event.isEntry).length = entryCount before :=
    List.countP_eq_length_filter.symm
  have hlength' : (block.filter Event.isEntry).length = entryCount block :=
    List.countP_eq_length_filter.symm
  have hentries : (enclosed before block behind).filter Event.isEntry = .enter true ::
      (before.filter Event.isEntry ++ (block.filter Event.isEntry ++
        behind.filter Event.isEntry)) := by
    simp [enclosed, List.filter_cons, Event.isEntry]
  rw [hentries, shift_succ, List.getElem?_cons_succ,
    List.getElem?_append_right (by omega), hlength, Nat.add_sub_cancel,
    List.getElem?_append_left (by omega)]

theorem encloses_enclosed {filename : String} {w : Walk}
    (hr : replay { filename } (enclosed before block behind) = .ok w) :
    Encloses block w (actionsIn (moments { filename } (enclosed before block behind)))
      (entryCount before) := by
  have hlocates : Locates { filename } w _ (locate [] 0 (enclosed before block behind)) :=
    replay_locate (orderly_start filename) hr
  have hsize : w.arena.size = 0 + entryCount (enclosed before block behind) :=
    entryCount_locate [] 0 _ ▸ hlocates.size
  refine ⟨(orderly_start filename).replay hr, ?_, ?_, ?_, ?_, ?_⟩
  · rw [hsize, entryCount_enclosed]
    omega
  · intro k hk
    exact (hlocates.actions _).trans (doneIn_enclosed hbefore hblock hbehind hk)
  · intro k hk p
    rw [parent_iff_home hr, home_enclosed hbefore hblock hbehind hk, Option.map_eq_some_iff]
    constructor
    · intro h
      obtain ⟨home, hhome, h⟩ := h
      obtain ⟨q, rfl, rfl⟩ := Option.map_eq_some_iff.mp h
      exact ⟨q, rfl, hhome⟩
    · intro h
      obtain ⟨q, rfl, hhome⟩ := h
      exact ⟨_, hhome, rfl⟩
  · intro k hk c hc
    exact exists_of_home hbefore hblock hbehind hk ((parent_iff_home hr _ _).mp hc)
  · intro k s hk hs
    rw [← entry_enclosed hk]
    exact toplevel_replay hr hs

end Enclosed

/-- A walk that encloses a block hosts the walk of a module that has no other scopes. -/
theorem Encloses.hosts {block : List Event} {v w : Walk} {acts acts' : Nat → List Event} {d : Nat}
    (hv : Encloses block v acts 0) (hw : Encloses block w acts' d)
    (hsize : v.arena.size = entryCount block + 1)
    (hbound : ∀ name, Bound name (acts' 0) ↔ Bound name (acts 0)) : Hosts v w acts acts' d where
  orderly := hv.orderly
  orderly' := hw.orderly
  actions := by
    intro j hpos hj
    obtain ⟨k, rfl⟩ := Nat.exists_eq_add_one.mpr hpos
    have hk : k < entryCount block := by omega
    exact (hw.actions hk).trans (hv.actions hk).symm
  parent := by
    intro j hpos hj p
    obtain ⟨k, rfl⟩ := Nat.exists_eq_add_one.mpr hpos
    have hk : k < entryCount block := by omega
    have hparent : ∀ q, v.arena.Parent (k + 1) q ↔
        (homesOf (locate [0] 1 block))[k]? = some (some q) := by
      intro q
      refine (hv.parent hk q).trans ?_
      simp [shift_zero]
    simp only [hw.parent hk, hparent]
  child := by
    intro j hpos hj c hc
    obtain ⟨k, rfl⟩ := Nat.exists_eq_add_one.mpr hpos
    obtain ⟨i, hi, rfl⟩ := hw.child (by omega) hc
    exact ⟨i + 1, Nat.succ_pos i, by omega, rfl⟩
  bound := hbound

/-! ## What happens in the module itself -/

/-- What happens in front of a block of events in the scope that is open. -/
def own (events : List Event) : List Event := doneIn 0 (locate [0] 1 events)

theorem doneIn_zero_locate {next : Nat} (hnext : 0 < next) (events : List Event) :
    doneIn 0 (locate [0] next events) = own events := by
  have hinjective : Function.Injective (shift (next - 1)) := fun _ _ => shift_inj
  have hmoved := locate_shift (next - 1) [0] Nat.one_pos events
  have hnext' : 1 + (next - 1) = next := by omega
  rw [hnext'] at hmoved
  exact (congrArg (doneIn 0) hmoved).trans (doneIn_relabel hinjective 0 _)

theorem own_append {first second : List Event} (h : Block first) :
    own (first ++ second) = own first ++ own second := by
  rw [own, h.locate_append, doneIn_append, doneIn_zero_locate (by omega) second]
  rfl

/-- Nothing that happens in a scope happens around it. -/
theorem own_scope (top : Bool) {inner : List Event} (h : Block inner) :
    own (.enter top :: inner ++ [.leave]) = [] := by
  have hentry : doneIn 0 (Node.told (some 0) (.enter top)) = [] := rfl
  have hinner : doneIn 0 (locate [1, 0] 2 inner) = [] := by
    refine doneIn_eq_nil fun item hitem => ?_
    rcases h.home hitem with hhome | ⟨j, hj, hlow, _⟩
    · rw [hhome]
      simp
    · rw [hj, Ne, Option.some.injEq]
      omega
  have hleave : doneIn 0 (locate [1, 0] (2 + entryCount inner) [.leave]) = [] := rfl
  rw [own, List.cons_append, locate, advance, doneIn_append, h.locate_append, doneIn_append]
  exact congrArg₂ (· ++ ·) hentry (congrArg₂ (· ++ ·) hinner hleave)

theorem own_flatten {blocks : List (List Event)} (h : ∀ b ∈ blocks, Block b) :
    own blocks.flatten = blocks.flatMap own := by
  induction blocks with
  | nil => rfl
  | cons b blocks ih =>
    rw [List.flatten_cons, own_append (h b List.mem_cons_self), List.flatMap_cons,
      ih fun b hb => h b (List.mem_cons_of_mem _ hb)]

theorem own_of_actions {events : List Event} (h : ∀ e ∈ events, e.isAction = true) :
    own events = events := by
  induction events with
  | nil => rfl
  | cons e events ih =>
    have haction := h e List.mem_cons_self
    have hone : own [e] = [e] := by
      cases e <;> first | rfl | cases haction
    have hlevel : Node.Level [e] := Node.level_of_actions (by simpa using haction)
    rw [← List.singleton_append, own_append (block_level hlevel), hone,
      ih fun e he => h e (List.mem_cons_of_mem _ he)]

theorem actions_module {before block behind : List Event} (hbefore : Block before)
    (hblock : Block block) (hbehind : Block behind) {filename : String} {w : Walk}
    (hr : replay { filename } (enclosed before block behind) = .ok w) :
    actionsIn (moments { filename } (enclosed before block behind)) 0 =
      own before ++ own block ++ own behind := by
  have hlocates : Locates { filename } w _ (locate [] 0 (enclosed before block behind)) :=
    replay_locate (orderly_start filename) hr
  have hinjective : Function.Injective (shift (entryCount before)) := fun _ _ => shift_inj
  have hroot : doneIn 0 [(none, .enter true)] = [] := rfl
  have hmoved : doneIn 0 ((locate [0] 1 block).map (relabel (shift (entryCount before)))) =
      own block := doneIn_relabel hinjective 0 _
  refine (hlocates.actions 0).trans ?_
  change doneIn 0 (locate [] 0 (enclosed before block behind)) = _
  rw [locate_enclosed hbefore hblock hbehind, ← List.singleton_append, doneIn_append,
    doneIn_append, doneIn_append, hroot, hmoved, doneIn_zero_locate (by omega) behind,
    List.nil_append]
  rfl

end ScopeLint.Walk
