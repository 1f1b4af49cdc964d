import ScopeLint.Proofs.Blocks
import ScopeLint.Proofs.Chronicle

/-! # Walks inside walks

What a scope reports is decided by its actions, by those of the scopes around and
inside it, and by nothing else. So if the scopes of one walk are found in another,
with the same actions and inside each other in the same way, they report the same
there. Of the outermost scope it only matters what names it binds. -/
namespace ScopeLint

theorem NameTable.perm_entries {α : Type} {t u : NameTable α} (ht : t.Distinct) (hu : u.Distinct)
    (h : ∀ name value, t.find? name = some value ↔ u.find? name = some value) :
    t.entries.Perm u.entries := by
  refine (List.perm_ext_iff_of_nodup (List.Nodup.of_map _ ht) (List.Nodup.of_map _ hu)).mpr ?_
  intro entry
  obtain ⟨name, value⟩ := entry
  rw [ht.mem_entries_iff, hu.mem_entries_iff]
  exact h name value

namespace Scope

/-! ## What decides the messages of a scope -/

theorem messages_perm {s t : Scope} (hcore : t.core = s.core)
    (hundefined : t.undefined.entries.Perm s.undefined.entries)
    (hunused : t.unused.entries.Perm s.unused.entries) (filename : String) :
    (t.messages filename).Perm (s.messages filename) := by
  obtain ⟨_, hhistory, _, hshadowed⟩ := core_eq_iff.mp hcore
  have hshadowings : t.shadowings = s.shadowings := by
    unfold shadowings
    rw [hhistory, hshadowed]
  have hbindings : t.unusedBindings.Perm s.unusedBindings := by
    unfold unusedBindings
    rw [hhistory]
    exact hunused.filterMap _
  refine ((hundefined.map _).append (hbindings.filterMap _)).append ?_
  rw [shadowedMessages, shadowedMessages, hshadowings]

end Scope

/-! ## The scopes of one walk in another -/

/-- The first scope stays, the others are moved on. -/
def shift (d j : Nat) : Nat := if j = 0 then 0 else j + d

theorem shift_of_pos {d j : Nat} (h : 0 < j) : shift d j = j + d := if_neg (by omega)

theorem shift_succ (d k : Nat) : shift d (k + 1) = k + d + 1 := Nat.add_right_comm k 1 d

theorem shift_zero (j : Nat) : shift 0 j = j := by
  cases j <;> rfl

theorem shift_pos_iff {d j : Nat} : 0 < shift d j ↔ 0 < j := by
  unfold shift
  split <;> omega

theorem shift_inj {d i j : Nat} (h : shift d i = shift d j) : i = j := by
  unfold shift at h
  split at h <;> split at h <;> omega

/-- The scopes of `v`, but for the first, are scopes of `w`: moved on by `d`, with the same actions
and inside each other as they were. The first scopes bind the same names. -/
structure Hosts (v w : Walk) (acts acts' : Nat → List Event) (d : Nat) : Prop where
  orderly : v.Orderly
  orderly' : w.Orderly
  actions : ∀ {j : Nat}, 0 < j → j < v.arena.size → acts' (shift d j) = acts j
  parent : ∀ {j : Nat}, 0 < j → j < v.arena.size → ∀ p,
    w.arena.Parent (shift d j) p ↔ ∃ q, p = shift d q ∧ v.arena.Parent j q
  child : ∀ {j : Nat}, 0 < j → j < v.arena.size → ∀ {c}, w.arena.Parent c (shift d j) →
    ∃ i, 0 < i ∧ i < v.arena.size ∧ c = shift d i
  bound : ∀ name, Bound name (acts' 0) ↔ Bound name (acts 0)

namespace Hosts

variable {v w : Walk} {acts acts' : Nat → List Event} {d : Nat} (h : Hosts v w acts acts' d)
include h

theorem pos_of_parent {c p : Nat} (hp : v.arena.Parent c p) : 0 < c :=
  Nat.zero_lt_of_lt (h.orderly.nested.ordered hp)

theorem lt_of_inside {j q : Nat} (hj : j < v.arena.size) (hin : v.arena.Inside j q) :
    q < v.arena.size :=
  Nat.lt_trans (h.orderly.nested.index_lt hin) hj

/-- Around a scope of `v` there are scopes of `v`. -/
theorem inside_iff {j : Nat} (hpos : 0 < j) (hj : j < v.arena.size) {m : Nat} :
    w.arena.Inside (shift d j) m ↔ ∃ q, m = shift d q ∧ v.arena.Inside j q := by
  constructor
  · intro hin
    induction hin with
    | single hp =>
      obtain ⟨q, hq, hp⟩ := (h.parent hpos hj _).mp hp
      exact ⟨q, hq, .single hp⟩
    | tail _ hp ih =>
      obtain ⟨q, rfl, hq⟩ := ih
      have hpos' : 0 < q := shift_pos_iff.mp (Nat.zero_lt_of_lt (h.orderly'.nested.ordered hp))
      obtain ⟨r, hr, hp⟩ := (h.parent hpos' (h.lt_of_inside hj hq) _).mp hp
      exact ⟨r, hr, hq.tail hp⟩
  · intro hin
    obtain ⟨q, rfl, hin⟩ := hin
    induction hin with
    | single hp => exact .single ((h.parent hpos hj _).mpr ⟨_, rfl, hp⟩)
    | tail hin hp ih =>
      exact ih.tail ((h.parent (h.pos_of_parent hp) (h.lt_of_inside hj hin) _).mpr ⟨_, rfl, hp⟩)

/-- Inside a scope of `v` there are scopes of `v`. -/
theorem exists_of_inside {j : Nat} (hpos : 0 < j) (hj : j < v.arena.size) {c : Nat}
    (hin : w.arena.Inside c (shift d j)) : ∃ i, 0 < i ∧ i < v.arena.size ∧ c = shift d i := by
  generalize hm : shift d j = m at hin
  induction hin generalizing j with
  | single hp => exact h.child hpos hj (hm ▸ hp)
  | tail _ hp ih =>
    obtain ⟨i, hpos', hi, rfl⟩ := h.child hpos hj (hm ▸ hp)
    exact ih hpos' hi rfl

theorem inside_shift_iff {i j : Nat} (hpos : 0 < i) (hi : i < v.arena.size) :
    w.arena.Inside (shift d i) (shift d j) ↔ v.arena.Inside i j := by
  rw [h.inside_iff hpos hi]
  constructor
  · intro hin
    obtain ⟨q, heq, hin⟩ := hin
    exact shift_inj heq ▸ hin
  · exact fun hin => ⟨j, rfl, hin⟩

theorem bound_iff {q : Nat} (hq : q < v.arena.size) (name : String) :
    Bound name (acts' (shift d q)) ↔ Bound name (acts q) := by
  rcases Nat.eq_zero_or_pos q with rfl | hpos
  · exact h.bound name
  · rw [h.actions hpos hq]

theorem met_iff {j : Nat} (hpos : 0 < j) (hj : j < v.arena.size) (name : String) :
    w.arena.Met acts' name (shift d j) ↔ v.arena.Met acts name j := by
  constructor
  · intro hmet
    obtain ⟨c, span, hin, hused, hfree⟩ := hmet
    obtain ⟨i, hipos, hi, rfl⟩ := h.exists_of_inside hpos hj hin
    rw [h.actions hipos hi] at hused
    refine ⟨i, span, (h.inside_shift_iff hipos hi).mp hin, hused, ?_⟩
    intro m him hmj
    have hm := h.lt_of_inside hi him
    have hmpos : 0 < m := Nat.zero_lt_of_lt (h.orderly.nested.index_lt hmj)
    rw [← h.bound_iff hm name]
    exact hfree _ ((h.inside_shift_iff hipos hi).mpr him) ((h.inside_shift_iff hmpos hm).mpr hmj)
  · intro hmet
    obtain ⟨i, span, hin, hused, hfree⟩ := hmet
    have hipos : 0 < i := Nat.zero_lt_of_lt (h.orderly.nested.index_lt hin)
    have hi : i < v.arena.size := hin.lt_size
    refine ⟨shift d i, span, (h.inside_shift_iff hipos hi).mpr hin, ?_, ?_⟩
    · rw [h.actions hipos hi]
      exact hused
    · intro m him hmj
      obtain ⟨q, hqpos, hq, rfl⟩ := h.exists_of_inside hpos hj hmj
      rw [h.bound_iff hq name]
      exact hfree q ((h.inside_shift_iff hipos hi).mp him) ((h.inside_shift_iff hqpos hq).mp hmj)

end Hosts

/-- A scope reports in a walk that hosts its own what it reports in its own. -/
theorem Hosts.messages_perm {filename : String} {events events' : List Event} {v w : Walk} {d : Nat}
    (h : Hosts v w (actionsIn (Walk.moments { filename } events))
      (actionsIn (Walk.moments { filename } events')) d)
    (hv : Walk.replay { filename } events = .ok v) (hw : Walk.replay { filename } events' = .ok w)
    (hopen : v.opened = []) (hopen' : w.opened = []) {j : Nat} (hpos : 0 < j) {s t : Scope}
    (hs : v.arena.scopes[j]? = some s) (ht : w.arena.scopes[shift d j]? = some t)
    (htop : t.isToplevel = s.isToplevel) :
    (t.messages filename).Perm (s.messages filename) := by
  have hj := Arena.getElem?_lt hs
  have hresolves := Walk.Resolves.replay hv
  have hresolves' := Walk.Resolves.replay hw
  have hcore : t.core = s.core := by
    rw [Scope.core_of_replay hv hs, Scope.core_of_replay hw ht, htop, h.actions hpos hj]
  refine Scope.messages_perm hcore ?_ ?_ filename
  · refine NameTable.perm_entries (hresolves'.answers ht).parkedOnce
      (hresolves.answers hs).parkedOnce fun name span => ?_
    rw [hresolves'.undefined_iff hopen' ht, hresolves.undefined_iff hopen hs, h.actions hpos hj]
    refine and_congr_right fun _ => ?_
    constructor
    · intro hfree m hin
      rw [← h.bound_iff (h.lt_of_inside hj hin) name]
      exact hfree _ ((h.inside_shift_iff hpos hj).mpr hin)
    · intro hfree m hin
      obtain ⟨q, rfl, hinner⟩ := (h.inside_iff hpos hj).mp hin
      rw [h.bound_iff (h.lt_of_inside hj hinner) name]
      exact hfree q hinner
  · refine NameTable.perm_entries (hresolves'.answers ht).listedOnce
      (hresolves.answers hs).listedOnce fun name place => ?_
    have hbindings : t.bindings = s.bindings := congrArg (·.2.2.1) hcore
    have hwalked := hresolves.orderly.mem_walked hopen hj
    have hwalked' := hresolves'.orderly.mem_walked hopen' (Arena.getElem?_lt ht)
    rw [(hresolves'.answers ht).listed, (hresolves.answers hs).listed, hbindings,
      h.actions hpos hj, h.met_iff hpos hj]
    exact and_congr_left fun _ => iff_of_true hwalked' hwalked

end ScopeLint
