import ScopeLint.Proofs.Order

/-! # Deferred resolution is lexical resolution

A use that finds no binding is parked, and every scope that closes takes its own
names out of what is parked inside it. `Answers` says what a scope holds at any
moment in terms of the actions that happened in it and in the scopes around and
inside it, of which only the closed ones count. When all scopes are closed, that
is lexical resolution: `undefined_iff` and `unused_iff`. -/
namespace ScopeLint

/-- The bindings and uses that happened in a scope, in order. -/
def actionsIn (moments : List (Walk × Event)) (i : Nat) : List Event :=
  (moments.filter fun m => m.2.isAction && decide (m.1.opened.head? = some i)).map Prod.snd

theorem actionsIn_snoc (past : List (Walk × Event)) (w : Walk) (e : Event) (i : Nat) :
    actionsIn (past ++ [(w, e)]) i = actionsIn past i ++
      if e.isAction && decide (w.opened.head? = some i) then [e] else [] := by
  unfold actionsIn
  rw [List.filter_append, List.map_append]
  cases h : e.isAction && decide (w.opened.head? = some i) <;> simp [h]

theorem actionsIn_snoc_of_not_action {past : List (Walk × Event)} {w : Walk} {e : Event}
    (he : e.isAction = false) (i : Nat) :
    actionsIn (past ++ [(w, e)]) i = actionsIn past i := by
  simp [actionsIn_snoc, he]

/-- A use is parked exactly if it comes before all other actions on its name. -/
theorem Scope.parked_perform {s : Scope} {actions : List Event} {e : Event}
    (htracks : s.Tracks actions)
    (hparked : ∀ name span, s.undefined.find? name = some span ↔ UsedFirst name span actions)
    (name : String) (span : Span) :
    (s.perform e).undefined.find? name = some span ↔ UsedFirst name span (actions ++ [e]) := by
  rw [undefined_perform, usedFirst_snoc]
  cases e with
  | use used place =>
    have hmention : (s.bindings.contains used || s.undefined.contains used) = true ↔
        ¬ ∀ e ∈ actions, e.uses used = false ∧ e.binds used = false := by
      rw [Bool.or_eq_true, htracks.bound, NameTable.contains_iff]
      simp only [hparked]
      constructor
      · rintro (hb | ⟨first, hf⟩)
        · exact hb.mentioned
        · exact hf.mentioned
      · intro h
        exact (usedFirst_or_bound h).symm
    dsimp only
    split
    · next hm =>
      rw [hparked]
      refine (or_iff_left ?_).symm
      rintro ⟨heq, hnone⟩
      cases heq
      exact hmention.mp hm hnone
    · next hm =>
      have hnone := not_not.mp (mt hmention.mpr hm)
      rw [NameTable.find?_put]
      split
      · next hn =>
        subst hn
        have hnot : ¬ UsedFirst name span actions := fun hf => hf.mentioned hnone
        rw [or_iff_right hnot, and_iff_left hnone, Option.some.injEq, Event.use.injEq]
        exact (and_iff_right rfl).symm
      · next hn =>
        rw [hparked]
        refine (or_iff_left ?_).symm
        rintro ⟨heq, _⟩
        exact hn (Event.use.inj heq).1.symm
  | _ => simp [hparked]

namespace Arena

variable {a b : Arena} {acts acts' : Nat → List Event} {walked : List Nat}

/-- A use inside the scope at `i` means the name as bound there: it is not bound before it, nor in
any scope in between. -/
def Met (a : Arena) (acts : Nat → List Event) (name : String) (i : Nat) : Prop :=
  ∃ d span, a.Inside d i ∧ UsedFirst name span (acts d) ∧
    ∀ m, a.Inside d m → a.Inside m i → ¬ Bound name (acts m)

/-- What the scope `s` at `i` holds, with `acts` done so far and the scopes `walked` closed. -/
structure Answers (a : Arena) (walked : List Nat) (acts : Nat → List Event) (i : Nat)
    (s : Scope) : Prop where
  tracks : s.Tracks (acts i)
  parked : ∀ name span, s.undefined.find? name = some span ↔
    UsedFirst name span (acts i) ∧ ∀ m ∈ walked, a.Inside i m → ¬ Bound name (acts m)
  parkedOnce : s.undefined.Distinct
  listed : ∀ name p, s.unused.find? name = some p ↔ i ∈ walked ∧ s.bindings.find? name = some p ∧
    ¬ Declared name (acts i) ∧ ¬ UsedBound name (acts i) ∧ ¬ a.Met acts name i
  listedOnce : s.unused.Distinct

/-- What happens outside of a closed scope does not change who is met there. -/
theorem met_congr (hclosed : ∀ {d j : Nat}, a.Inside d j → j ∈ walked → d ∈ walked)
    (hinside : ∀ j ∈ walked, ∀ d, b.Inside d j ↔ a.Inside d j)
    (hacts : ∀ j ∈ walked, acts' j = acts j) {i : Nat} (hi : i ∈ walked) (name : String) :
    b.Met acts' name i ↔ a.Met acts name i := by
  unfold Met
  refine exists_congr fun d => exists_congr fun span => ?_
  rw [hinside i hi]
  refine and_congr_right fun hd => ?_
  rw [hacts d (hclosed hd hi)]
  refine and_congr_right fun _ => forall_congr' fun m => ?_
  rw [hinside i hi]
  constructor
  · intro h hdm hmi
    have hm := hclosed hmi hi
    exact hacts m hm ▸ h ((hinside m hm d).mpr hdm) hmi
  · intro h hdm hmi
    have hm := hclosed hmi hi
    rw [hacts m hm]
    exact h ((hinside m hm d).mp hdm) hmi

/-- A scope answers as before if its own content is as before and nothing happened in any closed
scope. -/
theorem Answers.transfer {i : Nat} {s t : Scope} (h : a.Answers walked acts i s)
    (hclosed : ∀ {d j : Nat}, a.Inside d j → j ∈ walked → d ∈ walked)
    (hinside : ∀ j ∈ walked, ∀ d, b.Inside d j ↔ a.Inside d j)
    (hacts : ∀ j ∈ walked, acts' j = acts j) (hself : acts' i = acts i)
    (ht : t = { s with children := t.children }) : b.Answers walked acts' i t where
  tracks := by
    rw [ht, hself]
    exact ⟨⟨h.tracks.proper.distinct, h.tracks.proper.placed⟩, h.tracks.bound, h.tracks.last,
      h.tracks.used⟩
  parked name span := by
    rw [ht, hself]
    refine (h.parked name span).trans (and_congr_right fun _ => ?_)
    refine forall_congr' fun m => forall_congr' fun hm => ?_
    rw [hinside m hm, hacts m hm]
  parkedOnce := ht ▸ h.parkedOnce
  listed name p := by
    rw [ht, hself]
    refine (h.listed name p).trans (and_congr_right fun hi => ?_)
    rw [met_congr hclosed hinside hacts hi]
  listedOnce := ht ▸ h.listedOnce

theorem answers_fresh {i : Nat} {s : Scope} (hacts : acts i = []) (htracks : s.Tracks [])
    (hundefined : s.undefined = .empty) (hunused : s.unused = .empty) (hi : i ∉ walked) :
    a.Answers walked acts i s where
  tracks := hacts ▸ htracks
  parked := by simp [hundefined, hacts, UsedFirst]
  parkedOnce := hundefined ▸ NameTable.distinct_empty
  listed := by simp [hunused, hi]
  listedOnce := hunused ▸ NameTable.distinct_empty

/-! ## Closing a scope -/

/-- Of the scopes around a scope inside the innermost open one, the closed ones are those below the
open one. -/
theorem Nested.walked_around_iff {i d m : Nat} {opened : List Nat}
    (h : a.Nested (i :: opened) walked) (hd : a.Inside d i) (hm : a.Inside d m) :
    m ∈ walked ↔ a.Inside m i := by
  constructor
  · intro hw
    rcases Within.total hm.within hd.within with hmi | him
    · rcases within_iff.mp hmi with rfl | hin
      · exact absurd (List.mem_cons_self) (h.not_open hw)
      · exact hin
    · exact absurd him (h.not_within_walked List.mem_cons_self hw)
  · exact h.walked_of_inside_head

/-- A name is parked in a scope inside the innermost open one exactly if the binding of that one is
met. -/
theorem exists_parks_iff {i : Nat} {opened : List Nat} (h : a.Nested (i :: opened) walked)
    (hanswers : ∀ {d s}, a.scopes[d]? = some s → a.Answers walked acts d s) (name : String) :
    (∃ d ∈ a.descendants i, a.parks name d = true) ↔ a.Met acts name i := by
  constructor
  · rintro ⟨d, hd, hp⟩
    rw [mem_descendants h.forest] at hd
    obtain ⟨s, hs⟩ := exists_scope hd.lt_size
    rw [parks_iff hs] at hp
    obtain ⟨span, hspan⟩ := NameTable.contains_iff.mp hp
    obtain ⟨hfirst, hclear⟩ := ((hanswers hs).parked name span).mp hspan
    refine ⟨d, span, hd, hfirst, fun m hdm hmi => ?_⟩
    exact hclear m ((h.walked_around_iff hd hdm).mpr hmi) hdm
  · rintro ⟨d, span, hd, hfirst, hclear⟩
    obtain ⟨s, hs⟩ := exists_scope hd.lt_size
    refine ⟨d, (mem_descendants h.forest i d).mpr hd, ?_⟩
    rw [parks_iff hs]
    refine NameTable.contains_iff.mpr ⟨span, ((hanswers hs).parked name span).mpr ⟨hfirst, ?_⟩⟩
    intro m hm hdm
    exact hclear m hdm ((h.walked_around_iff hd hdm).mp hm)

/-- A binding goes on the unused list exactly if nothing used it in its own scope, and no use inside
means it. -/
theorem unmet_iff {i p : Nat} {opened : List Nat} {s : Scope} (h : a.Nested (i :: opened) walked)
    (hanswers : ∀ {d s}, a.scopes[d]? = some s → a.Answers walked acts d s)
    (hs : a.scopes[i]? = some s) {name : String} (hp : s.bindings.find? name = some p) :
    a.unmet i (name, p) = true ↔
      ¬ Declared name (acts i) ∧ ¬ UsedBound name (acts i) ∧ ¬ a.Met acts name i := by
  have htracks := (hanswers hs).tracks
  obtain ⟨b, hb, _⟩ := htracks.proper.placed hp
  have hfind : s.find? name = some b := by simp [Scope.find?, hp, hb]
  have hnone : ((a.descendants i).filter (a.parks name)).isEmpty = true ↔ ¬ a.Met acts name i := by
    rw [← exists_parks_iff h hanswers, List.isEmpty_iff, List.filter_eq_nil_iff]
    simp
  simp only [unmet, Bool.and_eq_true, hnone, hs, Option.bind_some, hb, Option.any_some,
    Bool.not_eq_true', ← Bool.not_eq_true, htracks.used hfind]
  tauto

theorem Answers.close_self {i : Nat} {opened : List Nat} {s : Scope}
    (h : a.Nested (i :: opened) walked)
    (hanswers : ∀ {d s}, a.scopes[d]? = some s → a.Answers walked acts d s)
    (hs : a.scopes[i]? = some s) :
    a.Answers (walked ++ [i]) acts i
      { s with unused := s.unused.putAll (s.bindings.entries.filter (a.unmet i)) } where
  tracks := by
    have ht := (hanswers hs).tracks
    exact ⟨⟨ht.proper.distinct, ht.proper.placed⟩, ht.bound, ht.last, ht.used⟩
  parked name span := by
    have hself : ¬ a.Inside i i := h.forest.acyclic i
    have hparked := (hanswers hs).parked name span
    simpa [or_imp, forall_and, hself] using hparked
  parkedOnce := (hanswers hs).parkedOnce
  listed name p := by
    have hdistinct := (hanswers hs).tracks.proper.distinct
    have hnone : s.unused.find? name = none := by
      rw [Option.eq_none_iff_forall_not_mem]
      intro q hq
      exact h.not_walked List.mem_cons_self (((hanswers hs).listed name q).mp hq).1
    show (s.unused.putAll (s.bindings.entries.filter (a.unmet i))).find? name = some p ↔
      i ∈ walked ++ [i] ∧ s.bindings.find? name = some p ∧ _
    rw [NameTable.find?_putAll _ _ (hdistinct.filter _), hnone, Option.or_none,
      ← (hdistinct.filter (a.unmet i)).mem_entries_iff, List.mem_filter, hdistinct.mem_entries_iff]
    constructor
    · rintro ⟨hp, hunmet⟩
      exact ⟨by simp, hp, (unmet_iff h hanswers hs hp).mp hunmet⟩
    · rintro ⟨_, hp, hunmet⟩
      exact ⟨hp, (unmet_iff h hanswers hs hp).mpr hunmet⟩
  listedOnce := (hanswers hs).listedOnce.putAll _

/-- A scope inside the one that closes loses what is parked under the names bound there. -/
theorem Answers.close_inside {i j : Nat} {opened : List Nat} {s t : Scope}
    (h : a.Nested (i :: opened) walked) (hs : s.Tracks (acts i)) (ht : a.Answers walked acts j t)
    (hin : a.Inside j i) :
    a.Answers (walked ++ [i]) acts j
      { t with undefined := t.undefined.without (s.bindings.entries.map Prod.fst) } where
  tracks := ⟨⟨ht.tracks.proper.distinct, ht.tracks.proper.placed⟩, ht.tracks.bound, ht.tracks.last,
    ht.tracks.used⟩
  parked name span := by
    have hbound : name ∈ s.bindings.entries.map Prod.fst ↔ Bound name (acts i) :=
      NameTable.mem_names_iff.trans (hs.bound name)
    have hparked := ht.parked name span
    simp only [NameTable.find?_without, hbound, List.mem_append, List.mem_singleton, or_imp,
      forall_and, forall_eq, hin, true_implies]
    split
    · next hb => simp [hbound.mp hb]
    · next hb => simpa [hbound.not.mp hb] using hparked
  parkedOnce := ht.parkedOnce.filter _
  listed name p := by
    have hj : j ∈ walked := h.walked_of_inside_head hin
    simpa [hj] using ht.listed name p
  listedOnce := ht.listedOnce

theorem Answers.close_outside {i j : Nat} {t : Scope} (ht : a.Answers walked acts j t)
    (hne : j ≠ i) (hout : ¬ a.Inside j i) : a.Answers (walked ++ [i]) acts j t where
  tracks := ht.tracks
  parked name span := by
    have hparked := ht.parked name span
    simpa [or_imp, forall_and, hout] using hparked
  parkedOnce := ht.parkedOnce
  listed name p := by simpa [hne] using ht.listed name p
  listedOnce := ht.listedOnce

/-- All scopes answer when the innermost open one closes. -/
theorem Answers.close {i j : Nat} {opened : List Nat} {t : Scope}
    (h : a.Nested (i :: opened) walked)
    (hanswers : ∀ {d s}, a.scopes[d]? = some s → a.Answers walked acts d s)
    (ht : (a.close i).1.scopes[j]? = some t) :
    (a.close i).1.Answers (walked ++ [i]) acts j t := by
  obtain ⟨s, hs⟩ := exists_scope (h.lt_size_iff.mpr (Or.inr List.mem_cons_self))
  have hdistinct := (hanswers hs).tracks.proper.distinct
  have hlinks := sameLinks_close h.forest hs hdistinct
  suffices hold : a.Answers (walked ++ [i]) acts j t from
    hold.transfer h.leave.closed (fun _ _ _ => hlinks.inside_iff) (fun _ _ => rfl) rfl rfl
  rw [getElem?_close h.forest hs hdistinct] at ht
  obtain ⟨u, hu, rfl⟩ := Option.map_eq_some_iff.mp ht
  unfold resolved
  split
  · next hin =>
    rw [mem_descendants h.forest] at hin
    exact (hanswers hu).close_inside h (hanswers hs).tracks hin
  · next hout =>
    rw [mem_descendants h.forest] at hout
    split
    · next hji =>
      subst hji
      cases hs.symm.trans hu
      exact Answers.close_self h hanswers hs
    · next hne => exact (hanswers hu).close_outside hne hout

/-! ## An action in the innermost scope -/

theorem Answers.perform {i : Nat} {opened : List Nat} {s : Scope} {e : Event}
    (h : a.Nested (i :: opened) walked) (hs : a.Answers walked acts i s)
    (he : e.isAction = true) (hself : acts' i = acts i ++ [e]) :
    a.Answers walked acts' i (s.perform e) := by
  have hi : i ∉ walked := h.not_walked List.mem_cons_self
  have hout : ∀ m ∈ walked, ¬ a.Inside i m := by
    intro m hm hin
    exact h.not_within_walked List.mem_cons_self hm hin.within
  -- around an open scope nothing is closed, so all first uses are still parked
  have hparked : ∀ name span,
      s.undefined.find? name = some span ↔ UsedFirst name span (acts i) := by
    intro name span
    rw [hs.parked]
    exact and_iff_left fun m hm hin => absurd hin (hout m hm)
  have hunused : (s.perform e).unused = s.unused := congrArg (·.2.2.2.2) (s.frame_perform e)
  refine ⟨hself ▸ hs.tracks.perform he, ?_, ?_, ?_, ?_⟩
  · intro name span
    rw [hself, Scope.parked_perform hs.tracks hparked]
    exact (and_iff_left fun m hm hin => absurd hin (hout m hm)).symm
  · rw [Scope.undefined_perform]
    split
    · split
      · exact hs.parkedOnce
      · exact hs.parkedOnce.put _ _
    · exact hs.parkedOnce
  · intro name p
    rw [hunused, hs.listed]
    simp [hi]
  · exact hunused ▸ hs.listedOnce

end Arena

namespace Walk

/-- All scopes of a walk answer, with what happened in it so far. -/
structure Resolves (past : List (Walk × Event)) (w : Walk) : Prop where
  orderly : w.Orderly
  answers : ∀ {i : Nat} {s : Scope}, w.arena.scopes[i]? = some s →
    w.arena.Answers w.walked (actionsIn past) i s
  fresh : ∀ {i : Nat}, w.arena.size ≤ i → actionsIn past i = []

theorem resolves_start (filename : String) : Resolves [] { filename } :=
  ⟨orderly_start filename, by simp, fun _ => rfl⟩

theorem Resolves.fresh_step {past : List (Walk × Event)} {w w' : Walk} {e : Event}
    (h : Resolves past w) (hstep : w.step e = .ok w') {i : Nat} (hi : w'.arena.size ≤ i) :
    actionsIn (past ++ [(w, e)]) i = [] := by
  have hsize := h.orderly.size_step hstep
  have hle : w.arena.size ≤ i := by omega
  have hhead : w.opened.head? ≠ some i := by
    intro hh
    have hlt := h.orderly.nested.head_lt i hh
    omega
  rw [actionsIn_snoc, h.fresh hle]
  simp [hhead]

theorem Resolves.step {past : List (Walk × Event)} {w w' : Walk} {e : Event}
    (h : Resolves past w) (hstep : w.step e = .ok w') : Resolves (past ++ [(w, e)]) w' := by
  refine ⟨h.orderly.step hstep, ?_, h.fresh_step hstep⟩
  intro i s hs
  have hnested := h.orderly.nested
  cases effect_of_step hstep with
  | enter top =>
    have hacts : actionsIn (past ++ [(w, .enter top)]) = actionsIn past :=
      funext (actionsIn_snoc_of_not_action rfl)
    rw [hacts]
    rw [Arena.getElem?_add _ _ top hnested.head_lt] at hs
    split at hs
    · next hi =>
      cases hs
      refine Arena.answers_fresh (h.fresh (le_of_eq hi.symm)) (Scope.tracks_nil _ _ _) rfl rfl ?_
      intro hw
      have hlt := hnested.lt_size_iff.mpr (Or.inl hw)
      omega
    · obtain ⟨t, ht, rfl⟩ := Option.map_eq_some_iff.mp hs
      refine (h.answers ht).transfer hnested.closed
        (fun j hj => h.orderly.inside_step hstep hj) (fun _ _ => rfl) rfl ?_
      split <;> rfl
  | leave hopen =>
    have hacts : actionsIn (past ++ [(w, .leave)]) = actionsIn past :=
      funext (actionsIn_snoc_of_not_action rfl)
    rw [hacts]
    exact Arena.Answers.close (hopen ▸ hnested) h.answers hs
  | @act e k rest he hopen =>
    have hlinks := Arena.sameLinks_modify w.arena k (·.perform e) fun s => Arena.link_perform s e
    have hinside : ∀ j ∈ w.walked, ∀ d,
        (w.arena.modify k (·.perform e)).Inside d j ↔ w.arena.Inside d j :=
      fun _ _ _ => hlinks.inside_iff
    have hself : actionsIn (past ++ [(w, e)]) k = actionsIn past k ++ [e] := by
      simp [actionsIn_snoc, he, hopen]
    have hother : ∀ j, j ≠ k → actionsIn (past ++ [(w, e)]) j = actionsIn past j := by
      intro j hj
      simp [actionsIn_snoc, hopen, Ne.symm hj]
    rw [Arena.getElem?_modify] at hs
    obtain ⟨t, ht, rfl⟩ := Option.map_eq_some_iff.mp hs
    by_cases hk : i = k
    · subst hk
      rw [if_pos rfl]
      have hperform := (h.answers ht).perform (hopen ▸ hnested) he hself
      exact hperform.transfer hnested.closed hinside (fun _ _ => rfl) rfl rfl
    · rw [if_neg hk]
      refine (h.answers ht).transfer hnested.closed hinside ?_ (hother i hk) rfl
      intro j hj
      refine hother j ?_
      rintro rfl
      exact hnested.not_open hj (by simp [hopen])
  | quiet hquiet harena _ hwalked =>
    have he : e.isAction = false := by cases e <;> simp_all [Event.isQuiet, Event.isAction]
    have hacts : actionsIn (past ++ [(w, e)]) = actionsIn past :=
      funext (actionsIn_snoc_of_not_action he)
    rw [harena] at hs
    rw [harena, hwalked, hacts]
    exact h.answers hs

theorem Resolves.replay {w : Walk} {events : List Event} {filename : String}
    (hr : Walk.replay { filename } events = .ok w) :
    Resolves (moments { filename } events) w :=
  replay_induction Resolves.step (resolves_start filename) hr

/-! ## When all scopes are closed -/

/-- A name is undefined in a scope exactly if it is used there before it is bound, and no scope
around binds it, sooner or later. -/
theorem Resolves.undefined_iff {past : List (Walk × Event)} {w : Walk} (h : Resolves past w)
    (hopen : w.opened = []) {i : Nat} {s : Scope} (hs : w.arena.scopes[i]? = some s)
    (name : String) (span : Span) :
    s.undefined.find? name = some span ↔ UsedFirst name span (actionsIn past i) ∧
      ∀ m, w.arena.Inside i m → ¬ Bound name (actionsIn past m) := by
  rw [(h.answers hs).parked]
  refine and_congr_right fun _ => ⟨fun hall m hin => ?_, fun hall m _ => hall m⟩
  have hlt : m < w.arena.size := lt_trans (h.orderly.nested.index_lt hin) hin.lt_size
  exact hall m (h.orderly.mem_walked hopen hlt) hin

/-- A name that a scope binds is unused there exactly if it is not declared to be an outer one, no
use follows in the scope, and no use inside means it. -/
theorem Resolves.unused_iff {past : List (Walk × Event)} {w : Walk} (h : Resolves past w)
    (hopen : w.opened = []) {i : Nat} {s : Scope} (hs : w.arena.scopes[i]? = some s)
    {name : String} {p : Nat} (hp : s.bindings.find? name = some p) :
    s.unused.find? name = some p ↔ ¬ Declared name (actionsIn past i) ∧
      ¬ UsedBound name (actionsIn past i) ∧ ¬ w.arena.Met (actionsIn past) name i := by
  rw [(h.answers hs).listed]
  have hi : i ∈ w.walked := h.orderly.mem_walked hopen (Arena.getElem?_lt hs)
  exact ⟨fun hall => hall.2.2, fun hall => ⟨hi, hp, hall⟩⟩

end Walk
end ScopeLint
