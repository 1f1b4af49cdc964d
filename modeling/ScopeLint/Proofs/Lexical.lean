import ScopeLint.Proofs.Built
import ScopeLint.Proofs.Reports

/-! # Undefined and unused names of a walked tree -/
namespace ScopeLint

/-- The bindings and uses that a walk of a tree makes in a scope, in order. -/
def Node.actionsIn (root : Node) (filename : String) (i : Nat) : List Event :=
  ScopeLint.actionsIn (Walk.moments { filename } (root.trace .empty).1) i

theorem resolves_walk {root : Node} {filename : String} {w : Walk}
    (hw : walk root filename = .ok w) :
    Walk.Resolves (Walk.moments { filename } (root.trace .empty).1) w ∧ w.opened = [] := by
  obtain ⟨hr, ho, _⟩ := walk_ok_iff.mp hw
  exact ⟨Walk.Resolves.replay hr, ho⟩

/-- In a tree that can be walked, as every tree can that a text parses to, a name is undefined in a
scope exactly if it is used there before any binding of it, and no scope around binds it at any
time. It is recorded, and reported once, where it was used first. -/
theorem undefined_iff_unbound_around {root : Node} {filename : String}
    (hroot : (∃ code, parse code = .ok root) ∨ ∃ w, walk root filename = .ok w) :
    ∃ w, walk root filename = .ok w ∧
      ∀ i s, w.arena.scopes[i]? = some s → ∀ name,
        (∀ span, s.undefined.find? name = some span ↔
          UsedFirst name span (root.actionsIn filename i) ∧
            ∀ m, w.arena.Inside i m → ¬ Bound name (root.actionsIn filename m)) ∧
        (s.messages filename).filter (Diagnostic.concerns [.undefinedName] name) =
          ((s.undefined.find? name).map
            (Diagnostic.make filename .undefinedName name · .error none)).toList := by
  have hwalk : ∃ w, walk root filename = .ok w := by
    rcases hroot with ⟨code, hcode⟩ | hw
    · exact walk_parse_ok hcode filename
    · exact hw
  obtain ⟨w, hw⟩ := hwalk
  obtain ⟨hresolves, hopen⟩ := resolves_walk hw
  refine ⟨w, hw, ?_⟩
  intro i s hs name
  exact ⟨hresolves.undefined_iff hopen hs name,
    Scope.messages_undefined (hresolves.answers hs).parkedOnce filename name⟩

/-- A function in a function: the inner one uses a name that the outer one binds, one that the
module binds after it, and one that nobody binds. -/
def closures : Node :=
  let use (id : Nat) (name : String) : Node :=
    .mk id .unknown .exprStmt [[.mk (id + 1) (.point id 0) (.name name) []]]
  let assign (id : Nat) (name : String) : Node :=
    .mk id .unknown (.assign "=")
      [[.mk (id + 1) .unknown (.name name) []], [.mk (id + 2) .unknown (.literal .none) []]]
  .mk 0 .unknown .module [[
    .mk 1 .unknown (.functionDef "outer" .unknown) [[], [.mk 2 .unknown (.param "p" "") [[]]], [
      assign 3 "x",
      .mk 6 .unknown (.functionDef "inner" .unknown) [[], [], [use 7 "x", use 9 "y", use 11 "z"]],
      assign 13 "w"]],
    assign 16 "z"]]

theorem undefined_in_closures : ∃ w s, walk closures "closures" = .ok w ∧
    w.arena.scopes[2]? = some s ∧ s.undefined.find? "y" = some (.point 9 0) ∧
    UsedFirst "y" (.point 9 0) (closures.actionsIn "closures" 2) ∧
    (∀ m, w.arena.Inside 2 m → ¬ Bound "y" (closures.actionsIn "closures" m)) ∧
    (s.messages "closures").filter (Diagnostic.concerns [.undefinedName] "y") =
      [Diagnostic.make "closures" .undefinedName "y" (.point 9 0) .error none] ∧
    -- the inner function uses `z` before the module binds it
    UsedFirst "z" (.point 11 0) (closures.actionsIn "closures" 2) ∧
    s.undefined.find? "z" = none ∧ ∃ m, w.arena.Inside 2 m ∧
      Bound "z" (closures.actionsIn "closures" m) := by
  have hwalk : ∃ w, walk closures "closures" = .ok w := walk_module_ok rfl (by decide) "closures"
  obtain ⟨w, hw, h⟩ := undefined_iff_unbound_around (.inr hwalk)
  obtain ⟨s, hs, hy, hz⟩ : ∃ s, w.arena.scopes[2]? = some s ∧
      s.undefined.find? "y" = some (.point 9 0) ∧ s.undefined.find? "z" = none := by
    cases hw
    exact ⟨_, rfl, rfl, rfl⟩
  have hused : UsedFirst "z" (.point 11 0) (closures.actionsIn "closures" 2) :=
    ⟨[.use "x" (.point 7 0), .use "y" (.point 9 0)], [], rfl, by decide⟩
  obtain ⟨husedFirst, hunbound⟩ := ((h 2 s hs "y").1 (.point 9 0)).mp hy
  have hreport := (h 2 s hs "y").2
  rw [hy] at hreport
  refine ⟨w, s, hw, hs, hy, husedFirst, hunbound, hreport, hused, hz, ?_⟩
  -- were it bound nowhere around, it would be undefined
  by_contra hnone
  have hfound := ((h 2 s hs "z").1 (.point 11 0)).mpr
    ⟨hused, fun m hm hbound => hnone ⟨m, hm, hbound⟩⟩
  rw [hz] at hfound
  cases hfound

/-- A name that a scope binds is on its unused list exactly if it is not declared to be an outer
one, is not used there after its first binding, and is not what a use in a scope inside means. It
is reported once then, where it was bound last: as an import, or as a local name that is no
parameter. -/
theorem unused_iff_nothing_means_it {root : Node} {filename : String} {w : Walk}
    (hw : walk root filename = .ok w) {i : Nat} {s : Scope} (hs : w.arena.scopes[i]? = some s)
    {name : String} (hbound : Bound name (root.actionsIn filename i)) :
    (s.unused.contains name = true ↔
      ¬ Declared name (root.actionsIn filename i) ∧ ¬ UsedBound name (root.actionsIn filename i) ∧
        ¬ w.arena.Met (root.actionsIn filename) name i) ∧
    ∃ span traits, LastBinding name span traits (root.actionsIn filename i) ∧
      (s.messages filename).filter (Diagnostic.concerns [.unusedImport, .unusedLocal] name) =
        if s.unused.contains name then
          if traits.isImport then [Diagnostic.make filename .unusedImport name span .error none]
          else if !s.isToplevel && !traits.isFuncArg then
            [Diagnostic.make filename .unusedLocal name span .error none]
          else []
        else [] := by
  obtain ⟨hresolves, hopen⟩ := resolves_walk hw
  have hanswers := hresolves.answers hs
  have htracks := hanswers.tracks
  obtain ⟨p, hp⟩ := NameTable.contains_iff.mp ((htracks.bound name).mpr hbound)
  obtain ⟨b, hb, _⟩ := htracks.proper.placed hp
  have hfind : s.find? name = some b := by simp [Scope.find?, hp, hb]
  -- the place on the list is that of the current binding
  have hplace : s.unused.contains name = true ↔ s.unused.find? name = some p := by
    rw [NameTable.contains_iff]
    constructor
    · rintro ⟨q, hq⟩
      have hbinding := ((hanswers.listed name q).mp hq).2.1
      rwa [← Option.some.inj (hbinding.symm.trans hp)]
    · exact fun h => ⟨p, h⟩
  refine ⟨hplace.trans (hresolves.unused_iff hopen hs hp), ?_⟩
  obtain ⟨traits, hlast, himport, hparam, htop⟩ := htracks.last hfind
  refine ⟨b.span, traits, hlast, ?_⟩
  rw [Scope.messages_unused hanswers.listedOnce]
  split
  · next hc =>
    rw [hplace.mp hc, Option.bind_some, hb, Option.bind_some, Scope.unusedReport, himport, hparam,
      htop]
    split
    · rfl
    · split <;> rfl
  · next hc =>
    have hnone : s.unused.find? name = none := by
      simpa [NameTable.contains] using hc
    rw [hnone]
    rfl

theorem unused_in_closures : ∃ w s, walk closures "closures" = .ok w ∧
    w.arena.scopes[1]? = some s ∧ Bound "w" (closures.actionsIn "closures" 1) ∧
    (s.unused.contains "w" = true ↔
      ¬ Declared "w" (closures.actionsIn "closures" 1) ∧
        ¬ UsedBound "w" (closures.actionsIn "closures" 1) ∧
        ¬ w.arena.Met (closures.actionsIn "closures") "w" 1) ∧
    ∃ span traits, LastBinding "w" span traits (closures.actionsIn "closures" 1) ∧
      (s.messages "closures").filter (Diagnostic.concerns [.unusedImport, .unusedLocal] "w") =
        if s.unused.contains "w" then
          if traits.isImport then [Diagnostic.make "closures" .unusedImport "w" span .error none]
          else if !s.isToplevel && !traits.isFuncArg then
            [Diagnostic.make "closures" .unusedLocal "w" span .error none]
          else []
        else [] := by
  have hbound : Bound "w" (closures.actionsIn "closures" 1) := by
    unfold Bound
    decide
  exact ⟨_, _, rfl, rfl, hbound, unused_iff_nothing_means_it rfl rfl hbound⟩

end ScopeLint
