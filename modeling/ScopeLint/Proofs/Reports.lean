import ScopeLint.Proofs.Resolution

/-! # What a scope reports

The messages of a scope, taken apart by check and by name. Names come once in the
tables that the messages are made from, so a name has at most one message of a
kind. -/
namespace ScopeLint

theorem Check.ident_inj {c d : Check} : c.ident = d.ident ↔ c = d := by
  constructor
  · cases c <;> cases d <;> simp [ident]
  · exact congrArg ident

/-- Whether a diagnostic is of one of these checks, and about this name. -/
def Diagnostic.concerns (checks : List Check) (name : String) (d : Diagnostic) : Bool :=
  checks.any (d.ident == ·.ident) && d.name == name

theorem Diagnostic.concerns_make (checks : List Check) (name other filename : String)
    (check : Check) (span : Span) (severity : Severity) (line : Option Int) :
    (Diagnostic.make filename check other span severity line).concerns checks name = true ↔
      check ∈ checks ∧ other = name := by
  simp [concerns, make, Check.ident_inj]

theorem Diagnostic.filter_concerns_eq_nil {diagnostics : List Diagnostic} {checks : List Check}
    (h : ∀ d ∈ diagnostics, ∀ check ∈ checks, d.ident ≠ check.ident) (name : String) :
    diagnostics.filter (concerns checks name) = [] := by
  rw [List.filter_eq_nil_iff]
  intro d hd hc
  obtain ⟨check, hcheck, heq⟩ := List.any_eq_true.mp (Bool.and_eq_true_iff.mp hc).1
  exact h d hd check hcheck (beq_iff_eq.mp heq)

namespace Scope

theorem ident_of_undefined {s : Scope} {filename : String} {d : Diagnostic}
    (h : d ∈ s.undefinedMessages filename) : d.ident = Check.undefinedName.ident := by
  obtain ⟨entry, _, rfl⟩ := List.mem_map.mp h
  rfl

theorem ident_of_unused {s : Scope} {filename : String} {d : Diagnostic}
    (h : d ∈ s.unusedMessages filename) :
    d.ident = Check.unusedImport.ident ∨ d.ident = Check.unusedLocal.ident := by
  obtain ⟨entry, _, hd⟩ := List.mem_filterMap.mp h
  simp only [unusedReport] at hd
  split at hd
  · cases hd
    exact Or.inl rfl
  · split at hd
    · cases hd
      exact Or.inr rfl
    · cases hd

theorem ident_of_shadowed {s : Scope} {filename : String} {d : Diagnostic}
    (h : d ∈ s.shadowedMessages filename) : d.ident = Check.loopShadowed.ident := by
  obtain ⟨entry, _, hd⟩ := List.mem_filterMap.mp h
  dsimp only at hd
  split at hd
  · cases hd
    rfl
  · cases hd

/-- A name that is undefined in a scope has one message there that says so, and no other name has
one. -/
theorem messages_undefined {s : Scope} (h : s.undefined.Distinct) (filename name : String) :
    (s.messages filename).filter (Diagnostic.concerns [.undefinedName] name) =
      ((s.undefined.find? name).map
        (Diagnostic.make filename .undefinedName name · .error none)).toList := by
  have hunused : (s.unusedMessages filename).filter
      (Diagnostic.concerns [.undefinedName] name) = [] := by
    refine Diagnostic.filter_concerns_eq_nil (fun d hd => ?_) name
    rcases ident_of_unused hd with hi | hi <;> simp [hi, Check.ident_inj]
  have hshadowed : (s.shadowedMessages filename).filter
      (Diagnostic.concerns [.undefinedName] name) = [] := by
    refine Diagnostic.filter_concerns_eq_nil (fun d hd => ?_) name
    simp [ident_of_shadowed hd, Check.ident_inj]
  have hentries : (s.undefinedMessages filename).filter
      (Diagnostic.concerns [.undefinedName] name) =
      (s.undefined.entries.filter (·.1 = name)).map fun entry =>
        Diagnostic.make filename .undefinedName entry.1 entry.2 .error none := by
    rw [undefinedMessages, List.filter_map]
    refine congrArg _ (List.filter_congr fun entry _ => ?_)
    rw [Bool.eq_iff_iff, Function.comp, Diagnostic.concerns_make]
    simp
  rw [messages, List.filter_append, List.filter_append, hunused, hshadowed, hentries, h.filter_name]
  cases s.undefined.find? name <;> rfl

theorem concerns_unusedReport {filename other : String} {b : Binding} {d : Diagnostic}
    (h : unusedReport filename other b = some d) (name : String) :
    d.concerns [.unusedImport, .unusedLocal] name = true ↔ other = name := by
  unfold unusedReport at h
  split at h
  · cases h
    simp [Diagnostic.concerns_make]
  · split at h
    · cases h
      simp [Diagnostic.concerns_make]
    · cases h

/-- A name on the unused list of a scope has the message that its binding calls for, and no other
name has one. -/
theorem messages_unused {s : Scope} (h : s.unused.Distinct) (filename name : String) :
    (s.messages filename).filter (Diagnostic.concerns [.unusedImport, .unusedLocal] name) =
      (((s.unused.find? name).bind (s.history[·]?)).bind (unusedReport filename name)).toList := by
  have hundefined : (s.undefinedMessages filename).filter
      (Diagnostic.concerns [.unusedImport, .unusedLocal] name) = [] := by
    refine Diagnostic.filter_concerns_eq_nil (fun d hd => ?_) name
    simp [ident_of_undefined hd, Check.ident_inj]
  have hshadowed : (s.shadowedMessages filename).filter
      (Diagnostic.concerns [.unusedImport, .unusedLocal] name) = [] := by
    refine Diagnostic.filter_concerns_eq_nil (fun d hd => ?_) name
    simp [ident_of_shadowed hd, Check.ident_inj]
  have hentries : (s.unusedMessages filename).filter
      (Diagnostic.concerns [.unusedImport, .unusedLocal] name) =
      (s.unused.entries.filter (·.1 = name)).filterMap fun entry =>
        (s.history[entry.2]?).bind (unusedReport filename entry.1) := by
    rw [unusedMessages, unusedBindings, List.filterMap_filterMap, List.filter_filterMap,
      List.filterMap_filter]
    congr 1
    funext entry
    cases hb : s.history[entry.2]? with
    | none => simp [hb]
    | some b =>
      cases hd : unusedReport filename entry.1 b with
      | none => simp [hb, hd]
      | some d =>
        have hc := concerns_unusedReport hd name
        by_cases hn : entry.1 = name <;> simp_all
  rw [messages, List.filter_append, List.filter_append, hundefined, hshadowed, hentries,
    h.filter_name]
  cases s.unused.find? name with
  | none => rfl
  | some p => cases hb : (s.history[p]?).bind (unusedReport filename name) <;> simp [hb]

end Scope
end ScopeLint
