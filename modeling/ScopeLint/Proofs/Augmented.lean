import ScopeLint.Lint
import ScopeLint.Proofs.History
import ScopeLint.Proofs.TreeOrder

/-! # Augmented assignments

An augmented assignment reads its target before it writes it, so it uses the names
there and binds none. Its target and its value are expressions; whatever an
expression binds it binds in a scope that it opens itself. A list as a target is
the exception: the names that stand directly in it are bound, and not used. -/
namespace ScopeLint

/-- An expression that opens no scope is no place for targets. -/
theorem Form.binds_none {form : Form} (hform : form.isExpression = true)
    (hscope : form.opensScope = false) : form.bindsTarget = none ∧ form.bindsName = none := by
  cases form <;> simp_all [isExpression, opensScope, bindsTarget, bindsName]

namespace Node

theorem Arranged.of_mem_occurrences {n : Node} (h : n.Arranged) {around : Around} {o : Occurrence}
    (ho : o ∈ n.occurrences around) : o.node.Arranged := by
  induction h generalizing around with
  | mk here inner ih =>
    rcases List.mem_cons.mp ho with rfl | ho
    · exact .mk here inner
    · obtain ⟨_, part, hpart, n, hn, ho, _⟩ := mem_occurrencesParts ho
      exact ih part hpart n hn ho

theorem occurrences_subset_of_child {n : Node} (around : Around) {c : Node} (hc : c ∈ n.children) :
    ∃ k, c.occurrences ((n, k) :: around) ⊆ n.occurrences around := by
  have hparts : ∀ (j : Nat) (parts : List (List Node)), c ∈ parts.flatten →
      ∃ k, c.occurrences ((n, k) :: around) ⊆ occurrencesParts n around j parts := by
    intro j parts hc
    induction parts generalizing j with
    | nil => cases hc
    | cons part parts ih =>
      rw [List.flatten_cons, List.mem_append] at hc
      rcases hc with hc | hc
      · refine ⟨j, fun o ho => List.mem_append_left _ ?_⟩
        exact mem_occurrencesPart.mpr ⟨c, hc, ho⟩
      · obtain ⟨k, hk⟩ := ih (j + 1) hc
        exact ⟨k, List.subset_append_of_subset_right _ hk⟩
  obtain ⟨k, hk⟩ := hparts 0 n.parts hc
  rw [occurrences_eq]
  exact ⟨k, List.subset_cons_of_subset _ hk⟩

theorem child_mem_occurrences {n : Node} (around : Around) {c : Node} (hc : c ∈ n.children) :
    ∃ k, ⟨c, (n, k) :: around⟩ ∈ n.occurrences around := by
  obtain ⟨k, hk⟩ := occurrences_subset_of_child around hc
  refine ⟨k, hk ?_⟩
  rw [occurrences_eq]
  exact List.mem_cons_self

/-! ## What stands in an expression -/

/-- Where a node stands in an expression. -/
inductive Stands (n : Node) (around : Around) (p : Occurrence) : Prop where
  /-- In a scope that a node of the expression opens. -/
  | inside (m : Occurrence) (mem : m ∈ n.occurrences around)
    (opens : m.node.form.opensScope = true) (home : p.home = some m.node.id)
  | whole (eq : p = ⟨n, around⟩)
  /-- Directly in the list that the expression is. -/
  | element (array : n.form = .array) (k : Nat) (place : p.around = (n, k) :: around)
    (mem : p.node ∈ n.children) (expression : p.node.form.isExpression = true)
  /-- Further down, in the scope around the expression and where nothing is bound. -/
  | deeper (home : p.home = homeOf around) (expression : p.node.form.isExpression = true)
    (role : nameRole p.around = none)

/-- From an expression to one that holds it and opens no scope. -/
theorem Stands.of_child {n c : Node} {around : Around} {k : Nat} {p : Occurrence}
    (h : c.Stands ((n, k) :: around) p) (hc : c ∈ n.children)
    (hsub : c.occurrences ((n, k) :: around) ⊆ n.occurrences around)
    (hform : n.form.isExpression = true) (hscope : n.form.opensScope = false)
    (hchild : c.form.isExpression = true) : n.Stands around p := by
  have hhome : homeOf ((n, k) :: around) = homeOf around := by
    rw [homeOf_cons, hscope, if_neg Bool.false_ne_true]
  obtain ⟨htarget, hname⟩ := Form.binds_none hform hscope
  cases h with
  | inside m hm hopens hinner => exact .inside m (hsub hm) hopens hinner
  | whole heq =>
    subst heq
    by_cases harray : n.form = .array
    · exact .element harray k rfl hc hchild
    · refine .deeper hhome hchild ?_
      rw [nameRole, if_neg harray, hname, ite_self]
  | element harray j hplace hmem hexpression =>
    -- a list in an expression is no target
    refine .deeper ?_ hexpression ?_
    · rw [Occurrence.home, hplace, homeOf_cons, harray]
      exact hhome
    · rw [hplace, nameRole, if_pos harray]
      cases k with
      | zero => exact htarget
      | succ k => rfl
  | deeper hinner hexpression hrole => exact .deeper (hinner.trans hhome) hexpression hrole

theorem stands_of_mem {n : Node} (hn : n.Arranged) (hcomplete : n.Complete)
    (hform : n.form.isExpression = true) {around : Around} {p : Occurrence}
    (hp : p ∈ n.occurrences around) : n.Stands around p := by
  induction hn generalizing around with
  | @mk id span form parts here inner ih =>
    rcases List.mem_cons.mp hp with rfl | hp
    · exact .whole rfl
    obtain ⟨k, part, hpart, c, hc, hp, hsub⟩ := mem_occurrencesParts hp
    have hmem : c ∈ (mk id span form parts).children := List.mem_flatten.mpr ⟨part, hpart, hc⟩
    have hchild : c.Complete := hcomplete.children hmem
    cases hscope : form.opensScope with
    | true =>
      -- what is not in a scope further inside is in the one opened here
      rcases home_of_mem_occurrences hchild hp with hhome | ⟨m, hm, hopens, hhome⟩
      · rw [homeOf_cons] at hhome
        exact .inside _ List.mem_cons_self hscope (hhome.trans (if_pos hscope))
      · exact .inside m (List.mem_cons_of_mem _ (hsub hm)) hopens hhome
    | false =>
      have hexpression := Form.isExpression_of_admits hform hscope (here part hpart c hc)
      exact (ih part hpart c hc hchild hexpression hp).of_child hmem
        (List.subset_cons_of_subset _ hsub) hform hscope hexpression

/-- In an expression that is no target nothing is bound in the scope around it. -/
theorem role_of_mem {n : Node} (hn : n.Arranged) (hcomplete : n.Complete)
    (hform : n.form.isExpression = true) {around : Around} (hname : nameRole around = none)
    (hlist : listRole around = none) {p : Occurrence} (hp : p ∈ n.occurrences around)
    (houtside : ∀ m ∈ n.occurrences around, p.home ≠ some m.node.id) :
    p.node.form.isExpression = true ∧ nameRole p.around = none := by
  cases stands_of_mem hn hcomplete hform hp with
  | inside m hm _ hinner => exact absurd hinner (houtside m hm)
  | whole heq =>
    rw [heq]
    exact ⟨hform, hname⟩
  | element harray k hplace _ hexpression =>
    refine ⟨hexpression, ?_⟩
    rw [hplace, nameRole, if_pos harray]
    exact hlist
  | deeper _ hexpression hrole => exact ⟨hexpression, hrole⟩

/-- The scope that a node stands in comes from around the tree, or is opened by a node that is
none of those inside. -/
theorem home_of_distinct {n : Node} (hn : n.Complete) {around : Around} {o : Occurrence}
    (ho : o ∈ n.occurrences around) (hdistinct : (idsOf (n.occurrences around)).Nodup) :
    o.home = homeOf around ∨
      ∃ id, o.home = some id ∧ id ∉ idsOf (o.node.occurrences o.around) := by
  unfold Complete at hn
  induction hn generalizing around with
  | @mk id span form parts here inner ih =>
    rcases List.mem_cons.mp ho with rfl | ho
    · exact .inl rfl
    obtain ⟨j, part, hpart, c, hc, ho, hrun⟩ := infix_parts ho
    have hparts := List.nodup_cons.mp hdistinct
    have hchild : (idsOf (c.occurrences ((mk id span form parts, j) :: around))).Nodup :=
      hparts.2.sublist (hrun.sublist.map _)
    rcases ih part hpart c hc ho hchild with hhome | hhome
    · rw [homeOf_cons] at hhome
      split at hhome
      · refine .inr ⟨_, hhome, fun hid => hparts.1 ?_⟩
        have hinner := Complete.infix_occurrences (inner part hpart c hc) ho
        exact List.map_subset _ (hinner.trans hrun).subset hid
      · exact .inl hhome
    · exact .inr hhome

/-- A node does not stand in a scope that is opened in it. -/
theorem Whole.home_outside {root : Node} (h : root.Whole) {o : Occurrence}
    (ho : o ∈ root.occurrences []) {m : Occurrence} (hm : m ∈ o.node.occurrences o.around) :
    o.home ≠ some m.node.id := by
  intro hhome
  rcases home_of_distinct h.tree ho h.distinct with hnone | ⟨id, hid, hout⟩
  · rw [hnone] at hhome
    cases hhome
  · cases hid.symm.trans hhome
    exact hout (List.mem_map_of_mem hm)

end Node

theorem homeOf_append {inner : Around} (h : ∀ q ∈ inner, q.1.form.opensScope = false)
    (around : Around) : homeOf (inner ++ around) = homeOf around := by
  have hnone : inner.find? (·.1.form.opensScope) = none := by
    simpa [List.find?_eq_none] using h
  rw [homeOf, List.find?_append, hnone, Option.none_or, homeOf]

/-- An expression acts as a name does. -/
theorem Occurrence.actions_of_expression {p : Occurrence}
    (h : p.node.form.isExpression = true) {e : Event} (he : e ∈ p.actions) :
    ∃ name, p.node.form = .name name ∧
      (nameRole p.around = none ∧ e = .use name p.node.span ∨
        ∃ isLoop, nameRole p.around = some isLoop ∧
          e = .bind name p.node.span {} isLoop false) := by
  cases hform : p.node.form with
  | name name =>
    refine ⟨name, rfl, ?_⟩
    cases hrole : nameRole p.around <;> simp_all [actions]
  | _ => simp_all [actions, Form.isExpression]

theorem Occurrence.use_of_expression {p : Occurrence} (h : p.node.form.isExpression = true)
    (hrole : nameRole p.around = none) {e : Event} (he : e ∈ p.actions) :
    ∃ name span, e = .use name span := by
  obtain ⟨name, _, ⟨_, rfl⟩ | ⟨isLoop, hbound, _⟩⟩ := actions_of_expression h he
  · exact ⟨name, _, rfl⟩
  · cases hrole.symm.trans hbound

/-! ## What an augmented assignment does -/

/-- An augmented assignment at its place. It holds two expressions, and its scope is not one that
is opened in them. -/
structure Augmentation (o : Occurrence) (target value : Node) : Prop where
  form : ∃ op, op ≠ "=" ∧ o.node.form = .assign op
  parts : o.node.parts = [[target], [value]]
  arranged : target.Arranged ∧ value.Arranged
  complete : target.Complete ∧ value.Complete
  expressions : target.form.isExpression = true ∧ value.form.isExpression = true
  outside : ∀ m ∈ o.node.occurrences o.around, o.home ≠ some m.node.id

theorem Form.parts_of_assign {op : String} {parts : List (List Node)}
    (h : (Form.assign op).fits (parts.map List.length) = true) :
    ∃ target value, parts = [[target], [value]] := by
  have hcounts : parts.map List.length = [1, 1] := by
    generalize parts.map List.length = counts at h
    rcases counts with _ | ⟨_ | _ | _, _ | ⟨_ | _ | _, _ | ⟨_, _⟩⟩⟩ <;> first | rfl | cases h
  simp only [List.map_eq_cons_iff, List.map_eq_nil_iff, List.length_eq_one_iff] at hcounts
  obtain ⟨_, _, rfl, ⟨target, rfl⟩, _, _, rfl, ⟨value, rfl⟩, rfl⟩ := hcounts
  exact ⟨target, value, rfl⟩

theorem augmentation_of_parse {code : String} {root : Node} (hparse : parse code = .ok root)
    {o : Occurrence} (ho : o ∈ root.occurrences []) {op : String}
    (hform : o.node.form = .assign op) (hop : op ≠ "=") :
    ∃ target value, Augmentation o target value := by
  have hwhole := Node.whole_parse hparse
  have hfits := ((Node.wellFormed_iff.mp (wellFormed_parse hparse).2).of_mem_occurrences ho).here
  rw [hform] at hfits
  obtain ⟨target, value, hparts⟩ := Form.parts_of_assign hfits
  have harranged := (arranged_parse hparse).of_mem_occurrences ho
  have hcomplete : o.node.Complete := hwhole.tree.of_mem_occurrences ho
  have htarget : [target] ∈ o.node.parts := by simp [hparts]
  have hvalue : [value] ∈ o.node.parts := by simp [hparts]
  have hexpression : ∀ {c : Node}, [c] ∈ o.node.parts → c.form.isExpression = true := by
    intro c hc
    have hadmits := harranged.admits hc (List.mem_singleton_self c)
    rw [hform] at hadmits
    simpa [Form.admits, Form.isModule, Form.holdsStatements, hop] using hadmits
  refine ⟨target, value, ⟨op, hop, hform⟩, hparts, ?_, ?_, ?_,
    fun _ hm => hwhole.home_outside ho hm⟩
  · exact ⟨harranged.part htarget (List.mem_singleton_self _),
      harranged.part hvalue (List.mem_singleton_self _)⟩
  · exact ⟨hcomplete.children (by simp [Node.children, hparts]),
      hcomplete.children (by simp [Node.children, hparts])⟩
  · exact ⟨hexpression htarget, hexpression hvalue⟩

namespace Augmentation

variable {o : Occurrence} {target value : Node} (h : Augmentation o target value)
include h

theorem mem_occurrences {p : Occurrence} : p ∈ o.node.occurrences o.around ↔
    p = o ∨ p ∈ target.occurrences ((o.node, 0) :: o.around) ∨
      p ∈ value.occurrences ((o.node, 1) :: o.around) := by
  rw [Node.occurrences_eq, h.parts]
  simp [Node.occurrencesParts, Node.occurrencesPart]

theorem home_part (k : Nat) : homeOf ((o.node, k) :: o.around) = o.home := by
  obtain ⟨op, _, hform⟩ := h.form
  rw [Node.homeOf_cons, hform]
  rfl

/-- A name as the target is not bound, but a list is a target. -/
theorem roles : nameRole ((o.node, 0) :: o.around) = none ∧
    listRole ((o.node, 0) :: o.around) = some false := by
  obtain ⟨op, hop, hform⟩ := h.form
  simp [nameRole, listRole, hform, Form.bindsName, Form.bindsTarget, hop]

theorem roles_value : nameRole ((o.node, 1) :: o.around) = none ∧
    listRole ((o.node, 1) :: o.around) = none := by
  obtain ⟨op, _, hform⟩ := h.form
  simp [nameRole, listRole, hform]

/-- What stands in the target and in the scope of the statement is no target, or an element of
the list that the target is. -/
theorem role_in_target {p : Occurrence} (hp : p ∈ target.occurrences ((o.node, 0) :: o.around))
    (hhome : p.home = o.home) : p.node.form.isExpression = true ∧
      (nameRole p.around = none ∨ target.form = .array ∧ p.node ∈ target.children ∧
        ∃ k, p.around = (target, k) :: (o.node, 0) :: o.around) := by
  cases Node.stands_of_mem h.arranged.1 h.complete.1 h.expressions.1 hp with
  | inside m hm _ hinner =>
    have hmem := h.mem_occurrences.mpr (.inr (.inl hm))
    exact absurd (hhome.symm.trans hinner) (h.outside m hmem)
  | whole heq =>
    rw [heq]
    exact ⟨h.expressions.1, .inl h.roles.1⟩
  | element harray k hplace hmem hexpression =>
    exact ⟨hexpression, .inr ⟨harray, hmem, k, hplace⟩⟩
  | deeper _ hexpression hrole => exact ⟨hexpression, .inl hrole⟩

theorem role_in_value {p : Occurrence} (hp : p ∈ value.occurrences ((o.node, 1) :: o.around))
    (hhome : p.home = o.home) : p.node.form.isExpression = true ∧ nameRole p.around = none := by
  refine Node.role_of_mem h.arranged.2 h.complete.2 h.expressions.2 h.roles_value.1 h.roles_value.2
    hp fun m hm => ?_
  rw [hhome]
  exact h.outside m (h.mem_occurrences.mpr (.inr (.inr hm)))

/-- In its scope the statement uses names, and binds those that are elements of its target. -/
theorem action_cases {p : Occurrence} (hp : p ∈ o.node.occurrences o.around)
    (hhome : p.home = o.home) {e : Event} (he : e ∈ p.actions) :
    (∃ name span, e = .use name span) ∨ target.form = .array ∧ ∃ c ∈ target.children, ∃ name,
      c.form = .name name ∧ e = .bind name c.span {} false false := by
  rcases h.mem_occurrences.mp hp with rfl | hp | hp
  · obtain ⟨op, _, hform⟩ := h.form
    simp [Occurrence.actions, hform] at he
  · obtain ⟨hexpression, hrole⟩ := h.role_in_target hp hhome
    obtain ⟨name, hname, ⟨_, rfl⟩ | ⟨isLoop, hbound, rfl⟩⟩ :=
      Occurrence.actions_of_expression hexpression he
    · exact .inl ⟨name, _, rfl⟩
    rcases hrole with hnone | ⟨harray, hmem, k, hplace⟩
    · cases hnone.symm.trans hbound
    · rw [hplace, nameRole, if_pos harray, h.roles.2] at hbound
      cases hbound
      exact .inr ⟨harray, p.node, hmem, name, hname, rfl⟩
  · obtain ⟨hexpression, hrole⟩ := h.role_in_value hp hhome
    exact .inl (Occurrence.use_of_expression hexpression hrole he)

/-- A name in the target is used, unless a scope is opened around it or it is an element. -/
theorem use_mem {p : Occurrence} (hp : p ∈ target.occurrences ((o.node, 0) :: o.around))
    {name : String} (hname : p.node.form = .name name) (hhome : p.home = o.home)
    (helement : ∀ k, target.form = .array → p.around ≠ (target, k) :: (o.node, 0) :: o.around) :
    .use name p.node.span ∈ p.actions := by
  rcases (h.role_in_target hp hhome).2 with hrole | ⟨harray, _, k, hplace⟩
  · simp [Occurrence.actions, hname, hrole]
  · exact absurd hplace (helement k harray)

/-- An element of the target is bound. -/
theorem bind_mem (harray : target.form = .array) {c : Node} (hc : c ∈ target.children)
    {name : String} (hname : c.form = .name name) :
    ∃ p ∈ o.node.occurrences o.around, p.home = o.home ∧
      .bind name c.span {} false false ∈ p.actions := by
  obtain ⟨k, hmem⟩ := Node.child_mem_occurrences ((o.node, 0) :: o.around) hc
  refine ⟨_, h.mem_occurrences.mpr (.inr (.inl hmem)), ?_, ?_⟩
  · rw [Occurrence.home, Node.homeOf_cons, harray]
    exact h.home_part 0
  · simp [Occurrence.actions, hname, nameRole, harray, h.roles.2]

end Augmentation

/-! ## The law -/

/-- What happens in the scope of an augmented assignment while the walk is at it. -/
structure Occurrence.Augments (o : Occurrence) (target : Node) (during : List Event) : Prop where
  /-- Nothing but what the nodes of the statement do there. -/
  actions : during.Perm
    (((o.node.occurrences o.around).filter fun p => p.home = o.home).flatMap Occurrence.actions)
  /-- A name in the target is used, if no scope is opened between it and the statement and it is
  not an element of the list that the target is. -/
  used : ∀ p ∈ target.occurrences ((o.node, 0) :: o.around), ∀ (inner : Around) (name : String),
    p.node.form = .name name → p.around = inner ++ (o.node, 0) :: o.around →
    (∀ q ∈ inner, q.1.form.opensScope = false) → (target.form = .array → inner.length ≠ 1) →
    .use name p.node.span ∈ during
  /-- Nothing is bound, unless the target is a list. -/
  unbound : target.form ≠ .array → ∀ e ∈ during, ∃ name span, e = .use name span
  /-- Then the names are bound that are elements of the list, and nothing else. -/
  elements : target.form = .array → ∀ e : Event,
    (e ∈ during ∧ ∀ name span, e ≠ .use name span) ↔ ∃ c ∈ target.children, ∃ name,
      c.form = .name name ∧ e = .bind name c.span {} false false

theorem Augmentation.augments {o : Occurrence} {target value : Node}
    (h : Augmentation o target value) {during : List Event} (hduring : during.Perm
      (((o.node.occurrences o.around).filter fun p => p.home = o.home).flatMap
        Occurrence.actions)) : o.Augments target during := by
  have hmem : ∀ {e : Event}, e ∈ during ↔
      ∃ p ∈ o.node.occurrences o.around, p.home = o.home ∧ e ∈ p.actions := by
    intro e
    simp [hduring.mem_iff, and_assoc]
  refine ⟨hduring, ?_, ?_, ?_⟩
  · intro p hp inner name hname hplace hclear helement
    have hhome : p.home = o.home := by
      rw [Occurrence.home, hplace, homeOf_append hclear, h.home_part]
    refine hmem.mpr ⟨p, h.mem_occurrences.mpr (.inr (.inl hp)), hhome, h.use_mem hp hname hhome ?_⟩
    intro k harray hdirect
    refine helement harray ?_
    have hlength := congrArg List.length (hplace.symm.trans hdirect)
    simp only [List.length_append, List.length_cons] at hlength
    omega
  · intro hlist e he
    obtain ⟨p, hp, hhome, he⟩ := hmem.mp he
    exact (h.action_cases hp hhome he).resolve_right fun hbound => hlist hbound.1
  · intro harray e
    constructor
    · rintro ⟨he, hother⟩
      obtain ⟨p, hp, hhome, he⟩ := hmem.mp he
      rcases h.action_cases hp hhome he with ⟨name, span, rfl⟩ | ⟨_, hbound⟩
      · exact absurd rfl (hother name span)
      · exact hbound
    · rintro ⟨c, hc, name, hname, rfl⟩
      refine ⟨hmem.mpr (h.bind_mem harray hc hname), ?_⟩
      intro _ _ heq
      cases heq

/-- While the walk is at a node, it does what the nodes there do; what it does in a scope before
and after that stands before and after it. -/
theorem Node.Whole.split_actionsIn {root : Node} (h : root.Whole) {filename : String} {w : Walk}
    (hw : walk root filename = .ok w) {i : Nat} {m : Occurrence}
    (hm : root.openers[i]? = some m) {o : Occurrence} (ho : o ∈ root.occurrences [])
    (hname : o.node.name? = none) (hlist : o.node.form ≠ .array) :
    ∃ before during after, root.actionsIn filename i = before ++ (during ++ after) ∧
      during.Perm (((o.node.occurrences o.around).filter fun p =>
        p.home = some m.node.id).flatMap Occurrence.actions) := by
  have hclaimed : o.node.isClaimed o.around = false := by simp [Node.isClaimed, hname]
  have hbound : o.node.boundFrom o.around = [] := by
    cases hform : o.node.form <;> simp_all [Node.boundFrom, Node.name?]
  obtain ⟨_, _, before, after, _, hactions, _⟩ := h.split_actionsIn_at hw hm ho hclaimed
  exact ⟨before, _, after, hactions, h.perm_actions_at ho hbound hm⟩

/-- In every text that parses, an augmented assignment uses the names in its target that stand in
its scope and binds nothing there: the bindings of the scope are those that were made before it and
after it. The exception is a target that is a list: then the names directly in it are bound. -/
theorem augmented_assignment_uses_target {code : String} {root : Node}
    (hparse : parse code = .ok root) (filename : String) {o : Occurrence}
    (ho : o ∈ root.occurrences []) {op : String} (hform : o.node.form = .assign op)
    (hop : op ≠ "=") :
    ∃ target value w i m s before during after, o.node.parts = [[target], [value]] ∧
      walk root filename = .ok w ∧ root.openers[i]? = some m ∧ o.home = some m.node.id ∧
      w.arena.scopes[i]? = some s ∧
      root.actionsIn filename i = before ++ (during ++ after) ∧ o.Augments target during ∧
      s.history.map Binding.record =
        (before ++ (during ++ after)).filterMap (Event.record? s.isToplevel) ∧
      (target.form ≠ .array → s.history.map Binding.record =
        (before ++ after).filterMap (Event.record? s.isToplevel)) := by
  have hwhole := Node.whole_parse hparse
  obtain ⟨target, value, h⟩ := augmentation_of_parse hparse ho hform hop
  obtain ⟨w, hw⟩ := walk_parse_ok hparse filename
  obtain ⟨m, hmem, hhome⟩ := hwhole.exists_home ho (by simp [hform])
  obtain ⟨i, hm⟩ := List.getElem?_of_mem hmem
  obtain ⟨s, hs⟩ : ∃ s, w.arena.scopes[i]? = some s := by
    refine Arena.exists_scope ?_
    rw [hwhole.size_arena hw]
    exact (List.getElem?_eq_some_iff.mp hm).1
  obtain ⟨before, during, after, hactions, hduring⟩ :=
    hwhole.split_actionsIn hw hm ho (by simp [Node.name?, hform]) (by simp [hform])
  rw [← hhome] at hduring
  have haugments := h.augments hduring
  have hhistory : s.history.map Binding.record =
      (before ++ (during ++ after)).filterMap (Event.record? s.isToplevel) := by
    rw [← hactions]
    exact ((Walk.Recalls.replay (walk_ok_iff.mp hw).1).recalls hs).history
  refine ⟨target, value, w, i, m, s, before, during, after, h.parts, hw, hm, hhome, hs, hactions,
    haugments, hhistory, fun hlist => ?_⟩
  have hnone : during.filterMap (Event.record? s.isToplevel) = [] := by
    refine List.filterMap_eq_nil_iff.mpr fun e he => ?_
    obtain ⟨name, span, rfl⟩ := haugments.unbound hlist e he
    rfl
  rw [hhistory, List.filterMap_append, List.filterMap_append, List.filterMap_append, hnone,
    List.nil_append]

/-- The statement stands in a function, its target holds two names, and its value opens a scope. -/
def nestedTarget : String := "def f(a):\n\ta.b[i] += lambda k: k\n"

theorem uses_of_nestedTarget : ∃ root o, parse nestedTarget = .ok root ∧
    o ∈ root.occurrences [] ∧ o.node.form = .assign "+=" ∧ "+=" ≠ "=" ∧
    ∃ target value w i m s before during after, o.node.parts = [[target], [value]] ∧
      walk root "m" = .ok w ∧ root.openers[i]? = some m ∧ o.home = some m.node.id ∧
      w.arena.scopes[i]? = some s ∧
      root.actionsIn "m" i = before ++ (during ++ after) ∧ o.Augments target during ∧
      s.history.map Binding.record =
        (before ++ (during ++ after)).filterMap (Event.record? s.isToplevel) ∧
      (target.form ≠ .array → s.history.map Binding.record =
        (before ++ after).filterMap (Event.record? s.isToplevel)) := by
  have hfacts : (parse nestedTarget).toOption.map (fun root =>
      (root.occurrences []).any (·.node.form = .assign "+=")) = some true := by decide +kernel
  obtain ⟨root, hparse, hfacts⟩ := parsed_of_map hfacts
  obtain ⟨o, ho, hform⟩ := List.any_eq_true.mp hfacts
  have hform := of_decide_eq_true hform
  have hop : "+=" ≠ "=" := by decide
  exact ⟨root, o, hparse, ho, hform, hop,
    augmented_assignment_uses_target hparse "m" ho hform hop⟩

/-- Both names of a list are bound, and neither is reported to be undefined. -/
theorem bindings_of_augmented_list :
    (∃ root, parse "a, b += 1\n" = .ok root ∧
      (∃ o ∈ root.occurrences [], o.node.form = .assign "+=") ∧
      ∃ w s, walk root "m" = .ok w ∧ w.arena.scopes[0]? = some s ∧
        s.history.map Binding.name = ["a", "b"]) ∧
    (lint "a, b += 1\n" "m" []).map (fun report => report.diagnostics.map (·.ident)) = .ok [] ∧
    (lint "a += 1\n" "m" []).map (fun report => report.diagnostics.map (·.ident)) =
      .ok ["undef"] := by
  refine ⟨?_, by decide +kernel, by decide +kernel⟩
  have hfacts : (parse "a, b += 1\n").toOption.map (fun root =>
      ((root.occurrences []).any (·.node.form = .assign "+="),
        (walk root "m").toOption.bind fun w =>
          w.arena.scopes[0]?.map (·.history.map Binding.name))) =
      some (true, some ["a", "b"]) := by decide +kernel
  obtain ⟨root, hparse, hfacts⟩ := parsed_of_map hfacts
  obtain ⟨hany, hscope⟩ := Prod.mk.inj hfacts
  obtain ⟨o, ho, hform⟩ := List.any_eq_true.mp hany
  obtain ⟨w, hw⟩ := walk_parse_ok hparse "m"
  rw [hw] at hscope
  obtain ⟨s, hs, hnames⟩ := Option.map_eq_some_iff.mp hscope
  exact ⟨root, hparse, ⟨o, ho, of_decide_eq_true hform⟩, w, s, hw, hs, hnames⟩

end ScopeLint
