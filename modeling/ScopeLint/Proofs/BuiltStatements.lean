import ScopeLint.Proofs.BuiltExpressions

/-! # Statements are built as meant

One theorem for each nonterminal of statements, and from all of them together that the builder
makes of every derivation what its value is. -/
namespace ScopeLint

open Ebnf Grammar

namespace TreeBuilder

variable {depth : Nat} {span place : Span} {v : Build (List Node)}

theorem IsSmall.succ {tree : ParseTree} (h : IsBranch (IsSmall depth v) tree) :
    IsBranch (IsSmall (depth + 1) v) tree := by
  obtain ⟨b, htree, h⟩ := h
  exact ⟨b, htree, fun limit => (h limit).weaken Nat.le_of_succ_le⟩

theorem IsStatement.succ {tree : ParseTree} (h : IsStatement depth tree v) :
    IsStatement (depth + 1) tree v :=
  fun limit => (h limit).weaken Nat.le_of_succ_le

theorem IsSmall.make {label : Label} {children : List ParseTree}
    (h : ∀ limit, Builds (depth ≤ limit) (smallStatement (expr limit) ⟨label, span, children⟩) v) :
    IsBranch (IsSmall (depth + 1) v) (.tree label span children) :=
  ⟨⟨label, span, children⟩, rfl, fun limit => (h limit).weaken Nat.le_of_succ_le⟩

/-! ## Assignments -/

namespace Exprs

variable {trees : List ParseTree} {es : List Expr}

theorem dropLast (h : Exprs depth trees es) : Exprs depth trees.dropLast es.dropLast := by
  induction h with
  | nil => exact .nil
  | cons h hrest ih =>
    cases hrest with
    | nil => exact .nil
    | cons _ _ => exact .cons h ih

theorem last {tree : ParseTree} {e : Expr} (h : Exprs depth (tree :: trees) (e :: es)) :
    ∃ final span, TreeBuilder.last (tree :: trees) = .ok final ∧
      IsExpr depth final span (es.getLastD e) := by
  induction es generalizing tree e trees with
  | nil =>
    cases h with
    | cons h hrest =>
      cases hrest
      obtain ⟨span, h⟩ := h
      exact ⟨tree, span, rfl, h⟩
  | cons e' es ih =>
    cases h with
    | cons h hrest =>
      cases hrest with
      | cons h' hrest =>
        obtain ⟨final, span, hlast, hfinal⟩ := ih (.cons h' hrest)
        rw [List.getLastD_cons]
        exact ⟨final, span, hlast, hfinal⟩

/-- The value is built first, and then the targets from the last to the first. -/
theorem assignment {tree : ParseTree} {e : Expr} (h : Exprs depth (tree :: trees) (e :: es))
    (limit : Nat) : Builds (depth ≤ limit)
      (TreeBuilder.assignment (expr limit) span (tree :: trees)) (foldAssign span e es) := by
  obtain ⟨final, place, hlast, hfinal⟩ := h.last
  rw [foldAssign, List.getLastD_cons]
  refine .look hlast <| .bind (hfinal.node limit) (Builds.foldrM (h.dropLast.imp ?_))
  rintro target e ⟨_, h⟩ value
  exact .bind (h.node limit) fun _ => .pure _

end Exprs

/-! ## Clauses of statements -/

theorem concat_singleton (v : Build (List Node)) : concat [v] = v := by
  cases v <;> simp [concat, Grammar.sequence]

theorem labelled_append (label : Label) (trees trees' : List ParseTree) :
    labelled label (trees ++ trees') = labelled label trees ++ labelled label trees' := by
  simp [labelled, branches]

theorem labelled_append_other {label wanted : Label} (hne : label ≠ wanted)
    (trees inner : List ParseTree) :
    labelled wanted (trees ++ [.tree label span inner]) = labelled wanted trees := by
  rw [labelled_append, labelled_of_ne hne]
  exact List.append_nil _

/-- Nodes under another label are passed over. -/
theorem labelled_others {β : Type} {label wanted : Label} (hne : label ≠ wanted)
    {P : β → Branch → Prop} {trees : List ParseTree} {vs : List β}
    (h : List.Forall₂ (fun tree v => IsNode label (P v) tree) trees vs) :
    labelled wanted trees = [] := by
  induction h with
  | nil => rfl
  | cons h _ ih =>
    obtain ⟨span, children, rfl, _⟩ := h
    rw [labelled_of_ne hne, ih]

/-- The statements of a block take one call more than they do themselves. -/
theorem builds_suite {label : Label} {trees : List ParseTree} {vs : List (Build (List Node))}
    (h : List.Forall₂ (IsStatement depth) trees vs) (limit : Nat) :
    Builds (depth + 1 ≤ limit) (suite limit (.tree label span trees)) (concat vs) := by
  refine .look rfl ?_
  cases limit with
  | zero => exact .inr ⟨Nat.not_succ_le_zero depth, rfl⟩
  | succ limit =>
    exact .weaken (.flatten (.mapM (h.imp fun _ _ h => h limit))) Nat.le_of_succ_le_succ

/-- An `except` clause is known by its type, its name and its body. -/
theorem builds_handler {limit : Nat} {label : Label} {children : List ParseTree} {e : Option Expr}
    {type : Option ParseTree} {binder : Option Token} {body : Branch}
    (htype : ((branches children).head?.filter (·.label ≠ .suite)).map Branch.tree = type)
    (hbinder : (names children).head? = binder) (hbody : labelled .suite children = [body])
    (he : Builds (depth ≤ limit) (optional (expr limit) type) (Grammar.optional e))
    (hv : Builds (depth ≤ limit) (suite limit body.tree) v) :
    Builds (depth ≤ limit) (handler (expr limit) (suite limit) ⟨label, span, children⟩) (do
      let type ← Grammar.optional e
      let binders := binder.toList.map fun t => Node.make t.span (.varDef t.text t.span) [[]]
      return .make span .handler [type, binders, ← v]) := by
  simp only [handler, htype, hbinder, hbody]
  exact .bind he fun _ => .look rfl <| .bind hv fun _ => .pure _

/-- A node that may be missing behind others, and what is built of it. -/
structure IsOptNode {α : Type} (depth : Nat) (label : Label)
    (build : Nat → Option Branch → Result α) (trees : List ParseTree) (v : Build α) : Prop where
  builds : ∀ limit, Builds (depth ≤ limit) (build limit (labelled label trees).head?) v
  others : ∀ wanted, label ≠ wanted → labelled wanted trees = []

namespace IsOptNode

variable {α : Type} {label other : Label} {build : Nat → Option Branch → Result α}
  {trees inner : List ParseTree} {v : Build α}

theorem missing (h : ∀ limit, Builds (depth ≤ limit) (build limit none) v) :
    IsOptNode depth label build [] v :=
  ⟨h, fun _ _ => rfl⟩

theorem present {tree : ParseTree}
    (h : IsNode label (fun b => ∀ limit, Builds (depth ≤ limit) (build limit (some b)) v) tree) :
    IsOptNode depth label build [tree] v := by
  obtain ⟨span, children, rfl, h⟩ := h
  refine ⟨fun limit => ?_, fun _ hne => labelled_of_ne hne ..⟩
  rw [labelled_self]
  exact h limit

theorem labelled_other (h : IsOptNode depth label build trees v) (hne : label ≠ other) :
    labelled other (trees ++ [.tree other span inner]) = [⟨other, span, inner⟩] := by
  rw [labelled_append, h.others other hne, labelled_self]
  rfl

end IsOptNode

/-- A body that may be missing. -/
abbrev IsOptClause (depth : Nat) (label : Label) (trees : List ParseTree)
    (v : Build (List Node)) : Prop :=
  IsOptNode depth label (fun limit => clauseBody (suite limit)) trees v

abbrev IsOptArguments (depth : Nat) (trees : List ParseTree) (vs : List (Build Node)) : Prop :=
  IsOptNode depth .arguments (fun limit b => arguments (expr limit) (b.map Branch.tree)) trees
    (Grammar.sequence vs)

abbrev IsOptParams (depth : Nat) (trees : List ParseTree) (vs : List (Build Node)) : Prop :=
  IsOptNode depth .parameters (fun limit b => params (expr limit) (b.map Branch.tree)) trees
    (Grammar.sequence vs)

theorem IsClause.make {label : Label} {inner : List ParseTree}
    (h : ∀ limit, Builds (depth ≤ limit) (suite limit (.tree .suite place inner)) v) :
    IsClause (depth + 1) label (.tree label span [.tree .suite place inner]) v :=
  ⟨span, _, rfl, fun limit => .look rfl <| (h limit).weaken Nat.le_of_succ_le⟩

end TreeBuilder

namespace Ebnf

open TreeBuilder

variable {depth : Nat}

/-! ## Names -/

/-- Names behind separators. -/
theorem names_seconds {kind : Kind} (hkind : kind.isNamed = false) :
    ∀ d : Derivation (.many [tk kind, tk .name]), names (d.trees false) =
      List.map (fun v : Values [tk kind, tk .name] => v.2.1.value) d.value
  | .done => rfl
  | .more (.row2 s t) rest => by
    have hname : Kind.name.isNamed = true := rfl
    have htrees : (Derivation.more (.row2 s t) rest).trees false =
        .token t.value :: rest.trees false := by
      simp [Derivation.trees, hkind, hname]
    rw [htrees, names_name, names_seconds hkind rest]
    rfl

theorem keeps_dottedName : ∀ a : Alternative .dottedName, a.Keeps
  | .dottedName, _, .row2 t ts, _ => by
    have hchildren : Derivations.trees false (.row2 t ts) = .token t.value :: ts.trees false := by
      simp [Kind.isNamed]
    refine Alternative.sound_node rfl hchildren ⟨_, _, rfl, ?_⟩
    show (names (.token t.value :: ts.trees false)).map Token.text = _
    rw [names_name, names_seconds rfl]
    exact congrArg (List.cons _) List.map_map

theorem keeps_importAsName : ∀ a : Alternative .importAsName, a.Keeps
  | .importAsName, _, .row2 t .absent, _ => by
    have hchildren : Derivations.trees false
        (.row2 t (.absent : Derivation (.opt [tk .asWord, tk .name]))) = [.token t.value] := by
      simp [Derivation.trees, Kind.isNamed]
    refine Alternative.sound_node rfl hchildren ⟨_, _, rfl, ?_⟩
    simp only [member, names_name]
    rfl
  | .importAsName, _, .row2 t (.present (.row2 a n)), _ => by
    have hchildren : Derivations.trees false (.row2 t (.present (.row2 a n))) =
        [.token t.value, .token n.value] := by
      simp [Derivation.trees, Kind.isNamed]
    refine Alternative.sound_node rfl hchildren ⟨_, _, rfl, ?_⟩
    simp only [member, names_name]
    rfl

theorem keeps_importAsNames : ∀ a : Alternative .importAsNames, a.Keeps
  | .importAsNames, _, .row2 x ys, ⟨hx, hys, _⟩ => by
    obtain ⟨first, hfirst, hall⟩ := hx.listed rfl hys
      (R := fun tree v => IsNode .importAsName (fun b => member b = .ok v) tree) fun _ _ _ h => h
    have hchildren : Derivations.trees false (.row2 x ys) = first :: ys.trees false := by
      simp [hfirst]
    exact Alternative.sound_node rfl hchildren ⟨_, _, rfl, mapM_eq_ok (forall₂_labelled hall)⟩

theorem keeps_dottedAsName : ∀ a : Alternative .dottedAsName, a.Keeps
  | .dottedAsName, _, .row2 d .absent, ⟨hd, _⟩ => by
    obtain ⟨_, hpath, span, inner, rfl, hd⟩ := hd.phrase
    have hchildren : Derivations.trees false
        (.row2 d (.absent : Derivation (.opt [tk .asWord, tk .name]))) =
        [.tree .dottedName span inner] := by
      simp [Derivation.trees, hpath]
    refine Alternative.sound_node rfl hchildren ⟨_, _, rfl, ?_⟩
    exact congrArg (fun path => Except.ok (Node.make _ (.importModule path none none) [])) hd
  | .dottedAsName, _, .row2 d (.present (.row2 a n)), ⟨hd, _⟩ => by
    obtain ⟨_, hpath, span, inner, rfl, hd⟩ := hd.phrase
    have hchildren : Derivations.trees false (.row2 d (.present (.row2 a n))) =
        [.tree .dottedName span inner, .token n.value] := by
      simp [Derivation.trees, Kind.isNamed, hpath]
    refine Alternative.sound_node rfl hchildren ⟨_, _, rfl, ?_⟩
    simp only [moduleImport, names_tree, names_name]
    exact congrArg (fun path => Except.ok (Node.make _
      (.importModule path (some (Token.text n.value)) (some (Token.span n.value))) [])) hd

/-! ## Statements on one line -/

theorem keeps_passStmt : ∀ a : Alternative .passStmt, a.Keeps
  | .passStmt, _, .row1 _, _ => Alternative.sound_node rfl rfl (IsSmall.make fun _ => .pure _)

theorem keeps_breakStmt : ∀ a : Alternative .breakStmt, a.Keeps
  | .breakStmt, _, .row1 _, _ => Alternative.sound_node rfl rfl (IsSmall.make fun _ => .pure _)

theorem keeps_continueStmt : ∀ a : Alternative .continueStmt, a.Keeps
  | .continueStmt, _, .row1 _, _ => Alternative.sound_node rfl rfl (IsSmall.make fun _ => .pure _)

theorem keeps_emptyStmt : ∀ a : Alternative .emptyStmt, a.Keeps
  | .emptyStmt, _, .row1 _, _ => Alternative.sound_node rfl rfl (IsSmall.make fun _ => .pure _)

theorem keeps_augassignOp : ∀ a : Alternative .augassignOp, a.Keeps
  | .augassignOp, _, .row1 t, _ => by
    have hchildren : Derivations.trees true (.row1 t) = [.token t.value] := by simp
    exact Alternative.sound_node rfl hchildren rfl

theorem keeps_exprStmt : ∀ a : Alternative .exprStmt, a.Keeps
  | .exprStmt, _, .row1 x, ⟨hx, _⟩ => by
    obtain ⟨value, hvalue, hx⟩ := hx.phrase
    have hchildren : Derivations.trees false (.row1 x) = [value] := by simp [hvalue]
    refine Alternative.sound_node rfl hchildren (IsSmall.make fun limit => ?_)
    exact .look rfl <| .bind (IsExpr.node hx limit) fun _ => .pure _
  | .assignStmt, _, .row2 x (.plus y zs), ⟨hx, hyzs, _⟩ => by
    obtain ⟨first, hfirst, hexprs⟩ := Exprs.of_listed hx (e := .more y zs) hyzs rfl fun _ _ _ h => h
    have hchildren : Derivations.trees false (.row2 x (.plus y zs)) =
        first :: (Derivation.more y zs).trees false := by
      simp [Derivation.trees, hfirst]
    refine Alternative.sound_node rfl hchildren (IsSmall.make fun limit => ?_)
    exact .bind (hexprs.assignment limit) fun _ => .pure _
  | .augassignStmt, _, .row3 x o y, ⟨hx, ho, hy, _⟩ => by
    obtain ⟨target, htarget, hx⟩ := hx.phrase
    obtain ⟨op, hop, ho⟩ := ho.phrase
    obtain ⟨value, hvalue, hy⟩ := hy.phrase
    have hchildren : Derivations.trees false (.row3 x o y) = [target, op, value] := by
      simp [htarget, hop, hvalue]
    refine Alternative.sound_node rfl hchildren (IsSmall.make fun limit => ?_)
    exact .look rfl <| .look rfl <| .bind (IsExpr.node hx limit) fun _ =>
      .look ho <| .look rfl <| .bind (IsExpr.node hy limit) fun _ => .pure _

theorem keeps_returnStmt : ∀ a : Alternative .returnStmt, a.Keeps
  | .returnStmt, _, .row2 w d, ⟨_, hd, _⟩ => by
    have hchildren : Derivations.trees false (.row2 w d) = d.trees false := by simp [Kind.isNamed]
    refine Alternative.sound_node rfl hchildren (IsSmall.make fun limit => ?_)
    exact .bind ((hd.optional fun _ _ _ h => h).builds limit) fun _ => .pure _

theorem keeps_raiseStmt : ∀ a : Alternative .raiseStmt, a.Keeps
  | .raiseStmt, _, .row2 w d, ⟨_, hd, _⟩ => by
    have hchildren : Derivations.trees false (.row2 w d) = d.trees false := by simp [Kind.isNamed]
    refine Alternative.sound_node rfl hchildren (IsSmall.make fun limit => ?_)
    exact .bind ((hd.optional fun _ _ _ h => h).builds limit) fun _ => .pure _

theorem keeps_delStmt : ∀ a : Alternative .delStmt, a.Keeps
  | .delStmt, _, .row2 w x, ⟨_, hx, _⟩ => by
    obtain ⟨target, htarget, hx⟩ := hx.phrase
    have hchildren : Derivations.trees false (.row2 w x) = [target] := by
      simp [Kind.isNamed, htarget]
    refine Alternative.sound_node rfl hchildren (IsSmall.make fun limit => ?_)
    exact .look rfl <| .bind (IsExpr.node hx limit) fun _ => .pure _

theorem keeps_assertStmt : ∀ a : Alternative .assertStmt, a.Keeps
  | .assertStmt, _, .row3 w x d, ⟨_, hx, hd, _⟩ => by
    obtain ⟨test, htest, hx⟩ := hx.phrase
    have hmessage := hd.optionalSecond rfl fun _ _ _ h => h
    have hchildren : Derivations.trees false (.row3 w x d) = test :: d.trees false := by
      simp [Kind.isNamed, htest]
    refine Alternative.sound_node rfl hchildren (IsSmall.make fun limit => ?_)
    exact .look rfl <| .bind (IsExpr.node hx limit) fun _ =>
      .bind (hmessage.builds limit) fun _ => .pure _

/-- The names of a declaration are those of its tokens. -/
theorem declaration_eq (keyword : String) (label : Label) (span : Span)
    (t : Derivation (tk .name)) (ts : Derivation (.many [tk .comma, tk .name])) :
    declaration keyword ⟨label, span, .token t.value :: ts.trees false⟩ =
      declarationOf span keyword t.value
        (List.map (fun v : Values [tk .comma, tk .name] => v.2.1.value) ts.value) := by
  have hnames := names_seconds rfl ts
  simp only [declaration, names_name, hnames]
  rfl

theorem keeps_globalStmt : ∀ a : Alternative .globalStmt, a.Keeps
  | .globalStmt, _, .row3 w t ts, _ => by
    have hchildren : Derivations.trees false (.row3 w t ts) =
        .token t.value :: ts.trees false := by simp [Kind.isNamed]
    refine Alternative.sound_node rfl hchildren (IsSmall.make fun limit => .inl ?_)
    exact congrArg (fun node => Except.ok [node]) (declaration_eq ..)

theorem keeps_nonlocalStmt : ∀ a : Alternative .nonlocalStmt, a.Keeps
  | .nonlocalStmt, _, .row3 w t ts, _ => by
    have hchildren : Derivations.trees false (.row3 w t ts) =
        .token t.value :: ts.trees false := by simp [Kind.isNamed]
    refine Alternative.sound_node rfl hchildren (IsSmall.make fun limit => .inl ?_)
    exact congrArg (fun node => Except.ok [node]) (declaration_eq ..)

theorem keeps_importName : ∀ a : Alternative .importName, a.Keeps
  | .importName, _, .row3 w x ys, ⟨_, hx, hys, _⟩ => by
    obtain ⟨first, hfirst, hall⟩ := hx.listed rfl hys
      (R := fun tree v => IsNode .dottedAsName (fun b => moduleImport b = .ok v) tree)
      fun _ _ _ h => h
    have hchildren : Derivations.trees false (.row3 w x ys) = first :: ys.trees false := by
      simp [Kind.isNamed, hfirst]
    exact Alternative.sound_node rfl hchildren
      (IsSmall.make fun limit => .inl (mapM_eq_ok (forall₂_labelled hall)))

/-- Names that are imported from a module. -/
theorem builds_importFrom {depth : Nat} {span place place' : Span} {inner inner' : List ParseTree}
    {path : List String} {members : List Node} (hpath : dotted ⟨.dottedName, place, inner⟩ = path)
    (hmembers : (labelled .importAsName inner').mapM member = .ok members) :
    IsBranch (IsSmall (depth + 1) (.ok [.make span (.importMembers path) [members]]))
      (.tree .importFrom span
        [.tree .dottedName place inner, .tree .importAsNames place' inner']) := by
  refine IsSmall.make fun limit => .look rfl <| .look rfl <| .look hmembers <| .inl ?_
  rw [hpath]
  rfl

theorem keeps_importFrom : ∀ a : Alternative .importFrom, a.Keeps
  | .importFrom, _, .row4 f d i m, ⟨_, hd, _, hm, _⟩ => by
    obtain ⟨_, hpath, place, inner, rfl, hd⟩ := hd.phrase
    obtain ⟨_, hmembers, place', inner', rfl, hm⟩ := hm.phrase
    have hchildren : Derivations.trees false (.row4 f d i m) =
        [.tree .dottedName place inner, .tree .importAsNames place' inner'] := by
      simp [Kind.isNamed, hpath, hmembers]
    exact Alternative.sound_node rfl hchildren (builds_importFrom hd hm)
  | .importFromParen, _, .row6 f d i l m r, ⟨_, hd, _, _, hm, _⟩ => by
    obtain ⟨_, hpath, place, inner, rfl, hd⟩ := hd.phrase
    obtain ⟨_, hmembers, place', inner', rfl, hm⟩ := hm.phrase
    have hchildren : Derivations.trees false (.row6 f d i l m r) =
        [.tree .dottedName place inner, .tree .importAsNames place' inner'] := by
      simp [Kind.isNamed, hpath, hmembers]
    exact Alternative.sound_node rfl hchildren (builds_importFrom hd hm)

theorem keeps_smallStmt : ∀ a : Alternative .smallStmt, a.Keeps
  | .smallExpr, _, .row1 d, ⟨hd, _⟩ | .smallPass, _, .row1 d, ⟨hd, _⟩
  | .smallBreak, _, .row1 d, ⟨hd, _⟩ | .smallContinue, _, .row1 d, ⟨hd, _⟩
  | .smallReturn, _, .row1 d, ⟨hd, _⟩ | .smallRaise, _, .row1 d, ⟨hd, _⟩
  | .smallDel, _, .row1 d, ⟨hd, _⟩ | .smallAssert, _, .row1 d, ⟨hd, _⟩
  | .smallGlobal, _, .row1 d, ⟨hd, _⟩ | .smallNonlocal, _, .row1 d, ⟨hd, _⟩
  | .smallImportName, _, .row1 d, ⟨hd, _⟩ | .smallImportFrom, _, .row1 d, ⟨hd, _⟩
  | .smallEmpty, _, .row1 d, ⟨hd, _⟩ =>
    Alternative.sound_forward (d := d) hd rfl rfl fun _ => IsSmall.succ

theorem keeps_simpleStmt : ∀ a : Alternative .simpleStmt, a.Keeps
  | .simpleStmt, depth, .row3 x ys n, ⟨hx, hys, _⟩ => by
    obtain ⟨first, hfirst, hall⟩ := hx.listed rfl hys
      (R := fun tree v => IsBranch (IsSmall depth v) tree) fun _ _ _ h => h
    have hchildren : Derivations.trees false (.row3 x ys n) = first :: ys.trees false := by
      simp [Kind.isNamed, hfirst]
    refine Alternative.sound_node rfl hchildren (IsStatement.succ fun limit => ?_)
    exact .flatten (.mapM ((forall₂_branches hall).imp fun _ _ h => h limit))

/-! ## Blocks -/

theorem keeps_suite : ∀ a : Alternative .suite, a.Keeps
  | .suiteInline, _, .row1 x, ⟨hx, _⟩ => by
    obtain ⟨line, hline, hx⟩ := hx.phrase
    have hchildren : Derivations.trees false (.row1 x) = [line] := by simp [hline]
    refine Alternative.sound_node rfl hchildren ⟨_, _, rfl, fun limit => ?_⟩
    -- the one line is a block of its own to the builder
    show Builds _ _ x.value
    rw [← concat_singleton x.value]
    exact builds_suite (.cons hx .nil) limit
  | .suiteBlock, depth, .row4 n i (.plus (.row1 x) ys) o, ⟨_, _, ⟨⟨hx, _⟩, hys⟩, _⟩ => by
    obtain ⟨first, hfirst, hall⟩ := hx.repeated hys (R := IsStatement depth) fun _ _ _ h => h
    have hchildren : Derivations.trees false (.row4 n i (.plus (.row1 x) ys) o) =
        first :: ys.trees false := by
      simp [Derivation.trees, Kind.isNamed, hfirst]
    exact Alternative.sound_node rfl hchildren ⟨_, _, rfl, builds_suite hall⟩

/-- Blank lines leave nothing behind. -/
theorem Derivation.Sound.lines :
    ∀ {ds : Derivation (.many [.either [tk .newline] [ph .stmt]])}, ds.Sound depth →
      List.Forall₂ (IsStatement depth) (ds.trees false)
        (List.filterMap (fun (v : Values [.either [tk .newline] [ph .stmt]]) => match v with
          | (⟨_, .inl _⟩, _) => none
          | (⟨_, .inr (statement, _)⟩, _) => some statement.value) ds.value)
  | .done, _ => .nil
  | .more (.row1 (.left (.row1 t))) rest, ⟨_, hrest⟩ => by
    have htrees : (Derivation.more (.row1 (.left (.row1 t))) rest).trees false =
        rest.trees false := by
      simp [Derivation.trees, Kind.isNamed]
    rw [htrees]
    exact hrest.lines
  | .more (.row1 (.right (.row1 d))) rest, ⟨⟨⟨hd, _⟩, _⟩, hrest⟩ => by
    obtain ⟨tree, htree, hd⟩ := hd.phrase
    have htrees : (Derivation.more (.row1 (.right (.row1 d))) rest).trees false =
        tree :: rest.trees false := by
      simp [Derivation.trees, htree]
    rw [htrees]
    exact .cons hd hrest.lines

theorem keeps_fileInput : ∀ a : Alternative .fileInput, a.Keeps
  | .fileInput, _, .row1 ds, ⟨hds, _⟩ => by
    have hchildren : Derivations.trees false (.row1 ds) = ds.trees false := by simp
    refine Alternative.sound_node rfl hchildren fun limit => ?_
    exact .bind (builds_suite hds.lines limit) fun _ => .pure _

theorem keeps_stmt : ∀ a : Alternative .stmt, a.Keeps
  | .stmtSimple, _, .row1 d, ⟨hd, _⟩ | .stmtCompound, _, .row1 d, ⟨hd, _⟩ =>
    Alternative.sound_forward (d := d) hd rfl rfl fun _ => IsStatement.succ

theorem keeps_compoundStmt : ∀ a : Alternative .compoundStmt, a.Keeps
  | .compoundIf, _, .row1 d, ⟨hd, _⟩ | .compoundWhile, _, .row1 d, ⟨hd, _⟩
  | .compoundFor, _, .row1 d, ⟨hd, _⟩ | .compoundTry, _, .row1 d, ⟨hd, _⟩
  | .compoundWith, _, .row1 d, ⟨hd, _⟩ | .compoundDecorated, _, .row1 d, ⟨hd, _⟩ =>
    Alternative.sound_forward (d := d) hd rfl rfl fun _ => IsStatement.succ
  | .compoundFuncdef, _, .row1 d, ⟨hd, _⟩ => by
    refine Alternative.sound_forward hd rfl rfl ?_
    rintro _ ⟨span, children, rfl, h⟩
    exact IsStatement.succ fun limit => .bind (h limit []) fun _ => .pure _
  | .compoundClassdef, _, .row1 d, ⟨hd, _⟩ => by
    refine Alternative.sound_forward hd rfl rfl ?_
    rintro _ ⟨span, children, rfl, h⟩
    exact IsStatement.succ fun limit => .bind (h limit []) fun _ => .pure _

/-! ## Clauses -/

theorem keeps_elseClause : ∀ a : Alternative .elseClause, a.Keeps
  | .elseClause, _, .row3 w c x, ⟨_, _, hx, _⟩ => by
    obtain ⟨_, hbody, span, inner, rfl, hx⟩ := hx.phrase
    have hchildren : Derivations.trees false (.row3 w c x) = [.tree .suite span inner] := by
      simp [Kind.isNamed, hbody]
    exact Alternative.sound_node rfl hchildren (IsClause.make hx)

theorem keeps_finallyClause : ∀ a : Alternative .finallyClause, a.Keeps
  | .finallyClause, _, .row3 w c x, ⟨_, _, hx, _⟩ => by
    obtain ⟨_, hbody, span, inner, rfl, hx⟩ := hx.phrase
    have hchildren : Derivations.trees false (.row3 w c x) = [.tree .suite span inner] := by
      simp [Kind.isNamed, hbody]
    exact Alternative.sound_node rfl hchildren (IsClause.make hx)

/-- A phrase that may be missing, as one that is asked for by its label. -/
theorem Derivation.Sound.optNode {α : Type} {n : Nonterminal} {label : Label}
    {build : Nat → Option Branch → Result α} {d : Derivation (.opt [ph n])} (hd : d.Sound depth)
    {g : Option (Values [ph n]) → Build α}
    (hnone : ∀ limit, Builds (depth ≤ limit) (build limit none) (g none))
    (hsome : ∀ tree (v : Values [ph n]), Meets n depth tree v.1.span v.1.value →
      IsNode label (fun b => ∀ limit, Builds (depth ≤ limit) (build limit (some b)) (g (some v)))
        tree) :
    IsOptNode depth label build (d.trees false) (g d.value) := by
  match d, hd with
  | .absent, _ => exact .missing hnone
  | .present (.row1 x), ⟨hx, _⟩ =>
    obtain ⟨tree, htree, hx⟩ := hx.phrase
    have htrees : (Derivation.present (.row1 x)).trees false = [tree] := by
      simp [Derivation.trees, htree]
    rw [htrees]
    exact .present (hsome tree _ hx)

theorem Derivation.Sound.orelse {d : Derivation (.opt [ph .elseClause])} (hd : d.Sound depth) :
    IsOptClause depth .elseClause (d.trees false) (elseOf d.value) :=
  hd.optNode (g := elseOf) (fun _ => .pure []) fun _ _ h => h

theorem Derivation.Sound.final {d : Derivation (.opt [ph .finallyClause])} (hd : d.Sound depth) :
    IsOptClause depth .finallyClause (d.trees false) (finallyOf d.value) :=
  hd.optNode (g := finallyOf) (fun _ => .pure []) fun _ _ h => h

theorem Derivation.Sound.params {d : Derivation (.opt [ph .parameters])} (hd : d.Sound depth) :
    IsOptParams depth (d.trees false) (parametersOf d.value) :=
  hd.optNode (g := fun v => Grammar.sequence (parametersOf v)) (fun _ => .pure []) fun _ _ h => h

theorem Derivation.Sound.bracketed
    {d : Derivation (.opt [tk .openParen, .opt [ph .arguments], tk .closeParen])}
    (hd : d.Sound depth) : IsOptArguments depth (d.trees false) (argumentsOf d.value) := by
  match d, hd with
  | .absent, _ => exact .missing fun _ => .pure []
  | .present (.row3 l .absent r), _ =>
    have htrees : (Derivation.present (.row3 l (.absent : Derivation (.opt [ph .arguments]))
        r)).trees false = [] := by
      simp [Derivation.trees, Kind.isNamed]
    rw [htrees]
    exact .missing fun _ => .pure []
  | .present (.row3 l (.present (.row1 as)) r), ⟨_, ⟨has, _⟩, _⟩ =>
    obtain ⟨items, hitems, has⟩ := has.phrase
    have htrees : (Derivation.present (.row3 l (.present (.row1 as)) r)).trees false =
        [items] := by
      simp [Derivation.trees, Kind.isNamed, hitems]
    rw [htrees]
    exact .present has

theorem keeps_elifClause : ∀ a : Alternative .elifClause, a.Keeps
  | .elifClause, _, .row4 w x c y, ⟨_, hx, _, hy, _⟩ => by
    obtain ⟨test, htest, hx⟩ := hx.phrase
    obtain ⟨_, hbody, span, inner, rfl, hy⟩ := hy.phrase
    have hchildren : Derivations.trees false (.row4 w x c y) =
        [test, .tree .suite span inner] := by
      simp [Kind.isNamed, htest, hbody]
    refine Alternative.sound_node rfl hchildren ⟨_, _, rfl, fun limit orelse => ?_⟩
    refine .weaken ?_ Nat.le_of_succ_le
    exact .look rfl <| .bind (IsExpr.node hx limit) fun _ =>
      .look rfl <| .bind (hy limit) fun _ => .pure _

theorem keeps_exceptClause : ∀ a : Alternative .exceptClause, a.Keeps
  | .exceptClause, _, .row4 w .absent c y, ⟨_, _, _, hy, _⟩ => by
    obtain ⟨_, hbody, span, inner, rfl, hy⟩ := hy.phrase
    have hchildren : Derivations.trees false
        (.row4 w (.absent : Derivation (.opt [ph .test, .opt [tk .asWord, tk .name]])) c y) =
        [.tree .suite span inner] := by
      simp [Derivation.trees, Kind.isNamed, hbody]
    refine Alternative.sound_node rfl hchildren ⟨_, _, rfl, fun limit => ?_⟩
    refine .weaken ?_ Nat.le_of_succ_le
    exact builds_handler rfl rfl rfl (.pure []) (hy limit)
  | .exceptClause, _, .row4 w (.present (.row2 x .absent)) c y, ⟨_, ⟨hx, _⟩, _, hy, _⟩ => by
    obtain ⟨type, htype, hx⟩ := hx.phrase
    obtain ⟨_, hbody, span, inner, rfl, hy⟩ := hy.phrase
    have hchildren : Derivations.trees false (.row4 w (.present (.row2 x
        (.absent : Derivation (.opt [tk .asWord, tk .name])))) c y) =
        [type, .tree .suite span inner] := by
      simp [Derivation.trees, Kind.isNamed, htype, hbody]
    refine Alternative.sound_node rfl hchildren ⟨_, _, rfl, fun limit => ?_⟩
    refine .weaken ?_ Nat.le_of_succ_le
    refine builds_handler (IsExpr.branch_of_ne hx rfl _) ?_ (IsExpr.labelled_cons hx rfl _)
      (.bind (IsExpr.node hx limit) fun _ => .pure _) (hy limit)
    exact congrArg List.head? (IsExpr.names_cons hx _)
  | .exceptClause, _, .row4 w (.present (.row2 x (.present (.row2 a n)))) c y,
      ⟨_, ⟨hx, _⟩, _, hy, _⟩ => by
    obtain ⟨type, htype, hx⟩ := hx.phrase
    obtain ⟨_, hbody, span, inner, rfl, hy⟩ := hy.phrase
    have hchildren : Derivations.trees false
        (.row4 w (.present (.row2 x (.present (.row2 a n)))) c y) =
        [type, .token n.value, .tree .suite span inner] := by
      simp [Derivation.trees, Kind.isNamed, htype, hbody]
    refine Alternative.sound_node rfl hchildren ⟨_, _, rfl, fun limit => ?_⟩
    refine .weaken ?_ Nat.le_of_succ_le
    refine builds_handler (IsExpr.branch_of_ne hx rfl _) ?_ (IsExpr.labelled_cons hx rfl _)
      (.bind (IsExpr.node hx limit) fun _ => .pure _) (hy limit)
    rw [IsExpr.names_cons hx, names_name]
    rfl

theorem keeps_withItem : ∀ a : Alternative .withItem, a.Keeps
  | .withItem, _, .row2 x .absent, ⟨hx, _⟩ => by
    obtain ⟨value, hvalue, hx⟩ := hx.phrase
    have hchildren : Derivations.trees false
        (.row2 x (.absent : Derivation (.opt [tk .asWord, tk .name]))) = [value] := by
      simp [Derivation.trees, hvalue]
    refine Alternative.sound_node rfl hchildren ⟨_, _, rfl, fun limit => ?_⟩
    refine .look rfl <| .bind (IsExpr.node (IsExpr.succ hx) limit) fun _ => ?_
    rw [IsExpr.names_cons hx]
    exact .pure _
  | .withItem, _, .row2 x (.present (.row2 a n)), ⟨hx, _⟩ => by
    obtain ⟨value, hvalue, hx⟩ := hx.phrase
    have hchildren : Derivations.trees false (.row2 x (.present (.row2 a n))) =
        [value, .token n.value] := by
      simp [Derivation.trees, Kind.isNamed, hvalue]
    refine Alternative.sound_node rfl hchildren ⟨_, _, rfl, fun limit => ?_⟩
    refine .look rfl <| .bind (IsExpr.node (IsExpr.succ hx) limit) fun _ => ?_
    rw [IsExpr.names_cons hx, names_name]
    exact .pure _

/-! ## Compound statements -/

theorem keeps_whileStmt : ∀ a : Alternative .whileStmt, a.Keeps
  | .whileStmt, _, .row5 w x c y d, ⟨_, hx, _, hy, hd, _⟩ => by
    obtain ⟨test, htest, hx⟩ := hx.phrase
    obtain ⟨_, hbody, span, inner, rfl, hy⟩ := hy.phrase
    have hchildren : Derivations.trees false (.row5 w x c y d) =
        test :: .tree .suite span inner :: d.trees false := by
      simp [Kind.isNamed, htest, hbody]
    have horelse : labelled .elseClause (test :: .tree .suite span inner :: d.trees false) =
        labelled .elseClause (d.trees false) := by
      rw [IsExpr.labelled_cons hx rfl, labelled_of_ne (by decide)]
    refine Alternative.sound_node rfl hchildren (IsStatement.succ fun limit => ?_)
    refine .assoc <| .look rfl <| .assoc <| .bind (IsExpr.node hx limit) fun _ =>
      .assoc <| .look rfl <| .assoc <| .bind (hy limit) fun _ => ?_
    rw [horelse]
    exact .assoc <| .bind (hd.orelse.builds limit) fun _ => .pure _

theorem keeps_forStmt : ∀ a : Alternative .forStmt, a.Keeps
  | .forStmt, _, .row7 f x i y c z d, ⟨_, hx, _, hy, _, hz, hd, _⟩ => by
    obtain ⟨target, htarget, hx⟩ := hx.phrase
    obtain ⟨iterable, hiterable, hy⟩ := hy.phrase
    obtain ⟨_, hbody, span, inner, rfl, hz⟩ := hz.phrase
    have hchildren : Derivations.trees false (.row7 f x i y c z d) =
        target :: iterable :: .tree .suite span inner :: d.trees false := by
      simp [Kind.isNamed, htarget, hiterable, hbody]
    have horelse : labelled .elseClause
        (target :: iterable :: .tree .suite span inner :: d.trees false) =
        labelled .elseClause (d.trees false) := by
      rw [IsExpr.labelled_cons hx rfl, IsExpr.labelled_cons hy rfl, labelled_of_ne (by decide)]
    refine Alternative.sound_node rfl hchildren (IsStatement.succ fun limit => ?_)
    refine .assoc <| .look rfl <| .assoc <| .bind (IsExpr.node hx limit) fun _ =>
      .assoc <| .look rfl <| .assoc <| .bind (IsExpr.node hy limit) fun _ =>
      .assoc <| .look rfl <| .assoc <| .bind (hz limit) fun _ => ?_
    rw [horelse]
    exact .assoc <| .bind (hd.orelse.builds limit) fun _ => .pure _

theorem keeps_ifStmt : ∀ a : Alternative .ifStmt, a.Keeps
  | .ifStmt, depth, .row6 w x c y zs d, ⟨_, hx, _, hy, hzs, hd, _⟩ => by
    obtain ⟨test, htest, hx⟩ := hx.phrase
    obtain ⟨_, hbody, span, inner, rfl, hy⟩ := hy.phrase
    have hchildren : Derivations.trees false (.row6 w x c y zs d) =
        test :: .tree .suite span inner :: (zs.trees false ++ d.trees false) := by
      simp [Kind.isNamed, htest, hbody]
    have hclauses : List.Forall₂ (fun tree (v : Values [ph .elifClause]) =>
        IsNode .elifClause (IsElif depth v.1.span v.1.value) tree) (zs.trees false) zs.value :=
      hzs.each
    have horelse : labelled .elseClause
        (test :: .tree .suite span inner :: (zs.trees false ++ d.trees false)) =
        labelled .elseClause (d.trees false) := by
      rw [IsExpr.labelled_cons hx rfl, labelled_of_ne (by decide), labelled_append,
        labelled_others (by decide) hclauses, List.nil_append]
    have helifs : labelled .elifClause
        (test :: .tree .suite span inner :: (zs.trees false ++ d.trees false)) =
        labelled .elifClause (zs.trees false) := by
      rw [IsExpr.labelled_cons hx rfl, labelled_of_ne (by decide), labelled_append,
        hd.orelse.others _ (by decide), List.append_nil]
    refine Alternative.sound_node rfl hchildren (IsStatement.succ fun limit => ?_)
    -- the `else` body comes first, then the clauses around it from the last one on
    show Builds _ _ (foldElif (List.map Prod.fst zs.value) (elseOf d.value) >>= _)
    rw [foldElif, bind_assoc]
    refine .assoc ?_
    rw [horelse, helifs]
    refine .bind (hd.orelse.builds limit) fun orelse => .assoc <| .bind (.foldrM ?_ orelse) fun _ =>
      .assoc <| .look rfl <| .assoc <| .bind (IsExpr.node hx limit) fun _ =>
      .assoc <| .look rfl <| .assoc <| .bind (hy limit) fun _ => .pure _
    exact List.forall₂_map_right_iff.mpr
      ((forall₂_labelled hclauses).imp fun _ _ h orelse => h limit orelse)

theorem keeps_tryStmt : ∀ a : Alternative .tryStmt, a.Keeps
  | .tryExcept, depth, .row6 w c x (.plus (.row1 y) zs) d e,
      ⟨_, _, hx, ⟨⟨hy, _⟩, hzs⟩, hd, he, _⟩ => by
    obtain ⟨_, hbody, span, inner, rfl, hx⟩ := hx.phrase
    obtain ⟨first, hfirst, hall⟩ := hy.repeated hzs
      (R := fun tree v => IsNode .exceptClause (IsHandler depth v) tree) fun _ _ _ h => h
    have hchildren : Derivations.trees false (.row6 w c x (.plus (.row1 y) zs) d e) =
        .tree .suite span inner ::
          ((first :: zs.trees false) ++ (d.trees false ++ e.trees false)) := by
      simp [Derivation.trees, Kind.isNamed, hbody, hfirst]
    have hhandlers : labelled .exceptClause (.tree .suite span inner ::
        ((first :: zs.trees false) ++ (d.trees false ++ e.trees false))) =
        labelled .exceptClause (first :: zs.trees false) := by
      rw [labelled_of_ne (by decide), labelled_append, labelled_append,
        hd.orelse.others _ (by decide), he.final.others _ (by decide)]
      exact List.append_nil _
    have horelse : labelled .elseClause (.tree .suite span inner ::
        ((first :: zs.trees false) ++ (d.trees false ++ e.trees false))) =
        labelled .elseClause (d.trees false) := by
      rw [labelled_of_ne (by decide), labelled_append, labelled_append,
        labelled_others (by decide) hall, he.final.others _ (by decide)]
      exact List.append_nil _
    have hfinal : labelled .finallyClause (.tree .suite span inner ::
        ((first :: zs.trees false) ++ (d.trees false ++ e.trees false))) =
        labelled .finallyClause (e.trees false) := by
      rw [labelled_of_ne (by decide), labelled_append, labelled_append,
        labelled_others (by decide) hall, hd.orelse.others _ (by decide)]
      rfl
    refine Alternative.sound_node rfl hchildren (IsStatement.succ fun limit => ?_)
    refine .assoc <| .look rfl <| .assoc <| .bind (hx limit) fun _ => ?_
    rw [hhandlers, horelse, hfinal]
    exact .assoc <| .bind (.mapM ((forall₂_labelled hall).imp fun _ _ h => h limit)) fun _ =>
      .assoc <| .bind (hd.orelse.builds limit) fun _ =>
      .assoc <| .bind (he.final.builds limit) fun _ => .pure _
  | .tryFinally, _, .row4 w c x y, ⟨_, _, hx, hy, _⟩ => by
    obtain ⟨_, hbody, span, inner, rfl, hx⟩ := hx.phrase
    obtain ⟨_, hfinal, span', inner', rfl, hy⟩ := hy.phrase
    have hchildren : Derivations.trees false (.row4 w c x y) =
        [.tree .suite span inner, .tree .finallyClause span' inner'] := by
      simp [Kind.isNamed, hbody, hfinal]
    refine Alternative.sound_node rfl hchildren (IsStatement.succ fun limit => ?_)
    exact .assoc <| .look rfl <| .assoc <| .bind (hx limit) fun _ =>
      .assoc <| .look rfl <| .assoc <| .look rfl <| .assoc <| .bind (hy limit) fun _ => .pure _

theorem keeps_withStmt : ∀ a : Alternative .withStmt, a.Keeps
  | .withStmt, depth, .row5 w x ys c z, ⟨_, hx, hys, _, hz, _⟩ => by
    obtain ⟨first, hfirst, hall⟩ := hx.listed rfl hys
      (R := fun tree v => IsNode .withItem (IsWithItem depth v) tree) fun _ _ _ h => h
    obtain ⟨_, hbody, span, inner, rfl, hz⟩ := hz.phrase
    have hchildren : Derivations.trees false (.row5 w x ys c z) =
        (first :: ys.trees false) ++ [.tree .suite span inner] := by
      simp [Kind.isNamed, hfirst, hbody]
    have hsuite : labelled .suite ((first :: ys.trees false) ++ [.tree .suite span inner]) =
        [⟨.suite, span, inner⟩] := by
      rw [labelled_append, labelled_others (by decide) hall]
      rfl
    refine Alternative.sound_node rfl hchildren (IsStatement.succ fun limit => ?_)
    refine .assoc ?_
    rw [labelled_append_other (by decide), hsuite]
    exact .bind (.mapM ((forall₂_labelled hall).imp fun _ _ h => h limit)) fun _ =>
      .assoc <| .look rfl <| .assoc <| .bind (hz limit) fun _ => .pure _

/-! ## Definitions -/

theorem keeps_funcdef : ∀ a : Alternative .funcdef, a.Keeps
  | .funcdef, _, .row7 w t l ps r c x, ⟨_, _, _, hps, _, _, hx, _⟩ => by
    obtain ⟨_, hbody, span, inner, rfl, hx⟩ := hx.phrase
    have hchildren : Derivations.trees false (.row7 w t l ps r c x) =
        .token t.value :: (ps.trees false ++ [.tree .suite span inner]) := by
      simp [Kind.isNamed, hbody]
    refine Alternative.sound_node rfl hchildren ⟨_, _, rfl, fun limit decorators => ?_⟩
    refine .weaken (.look (nth_names_name t _) ?_) Nat.le_of_succ_le
    rw [← t.spanOf_token, labelled_name, labelled_name, labelled_append_other (by decide),
      hps.params.labelled_other (by decide)]
    exact .bind (hps.params.builds limit) fun _ => .look rfl <| .bind (hx limit) fun _ => .pure _

theorem keeps_classdef : ∀ a : Alternative .classdef, a.Keeps
  | .classdef, _, .row5 w t bs c x, ⟨_, _, hbs, _, hx, _⟩ => by
    obtain ⟨_, hbody, span, inner, rfl, hx⟩ := hx.phrase
    have hchildren : Derivations.trees false (.row5 w t bs c x) =
        .token t.value :: (bs.trees false ++ [.tree .suite span inner]) := by
      simp [Kind.isNamed, hbody]
    refine Alternative.sound_node rfl hchildren ⟨_, _, rfl, fun limit decorators => ?_⟩
    refine .weaken (.look (nth_names_name t _) ?_) Nat.le_of_succ_le
    rw [← t.spanOf_token, labelled_name, labelled_name, labelled_append_other (by decide),
      hbs.bracketed.labelled_other (by decide)]
    exact .bind (hbs.bracketed.builds limit) fun _ => .look rfl <| .bind (hx limit) fun _ => .pure _

theorem keeps_decorator : ∀ a : Alternative .decorator, a.Keeps
  | .decorator, _, .row4 w d bs n, ⟨_, hd, hbs, _⟩ => by
    obtain ⟨_, hpath, span, inner, rfl, hd⟩ := hd.phrase
    have hchildren : Derivations.trees false (.row4 w d bs n) =
        .tree .dottedName span inner :: bs.trees false := by
      simp [Kind.isNamed, hpath]
    refine Alternative.sound_node rfl hchildren ⟨_, _, rfl, fun limit => ?_⟩
    refine .weaken ?_ Nat.le_of_succ_le
    refine .look (congrArg (nth · 0) (labelled_self ..)) ?_
    refine .look (congrArg (nth · 0) hd) ?_
    rw [labelled_of_ne (by decide)]
    exact .bind (hbs.bracketed.builds limit) fun _ => .pure _

theorem last_branches (trees : List ParseTree) (label : Label) (span : Span)
    (children : List ParseTree) :
    last (branches (trees ++ [.tree label span children])) = .ok ⟨label, span, children⟩ := by
  simp [last, branches]

/-- The definition that decorators belong to is the last child. -/
theorem builds_decorated {span place : Span} {label : Label} {trees inner : List ParseTree}
    {vs : List (Build Node)} {d : Definition} (hlabel : label ≠ .decorator)
    (htrees : List.Forall₂ (fun tree v => IsNode .decorator (IsDecorator depth v) tree) trees vs)
    (hd : ∀ limit decorators, Builds (depth ≤ limit)
      (if label = .funcdef then
        function (expr limit) (suite limit) decorators ⟨label, place, inner⟩
      else classOf (expr limit) (suite limit) decorators ⟨label, place, inner⟩)
      (d.node decorators)) :
    IsStatement depth (.tree .decorated span (trees ++ [.tree label place inner])) (do
      let decorators ← Grammar.sequence vs
      return [← d.node decorators]) := by
  intro limit
  refine .assoc ?_
  rw [labelled_append_other hlabel]
  exact .bind (.mapM ((forall₂_labelled htrees).imp fun _ _ h => h limit)) fun decorators =>
    .assoc <| .look (last_branches ..) <| .bind (hd limit decorators) fun _ => .pure _

theorem keeps_decorated : ∀ a : Alternative .decorated, a.Keeps
  | .decorated, depth, .row2 (.plus (.row1 x) ys) (.left (.row1 f)),
      ⟨⟨⟨hx, _⟩, hys⟩, ⟨hf, _⟩, _⟩ => by
    obtain ⟨first, hfirst, hall⟩ := hx.repeated hys
      (R := fun tree v => IsNode .decorator (IsDecorator depth v) tree) fun _ _ _ h => h
    obtain ⟨_, htarget, span, inner, rfl, hf⟩ := hf.phrase
    have hchildren : Derivations.trees false (.row2 (.plus (.row1 x) ys)
        (.left (.row1 f) : Derivation (.either [ph .funcdef] [ph .classdef]))) =
        (first :: ys.trees false) ++ [.tree .funcdef span inner] := by
      simp [Derivation.trees, hfirst, htarget]
    exact Alternative.sound_node rfl hchildren
      (IsStatement.succ (builds_decorated (by decide) hall hf))
  | .decorated, depth, .row2 (.plus (.row1 x) ys) (.right (.row1 c)),
      ⟨⟨⟨hx, _⟩, hys⟩, ⟨hc, _⟩, _⟩ => by
    obtain ⟨first, hfirst, hall⟩ := hx.repeated hys
      (R := fun tree v => IsNode .decorator (IsDecorator depth v) tree) fun _ _ _ h => h
    obtain ⟨_, htarget, span, inner, rfl, hc⟩ := hc.phrase
    have hchildren : Derivations.trees false (.row2 (.plus (.row1 x) ys)
        (.right (.row1 c) : Derivation (.either [ph .funcdef] [ph .classdef]))) =
        (first :: ys.trees false) ++ [.tree .classdef span inner] := by
      simp [Derivation.trees, hfirst, htarget]
    exact Alternative.sound_node rfl hchildren
      (IsStatement.succ (builds_decorated (by decide) hall hc))

/-! ## Whole derivations -/

theorem Alternative.keeps {n : Nonterminal} (a : Alternative n) : a.Keeps :=
  match n with
  | .fileInput => keeps_fileInput a
  | .stmt => keeps_stmt a
  | .simpleStmt => keeps_simpleStmt a
  | .smallStmt => keeps_smallStmt a
  | .exprStmt => keeps_exprStmt a
  | .augassignOp => keeps_augassignOp a
  | .passStmt => keeps_passStmt a
  | .breakStmt => keeps_breakStmt a
  | .continueStmt => keeps_continueStmt a
  | .returnStmt => keeps_returnStmt a
  | .raiseStmt => keeps_raiseStmt a
  | .delStmt => keeps_delStmt a
  | .assertStmt => keeps_assertStmt a
  | .globalStmt => keeps_globalStmt a
  | .nonlocalStmt => keeps_nonlocalStmt a
  | .emptyStmt => keeps_emptyStmt a
  | .importName => keeps_importName a
  | .dottedAsName => keeps_dottedAsName a
  | .importFrom => keeps_importFrom a
  | .importAsNames => keeps_importAsNames a
  | .importAsName => keeps_importAsName a
  | .dottedName => keeps_dottedName a
  | .compoundStmt => keeps_compoundStmt a
  | .ifStmt => keeps_ifStmt a
  | .elifClause => keeps_elifClause a
  | .elseClause => keeps_elseClause a
  | .whileStmt => keeps_whileStmt a
  | .forStmt => keeps_forStmt a
  | .tryStmt => keeps_tryStmt a
  | .exceptClause => keeps_exceptClause a
  | .finallyClause => keeps_finallyClause a
  | .withStmt => keeps_withStmt a
  | .withItem => keeps_withItem a
  | .funcdef => keeps_funcdef a
  | .parameters => keeps_parameters a
  | .param => keeps_param a
  | .classdef => keeps_classdef a
  | .decorated => keeps_decorated a
  | .decorator => keeps_decorator a
  | .suite => keeps_suite a
  | .testlist => keeps_testlist a
  | .exprlist => keeps_exprlist a
  | .test => keeps_test a
  | .lambdef => keeps_lambdef a
  | .orTest => keeps_orTest a
  | .andTest => keeps_andTest a
  | .notTest => keeps_notTest a
  | .comparison => keeps_comparison a
  | .compOp => keeps_compOp a
  | .bitorExpr => keeps_bitorExpr a
  | .bitxorExpr => keeps_bitxorExpr a
  | .bitandExpr => keeps_bitandExpr a
  | .shiftExpr => keeps_shiftExpr a
  | .shiftOp => keeps_shiftOp a
  | .arithExpr => keeps_arithExpr a
  | .addOp => keeps_addOp a
  | .term => keeps_term a
  | .mulOp => keeps_mulOp a
  | .factor => keeps_factor a
  | .unaryOp => keeps_unaryOp a
  | .power => keeps_power a
  | .atomExpr => keeps_atomExpr a
  | .arguments => keeps_arguments a
  | .argument => keeps_argument a
  | .subscript => keeps_subscript a
  | .atom => keeps_atom a
  | .compFor => keeps_compFor a
  | .compIf => keeps_compIf a
  | .dictItem => keeps_dictItem a

mutual

/-- A derivation of spelled tokens is sound at its depth, by what its alternatives keep. -/
theorem Derivation.sound {x : Item} (d : Derivation x) (hspelled : ∀ t ∈ d.tokens, t.Spelled)
    {depth : Nat} (hdepth : d.depth ≤ depth) : d.Sound depth := by
  match d with
  | .leaf t fits => exact hspelled t (List.mem_singleton.mpr rfl)
  | .node a parts =>
    cases depth with
    | zero => exact absurd hdepth (Nat.not_succ_le_zero _)
    | succ depth =>
      -- a phrase takes one level, and its parts are sound one level below
      exact a.keeps depth parts (parts.sound hspelled (Nat.le_of_succ_le_succ hdepth))
  | .absent | .done => trivial
  | .present parts | .left parts | .right parts => exact parts.sound hspelled hdepth
  | .more parts rest | .plus parts rest =>
    have hdepths := Nat.max_le.mp hdepth
    have htokens : ∀ t ∈ parts.tokens ++ rest.tokens, t.Spelled := by
      rw [← parts.prepend_eq rest.tokens]
      exact hspelled
    exact ⟨parts.sound (fun t ht => htokens t (List.mem_append_left _ ht)) hdepths.1,
      rest.sound (fun t ht => htokens t (List.mem_append_right _ ht)) hdepths.2⟩

theorem Derivations.sound {xs : List Item} (ds : Derivations xs)
    (hspelled : ∀ t ∈ ds.tokens, t.Spelled) {depth : Nat} (hdepth : ds.depth ≤ depth) :
    ds.Sound depth := by
  match ds with
  | .nil => trivial
  | .cons head tail =>
    have hdepths := Nat.max_le.mp hdepth
    rw [Derivations.tokens_cons] at hspelled
    exact ⟨head.sound (fun t ht => hspelled t (List.mem_append_left _ ht)) hdepths.1,
      tail.sound (fun t ht => hspelled t (List.mem_append_right _ ht)) hdepths.2⟩

end

end Ebnf
end ScopeLint
