import ScopeLint.Proofs.Displacement
import ScopeLint.Proofs.Insertion
import ScopeLint.Proofs.Reading
import ScopeLint.Proofs.Suppression
import ScopeLint.Proofs.Transport

/-! # Comment lines do not matter

A line that holds a comment and nothing else can come in before any line but the
first, unless that line begins in a string or is joined to the one before it. The
text parses to the same tree further down, and its report is the same with the
line numbers from there on one higher (`lint_insert_comment`). -/
namespace ScopeLint

/-! ## The tree -/

/-- Tokens at other places are parsed to the tree at other places. -/
theorem parse_of_moved {code code' : String} {root : Node} {move : Position → Position}
    (hparse : parse code = .ok root)
    (h : (tokenize (endLine code.toList)).Moved move (tokenize (endLine code'.toList))) :
    parse code' = .ok (root.relocate (fun i => i) move) := by
  obtain ⟨tree, node, hread, hmeaning, rfl⟩ := read_of_parse hparse
  have htokens := h.tokens
  rw [← Grammar.read_eq_ok_iff.mp hread] at htokens
  obtain ⟨tree', hderived, _, hvalue⟩ := tree.exists_moved htokens
  have hvalue : tree'.meaning.value = Grammar.Build.relocate move (Grammar.place move)
      tree.meaning.value := hvalue
  rw [hmeaning] at hvalue
  unfold parse
  simp only [Grammar.read_eq_ok_iff.mpr hderived, h.fault, fault_of_parse hparse]
  rw [hvalue]
  exact congrArg Except.ok (Node.number_relocate _ move node)

/-! ## The scan of raw lines -/

namespace LineScan

theorem lineMessages_comment {line : List Char} (h : CommentOnly line) (filename : String)
    (number : Int) : lineMessages filename number line = [] := by
  obtain ⟨blanks, text, rfl, hblanks, _⟩ := h
  have hblank : ∀ c ∈ blanks, Text.isBlank c = true := by
    intro c hc
    have : c = '\t' ∨ c = ' ' := by simpa [Lexeme.isIndentation] using hblanks c hc
    rcases this with rfl | rfl <;> decide
  -- trimming does not reach the number sign, which is no blank
  have htrim : ∃ rest, Text.trimEnd (blanks ++ '#' :: text) = blanks ++ '#' :: rest := by
    obtain ⟨gap, hsplit, hgap⟩ := Text.exists_trimEnd (blanks ++ '#' :: text)
    have hsign : '#' ∉ gap := fun hmem => absurd (hgap _ hmem) (by decide)
    rcases List.append_eq_append_iff.mp hsplit with ⟨kept, hkept, htext⟩ | ⟨lost, _, hlost⟩
    · cases kept with
      | nil =>
        rw [List.nil_append] at htext
        exact absurd (htext ▸ List.mem_cons_self) hsign
      | cons c kept =>
        obtain ⟨rfl, _⟩ := List.cons.inj htext
        exact ⟨kept, hkept⟩
    · exact absurd (hlost ▸ List.mem_append_right _ List.mem_cons_self) hsign
  obtain ⟨rest, htrim⟩ := htrim
  have hcode : Text.trimEnd (codePart (Text.trimEnd (blanks ++ '#' :: text))) = [] := by
    rw [htrim, codePart, codeFrom_gap hblank]
    exact Text.trimEnd_append_of_blank [] hblank
  rw [lineMessages, hcode]
  rfl

/-- Lines that are numbered otherwise have the same messages, at the other numbers. -/
theorem messages_renumber {filename : String} {number : Int → Int} {n n' : Int}
    {lines : List (List Char)} (h : ∀ i : Nat, i < lines.length → number (n + i) = n' + i) :
    (scanFrom filename n' lines).messages =
      (scanFrom filename n lines).messages.map (Diagnostic.renumber number) := by
  induction lines generalizing n n' with
  | nil => rfl
  | cons line lines ih =>
    have hfirst : number n = n' := by simpa using h 0 (Nat.succ_pos _)
    have hrest : ∀ i : Nat, i < lines.length → number (n + 1 + i) = n' + 1 + i := by
      intro i hi
      have := h (i + 1) (Nat.succ_lt_succ hi)
      push_cast at this
      rw [Int.add_assoc, Int.add_comm 1, this]
      omega
    have hline : lineMessages filename n' line =
        (lineMessages filename n line).map (Diagnostic.renumber number) := by
      unfold lineMessages
      dsimp only
      split
      · rw [← hfirst]
        rfl
      · rfl
    simp only [scanFrom, List.map_append, hline, ih hrest]

section

variable {code code' : String} {line : List Char} {first rest : List (List Char)}
  (hcode : linesOf code = first ++ rest) (hcode' : linesOf code' = first ++ line :: rest)
include hcode hcode'

theorem messages_insert (hline : CommentOnly line) (filename : String) :
    (scan code' filename).messages = (scan code filename).messages.map
      (Diagnostic.renumber (pushDown (first.length + 1))) := by
  have hbefore : (scanFrom filename 1 first).messages =
      (scanFrom filename 1 first).messages.map
        (Diagnostic.renumber (pushDown (first.length + 1))) := by
    refine messages_renumber fun i hi => ?_
    rw [pushDown, if_neg (by omega)]
  have hafter : (scanFrom filename (1 + first.length + 1) rest).messages =
      (scanFrom filename (1 + first.length) rest).messages.map
        (Diagnostic.renumber (pushDown (first.length + 1))) := by
    refine messages_renumber fun i hi => ?_
    rw [pushDown, if_pos (by omega)]
    omega
  unfold linesOf at hcode hcode'
  simp only [scan, hcode, hcode', scanFrom_append, scanFrom, lineMessages_comment hline,
    List.nil_append, hafter, List.map_append]
  rw [← hbefore]

theorem lookup_insert (filename : String) (m : Int) :
    (scan code' filename).filters.lookup (pushDown (first.length + 1) m) =
      (scan code filename).filters.lookup m := by
  unfold linesOf at hcode hcode'
  rw [scan, scan, hcode, hcode', lookup_scanFrom, lookup_scanFrom]
  by_cases hm : (first.length : Int) + 1 ≤ m
  · have hnew : (m + 1 - 1).toNat = first.length + ((m - 1).toNat - first.length + 1) := by omega
    rw [pushDown, if_pos hm, if_pos (by omega), if_pos (by omega), hnew,
      List.getElem?_append_right (by omega), Nat.add_sub_cancel_left, List.getElem?_cons_succ,
      List.getElem?_append_right (by omega)]
  · rw [pushDown, if_neg hm]
    split
    · rw [List.getElem?_append_left (by omega), List.getElem?_append_left (by omega)]
    · rfl

end

end LineScan

/-! ## The report -/

namespace Resolve

theorem precedes_pushDown {k : Int} (hk : 1 ≤ k) (a b : Diagnostic) :
    precedes (a.renumber (pushDown k)) (b.renumber (pushDown k)) = precedes a b := by
  have hkey : ∀ d : Diagnostic, key (d.renumber (pushDown k)) =
      (pushDown k (key d).1, (key d).2) := by
    intro d
    cases hstart : d.startLine with
    | none =>
      have hzero : pushDown k 0 = 0 := if_neg (by omega)
      simp [key, Diagnostic.renumber, hstart, hzero]
    | some line => simp [key, Diagnostic.renumber, hstart]
  rw [Bool.eq_iff_iff, precedes_iff, precedes_iff, hkey, hkey]
  simp only [pushDown]
  split <;> split <;> omega

section

variable {w : Walk} {code code' : String} {k : Int} (hk : 1 ≤ k)
  (hmessages : (LineScan.scan code' w.filename).messages =
    (LineScan.scan code w.filename).messages.map (Diagnostic.renumber (pushDown k)))

include hmessages in
theorem candidates_pushDown : candidates (w.renumber (pushDown k)) code' =
    (candidates w code).map (Diagnostic.renumber (pushDown k)) := by
  have hwalk : (w.renumber (pushDown k)).messages =
      w.messages.map (Diagnostic.renumber (pushDown k)) := rfl
  have hfile : (w.renumber (pushDown k)).filename = w.filename := rfl
  rw [candidates, hwalk, hfile, hmessages, scopeMessages_renumber, candidates, List.map_append,
    List.map_append]

include hk hmessages in
theorem resolve_pushDown
    (hlookup : ∀ m, (LineScan.scan code' w.filename).filters.lookup (pushDown k m) =
      (LineScan.scan code w.filename).filters.lookup m) (builtins : List String) :
    resolve (w.renumber (pushDown k)) code' builtins =
      (resolve w code builtins).map (Diagnostic.renumber (pushDown k)) := by
  have hfile : (w.renumber (pushDown k)).filename = w.filename := rfl
  have hsuppressed : ∀ d : Diagnostic,
      isSuppressed (LineScan.scan code' w.filename).filters (d.renumber (pushDown k)) =
        isSuppressed (LineScan.scan code w.filename).filters d := by
    intro d
    cases hstart : d.startLine with
    | none => simp [isSuppressed, Diagnostic.renumber, hstart]
    | some line => simp [isSuppressed, Diagnostic.renumber, hstart, hlookup]
  have hbuiltin : ∀ d : Diagnostic,
      isBuiltin builtins (d.renumber (pushDown k)) = isBuiltin builtins d := fun _ => rfl
  rw [resolve, resolve, map_sort (precedes_pushDown hk), candidates_pushDown hmessages, hfile,
    List.filter_map]
  simp only [Function.comp_def, hsuppressed, hbuiltin]

end

end Resolve

/-- A tree further down in a text that scans to the same, further down, has its report moved. -/
theorem lintTree_pushDown {root : Node} {code code' filename : String} {k : Int} (hk : 1 ≤ k)
    {w : Walk} (hw : walk root filename = .ok w)
    (hmessages : (LineScan.scan code' w.filename).messages =
      (LineScan.scan code w.filename).messages.map (Diagnostic.renumber (pushDown k)))
    (hlookup : ∀ m, (LineScan.scan code' w.filename).filters.lookup (pushDown k m) =
      (LineScan.scan code w.filename).filters.lookup m) (builtins : List String) :
    ∃ report, lintTree root code filename builtins = .ok report ∧
      lintTree (root.relocate (fun i => i) (Position.pushDown k)) code' filename builtins =
        .ok ⟨report.diagnostics.map (Diagnostic.renumber (pushDown k)), report.notes⟩ := by
  have hmoved : walk (root.relocate (fun i => i) (Position.pushDown k)) filename =
      .ok (w.renumber (pushDown k)) := by
    rw [walk_renumber, hw]
    rfl
  have hnotes : (w.renumber (pushDown k)).notes = w.notes := by
    simp [Walk.notes, Walk.renumber]
  refine ⟨_, lintTree_eq_ok_iff.mpr ⟨w, hw, rfl⟩, lintTree_eq_ok_iff.mpr ⟨_, hmoved, ?_⟩⟩
  rw [Resolve.resolve_pushDown hk hmessages hlookup, Resolve.candidates_pushDown hmessages, hnotes,
    List.length_map, List.length_map]

/-- One more comment line before line `k`, the first line being line 1, leaves a text that parses
parsing and moves its report: every line number from `k` on is one higher, also the one that the
message about a loop variable tells, and everything else is as before. Line `k` must not begin in a
string and the line before it must not end with a backslash that joins the two. -/
theorem lint_insert_comment {code : String} {root : Node} (hparse : parse code = .ok root) {k : Nat}
    (hk : 2 ≤ k) (hlines : k ≤ (linesOf code).length)
    (hfresh : Lexer.Fresh (Lexer.pieces ⟨1, 0⟩ 0 (endLine code.toList)) k) {comment : String}
    (hcomment : CommentOnly comment.toList) (filename : String) (builtins : List String) :
    ∃ report, lint code filename builtins = .ok report ∧
      (∃ root', parse (insertLine code (k - 1) comment) = .ok root') ∧
      lint (insertLine code (k - 1) comment) filename builtins =
        .ok ⟨report.diagnostics.map (Diagnostic.renumber (pushDown k)), report.notes⟩ := by
  obtain ⟨first, rest, hcode, hlength⟩ : ∃ first rest, linesOf code = first ++ rest ∧
      first.length = k - 1 :=
    ⟨_, _, (List.take_append_drop (k - 1) _).symm, List.length_take_of_le (by omega)⟩
  have hfirst : first ≠ [] := List.ne_nil_of_length_pos (by omega)
  have hrest : rest ≠ [] := by
    rw [hcode, List.length_append] at hlines
    exact List.ne_nil_of_length_pos (by omega)
  have hnumber : (k : Int) = first.length + 1 := by omega
  obtain ⟨hold, hnew⟩ := toList_insertLine hcode hfirst hrest comment
  have hinserted := linesOf_insertLine hcode hcomment.newline_notMem
  rw [← hlength]
  generalize insertLine code first.length comment = code' at hnew hinserted
  -- the tokens and the tree move down
  have hfree : ∀ line ∈ first, '\n' ∉ line := fun line hline =>
    Text.sep_notMem_of_mem_splitAt (hcode ▸ List.mem_append_left _ hline : line ∈ linesOf code)
  have hcount := count_ofLines hfree hfirst
  have hfault := fault_of_parse hparse
  have hmoved : (tokenize (endLine code.toList)).Moved (Position.pushDown k)
      (tokenize (endLine code'.toList)) := by
    rw [hold] at hfault hfresh ⊢
    rw [hnew]
    exact moved_tokenize_insert hcomment (by omega) hfault hfresh
  have hparse' := parse_of_moved hparse hmoved
  -- the scan of raw lines moves down as well
  obtain ⟨w, hw⟩ := walk_parse_ok hparse filename
  have hmessages := LineScan.messages_insert hcode hinserted hcomment w.filename
  have hlookup := LineScan.lookup_insert hcode hinserted w.filename
  rw [← hnumber] at hmessages hlookup
  obtain ⟨report, hreport, hreport'⟩ :=
    lintTree_pushDown (by omega) hw hmessages hlookup builtins
  refine ⟨report, ?_, ⟨_, hparse'⟩, ?_⟩
  · rw [lint_of_parse hparse, hreport]
  · rw [lint_of_parse hparse', hreport']

/-- A block whose loop takes over a name that the block binds, with brackets over two lines. -/
def overtaken : String := "if y:\n    x = 1\n    for x in [z,\n  1]:\n        pass\n"

theorem lint_of_overtaken_with_comment :
    ∃ root report, parse overtaken = .ok root ∧ 2 ≤ (linesOf overtaken).length ∧
      Lexer.Fresh (Lexer.pieces ⟨1, 0⟩ 0 (endLine overtaken.toList)) (2 : Nat) ∧
      CommentOnly "\t# \"\"\" no-lint".toList ∧
      lint overtaken "overtaken" [] = .ok report ∧
      report.diagnostics.map (fun d => (d.ident, d.name, d.otherLine, d.startLine)) =
        [("undef", "y", none, some 1), ("loop-shadowed", "x", some 2, some 3),
          ("undef", "z", none, some 3)] ∧
      (∃ root', parse (insertLine overtaken 1 "\t# \"\"\" no-lint") = .ok root') ∧
      lint (insertLine overtaken 1 "\t# \"\"\" no-lint") "overtaken" [] =
        .ok ⟨report.diagnostics.map (Diagnostic.renumber (pushDown (2 : Nat))), report.notes⟩ := by
  have hlines : 2 ≤ (linesOf overtaken).length := by decide +kernel
  have hfresh : Lexer.Fresh (Lexer.pieces ⟨1, 0⟩ 0 (endLine overtaken.toList)) (2 : Nat) := by
    decide +kernel
  have hcomment : CommentOnly "\t# \"\"\" no-lint".toList :=
    ⟨['\t'], " \"\"\" no-lint".toList, by decide +kernel, by simp [Lexeme.isIndentation],
      by decide +kernel⟩
  have hreport : (lint overtaken "overtaken" []).map (fun report =>
      report.diagnostics.map fun d => (d.ident, d.name, d.otherLine, d.startLine)) =
      .ok [("undef", "y", none, some 1), ("loop-shadowed", "x", some 2, some 3),
        ("undef", "z", none, some 3)] := by decide +kernel
  have hparsed : (parse overtaken).isOk = true := by decide +kernel
  cases hparse : parse overtaken with
  | error e =>
    rw [hparse] at hparsed
    cases hparsed
  | ok root =>
    obtain ⟨report, hlint, hroot, hmoved⟩ :=
      lint_insert_comment hparse (Nat.le_refl 2) hlines hfresh hcomment "overtaken" []
    rw [hlint] at hreport
    exact ⟨root, report, rfl, hlines, hfresh, hcomment, hlint, Except.ok.inj hreport, hroot, hmoved⟩

/-- A block of two lines. -/
def shortBlock : String := "if a:\n    b\n    c\n"

/-- A form feed is skipped inside a line, but it is no indentation. A comment behind one is not
taken along by the line end before it, so the block ends there and the line after it is indented
too far. -/
theorem lint_of_block_with_form_feed :
    (parse shortBlock).isOk = true ∧ 3 ≤ (linesOf shortBlock).length ∧
      Lexer.Fresh (Lexer.pieces ⟨1, 0⟩ 0 (endLine shortBlock.toList)) (3 : Nat) ∧
      (∃ blanks text, "\x0c# c".toList = blanks ++ '#' :: text ∧
        (∀ c ∈ blanks, Lexeme.isGap c = true) ∧ '\n' ∉ text) ∧
      (lint shortBlock "block" []).map (fun report => report.diagnostics.map (·.ident)) =
        .ok ["undef", "undef", "undef"] ∧
      (∀ root, parse (insertLine shortBlock 2 "\x0c# c") ≠ .ok root) ∧
      (lint (insertLine shortBlock 2 "\x0c# c") "block" []).map (fun report =>
        report.diagnostics.map (·.ident)) = .ok ["syntax-err"] := by
  refine ⟨by decide +kernel, by decide +kernel, by decide +kernel,
    ⟨['\x0c'], " c".toList, by decide +kernel, List.forall_mem_singleton.mpr rfl,
      by decide +kernel⟩, by decide +kernel, ?_, by decide +kernel⟩
  intro root hparse
  have hfails : (parse (insertLine shortBlock 2 "\x0c# c")).isOk = false := by decide +kernel
  rw [hparse] at hfails
  cases hfails

end ScopeLint
