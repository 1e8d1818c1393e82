import Stacking.Proofs.Style.Derived
import Stacking.Proofs.Style.Reading

/-!
# Parsing accepts exactly the grammar

A text becomes a stylesheet exactly if it can be split into tokens, the tokens derive from the start
of the grammar, and every prelude that is used as a declaration has a property; the nodes of the
stylesheet are then those of the derivation (`Stylesheet.parse_accepts_grammar`).

Whether a prelude has a property is seen from its tokens alone: what stands between them is read as
blanks (`Prelude.solid_text`), and blanks do not matter (`Text.hasProperty_solid`).
-/

namespace Stacking

/-! ## Which preludes are declarations -/

/-- The text has a colon, and its first colon has more than blanks before it. -/
def Text.HasProperty (t : Text) : Prop :=
  ∃ before after, t = before ++ ':' :: after ∧ ':' ∉ before ∧ ∃ c ∈ before, isBlank c = false

/-- The text without its blanks. -/
def Text.solid (t : Text) : Text := t.filter fun c => !isBlank c

namespace Text

theorem solid_append (t u : Text) : solid (t ++ u) = solid t ++ solid u := List.filter_append t u

theorem solid_eq_nil {t : Text} (h : ∀ c ∈ t, isBlank c = true) : solid t = [] :=
  List.filter_eq_nil_iff.mpr fun c hc => by simp [h c hc]

theorem mem_solid {t : Text} {c : Char} : c ∈ solid t ↔ c ∈ t ∧ isBlank c = false := by
  simp [solid]

/-- Blanks do not tell whether a text has a property. -/
theorem hasProperty_solid (t : Text) : (solid t).HasProperty ↔ t.HasProperty := by
  have hcolon : isBlank ':' = false := by decide
  constructor
  · rintro ⟨before, after, ht, hbefore, c, hc, hb⟩
    obtain ⟨x, y, rfl, rfl, hy⟩ := List.filter_eq_append_iff.mp ht
    obtain ⟨z, w, rfl, hz, _⟩ := List.filter_eq_cons_iff.mp hy
    refine ⟨x ++ z, w, by simp, ?_, c, ?_, hb⟩
    · intro hmem
      rcases List.mem_append.mp hmem with hx | hz'
      · exact hbefore (mem_solid.mpr ⟨hx, hcolon⟩)
      · exact hz _ hz' (by simp [hcolon])
    · exact List.mem_append_left z (mem_solid.mp hc).1
  · rintro ⟨before, after, rfl, hbefore, c, hc, hb⟩
    refine ⟨solid before, solid after, ?_, fun h => hbefore (mem_solid.mp h).1, c,
      mem_solid.mpr ⟨hc, hb⟩, hb⟩
    rw [solid_append, solid, solid, List.filter_cons_of_pos (by simp [hcolon]), solid]

end Text

theorem Prelude.solid_spacing (gap : Text) : (spacing gap).solid = [] := by
  refine Text.solid_eq_nil fun c hc => ?_
  rw [spacing] at hc
  split at hc
  · rename_i hall
    exact List.all_eq_true.mp hall c hc
  · rw [List.mem_singleton.mp hc]
    decide

theorem Token.solid_content (t : Token) : t.content.solid = t.text.solid := by
  obtain ⟨htext, hblank⟩ := t.content_append
  conv => rhs; rw [htext]
  rw [Text.solid_append, Text.solid_eq_nil hblank, List.append_nil]

theorem Prelude.solid_textAfter (trailing : Text) (ts : List Token) :
    (textAfter trailing ts).solid = Text.solid (ts.flatMap (·.text)) := by
  induction ts generalizing trailing with
  | nil => rfl
  | cons t ts ih =>
    rw [textAfter, Text.solid_append, Text.solid_append, solid_spacing, List.nil_append,
      t.solid_content, ih, List.flatMap_cons, Text.solid_append]

/-- The text of a prelude is that of its tokens but for blanks. -/
theorem Prelude.solid_text (ts : List Token) :
    (text ts).solid = Text.solid (ts.flatMap (·.text)) := by
  cases ts with
  | nil => rfl
  | cons t ts =>
    rw [text, Text.solid_append, t.solid_content, solid_textAfter, List.flatMap_cons,
      Text.solid_append]

theorem Declaration.exists_ofPrelude_iff (ts : List Token) :
    (∃ d, ofPrelude ts = .ok d) ↔ Text.HasProperty (ts.flatMap (·.text)) := by
  have hsome : (ofText? (Prelude.text ts) (some ⟨Prelude.start ts, Prelude.stop ts⟩)).isSome =
      true ↔ (Prelude.text ts).HasProperty := isSome_ofText?_iff
  rw [← Text.hasProperty_solid, ← Prelude.solid_text, Text.hasProperty_solid, ← hsome, ofPrelude]
  cases ofText? (Prelude.text ts) (some ⟨Prelude.start ts, Prelude.stop ts⟩) <;> simp

namespace Statement

mutual

/-- A statement becomes a node exactly if every declaration in it has a property. -/
theorem exists_toNode_iff (st : Statement) :
    (∃ node, st.toNode = .ok node) ↔ ∀ x ∈ st.declared, x.HasProperty := by
  cases st with
  | declaration p =>
    rw [toNode, declared, List.forall_mem_singleton, ← Declaration.exists_ofPrelude_iff]
    cases Declaration.ofPrelude p <;> simp
  | atStatement k p => simp [toNode, declared]
  | block k p body close =>
    rw [toNode, declared, ← exists_toNodes_iff body]
    cases toNodes body <;> simp

theorem exists_toNodes_iff (sts : List Statement) :
    (∃ nodes, toNodes sts = .ok nodes) ↔ ∀ x ∈ declaredIn sts, x.HasProperty := by
  cases sts with
  | nil => simp [toNodes, declaredIn]
  | cons st sts =>
    rw [toNodes, declaredIn, List.forall_mem_append, ← exists_toNode_iff st,
      ← exists_toNodes_iff sts]
    cases toNode st <;> cases toNodes sts <;> simp

end

mutual

/-- The node of a statement has its shape. -/
theorem shape_toNode {st : Statement} {node : Node} (h : st.toNode = .ok node) :
    node.shape = st.shape := by
  cases st with
  | declaration p =>
    rw [toNode] at h
    split at h
    · cases h
    · obtain rfl := Except.ok.inj h
      rfl
  | atStatement k p =>
    rw [toNode] at h
    obtain rfl := Except.ok.inj h
    rfl
  | block k p body close =>
    rw [toNode] at h
    split at h
    · cases h
    · rename_i nodes hnodes
      obtain rfl := Except.ok.inj h
      have hbody := shapes_toNodes hnodes
      cases k <;> simp [blockHead, Node.shape, shape, hbody]

theorem shapes_toNodes {sts : List Statement} {nodes : List Node} (h : toNodes sts = .ok nodes) :
    Node.shapes nodes = shapes sts := by
  cases sts with
  | nil =>
    obtain rfl := Except.ok.inj h
    rfl
  | cons st sts =>
    rw [toNodes] at h
    split at h
    · cases h
    · rename_i node hnode
      split at h
      · cases h
      · rename_i rest hrest
        obtain rfl := Except.ok.inj h
        rw [Node.shapes, shapes, shape_toNode hnode, shapes_toNodes hrest]

end

end Statement

/-! ## Parsing -/

namespace Stylesheet

theorem exists_parse_iff (t : Text) :
    (∃ s, parse t = .ok s) ↔
      ∃ ls tree, Splits t ls ∧ ParseTree.Derives .start ls tree ∧
        ∀ x ∈ tree.declared, x.HasProperty := by
  constructor
  · rintro ⟨s, hs⟩
    obtain ⟨ts, sts, hscan, hspelled, hnodes⟩ := parse_eq_ok_iff.mp hs
    obtain ⟨tree, htree⟩ := hspelled.exists_derives
    obtain ⟨sts', hspelled', _, hdeclared⟩ := htree.exists_spelled
    obtain rfl := hspelled.unique hspelled'
    refine ⟨_, tree, splits_iff.mpr (by rw [hscan]; exact ⟨rfl, rfl⟩), htree, ?_⟩
    rw [← hdeclared]
    exact (Statement.exists_toNodes_iff sts).mp ⟨_, hnodes⟩
  · rintro ⟨ls, tree, hsplits, htree, hdeclared⟩
    obtain ⟨hend, rfl⟩ := splits_iff.mp hsplits
    obtain ⟨sts, hspelled, _, hsame⟩ := htree.exists_spelled
    rw [← hsame] at hdeclared
    obtain ⟨nodes, hnodes⟩ := (Statement.exists_toNodes_iff sts).mpr hdeclared
    exact ⟨⟨nodes⟩, parse_eq_ok_iff.mpr ⟨_, sts, by rw [← hend], hspelled, hnodes⟩⟩

theorem shapes_of_derives {t : Text} {s : Stylesheet} {ls : List Leaf} {tree : ParseTree}
    (hs : parse t = .ok s) (hsplits : Splits t ls) (htree : tree.Derives .start ls) :
    Node.shapes s.nodes = tree.shapes := by
  obtain ⟨ts, sts, hscan, hspelled, hnodes⟩ := parse_eq_ok_iff.mp hs
  obtain ⟨_, hleaves⟩ := splits_iff.mp hsplits
  rw [hscan] at hleaves
  subst hleaves
  obtain ⟨sts', hspelled', hshapes, _⟩ := htree.exists_spelled
  obtain rfl := hspelled.unique hspelled'
  rw [Statement.shapes_toNodes hnodes, hshapes]

/-- A text is a stylesheet exactly if the expressions of the terminals split it from left to right,
the tokens derive from the start of the grammar, and every prelude that is used as a declaration has
a colon with more than blanks before the first one. The stylesheet then has one node for each rule,
at-rule and declaration of the derivation, nested and ordered alike, and an at-rule has a body
exactly if it has a block there. -/
theorem parse_accepts_grammar (t : Text) :
    ((∃ s, parse t = .ok s) ↔
      ∃ ls tree, Splits t ls ∧ ParseTree.Derives .start ls tree ∧
        ∀ x ∈ tree.declared, x.HasProperty) ∧
    ∀ s ls tree, parse t = .ok s → Splits t ls → ParseTree.Derives .start ls tree →
      Node.shapes s.nodes = tree.shapes := by
  refine ⟨exists_parse_iff t, fun s ls tree hs hsplits htree => ?_⟩
  exact shapes_of_derives hs hsplits htree

theorem parse_accepts_grammar_nested :
    ∃ t s ls tree, t = "@m (a @b (c)) /*;*/ d{x:y{z:url(;) w;;@n} p:q}".toList ∧
      parse t = .ok s ∧
      s.outline = [.block (.atRule "m" "(a @b (c)) d") "root", .block (.selector "x:y") "@m",
        .declaration "z" "x:y" ["z"], .atStatement "@n" "x:y", .declaration "p" "@m" ["p"]] ∧
      Splits t ls ∧ ParseTree.Derives .start ls tree ∧ (∀ x ∈ tree.declared, x.HasProperty) ∧
      Node.shapes s.nodes = tree.shapes := by
  have hparse : (parse
      "@m (a @b (c)) /*;*/ d{x:y{z:url(;) w;;@n} p:q}".toList).toOption.map
        (·.outline) =
      some [.block (.atRule "m" "(a @b (c)) d") "root", .block (.selector "x:y") "@m",
        .declaration "z" "x:y" ["z"], .atStatement "@n" "x:y", .declaration "p" "@m" ["p"]] := by
    decide +kernel
  obtain ⟨s, hs, houtline⟩ := Option.map_eq_some_iff.mp hparse
  have hs := ParseError.eq_ok_of_toOption hs
  obtain ⟨ls, tree, hsplits, htree, hdeclared⟩ := (parse_accepts_grammar _).1.mp ⟨s, hs⟩
  exact ⟨_, s, ls, tree, rfl, hs, houtline, hsplits, htree, hdeclared,
    (parse_accepts_grammar _).2 s ls tree hs hsplits htree⟩

end Stylesheet
end Stacking
