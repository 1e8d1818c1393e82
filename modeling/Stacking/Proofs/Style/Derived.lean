import Mathlib.Data.List.Forall2
import Stacking.Proofs.Style.Derivation
import Stacking.Proofs.Style.Grammar

/-!
# Derivations are what is read

The machine that groups tokens into statements reads exactly what derives from the start of the
grammar.

* Every valid tree reads as the nonterminal at its root says (`ParseTree.Valid.reads`), so the
  tokens that it derives are read as statements of the same shapes, with the same declarations
  (`ParseTree.Derives.exists_spelled`) at the same tokens (`ParseTree.Derives.forall_standing`).
  This is an induction on the tree with one lemma for each nonterminal.
* Whatever is read has a parse tree (`Spelled.exists_derives`). Preludes are the hard part: where
  parentheses are counted, groups have to be found (`ParseTree.layered_of_parens`).
-/

namespace Stacking

open Nonterminal (tok sub opt production)

/-! ## Shapes of statements -/

namespace Statement

mutual

/-- What kind of node a statement becomes, with the nodes in its block. -/
def shape : Statement → Shape
  | .declaration _ => .declaration
  | .atStatement _ _ => .atRule none
  | .block none _ body _ => .rule (shapes body)
  | .block (some _) _ body _ => .atRule (some (shapes body))

/-- What kinds of node statements become. -/
def shapes : List Statement → List Shape
  | [] => []
  | statement :: rest => statement.shape :: shapes rest

end

mutual

/-- The texts of the preludes that are declarations. -/
def declared : Statement → List Text
  | .declaration prelude => [prelude.flatMap (·.text)]
  | .atStatement _ _ => []
  | .block _ _ body _ => declaredIn body

/-- The texts of the preludes among statements that are declarations. -/
def declaredIn : List Statement → List Text
  | [] => []
  | statement :: rest => statement.declared ++ declaredIn rest

end

mutual

/-- The preludes that are declarations, in document order. -/
def preludes : Statement → List (List Token)
  | .declaration prelude => [prelude]
  | .atStatement _ _ => []
  | .block _ _ body _ => preludesIn body

/-- The preludes among statements that are declarations, in document order. -/
def preludesIn : List Statement → List (List Token)
  | [] => []
  | statement :: rest => statement.preludes ++ preludesIn rest

end

theorem shapes_append (sts sts' : List Statement) :
    shapes (sts ++ sts') = shapes sts ++ shapes sts' := by
  induction sts with
  | nil => rfl
  | cons st sts ih => rw [List.cons_append, shapes, shapes, ih, List.cons_append]

theorem preludesIn_append (sts sts' : List Statement) :
    preludesIn (sts ++ sts') = preludesIn sts ++ preludesIn sts' := by
  induction sts with
  | nil => rfl
  | cons st sts ih => rw [List.cons_append, preludesIn, preludesIn, ih, List.append_assoc]

mutual

/-- The texts of the preludes that are declarations are those of their tokens. -/
theorem declared_eq_map (st : Statement) :
    st.declared = st.preludes.map fun p => p.flatMap (·.text) := by
  cases st with
  | declaration p => rfl
  | atStatement k p => rfl
  | block k p body close => exact declaredIn_eq_map body

theorem declaredIn_eq_map (sts : List Statement) :
    declaredIn sts = (preludesIn sts).map fun p => p.flatMap (·.text) := by
  cases sts with
  | nil => rfl
  | cons st sts =>
    rw [declaredIn, preludesIn, List.map_append, declared_eq_map st, declaredIn_eq_map sts]

end

end Statement

/-! ## Preludes -/

namespace ParseTree

/-- A part of a prelude or, `inner`, of a group in parentheses. -/
def IsItem (inner : Bool) (c : ParseTree) : Prop :=
  c.root = .terminal .chunk ∨ (inner = true ∧ c.root = .terminal .atKeyword) ∨
    c.root = .nonterminal .parenGroup

theorem fits_item (xs : List ParseTree) :
    Fits (tok .chunk + sub .parenGroup) xs ↔ ∃ c, xs = [c] ∧ IsItem false c := by
  simp [fits_add, tok, sub, fits_char, IsItem, and_or_left, exists_or]

theorem fits_innerItem (xs : List ParseTree) :
    Fits (tok .chunk + tok .atKeyword + sub .parenGroup) xs ↔ ∃ c, xs = [c] ∧ IsItem true c := by
  simp [fits_add, tok, sub, fits_char, IsItem, and_or_left, exists_or, or_assoc]

/-- A group in parentheses is its items between the parentheses. -/
theorem fits_parenGroup {children : List ParseTree} :
    Fits (production .parenGroup) children ↔
      ∃ o items c, children = leaf o :: (items ++ [leaf c]) ∧ o.kind = .openParen ∧
        (∀ item ∈ items, IsItem true item) ∧ c.kind = .closeParen := by
  simp only [production, fits_mul, fits_tok, fits_star fits_innerItem]
  constructor
  · rintro ⟨_, _, rfl, ⟨_, items, rfl, ⟨o, rfl, ho⟩, hitems⟩, c, rfl, hc⟩
    exact ⟨o, items, c, rfl, ho, hitems, hc⟩
  · rintro ⟨o, items, c, rfl, ho, hitems, hc⟩
    exact ⟨_, _, rfl, ⟨[leaf o], items, rfl, ⟨o, rfl, ho⟩, hitems⟩, c, rfl, hc⟩

theorem fits_prelude {children : List ParseTree} :
    Fits (production .prelude) children ↔
      children ≠ [] ∧ ∀ item ∈ children, IsItem false item := by
  simp only [production, fits_mul, fits_item, fits_star fits_item]
  constructor
  · rintro ⟨_, items, rfl, ⟨c, rfl, hc⟩, hitems⟩
    exact ⟨by simp, List.forall_mem_cons.mpr ⟨hc, hitems⟩⟩
  · rintro ⟨hne, hitems⟩
    obtain ⟨c, items, rfl⟩ := List.exists_cons_of_ne_nil hne
    obtain ⟨hc, hitems⟩ := List.forall_mem_cons.mp hitems
    exact ⟨[c], items, rfl, ⟨c, rfl, hc⟩, hitems⟩

/-- Tokens that trees derive fall into those of the single trees. -/
theorem exists_split {xs ys : List ParseTree} {ts : List Token}
    (h : yields (xs ++ ys) = ts.map Token.leaf) :
    ∃ us vs, ts = us ++ vs ∧ yields xs = us.map Token.leaf ∧ yields ys = vs.map Token.leaf := by
  rw [yields_append] at h
  obtain ⟨us, vs, rfl, hu, hv⟩ := List.map_eq_append_iff.mp h.symm
  exact ⟨us, vs, rfl, hu.symm, hv.symm⟩

theorem exists_cons {c : ParseTree} {xs : List ParseTree} {ts : List Token}
    (h : yields (c :: xs) = ts.map Token.leaf) :
    ∃ us vs, ts = us ++ vs ∧ c.yield = us.map Token.leaf ∧ yields xs = vs.map Token.leaf := by
  have h' : yields ([c] ++ xs) = ts.map Token.leaf := h
  obtain ⟨us, vs, hts, hu, hv⟩ := exists_split h'
  exact ⟨us, vs, hts, by rwa [yields_singleton] at hu, hv⟩

theorem exists_leaf {l : Leaf} {ts : List Token} (h : (leaf l).yield = ts.map Token.leaf) :
    ∃ t, ts = [t] ∧ t.kind = l.kind := by
  rw [yield] at h
  obtain ⟨t, rfl, rfl⟩ := List.map_eq_singleton_iff.mp h.symm
  exact ⟨t, rfl, rfl⟩

/-- Items leave as many parentheses open as there were, if each group among them does. -/
theorem parens_items {inner : Bool} {items : List ParseTree} {ts : List Token} {depth : Nat}
    (hitems : ∀ c ∈ items, IsItem inner c) (hdepth : inner = true → 0 < depth)
    (hgroup : ∀ c ∈ items, c.root = .nonterminal .parenGroup → ∀ us : List Token,
      c.yield = us.map Token.leaf → Token.parens depth us = some depth)
    (h : yields items = ts.map Token.leaf) : Token.parens depth ts = some depth := by
  induction items generalizing ts with
  | nil =>
    obtain rfl : ts = [] := List.map_eq_nil_iff.mp h.symm
    rfl
  | cons c items ih =>
    obtain ⟨us, vs, rfl, hu, hv⟩ := exists_cons h
    have hrest := ih (fun d hd => hitems d (List.mem_cons_of_mem c hd))
      (fun d hd => hgroup d (List.mem_cons_of_mem c hd)) hv
    have hfirst : Token.parens depth us = some depth := by
      rcases hitems c List.mem_cons_self with hroot | ⟨hinner, hroot⟩ | hroot
      · obtain ⟨l, rfl, hl⟩ := exists_leaf_of_root hroot
        obtain ⟨t, rfl, ht⟩ := exists_leaf hu
        simp [Token.parens, ht, hl]
      · obtain ⟨l, rfl, hl⟩ := exists_leaf_of_root hroot
        obtain ⟨t, rfl, ht⟩ := exists_leaf hu
        have hpos := hdepth hinner
        simp [Token.parens, ht, hl, Nat.ne_of_gt hpos]
      · exact hgroup c List.mem_cons_self hroot us hu
    rw [Token.parens_append, hfirst, Option.bind_some, hrest]

/-- A group in parentheses leaves as many open as there were. -/
theorem Valid.parens_eq {c : ParseTree} (h : c.Valid) (hroot : c.root = .nonterminal .parenGroup)
    {ts : List Token} (hy : c.yield = ts.map Token.leaf) (depth : Nat) :
    Token.parens depth ts = some depth := by
  induction h generalizing ts depth with
  | leaf l => cases hroot
  | node hfits hall ih =>
    obtain rfl := Symbol.nonterminal.inj hroot
    obtain ⟨o, items, e, rfl, ho, hitems, he⟩ := fits_parenGroup.mp hfits
    obtain ⟨us, vs, rfl, hu, hv⟩ := exists_cons hy
    obtain ⟨ws, zs, rfl, hw, hz⟩ := exists_split hv
    obtain ⟨t, rfl, ht⟩ := exists_leaf hu
    rw [yields_singleton] at hz
    obtain ⟨t', rfl, ht'⟩ := exists_leaf hz
    have hinner : Token.parens (depth + 1) ws = some (depth + 1) := by
      refine parens_items hitems (fun _ => Nat.succ_pos depth) (fun c hc hroot us hus => ?_) hw
      exact ih c (by simp [hc]) hroot hus (depth + 1)
    simp [Token.parens, Token.parens_append, ht, ho, hinner, ht', he]

/-- No rule, at-rule or declaration stands within a prelude. -/
theorem shapesIn_items {inner : Bool} {items : List ParseTree}
    (hitems : ∀ c ∈ items, IsItem inner c)
    (hgroup : ∀ c ∈ items, c.root = .nonterminal .parenGroup →
      c.shapes = [] ∧ ∀ count, c.declaredFrom count = []) :
    shapesIn items = [] ∧ ∀ count, declaredFromIn count items = [] := by
  induction items with
  | nil => exact ⟨rfl, fun _ => rfl⟩
  | cons c items ih =>
    obtain ⟨hshapes, hdeclared⟩ := ih (fun d hd => hitems d (List.mem_cons_of_mem c hd))
      fun d hd => hgroup d (List.mem_cons_of_mem c hd)
    have hfirst : c.shapes = [] ∧ ∀ count, c.declaredFrom count = [] := by
      by_cases hroot : c.root = .nonterminal .parenGroup
      · exact hgroup c List.mem_cons_self hroot
      · cases c with
        | leaf l => exact ⟨rfl, fun _ => rfl⟩
        | node n children => simp_all [IsItem, root]
    exact ⟨by simp [hfirst.1, hshapes], by simp [hfirst.2, hdeclared]⟩

theorem Valid.shapes_parenGroup {c : ParseTree} (h : c.Valid)
    (hroot : c.root = .nonterminal .parenGroup) :
    c.shapes = [] ∧ ∀ count, c.declaredFrom count = [] := by
  induction h with
  | leaf l => cases hroot
  | node hfits hall ih =>
    obtain rfl := Symbol.nonterminal.inj hroot
    obtain ⟨o, items, e, rfl, _, hitems, _⟩ := fits_parenGroup.mp hfits
    obtain ⟨hshapes, hdeclared⟩ := shapesIn_items hitems fun c hc => ih c (by simp [hc])
    constructor
    · simp [shapes, hshapes]
    · simp [declaredFrom, hdeclared]

/-- A prelude starts a statement, and nothing else stands within it. -/
theorem Valid.prelude {children : List ParseTree}
    (h : (ParseTree.node .prelude children).Valid) {ts : List Token}
    (hy : (ParseTree.node .prelude children).yield = ts.map Token.leaf) :
    Opening.Reaches ⟨none, ts⟩ 0 ∧ shapesIn children = [] ∧
      ∀ count, declaredFromIn count children = [] := by
  obtain ⟨hne, hitems⟩ := fits_prelude.mp h.fits
  have hparens : Token.parens 0 ts = some 0 :=
    parens_items hitems nofun (fun c hc hroot us hus => (h.of_mem hc).parens_eq hroot hus 0) hy
  obtain ⟨hshapes, hdeclared⟩ :=
    shapesIn_items hitems fun c hc => (h.of_mem hc).shapes_parenGroup
  refine ⟨⟨hparens, nofun, fun _ => ?_⟩, hshapes, hdeclared⟩
  rintro rfl
  obtain ⟨c, items, rfl⟩ := List.exists_cons_of_ne_nil hne
  obtain ⟨us, vs, huv, hu, _⟩ := exists_cons hy
  obtain ⟨rfl, rfl⟩ := List.append_eq_nil_iff.mp huv.symm
  cases c with
  | leaf l => cases hu
  | node n inner =>
    -- a group has at least its parentheses
    have hroot : n = .parenGroup := by
      rcases hitems _ List.mem_cons_self with hroot | ⟨_, hroot⟩ | hroot
      · cases hroot
      · cases hroot
      · exact Symbol.nonterminal.inj hroot
    subst hroot
    obtain ⟨o, inner, e, rfl, _⟩ := fits_parenGroup.mp (h.of_mem List.mem_cons_self).fits
    cases hu

/-- An at-keyword starts a statement, with a prelude or without one. -/
theorem keyword_head {head : List ParseTree} {ts : List Token}
    (hfits : Fits (tok .atKeyword * opt (sub .prelude)) head) (hvalid : ∀ c ∈ head, c.Valid)
    (hy : yields head = ts.map Token.leaf) :
    ∃ k us, ts = k :: us ∧ Opening.Reaches ⟨some k, us⟩ 0 ∧ shapesIn head = [] ∧
      (∀ count, declaredFromIn count head = []) ∧ head.any (isFor .block) = false := by
  simp only [fits_mul, fits_tok, fits_opt, fits_sub] at hfits
  obtain ⟨_, rest, rfl, ⟨l, rfl, hl⟩, hrest⟩ := hfits
  have hy' : yields (leaf l :: rest) = ts.map Token.leaf := hy
  obtain ⟨us, vs, rfl, hu, hv⟩ := exists_cons hy'
  obtain ⟨k, rfl, hk⟩ := exists_leaf hu
  have hkind : ∀ k' ∈ some k, k'.kind = .atKeyword := by
    intro k' hk'
    rw [← Option.some.inj hk']
    exact hk.trans hl
  rcases hrest with ⟨children, rfl⟩ | rfl
  · have hprelude : (node .prelude children).Valid := hvalid _ (by simp)
    rw [yields_singleton] at hv
    obtain ⟨hreaches, hshapes, hdeclared⟩ := hprelude.prelude hv
    exact ⟨k, vs, rfl, ⟨hreaches.parens, hkind, nofun⟩, by simp [shapes, hshapes],
      by simp [declaredFrom, hdeclared], rfl⟩
  · obtain rfl : vs = [] := List.map_eq_nil_iff.mp hv.symm
    exact ⟨k, [], rfl, ⟨rfl, hkind, nofun⟩, rfl, fun _ => rfl, rfl⟩

/-! ## Every derivation is read -/

/-- A prelude with the text stands among the tokens behind as many others as given. -/
structure StandsIn (ts : List Token) (found : Nat × Text) (prelude : List Token) : Prop where
  text : found.2 = prelude.flatMap (·.text)
  ne_nil : prelude ≠ []
  stands : ∃ us vs, ts = us ++ (prelude ++ vs) ∧ us.length = found.1

/-- Where preludes stand as found, they have the texts that are found. -/
theorem StandsIn.map_text {ts : List Token} {found : List (Nat × Text)} {ps : List (List Token)}
    (h : List.Forall₂ (StandsIn ts) found ps) :
    found.map (·.2) = ps.map fun p => p.flatMap (·.text) := by
  rw [← List.forall₂_eq_eq_eq, List.forall₂_map_left_iff, List.forall₂_map_right_iff]
  exact h.imp fun _ _ hstands => hstands.text

/-- The declarations of the statements are those of the trees and stand where the trees say, the
tokens `ts` of the trees being part of others. -/
def Declares (trees : List ParseTree) (ts : List Token) (sts : List Statement) : Prop :=
  ∀ us vs : List Token, List.Forall₂ (StandsIn (us ++ (ts ++ vs)))
    (declaredFromIn us.length trees) (Statement.preludesIn sts)

/-- The tokens spell statements with the shapes and the declarations of the trees. -/
def Spells (inner : Bool) (trees : List ParseTree) (ts : List Token) : Prop :=
  ∃ sts, Spelled inner sts ts ∧ Statement.shapes sts = shapesIn trees ∧ Declares trees ts sts

theorem Declares.nil {trees : List ParseTree} {ts : List Token} {sts : List Statement}
    (htrees : ∀ count, declaredFromIn count trees = []) (hsts : Statement.preludesIn sts = []) :
    Declares trees ts sts := by
  intro us vs
  rw [htrees, hsts]
  exact .nil

theorem Declares.append {xs ys : List ParseTree} {us vs : List Token} {sts sts' : List Statement}
    (hx : Declares xs us sts) (hy : Declares ys vs sts') (hlen : yields xs = us.map Token.leaf) :
    Declares (xs ++ ys) (us ++ vs) (sts ++ sts') := by
  intro us' vs'
  rw [Statement.preludesIn_append, declaredFromIn_append, hlen, List.length_map]
  refine List.rel_append ?_ ?_
  · simpa using hx us' (vs ++ vs')
  · simpa using hy (us' ++ us) vs'

theorem Spells.append {inner : Bool} {xs ys : List ParseTree} {us vs : List Token}
    (hx : Spells false xs us) (hy : Spells inner ys vs) (hlen : yields xs = us.map Token.leaf) :
    Spells inner (xs ++ ys) (us ++ vs) := by
  obtain ⟨sts, hsts, hshapes, hdeclares⟩ := hx
  obtain ⟨sts', hsts', hshapes', hdeclares'⟩ := hy
  refine ⟨sts ++ sts', hsts.append hsts', ?_, hdeclares.append hdeclares' hlen⟩
  rw [Statement.shapes_append, shapesIn_append, hshapes, hshapes']

theorem Declares.of_eq {xs ys : List ParseTree} {ts : List Token} {sts : List Statement}
    (h : Declares xs ts sts)
    (hdeclared : ∀ count, declaredFromIn count xs = declaredFromIn count ys) :
    Declares ys ts sts := by
  intro us vs
  rw [← hdeclared]
  exact h us vs

theorem Spells.of_eq {inner : Bool} {xs ys : List ParseTree} {ts : List Token}
    (h : Spells inner xs ts) (hshapes : shapesIn xs = shapesIn ys)
    (hdeclared : ∀ count, declaredFromIn count xs = declaredFromIn count ys) :
    Spells inner ys ts := by
  obtain ⟨sts, hsts, hs, hd⟩ := h
  exact ⟨sts, hsts, hs.trans hshapes, hd.of_eq hdeclared⟩

/-- The texts of the declarations are those that the trees say. -/
theorem Declares.declaredIn_eq {trees : List ParseTree} {ts : List Token} {sts : List Statement}
    (h : Declares trees ts sts) : Statement.declaredIn sts = declaredIn trees := by
  rw [Statement.declaredIn_eq_map, ← StandsIn.map_text (h [] [])]
  exact map_declaredFromIn _ trees

/-- Trees that each spell statements spell them one after the other. -/
theorem spells_of_forall {trees : List ParseTree} {ts : List Token}
    (h : ∀ c ∈ trees, ∀ us : List Token, c.yield = us.map Token.leaf → Spells false [c] us)
    (hy : yields trees = ts.map Token.leaf) : Spells false trees ts := by
  induction trees generalizing ts with
  | nil =>
    obtain rfl : ts = [] := List.map_eq_nil_iff.mp hy.symm
    exact ⟨[], .nil, rfl, .nil (fun _ => rfl) rfl⟩
  | cons c trees ih =>
    obtain ⟨us, vs, rfl, hu, hv⟩ := exists_cons hy
    have hrest := ih (fun d hd => h d (List.mem_cons_of_mem c hd)) hv
    exact (h c List.mem_cons_self us hu).append hrest (by rw [yields_singleton, hu])

/-- The tokens are braces around the statements of a block. -/
def SpellsBlock (block : ParseTree) (ts : List Token) : Prop :=
  ∃ brace us close body, ts = brace :: (us ++ [close]) ∧ brace.kind = .openBrace ∧
    Spelled true body us ∧ Statement.shapes body = block.shapes ∧ Declares [block] ts body ∧
    close.kind = .closeBrace

/-- What the tokens of a tree are, by the nonterminal at its root. -/
def Reads (c : ParseTree) (ts : List Token) : Prop :=
  match c with
  | leaf _ => True
  | node n _ =>
    match n with
    | .start | .statement | .rule | .atRule | .declaration => Spells false [c] ts
    | .openDeclaration | .openAtRule => Spells true [c] ts
    | .block => SpellsBlock c ts
    | .prelude | .parenGroup => True

/-- A head is one statement with its semicolon, and within a block also without it. -/
theorem spells_finish {c : ParseTree} {o : Opening} (ho : o.Reaches 0)
    (hshapes : c.shapes = [o.finish.shape])
    (hdeclares : ∀ vs, Declares [c] (o.tokens ++ vs) [o.finish]) :
    Spells true [c] o.tokens ∧
      ∀ semicolon : Token, semicolon.kind = .semicolon →
        Spells false [c] (o.tokens ++ [semicolon]) := by
  have hs : Statement.shapes [o.finish] = shapesIn [c] := by
    simp [Statement.shapes, hshapes]
  have hd : Declares [c] o.tokens [o.finish] := by simpa using hdeclares []
  exact ⟨⟨_, .last ho, hs, hd⟩, fun semicolon hsemi => ⟨_, .ended ho hsemi .nil, hs,
    hdeclares [semicolon]⟩⟩

/-- A head with a block is one statement. -/
theorem spells_block {c block : ParseTree} {o : Opening} {us : List Token} (ho : o.Reaches 0)
    (hblock : SpellsBlock block us)
    (hshapes : ∀ body close, Statement.shapes body = block.shapes →
      c.shapes = [(o.finishBlock body close).shape])
    (hdeclared : ∀ count, c.declaredFrom count = block.declaredFrom (count + o.tokens.length)) :
    Spells false [c] (o.tokens ++ us) := by
  obtain ⟨brace, vs, close, body, rfl, hbrace, hbody, hs, hd, hclose⟩ := hblock
  refine ⟨_, .block ho hbrace hbody hclose .nil, ?_, fun us' vs' => ?_⟩
  · simp [Statement.shapes, hshapes body close hs]
  · have hwithin := hd (us' ++ o.tokens) vs'
    simpa [hdeclared, Statement.preludesIn, Statement.preludes, Opening.finishBlock] using hwithin

/-- A head without a block that is no declaration declares nothing. -/
theorem declares_at {c : ParseTree} {k : Token} {p ts : List Token}
    (h : ∀ count, c.declaredFrom count = []) :
    Declares [c] ts [Opening.finish ⟨some k, p⟩] :=
  .nil (by simp [h]) rfl

/-- A prelude without a block is one declaration. -/
theorem declares_prelude {c : ParseTree} {x : Text} {p vs : List Token}
    (ho : Opening.Reaches ⟨none, p⟩ 0) (h : ∀ count, c.declaredFrom count = [(count, x)])
    (hx : x = p.flatMap (·.text)) :
    Declares [c] (Opening.tokens ⟨none, p⟩ ++ vs) [Opening.finish ⟨none, p⟩] := by
  intro us' vs'
  have hone : StandsIn (us' ++ (p ++ vs ++ vs')) (us'.length, x) p :=
    ⟨hx, ho.prelude rfl, us', vs ++ vs', by simp, rfl⟩
  simpa [h, Opening.tokens, Opening.finish, Statement.preludesIn, Statement.preludes] using hone

section Nonterminals

/-! One lemma for each nonterminal: a tree reads as it should if its children do. -/

variable {children : List ParseTree} {ts : List Token}

/-- Each of the trees reads as its nonterminal says. -/
def AllRead (trees : List ParseTree) : Prop :=
  ∀ c ∈ trees, ∀ us : List Token, c.yield = us.map Token.leaf → c.Reads us

theorem spells_statements (hroots : ∀ c ∈ children, c.root = .nonterminal .statement)
    (ih : AllRead children) (hy : yields children = ts.map Token.leaf) :
    Spells false children ts := by
  refine spells_of_forall (fun c hc us hus => ?_) hy
  obtain ⟨inner, rfl⟩ := exists_node_of_root (hroots c hc)
  exact ih _ hc us hus

theorem spells_statement (hfits : Fits (production .statement) children) (ih : AllRead children)
    (hy : yields children = ts.map Token.leaf) : Spells false [node .statement children] ts := by
  have hsame : ∀ c, Spells false [c] ts → Spells false [node .statement [c]] ts := fun c hc =>
    hc.of_eq (by simp [shapes]) (by simp [declaredFrom])
  simp only [production, fits_add, fits_sub, fits_tok] at hfits
  rcases hfits with ((⟨inner, rfl⟩ | ⟨inner, rfl⟩) | ⟨inner, rfl⟩) | ⟨l, rfl, hl⟩
  all_goals rw [yields_singleton] at hy
  · exact hsame _ (ih _ List.mem_cons_self ts hy)
  · exact hsame _ (ih _ List.mem_cons_self ts hy)
  · exact hsame _ (ih _ List.mem_cons_self ts hy)
  · obtain ⟨t, rfl, ht⟩ := exists_leaf hy
    exact hsame _ ⟨[], .empty (ht.trans hl) .nil, rfl, .nil (fun _ => rfl) rfl⟩

theorem spells_rule (hfits : Fits (production .rule) children) (hvalid : ∀ c ∈ children, c.Valid)
    (ih : AllRead children) (hy : yields children = ts.map Token.leaf) :
    Spells false [node .rule children] ts := by
  simp only [production, fits_mul, fits_sub] at hfits
  obtain ⟨_, _, rfl, ⟨head, rfl⟩, block, rfl⟩ := hfits
  obtain ⟨us, vs, rfl, hu, hv⟩ := exists_split hy
  rw [yields_singleton] at hu hv
  obtain ⟨hreaches, hshapes, hdeclared⟩ := (hvalid (node .prelude head) (by simp)).prelude hu
  refine spells_block hreaches (ih (node .block block) (by simp) vs hv)
    (fun body close hbody => ?_) fun count => ?_
  · simp [shapes, hshapes, Opening.finishBlock, Statement.shape, hbody]
  · simp [declaredFrom, hdeclared, hu, Opening.tokens]

theorem spells_atRule (hfits : Fits (production .atRule) children)
    (hvalid : ∀ c ∈ children, c.Valid) (ih : AllRead children)
    (hy : yields children = ts.map Token.leaf) : Spells false [node .atRule children] ts := by
  rw [production, fits_mul] at hfits
  obtain ⟨head, tail, rfl, hhead, htail⟩ := hfits
  obtain ⟨us, vs, rfl, hu, hv⟩ := exists_split hy
  obtain ⟨k, p, rfl, hreaches, hshapes, hdeclared, hblock⟩ :=
    keyword_head hhead (fun c hc => hvalid c (List.mem_append_left tail hc)) hu
  rw [fits_add, fits_sub, fits_tok] at htail
  rcases htail with ⟨block, rfl⟩ | ⟨l, rfl, hl⟩
  · rw [yields_singleton] at hv
    refine spells_block hreaches (ih (node .block block) (by simp) vs hv)
      (fun body close hbody => ?_) fun count => ?_
    · simp [shapes, hshapes, Opening.finishBlock, Statement.shape, hbody, isFor]
    · simp [declaredFrom, hdeclared, hu, Opening.tokens]
  · rw [yields_singleton] at hv
    obtain ⟨t, rfl, ht⟩ := exists_leaf hv
    refine (spells_finish hreaches ?_ fun _ => declares_at fun count => ?_).2 t (ht.trans hl)
    · simp [shapes, hblock, isFor, Opening.finish, Statement.shape]
    · simp [declaredFrom, hdeclared]

theorem spells_openAtRule (hfits : Fits (production .openAtRule) children)
    (hvalid : ∀ c ∈ children, c.Valid) (hy : yields children = ts.map Token.leaf) :
    Spells true [node .openAtRule children] ts := by
  obtain ⟨k, p, rfl, hreaches, hshapes, hdeclared, hblock⟩ := keyword_head hfits hvalid hy
  refine (spells_finish hreaches ?_ fun _ => declares_at fun count => ?_).1
  · simp [shapes, hblock, Opening.finish, Statement.shape]
  · simp [declaredFrom, hdeclared]

/-- The text of a prelude is that of its tokens. -/
theorem text_of_yield {c : ParseTree} (hy : c.yield = ts.map Token.leaf) :
    c.text = ts.flatMap (·.text) := by
  rw [text, hy, List.flatMap_map]
  rfl

theorem spells_declaration (hfits : Fits (production .declaration) children)
    (hvalid : ∀ c ∈ children, c.Valid) (hy : yields children = ts.map Token.leaf) :
    Spells false [node .declaration children] ts := by
  simp only [production, fits_mul, fits_sub, fits_tok] at hfits
  obtain ⟨_, _, rfl, ⟨head, rfl⟩, l, rfl, hl⟩ := hfits
  obtain ⟨us, vs, rfl, hu, hv⟩ := exists_split hy
  rw [yields_singleton] at hu hv
  obtain ⟨t, rfl, ht⟩ := exists_leaf hv
  obtain ⟨hreaches, _⟩ := (hvalid (node .prelude head) (by simp)).prelude hu
  refine (spells_finish hreaches ?_ fun _ => declares_prelude hreaches (fun count => ?_)
    (text_of_yield hu)).2 t (ht.trans hl)
  · simp [shapes, Opening.finish, Statement.shape]
  · simp [declaredFrom, isFor]

theorem spells_openDeclaration (hfits : Fits (production .openDeclaration) children)
    (hvalid : ∀ c ∈ children, c.Valid) (hy : yields children = ts.map Token.leaf) :
    Spells true [node .openDeclaration children] ts := by
  obtain ⟨head, rfl⟩ := fits_sub.mp hfits
  rw [yields_singleton] at hy
  obtain ⟨hreaches, _⟩ := (hvalid (node .prelude head) (by simp)).prelude hy
  refine (spells_finish hreaches ?_ fun _ => declares_prelude hreaches (fun count => ?_)
    (text_of_yield hy)).1
  · simp [shapes, Opening.finish, Statement.shape]
  · simp [declaredFrom, isFor]

/-- A block is its statements between braces, the last one perhaps without its semicolon. -/
theorem fits_block :
    Fits (production .block) children ↔
      ∃ brace statements last close, children = leaf brace :: (statements ++ last ++ [leaf close]) ∧
        brace.kind = .openBrace ∧ (∀ c ∈ statements, c.root = .nonterminal .statement) ∧
        (last = [] ∨ ∃ inner, last = [node .openDeclaration inner] ∨
          last = [node .openAtRule inner]) ∧ close.kind = .closeBrace := by
  simp only [production, fits_mul, fits_tok, fits_opt, fits_add, fits_sub]
  rw [sub]
  simp only [fits_star fun xs => fits_char]
  constructor
  · rintro ⟨_, _, rfl, ⟨_, last, rfl, ⟨_, statements, rfl, ⟨brace, rfl, hbrace⟩, hstatements⟩,
      hlast⟩, close, rfl, hclose⟩
    refine ⟨brace, statements, last, close, by simp, hbrace, hstatements, ?_, hclose⟩
    rcases hlast with (⟨inner, rfl⟩ | ⟨inner, rfl⟩) | rfl
    · exact Or.inr ⟨inner, Or.inl rfl⟩
    · exact Or.inr ⟨inner, Or.inr rfl⟩
    · exact Or.inl rfl
  · rintro ⟨brace, statements, last, close, rfl, hbrace, hstatements, hlast, hclose⟩
    refine ⟨leaf brace :: (statements ++ last), [leaf close], by simp, ⟨leaf brace :: statements,
      last, by simp, ⟨[leaf brace], statements, rfl, ⟨brace, rfl, hbrace⟩, hstatements⟩, ?_⟩,
      close, rfl, hclose⟩
    rcases hlast with rfl | ⟨inner, rfl | rfl⟩
    · exact Or.inr rfl
    · exact Or.inl (Or.inl ⟨inner, rfl⟩)
    · exact Or.inl (Or.inr ⟨inner, rfl⟩)

theorem spellsBlock_block (hfits : Fits (production .block) children) (ih : AllRead children)
    (hy : yields children = ts.map Token.leaf) : SpellsBlock (node .block children) ts := by
  obtain ⟨o, statements, last, e, rfl, ho, hstatements, hlast, he⟩ := fits_block.mp hfits
  obtain ⟨os, vs, rfl, hos, hv⟩ := exists_cons hy
  obtain ⟨us, es, rfl, hu, hes⟩ := exists_split hv
  rw [yields_singleton] at hes
  obtain ⟨brace, rfl, hbrace⟩ := exists_leaf hos
  obtain ⟨close, rfl, hclose⟩ := exists_leaf hes
  obtain ⟨xs, ys, rfl, hx, hlasty⟩ := exists_split hu
  have hfirst : Spells false statements xs :=
    spells_statements hstatements (fun c hc => ih c (by simp [hc])) hx
  have hend : Spells true last ys := by
    rcases hlast with rfl | ⟨inner, rfl | rfl⟩
    · obtain rfl : ys = [] := List.map_eq_nil_iff.mp hlasty.symm
      exact ⟨[], .nil, rfl, .nil (fun _ => rfl) rfl⟩
    · rw [yields_singleton] at hlasty
      exact ih (node .openDeclaration inner) (by simp) ys hlasty
    · rw [yields_singleton] at hlasty
      exact ih (node .openAtRule inner) (by simp) ys hlasty
  obtain ⟨body, hbody, hshapes, hdeclares⟩ := hfirst.append hend hx
  refine ⟨brace, xs ++ ys, close, body, rfl, hbrace.trans ho, hbody,
    by simpa [shapes] using hshapes, fun us' vs' => ?_, hclose.trans he⟩
  -- the opening brace stands in front of the statements
  have hwithin := hdeclares (us' ++ [brace]) (close :: vs')
  simpa [declaredFrom] using hwithin

end Nonterminals

/-- Every valid tree reads as its nonterminal says. -/
theorem Valid.reads {c : ParseTree} (h : c.Valid) {ts : List Token}
    (hy : c.yield = ts.map Token.leaf) : c.Reads ts := by
  induction h generalizing ts with
  | leaf l => trivial
  | @node n children hfits hall ih =>
    have ih' : AllRead children := fun c hc us hus => ih c hc hus
    cases n with
    | start =>
      have hroots := (fits_star fun xs => fits_char).mp hfits
      exact (spells_statements hroots ih' hy).of_eq (by simp [shapes]) (by simp [declaredFrom])
    | statement => exact spells_statement hfits ih' hy
    | rule => exact spells_rule hfits hall ih' hy
    | atRule => exact spells_atRule hfits hall ih' hy
    | declaration => exact spells_declaration hfits hall hy
    | block => exact spellsBlock_block hfits ih' hy
    | openDeclaration => exact spells_openDeclaration hfits hall hy
    | openAtRule => exact spells_openAtRule hfits hall hy
    | prelude => trivial
    | parenGroup => trivial

/-! ## Everything that is read is derived -/

/-- The items behind which each of `depth` parentheses is closed, and those behind the last one. -/
def Layered : Nat → List Leaf → Prop
  | 0, ls => ∃ items, (∀ c ∈ items, c.Valid ∧ IsItem false c) ∧ ls = yields items
  | depth + 1, ls => ∃ items close rest, (∀ c ∈ items, c.Valid ∧ IsItem true c) ∧
      close.kind = .closeParen ∧ ls = yields items ++ close :: rest ∧ Layered depth rest

theorem Layered.cons {depth : Nat} {c : ParseTree} {ls : List Leaf} (h : Layered depth ls)
    (hc : c.Valid) (hitem : IsItem (decide (0 < depth)) c) : Layered depth (c.yield ++ ls) := by
  cases depth with
  | zero =>
    obtain ⟨items, hitems, rfl⟩ := h
    exact ⟨c :: items, List.forall_mem_cons.mpr ⟨⟨hc, hitem⟩, hitems⟩, rfl⟩
  | succ depth =>
    obtain ⟨items, close, rest, hitems, hclose, rfl, hrest⟩ := h
    exact ⟨c :: items, close, rest, List.forall_mem_cons.mpr ⟨⟨hc, hitem⟩, hitems⟩, hclose,
      by simp, hrest⟩

/-- An opening parenthesis makes a group of the innermost items. -/
theorem Layered.group {depth : Nat} {o : Leaf} {ls : List Leaf} (h : Layered (depth + 1) ls)
    (ho : o.kind = .openParen) : Layered depth (o :: ls) := by
  obtain ⟨items, close, rest, hitems, hclose, rfl, hrest⟩ := h
  have hgroup : (node .parenGroup (leaf o :: (items ++ [leaf close]))).Valid := by
    refine .node (fits_parenGroup.mpr ⟨o, items, close, rfl, ho, fun c hc => (hitems c hc).2,
      hclose⟩) fun c hc => ?_
    simp only [List.mem_cons, List.mem_append, List.not_mem_nil, or_false] at hc
    rcases hc with rfl | hc | rfl
    · exact .leaf o
    · exact (hitems c hc).1
    · exact .leaf close
  have hcons := hrest.cons hgroup (Or.inr (Or.inr rfl))
  simpa [yield] using hcons

/-- Tokens that close all parentheses are items. -/
theorem layered_of_parens {depth : Nat} {ts : List Token} (h : Token.parens depth ts = some 0) :
    Layered depth (ts.map Token.leaf) := by
  induction ts generalizing depth with
  | nil =>
    obtain rfl := Option.some.inj h
    exact ⟨[], nofun, rfl⟩
  | cons t ts ih =>
    rw [Token.parens] at h
    split at h
    · rename_i hkind
      exact (ih h).cons (.leaf t.leaf) (Or.inl (congrArg Symbol.terminal hkind))
    · rename_i hkind
      split at h
      · cases h
      · rename_i hdepth
        have hpos : decide (0 < depth) = true := decide_eq_true (Nat.pos_of_ne_zero hdepth)
        exact (ih h).cons (.leaf t.leaf)
          (Or.inr (Or.inl ⟨hpos, congrArg Symbol.terminal hkind⟩))
    · rename_i hkind
      exact (ih h).group hkind
    · rename_i hkind
      split at h
      · cases h
      · rename_i hdepth
        obtain ⟨outer, rfl⟩ := Nat.exists_eq_succ_of_ne_zero hdepth
        exact ⟨[], t.leaf, ts.map Token.leaf, nofun, hkind, rfl, ih h⟩
    · cases h

theorem exists_prelude {ts : List Token} (h : Token.parens 0 ts = some 0) (hne : ts ≠ []) :
    ∃ children, (node .prelude children).Valid ∧ yields children = ts.map Token.leaf := by
  obtain ⟨items, hitems, hy⟩ := layered_of_parens h
  refine ⟨items, .node (fits_prelude.mpr ⟨?_, fun c hc => (hitems c hc).2⟩) fun c hc =>
    (hitems c hc).1, hy.symm⟩
  rintro rfl
  exact hne (List.map_eq_nil_iff.mp hy)

/-- A head with an at-keyword. -/
theorem exists_keyword_head {k : Token} {us : List Token} (h : Opening.Reaches ⟨some k, us⟩ 0) :
    ∃ head, Fits (tok .atKeyword * opt (sub .prelude)) head ∧ (∀ c ∈ head, c.Valid) ∧
      yields head = (k :: us).map Token.leaf := by
  have hkind : k.kind = .atKeyword := h.keyword k rfl
  have hk : Fits (tok .atKeyword) [leaf k.leaf] := fits_tok.mpr ⟨k.leaf, rfl, hkind⟩
  cases us with
  | nil =>
    refine ⟨[leaf k.leaf], fits_mul.mpr ⟨_, [], rfl, hk, fits_opt.mpr (Or.inr rfl)⟩, ?_, rfl⟩
    intro c hc
    rw [List.mem_singleton.mp hc]
    exact .leaf _
  | cons u us =>
    obtain ⟨children, hvalid, hy⟩ := exists_prelude h.parens (by simp)
    refine ⟨[leaf k.leaf, node .prelude children], fits_mul.mpr ⟨_, _, rfl, hk,
      fits_opt.mpr (Or.inl (fits_sub.mpr ⟨children, rfl⟩))⟩, ?_, ?_⟩
    · intro c hc
      simp only [List.mem_cons, List.not_mem_nil, or_false] at hc
      rcases hc with rfl | rfl
      · exact .leaf _
      · exact hvalid
    · simp [yield, hy]

/-- A child of a statement makes a statement. -/
theorem Valid.statement {c : ParseTree} (h : c.Valid)
    (hroot : c.root = .nonterminal .rule ∨ c.root = .nonterminal .atRule ∨
      c.root = .nonterminal .declaration ∨ c.root = .terminal .semicolon) :
    (ParseTree.node .statement [c]).Valid := by
  refine .node ?_ fun d hd => List.mem_singleton.mp hd ▸ h
  simp only [production, fits_add, sub, tok, fits_char]
  rcases hroot with hroot | hroot | hroot | hroot
  · exact Or.inl (Or.inl (Or.inl ⟨c, rfl, hroot⟩))
  · exact Or.inl (Or.inl (Or.inr ⟨c, rfl, hroot⟩))
  · exact Or.inl (Or.inr ⟨c, rfl, hroot⟩)
  · exact Or.inr ⟨c, rfl, hroot⟩

/-- A head with a semicolon or a block behind it is a statement. -/
theorem exists_statement {o : Opening} (ho : o.Reaches 0) {e : ParseTree} (he : e.Valid)
    (hroot : e.root = .terminal .semicolon ∨ e.root = .nonterminal .block) :
    ∃ c : ParseTree, c.Derives .statement (o.tokens.map Token.leaf ++ e.yield) := by
  obtain ⟨keyword, us⟩ := o
  cases keyword with
  | none =>
    obtain ⟨children, hvalid, hy⟩ := exists_prelude ho.parens (ho.prelude rfl)
    have hprelude : Fits (sub .prelude) [node .prelude children] := fits_sub.mpr ⟨children, rfl⟩
    have hall : ∀ c ∈ [node .prelude children, e], c.Valid :=
      List.forall_mem_cons.mpr ⟨hvalid, fun c hc => List.mem_singleton.mp hc ▸ he⟩
    rcases hroot with hroot | hroot
    · have hdecl : (node .declaration [node .prelude children, e]).Valid :=
        .node (fits_mul.mpr ⟨_, [e], rfl, hprelude, fits_char.mpr ⟨e, rfl, hroot⟩⟩) hall
      exact ⟨_, hdecl.statement (by simp [root]), rfl, by simp [yield, hy, Opening.tokens]⟩
    · have hrule : (node .rule [node .prelude children, e]).Valid :=
        .node (fits_mul.mpr ⟨_, [e], rfl, hprelude, fits_char.mpr ⟨e, rfl, hroot⟩⟩) hall
      exact ⟨_, hrule.statement (by simp [root]), rfl, by simp [yield, hy, Opening.tokens]⟩
  | some k =>
    obtain ⟨head, hhead, hvalid, hy⟩ := exists_keyword_head ho
    have hend : Fits (sub .block + tok .semicolon) [e] := by
      rw [fits_add, sub, tok, fits_char, fits_char]
      rcases hroot with hroot | hroot
      · exact Or.inr ⟨e, rfl, hroot⟩
      · exact Or.inl ⟨e, rfl, hroot⟩
    have hall : ∀ c ∈ head ++ [e], c.Valid :=
      List.forall_mem_append.mpr ⟨hvalid, fun c hc => List.mem_singleton.mp hc ▸ he⟩
    have hat : (node .atRule (head ++ [e])).Valid :=
      .node (fits_mul.mpr ⟨head, [e], rfl, hhead, hend⟩) hall
    exact ⟨_, hat.statement (by simp [root]), rfl, by simp [yield, hy, Opening.tokens]⟩

/-- A head may be the last statement of a block as it is. -/
theorem exists_open {o : Opening} (ho : o.Reaches 0) :
    ∃ c inner, c.Valid ∧ (c = node .openDeclaration inner ∨ c = node .openAtRule inner) ∧
      c.yield = o.tokens.map Token.leaf := by
  obtain ⟨keyword, us⟩ := o
  cases keyword with
  | none =>
    obtain ⟨children, hvalid, hy⟩ := exists_prelude ho.parens (ho.prelude rfl)
    have hopen : (node .openDeclaration [node .prelude children]).Valid :=
      .node (fits_sub.mpr ⟨children, rfl⟩) fun c hc => List.mem_singleton.mp hc ▸ hvalid
    exact ⟨_, _, hopen, Or.inl rfl, by simp [yield, hy, Opening.tokens]⟩
  | some k =>
    obtain ⟨head, hhead, hvalid, hy⟩ := exists_keyword_head ho
    have hopen : (node .openAtRule head).Valid := .node hhead hvalid
    exact ⟨_, head, hopen, Or.inr rfl, hy⟩

/-- What may stand behind the statements of a block that end with a semicolon or a block. -/
def IsLast (inner : Bool) (last : List ParseTree) : Prop :=
  (∀ c ∈ last, c.Valid) ∧
    (last = [] ∨ inner = true ∧
      ∃ children, last = [node .openDeclaration children] ∨ last = [node .openAtRule children])

theorem valid_block {statements last : List ParseTree} {o e : Leaf}
    (hstatements : ∀ c ∈ statements, c.Valid ∧ c.root = .nonterminal .statement)
    (hlast : IsLast true last) (ho : o.kind = .openBrace) (he : e.kind = .closeBrace) :
    (node .block (leaf o :: (statements ++ last ++ [leaf e]))).Valid := by
  obtain ⟨hvalid, hlast⟩ := hlast
  refine .node (fits_block.mpr ⟨o, statements, last, e, rfl, ho, fun c hc => (hstatements c hc).2,
    ?_, he⟩) fun c hc => ?_
  · rcases hlast with rfl | ⟨_, hopen⟩
    · exact Or.inl rfl
    · exact Or.inr hopen
  · simp only [List.mem_cons, List.mem_append, List.not_mem_nil, or_false] at hc
    rcases hc with rfl | (hc | hc) | rfl
    · exact .leaf o
    · exact (hstatements c hc).1
    · exact hvalid c hc
    · exact .leaf e

/-- Statements derive the tokens; within a block the last one may be open. -/
def InSequence (inner : Bool) (ls : List Leaf) : Prop :=
  ∃ statements last, (∀ c ∈ statements, c.Valid ∧ c.root = .nonterminal .statement) ∧
    IsLast inner last ∧ yields (statements ++ last) = ls

theorem InSequence.cons {inner : Bool} {ls ls' : List Leaf} (h : InSequence inner ls')
    (hc : ∃ c : ParseTree, c.Derives .statement ls) : InSequence inner (ls ++ ls') := by
  obtain ⟨c, hvalid, hroot, rfl⟩ := hc
  obtain ⟨statements, last, hstatements, hlast, rfl⟩ := h
  exact ⟨c :: statements, last, List.forall_mem_cons.mpr ⟨⟨hvalid, hroot⟩, hstatements⟩, hlast,
    rfl⟩

end ParseTree

/-- Tokens that spell statements derive from statements. -/
theorem Spelled.inSequence {inner : Bool} {sts : List Statement} {ts : List Token}
    (h : Spelled inner sts ts) : ParseTree.InSequence inner (ts.map Token.leaf) := by
  induction h with
  | nil => exact ⟨[], [], nofun, ⟨nofun, Or.inl rfl⟩, rfl⟩
  | @empty inner semicolon sts ts hs _ ih =>
    have hleaf : (ParseTree.leaf semicolon.leaf).root = .terminal .semicolon :=
      congrArg Symbol.terminal hs
    have hstatement := (ParseTree.Valid.leaf semicolon.leaf).statement (by simp [hleaf])
    exact ih.cons ⟨_, hstatement, rfl, rfl⟩
  | @ended inner o semicolon sts ts ho hs _ ih =>
    have hleaf : (ParseTree.leaf semicolon.leaf).root = .terminal .semicolon :=
      congrArg Symbol.terminal hs
    have hstatement := ParseTree.exists_statement ho (.leaf semicolon.leaf) (Or.inl hleaf)
    simpa using ih.cons hstatement
  | last ho =>
    obtain ⟨c, children, hvalid, hopen, hy⟩ := ParseTree.exists_open ho
    refine ⟨[], [c], nofun, ⟨fun d hd => List.mem_singleton.mp hd ▸ hvalid, Or.inr ⟨rfl, children,
      ?_⟩⟩, ?_⟩
    · rcases hopen with rfl | rfl
      · exact Or.inl rfl
      · exact Or.inr rfl
    · rw [List.nil_append, ParseTree.yields_singleton, hy]
  | @block inner o brace close body sts us ts ho hb _ hc _ ihbody ih =>
    obtain ⟨statements, last, hstatements, hlast, hy⟩ := ihbody
    have hblock := ParseTree.valid_block (o := brace.leaf) (e := close.leaf) hstatements hlast hb hc
    have hstatement := ParseTree.exists_statement ho hblock (Or.inr rfl)
    simpa [ParseTree.yield, ← hy] using ih.cons hstatement

/-- Everything that is read derives from the start of the grammar. -/
theorem Spelled.exists_derives {sts : List Statement} {ts : List Token}
    (h : Spelled false sts ts) :
    ∃ tree : ParseTree, tree.Derives .start (ts.map Token.leaf) := by
  obtain ⟨statements, last, hstatements, ⟨_, hlast⟩, hy⟩ := h.inSequence
  obtain rfl : last = [] := hlast.resolve_right fun hinner => nomatch hinner.1
  rw [List.append_nil] at hy
  have hfits : ParseTree.Fits (production .start) statements :=
    (ParseTree.fits_star fun xs => ParseTree.fits_char).mpr fun c hc => (hstatements c hc).2
  exact ⟨.node .start statements, .node hfits fun c hc => (hstatements c hc).1, rfl, hy⟩

/-- Tokens spell at most one list of statements. -/
theorem Spelled.unique {sts sts' : List Statement} {ts : List Token} (h : Spelled false sts ts)
    (h' : Spelled false sts' ts) : sts = sts' := by
  obtain ⟨r, hr, hsts⟩ := Reading.readAll_complete_iff.mpr h
  obtain ⟨r', hr', hsts'⟩ := Reading.readAll_complete_iff.mpr h'
  obtain rfl := Except.ok.inj (hr.symm.trans hr')
  exact Option.some.inj (hsts.symm.trans hsts')

/-- What derives from the start of the grammar is read as the statements of the derivation. -/
theorem ParseTree.Derives.exists_spelled {tree : ParseTree} {ts : List Token}
    (h : tree.Derives .start (ts.map Token.leaf)) :
    ∃ sts, Spelled false sts ts ∧ Statement.shapes sts = tree.shapes ∧
      Statement.declaredIn sts = tree.declared := by
  obtain ⟨children, rfl⟩ := exists_node_of_root h.root
  obtain ⟨sts, hsts, hshapes, hdeclares⟩ := h.valid.reads h.yield
  exact ⟨sts, hsts, by simpa using hshapes, by simpa using hdeclares.declaredIn_eq⟩

/-- The declarations among the statements that are read stand where the derivation says. -/
theorem ParseTree.Derives.forall_standing {tree : ParseTree} {ts : List Token}
    {sts : List Statement} (h : tree.Derives .start (ts.map Token.leaf))
    (hsts : Spelled false sts ts) :
    List.Forall₂ (StandsIn ts) (tree.declaredFrom 0) (Statement.preludesIn sts) := by
  obtain ⟨children, rfl⟩ := exists_node_of_root h.root
  obtain ⟨sts', hsts', _, hdeclares⟩ := h.valid.reads h.yield
  obtain rfl := hsts.unique hsts'
  simpa using hdeclares [] []

end Stacking
