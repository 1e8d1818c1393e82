import Mathlib.Computability.RegularExpressions
import Stacking.Proofs.Style.Terminals
import Stacking.Style.Node

/-!
# The grammar as a context-free grammar

The grammar of a stylesheet, rule by rule: the right-hand side of a nonterminal is a regular
expression over tokens and nonterminals (`Nonterminal.production`). A parse tree is valid if the
children of each of its nodes fit the right-hand side, and what it derives is the tokens at its
leaves (`ParseTree.Derives`).

A tree says which rules, at-rules and declarations there are and what their blocks hold
(`ParseTree.shapes`), which preludes are used as declarations (`ParseTree.declared`) and where they
stand among the tokens (`ParseTree.declaredFrom`).
-/

namespace Stacking

/-! ## Productions -/

/-- The nonterminals of the grammar. -/
inductive Nonterminal where
  | start
  | statement
  | rule
  | atRule
  | declaration
  | block
  | openDeclaration
  | openAtRule
  | prelude
  | parenGroup
deriving DecidableEq

namespace Nonterminal

/-- The right-hand sides of the grammar. -/
abbrev Pattern := RegularExpression (Symbol TokenKind Nonterminal)

/-- A token of the kind. -/
def tok (kind : TokenKind) : Pattern := .char (.terminal kind)

/-- What derives from the nonterminal. -/
def sub (n : Nonterminal) : Pattern := .char (.nonterminal n)

/-- Once or not at all. -/
def opt (e : Pattern) : Pattern := e + 1

/-- What a nonterminal stands for. All statements start with the same tokens, and only what ends
them tells what they are. -/
def production : Nonterminal → Pattern
  | start => (sub statement).star
  | statement => sub rule + sub atRule + sub declaration + tok .semicolon
  | rule => sub prelude * sub block
  | atRule => tok .atKeyword * opt (sub prelude) * (sub block + tok .semicolon)
  | declaration => sub prelude * tok .semicolon
  | block =>
    tok .openBrace * (sub statement).star * opt (sub openDeclaration + sub openAtRule) *
      tok .closeBrace
  | openDeclaration => sub prelude
  | openAtRule => tok .atKeyword * opt (sub prelude)
  | prelude => (tok .chunk + sub parenGroup) * (tok .chunk + sub parenGroup).star
  | parenGroup =>
    tok .openParen * (tok .chunk + tok .atKeyword + sub parenGroup).star * tok .closeParen

end Nonterminal

/-! ## Parse trees -/

/-- A parse tree, with the tokens at its leaves. -/
inductive ParseTree where
  | leaf (l : Leaf)
  | node (n : Nonterminal) (children : List ParseTree)

namespace ParseTree

/-- The symbol at the root of a tree. -/
def root : ParseTree → Symbol TokenKind Nonterminal
  | leaf l => .terminal l.kind
  | node n _ => .nonterminal n

/-- The symbols of the trees, one after the other, match the pattern. -/
def Fits (e : Nonterminal.Pattern) (trees : List ParseTree) : Prop :=
  trees.map root ∈ e.matches'

/-- The children of every node fit the right-hand side of its nonterminal. -/
inductive Valid : ParseTree → Prop
  | leaf (l : Leaf) : Valid (leaf l)
  | node {n : Nonterminal} {children : List ParseTree} :
      Fits n.production children → (∀ c ∈ children, Valid c) → Valid (node n children)

mutual

/-- The tokens at the leaves of a tree, from left to right. -/
def yield : ParseTree → List Leaf
  | leaf l => [l]
  | node _ children => yields children

/-- The tokens at the leaves of trees. -/
def yields : List ParseTree → List Leaf
  | [] => []
  | c :: rest => c.yield ++ yields rest

end

/-- The tree derives the tokens from the nonterminal. -/
structure Derives (n : Nonterminal) (ls : List Leaf) (tree : ParseTree) : Prop where
  valid : tree.Valid
  root : tree.root = .nonterminal n
  yield : tree.yield = ls

/-- Whether the node at the root is for the nonterminal. -/
def isFor (n : Nonterminal) : ParseTree → Bool
  | leaf _ => false
  | node m _ => m = n

/-- The text of the tokens at the leaves. -/
def text (tree : ParseTree) : Text := tree.yield.flatMap (·.text)

end ParseTree

/-! ## Shapes -/

/-- What kind of node a statement becomes, with the nodes in its block; an at-rule may have no
block. -/
inductive Shape where
  | declaration
  | rule (body : List Shape)
  | atRule (body : Option (List Shape))

namespace ParseTree

mutual

/-- The rules, at-rules and declarations of a tree, nested and in order. -/
def shapes : ParseTree → List Shape
  | leaf _ => []
  | node n children =>
    match n with
    | .rule => [.rule (shapesIn children)]
    | .atRule | .openAtRule =>
      [.atRule (if children.any (isFor .block) then some (shapesIn children) else none)]
    | .declaration | .openDeclaration => [.declaration]
    | _ => shapesIn children

/-- The rules, at-rules and declarations of trees. -/
def shapesIn : List ParseTree → List Shape
  | [] => []
  | c :: rest => c.shapes ++ shapesIn rest

end

mutual

/-- The texts of the preludes that are used as declarations. -/
def declared : ParseTree → List Text
  | leaf _ => []
  | node n children =>
    match n with
    | .declaration | .openDeclaration => (children.filter (isFor .prelude)).map text
    | _ => declaredIn children

/-- The texts of the preludes in trees that are used as declarations. -/
def declaredIn : List ParseTree → List Text
  | [] => []
  | c :: rest => c.declared ++ declaredIn rest

end

mutual

/-- The preludes that are used as declarations in document order, each by the number of tokens in
front of it and its text, where `count` tokens stand in front of the tree. A declaration starts with
its prelude. -/
def declaredFrom (count : Nat) : ParseTree → List (Nat × Text)
  | leaf _ => []
  | node n children =>
    match n with
    | .declaration | .openDeclaration =>
      (children.filter (isFor .prelude)).map fun p => (count, p.text)
    | _ => declaredFromIn count children

/-- The preludes in trees that are used as declarations, where `count` tokens stand in front of the
trees. -/
def declaredFromIn (count : Nat) : List ParseTree → List (Nat × Text)
  | [] => []
  | c :: rest => c.declaredFrom count ++ declaredFromIn (count + c.yield.length) rest

end

end ParseTree

mutual

/-- What kind of node it is, with the nodes in its block. -/
def Node.shape : Node → Shape
  | .declaration _ => .declaration
  | .block (.selector _) _ body => .rule (Node.shapes body)
  | .block (.atRule _ _) _ body => .atRule (some (Node.shapes body))
  | .atStatement .. => .atRule none

/-- What kinds of node they are. -/
def Node.shapes : List Node → List Shape
  | [] => []
  | node :: rest => node.shape :: Node.shapes rest

end

/-! ## Patterns and trees -/

namespace ParseTree

open Nonterminal

theorem exists_node_of_root {c : ParseTree} {n : Nonterminal} (h : c.root = .nonterminal n) :
    ∃ children, c = node n children := by
  cases c with
  | leaf l => cases h
  | node m children => exact ⟨children, by rw [Symbol.nonterminal.inj h]⟩

theorem exists_leaf_of_root {c : ParseTree} {kind : TokenKind} (h : c.root = .terminal kind) :
    ∃ l : Leaf, c = leaf l ∧ l.kind = kind := by
  cases c with
  | leaf l => exact ⟨l, rfl, Symbol.terminal.inj h⟩
  | node n children => cases h

section Fitting

variable {e f : Pattern} {trees : List ParseTree}

theorem fits_char {s : Symbol TokenKind Nonterminal} :
    Fits (.char s) trees ↔ ∃ c, trees = [c] ∧ c.root = s := by
  rw [Fits, RegularExpression.matches'_char]
  exact List.map_eq_singleton_iff

theorem fits_add : Fits (e + f) trees ↔ Fits e trees ∨ Fits f trees := Iff.rfl

theorem fits_one : Fits 1 trees ↔ trees = [] := by
  rw [Fits, RegularExpression.matches'_epsilon, Language.mem_one, List.map_eq_nil_iff]

theorem fits_mul : Fits (e * f) trees ↔ ∃ xs ys, trees = xs ++ ys ∧ Fits e xs ∧ Fits f ys := by
  rw [Fits, RegularExpression.matches'_mul, Language.mem_mul]
  constructor
  · rintro ⟨u, hu, v, hv, huv⟩
    obtain ⟨xs, ys, rfl, rfl, rfl⟩ := List.map_eq_append_iff.mp huv.symm
    exact ⟨xs, ys, rfl, hu, hv⟩
  · rintro ⟨xs, ys, rfl, hx, hy⟩
    exact ⟨_, hx, _, hy, (List.map_append).symm⟩

/-- A repetition of single trees. -/
theorem fits_star {p : ParseTree → Prop} (h : ∀ xs, Fits e xs ↔ ∃ c, xs = [c] ∧ p c) :
    Fits e.star trees ↔ ∀ c ∈ trees, p c := by
  rw [Fits, RegularExpression.matches'_star, Language.mem_kstar]
  constructor
  · rintro ⟨parts, hparts, hall⟩
    induction parts generalizing trees with
    | nil =>
      obtain rfl : trees = [] := by simpa using hparts
      exact nofun
    | cons w parts ih =>
      rw [List.flatten_cons] at hparts
      obtain ⟨xs, ys, rfl, rfl, hys⟩ := List.map_eq_append_iff.mp hparts
      obtain ⟨c, rfl, hc⟩ := (h xs).mp (hall _ List.mem_cons_self)
      have hrest := ih hys fun y hy => hall y (List.mem_cons_of_mem _ hy)
      exact List.forall_mem_cons.mpr ⟨hc, hrest⟩
  · intro hall
    refine ⟨trees.map fun c => [c.root], ?_, ?_⟩
    · rw [← List.flatMap_def]
      exact List.map_eq_flatMap
    · intro w hw
      obtain ⟨c, hc, rfl⟩ := List.mem_map.mp hw
      exact (h [c]).mpr ⟨c, rfl, hall c hc⟩

theorem fits_tok {kind : TokenKind} :
    Fits (tok kind) trees ↔ ∃ l : Leaf, trees = [leaf l] ∧ l.kind = kind := by
  rw [tok, fits_char]
  constructor
  · rintro ⟨c, rfl, hc⟩
    obtain ⟨l, rfl, hl⟩ := exists_leaf_of_root hc
    exact ⟨l, rfl, hl⟩
  · rintro ⟨l, rfl, rfl⟩
    exact ⟨leaf l, rfl, rfl⟩

theorem fits_sub {n : Nonterminal} :
    Fits (sub n) trees ↔ ∃ children, trees = [node n children] := by
  rw [sub, fits_char]
  constructor
  · rintro ⟨c, rfl, hc⟩
    obtain ⟨children, rfl⟩ := exists_node_of_root hc
    exact ⟨children, rfl⟩
  · rintro ⟨children, rfl⟩
    exact ⟨node n children, rfl, rfl⟩

theorem fits_opt : Fits (opt e) trees ↔ Fits e trees ∨ trees = [] := by
  rw [opt, fits_add, fits_one]

end Fitting

/-! ## Trees in a row -/

@[simp] theorem yield_leaf (l : Leaf) : (leaf l).yield = [l] := rfl

@[simp] theorem yields_nil : yields [] = [] := rfl

@[simp] theorem yields_cons (c : ParseTree) (xs : List ParseTree) :
    yields (c :: xs) = c.yield ++ yields xs := rfl

theorem yields_singleton (c : ParseTree) : yields [c] = c.yield := by
  rw [yields_cons, yields_nil, List.append_nil]

@[simp] theorem yields_append (xs ys : List ParseTree) :
    yields (xs ++ ys) = yields xs ++ yields ys := by
  induction xs with
  | nil => rfl
  | cons c xs ih => rw [List.cons_append, yields_cons, yields_cons, ih, List.append_assoc]

@[simp] theorem shapes_leaf (l : Leaf) : (leaf l).shapes = [] := rfl

@[simp] theorem shapesIn_nil : shapesIn [] = [] := rfl

@[simp] theorem shapesIn_cons (c : ParseTree) (xs : List ParseTree) :
    shapesIn (c :: xs) = c.shapes ++ shapesIn xs := rfl

@[simp] theorem shapesIn_append (xs ys : List ParseTree) :
    shapesIn (xs ++ ys) = shapesIn xs ++ shapesIn ys := by
  induction xs with
  | nil => rfl
  | cons c xs ih => rw [List.cons_append, shapesIn_cons, shapesIn_cons, ih, List.append_assoc]

@[simp] theorem declared_leaf (l : Leaf) : (leaf l).declared = [] := rfl

@[simp] theorem declaredIn_nil : declaredIn [] = [] := rfl

@[simp] theorem declaredIn_cons (c : ParseTree) (xs : List ParseTree) :
    declaredIn (c :: xs) = c.declared ++ declaredIn xs := rfl

@[simp] theorem declaredIn_append (xs ys : List ParseTree) :
    declaredIn (xs ++ ys) = declaredIn xs ++ declaredIn ys := by
  induction xs with
  | nil => rfl
  | cons c xs ih => rw [List.cons_append, declaredIn_cons, declaredIn_cons, ih, List.append_assoc]

@[simp] theorem declaredFrom_leaf (count : Nat) (l : Leaf) : (leaf l).declaredFrom count = [] := rfl

@[simp] theorem declaredFromIn_nil (count : Nat) : declaredFromIn count [] = [] := rfl

@[simp] theorem declaredFromIn_cons (count : Nat) (c : ParseTree) (xs : List ParseTree) :
    declaredFromIn count (c :: xs) =
      c.declaredFrom count ++ declaredFromIn (count + c.yield.length) xs := rfl

@[simp] theorem declaredFromIn_append (count : Nat) (xs ys : List ParseTree) :
    declaredFromIn count (xs ++ ys) =
      declaredFromIn count xs ++ declaredFromIn (count + (yields xs).length) ys := by
  induction xs generalizing count with
  | nil => rfl
  | cons c xs ih =>
    rw [List.cons_append, declaredFromIn_cons, declaredFromIn_cons, ih, yields_cons,
      List.length_append, Nat.add_assoc, List.append_assoc]

mutual

/-- The texts of the preludes that are used as declarations are those that are found among the
tokens. -/
theorem map_declaredFrom (count : Nat) (c : ParseTree) :
    (c.declaredFrom count).map (·.2) = c.declared := by
  cases c with
  | leaf l => rfl
  | node n children => cases n <;> simp [declaredFrom, declared, map_declaredFromIn]

theorem map_declaredFromIn (count : Nat) (xs : List ParseTree) :
    (declaredFromIn count xs).map (·.2) = declaredIn xs := by
  cases xs with
  | nil => rfl
  | cons c xs => simp [map_declaredFrom, map_declaredFromIn]

end

theorem Valid.fits {n : Nonterminal} {children : List ParseTree}
    (h : (ParseTree.node n children).Valid) : Fits n.production children := by
  cases h with
  | node hfits _ => exact hfits

theorem Valid.of_mem {n : Nonterminal} {children : List ParseTree}
    (h : (ParseTree.node n children).Valid) {c : ParseTree} (hc : c ∈ children) : c.Valid := by
  cases h with
  | node _ hall => exact hall c hc

end ParseTree
end Stacking
