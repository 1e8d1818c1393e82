import Stacking.Style.Token

/-!
# Statements

Tokens are grouped into statements by what ends them:

* a prelude before an opening brace heads a block;
* a prelude before a semicolon, or before the brace that closes the enclosing block, is a
  declaration;
* an at-keyword with its prelude heads a block, or stands alone before a semicolon or a closing
  brace.

A prelude is a sequence of chunks and balanced parentheses; within parentheses at-keywords may
stand too. The grouping is a machine that reads one token at a time over a stack of open blocks
and rejects a token exactly where no statement could go on with it.
-/

namespace Stacking

/-- A group of tokens that belong together. -/
inductive Statement where
  /-- A prelude that ends with a semicolon or with its block. -/
  | declaration (prelude : List Token)
  /-- An at-keyword and its prelude, without a block. -/
  | atStatement (keyword : Token) (prelude : List Token)
  /-- A block with its head, which is a prelude or an at-keyword with or without one, and with
  the brace that closes it. -/
  | block (keyword : Option Token) (prelude : List Token) (body : List Statement) (close : Token)

/-- The start of a statement of which the end is still to come. -/
structure Opening where
  keyword : Option Token
  prelude : List Token

namespace Opening

/-- The statement that the opening is when it ends without a block. -/
def finish (o : Opening) : Statement :=
  match o.keyword with
  | none => .declaration o.prelude
  | some keyword => .atStatement keyword o.prelude

/-- The statement that the opening is when it heads a block. -/
def finishBlock (o : Opening) (body : List Statement) (close : Token) : Statement :=
  .block o.keyword o.prelude body close

end Opening

/-- A block that is still open: the statements before it and its head. -/
structure OpenBlock where
  before : List Statement
  head : Opening

/-- What has been read so far: the open blocks, innermost first; the statements of the innermost
one; the start of the current statement; and how many parentheses are open in it. -/
structure Reading where
  outer : List OpenBlock
  statements : List Statement
  current : Option Opening
  depth : Nat

namespace Reading

/-- Nothing has been read. -/
def start : Reading := ⟨[], [], none, 0⟩

/-- The token belongs to the prelude of the current statement, or starts a statement. -/
def extend (r : Reading) (t : Token) : Reading :=
  match r.current with
  | none => { r with current := some ⟨none, [t]⟩ }
  | some o => { r with current := some { o with prelude := o.prelude ++ [t] } }

/-- The statements of the innermost block, the current one having ended. -/
def finished (r : Reading) : List Statement :=
  match r.current with
  | none => r.statements
  | some o => r.statements ++ [o.finish]

/-- Reads a token within parentheses. -/
def readInParens (r : Reading) (t : Token) : Option Reading :=
  match t.kind with
  | .chunk | .atKeyword => some (r.extend t)
  | .openParen => some { r.extend t with depth := r.depth + 1 }
  | .closeParen => some { r.extend t with depth := r.depth - 1 }
  | _ => none

/-- Reads a token outside parentheses. -/
def readPlain (r : Reading) (t : Token) : Option Reading :=
  match t.kind with
  | .chunk => some (r.extend t)
  | .openParen => some { r.extend t with depth := 1 }
  | .closeParen => none
  | .atKeyword =>
    match r.current with
    | none => some { r with current := some ⟨some t, []⟩ }
    | some _ => none
  | .semicolon => some { r with statements := r.finished, current := none }
  | .openBrace =>
    match r.current with
    | none => none
    | some o => some ⟨⟨r.statements, o⟩ :: r.outer, [], none, 0⟩
  | .closeBrace =>
    match r.outer with
    | [] => none
    | b :: outer => some ⟨outer, b.before ++ [b.head.finishBlock r.finished t], none, 0⟩

/-- Reads a token, or rejects it where no statement can go on with it. -/
def read (r : Reading) (t : Token) : Option Reading :=
  if r.depth = 0 then r.readPlain t else r.readInParens t

/-- Reads tokens up to the end or up to the first that is rejected. -/
def readAll (r : Reading) : List Token → Except Token Reading
  | [] => .ok r
  | t :: rest =>
    match r.read t with
    | none => .error t
    | some r => r.readAll rest

/-- The statements of a complete text, or `none` where a block or a statement is still open. -/
def complete? (r : Reading) : Option (List Statement) :=
  match r.outer, r.current with
  | [], none => some r.statements
  | _, _ => none

end Reading
end Stacking
