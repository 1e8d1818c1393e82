import Stacking.Text.Position
import Stacking.Text.Word

/-!
# Tokens of a stylesheet

A stylesheet is cut into braces, parentheses, semicolons, at-keywords and chunks. A chunk is a
stretch of a selector, of the parameters of an at-rule or of a declaration: strings, unquoted
addresses, interpolations and single characters, with the blanks between them. Spaces, line
breaks and comments between tokens are ignored.

At every place at most one kind of token can start, so the cut does not depend on what has been
read before. Each kind is given by the number of characters that it takes at the start of a text,
judged with everything that follows; each token keeps the ignored text in front of it, so that
nothing of the source is lost.
-/

namespace Stacking

/-! ## The extent of a piece -/

namespace Lexeme

/-- How far a quoted string goes after its opening quote: up to and with the next quote of that
kind. A backslash takes the character after it along; a line feed may not occur. -/
def quotedRest? (quote : Char) : Text → Option Nat
  | [] => none
  | c :: rest =>
    if c = '\\' then
      match rest with
      | [] => none
      | d :: rest => if d = '\n' then none else (quotedRest? quote rest).map (· + 2)
    else if c = quote then some 1
    else if c = '\n' then none
    else (quotedRest? quote rest).map (· + 1)

/-- The extent of a quoted string. -/
def quoted? : Text → Option Nat
  | c :: rest => if c = '"' || c = '\'' then (quotedRest? c rest).map (· + 1) else none
  | [] => none

/-- The number of blanks at the start of a text. -/
def blanks (t : Text) : Nat := (t.takeWhile isBlank).length

/-- How far it goes over blanks to a closing parenthesis. -/
def addressEnd? (t : Text) : Option Nat :=
  if (t.drop (blanks t)).head? = some ')' then some (blanks t + 1) else none

/-- How far an unquoted address goes after the blanks at its start: up to and with the closing
parenthesis. No blank stands within it, and parentheses and quotes only behind a backslash. -/
def addressRest? : Text → Option Nat
  | [] => none
  | c :: rest =>
    if c = '\\' then
      match rest with
      | [] => none
      | d :: rest => if d = '\n' then none else (addressRest? rest).map (· + 2)
    else if c = ')' || isBlank c then addressEnd? (c :: rest)
    else if c = '(' || c = '"' || c = '\'' then none
    else (addressRest? rest).map (· + 1)

/-- The extent of an unquoted address `url(…)`. -/
def address? : Text → Option Nat
  | 'u' :: 'r' :: 'l' :: '(' :: rest =>
    (addressRest? (rest.drop (blanks rest))).map (· + (blanks rest + 4))
  | _ => none

/-- The extent of an interpolation, from its opening `#` and brace to the first closing brace. -/
def interpolation? : Text → Option Nat
  | '#' :: '{' :: rest => (rest.findIdx? (· == '}')).map (· + 3)
  | _ => none

/-- The extent of a slash that opens no comment. -/
def slash? : Text → Option Nat
  | '/' :: rest => if rest.head? = some '*' || rest.head? = some '/' then none else some 1
  | _ => none

/-- Whether a character has a meaning of its own in a stylesheet. -/
def isDelimiter (c : Char) : Bool :=
  c == '{' || c == '}' || c == ';' || c == '/' || c == '"' || c == '\'' || c == '(' || c == ')'

/-- The extent of a character without a meaning of its own; an at-sign is one only where it does
not come `first`. -/
def plain? (first : Bool) : Text → Option Nat
  | c :: _ => if isDelimiter c || isBlank c || (first && c == '@') then none else some 1
  | [] => none

/-- The extent of the blanks between two pieces: a run of blanks before anything but a brace, a
semicolon or the end. -/
def gap? (t : Text) : Option Nat :=
  if blanks t = 0 then none
  else
    match t.drop (blanks t) with
    | [] => none
    | c :: _ => if c = '{' || c = '}' || c = ';' then none else some (blanks t)

/-- The extent of the piece of a chunk at the start of a text. The first piece is not blank and
does not start with an at-sign. -/
def piece? (first : Bool) (t : Text) : Option Nat :=
  quoted? t <|> address? t <|> interpolation? t <|> slash? t <|> plain? first t <|>
    (if first then none else gap? t)

/-- How far a chunk goes on after its first piece: over as many pieces as there are. The first
argument is the number of characters left of the piece that is being passed. -/
def chunkRest : Nat → Text → Nat
  | _, [] => 0
  | passing + 1, _ :: rest => chunkRest passing rest + 1
  | 0, c :: rest =>
    match piece? false (c :: rest) with
    | none => 0
    | some n => chunkRest (n - 1) rest + 1

/-- The extent of a chunk. -/
def chunk? (t : Text) : Option Nat :=
  (piece? true t).map fun n => n + chunkRest 0 (t.drop n)

/-! ## The extent of an at-keyword -/

/-- Whether a character may follow the at-sign of an at-keyword. -/
def isKeywordStart (c : Char) : Bool := c.isAlpha || c == '_' || c == '-'

/-- The extent of an at-keyword. -/
def atKeyword? : Text → Option Nat
  | '@' :: c :: rest =>
    if isKeywordStart c then some ((rest.takeWhile fun d => isWord d || d == '-').length + 2)
    else none
  | _ => none

/-! ## The extent of ignored text -/

/-- The blanks that may stand between tokens. -/
def isSpace (c : Char) : Bool :=
  c == ' ' || c == '\t' || c == '\x0c' || c == '\r' || c == '\n'

/-- How far a comment goes after its opening mark: up to and with the first closing mark. -/
def commentRest? : Text → Option Nat
  | [] => none
  | c :: rest =>
    if c = '*' && rest.head? = some '/' then some 2 else (commentRest? rest).map (· + 1)

/-- The extent of ignored text: a run of spaces, a comment, or a comment up to the end of its
line. -/
def ignored? : Text → Option Nat
  | '/' :: '*' :: rest => (commentRest? rest).map (· + 2)
  | '/' :: '/' :: rest => some ((rest.takeWhile (· != '\n')).length + 2)
  | c :: rest => if isSpace c then some ((rest.takeWhile isSpace).length + 1) else none
  | [] => none

end Lexeme

/-! ## Tokens -/

/-- The kinds of token. -/
inductive TokenKind where
  | chunk
  | atKeyword
  | openBrace
  | closeBrace
  | openParen
  | closeParen
  | semicolon
deriving DecidableEq

/-- The kind of a token that is one delimiter. -/
def TokenKind.ofDelimiter? (c : Char) : Option TokenKind :=
  if c = '{' then some .openBrace
  else if c = '}' then some .closeBrace
  else if c = '(' then some .openParen
  else if c = ')' then some .closeParen
  else if c = ';' then some .semicolon
  else none

/-- The kind and extent of the token at the start of a text. -/
def Lexeme.token? : Text → Option (TokenKind × Nat)
  | [] => none
  | c :: rest =>
    match TokenKind.ofDelimiter? c with
    | some kind => some (kind, 1)
    | none =>
      if c = '@' then (atKeyword? (c :: rest)).map fun n => (.atKeyword, n)
      else (chunk? (c :: rest)).map fun n => (.chunk, n)

/-- A token with the ignored text in front of it and the place where it starts. -/
structure Token where
  kind : TokenKind
  lead : Text
  text : Text
  start : SourcePosition
deriving DecidableEq

namespace Token

/-- The token's text without the blanks at its end. -/
def content (t : Token) : Text := t.text.trimEnd

/-- The blanks at the end of the token's text. -/
def trailing (t : Token) : Text := t.text.drop t.content.length

/-- The place just past the token's content. -/
def stop (t : Token) : SourcePosition := t.start.advance t.content

end Token

/-! ## Scanning -/

/-- How the cut of a text ends: at its end, or at a character where no token starts. -/
inductive ScanEnd where
  | complete
  | stuck (character : Char) (place : SourcePosition)
deriving DecidableEq

/-- The tokens of a text up to its end or up to the first character where none starts. -/
structure Scan where
  tokens : List Token
  ending : ScanEnd
deriving DecidableEq

namespace Scan

/-- The scan with one more token in front. -/
def push (t : Token) (s : Scan) : Scan := { s with tokens := t :: s.tokens }

/-- Scans a text that starts at `place`, after the ignored text `lead`. The third argument is the
number of characters left of the lexeme that is being passed. -/
def go (place : SourcePosition) (lead : Text) : Nat → Text → Scan
  | _, [] => ⟨[], .complete⟩
  | passing + 1, _ :: rest => go place lead passing rest
  | 0, c :: rest =>
    match Lexeme.ignored? (c :: rest) with
    | some n =>
      let text := (c :: rest).take n
      go (place.advance text) (lead ++ text) (n - 1) rest
    | none =>
      match Lexeme.token? (c :: rest) with
      | some (kind, n) =>
        let text := (c :: rest).take n
        (go (place.advance text) [] (n - 1) rest).push ⟨kind, lead, text, place⟩
      | none => ⟨[], .stuck c place⟩

/-- Cuts a text into tokens. -/
def ofText (t : Text) : Scan := go .first [] 0 t

end Scan
end Stacking
