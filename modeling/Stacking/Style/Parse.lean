import Stacking.Style.Node
import Stacking.Style.ParseError
import Stacking.Style.Statement

/-!
# Parsing

A text becomes a stylesheet in three steps: it is cut into tokens, the tokens are grouped into
statements, and each statement becomes a node. Errors of the first two steps are reported for the
first place at which the text cannot go on; a declaration without a property is reported only when
the whole text has been read.
-/

namespace Stacking

/-! ## The text of a prelude -/

namespace Prelude

/-- What is kept of the text between two tokens: blanks as they are, and one space in place of
comments. -/
def spacing (gap : Text) : Text := if gap.isAllBlank then gap else [' ']

/-- The text of the tokens that follow one with the blanks `trailing` at its end. -/
def textAfter (trailing : Text) : List Token → Text
  | [] => []
  | t :: rest => spacing (trailing ++ t.lead) ++ t.content ++ textAfter t.trailing rest

/-- The text of a prelude: its tokens without the blanks at the end, and what is kept between
them. -/
def text : List Token → Text
  | [] => []
  | t :: rest => t.content ++ textAfter t.trailing rest

/-- The place at which a prelude starts. -/
def start (tokens : List Token) : SourcePosition :=
  (tokens.head?.map (·.start)).getD .first

/-- The place just past a prelude. -/
def stop (tokens : List Token) : SourcePosition :=
  (tokens.getLast?.map (·.stop)).getD .first

end Prelude

/-! ## Declarations -/

namespace Declaration

/-- The spellings of a letter of `important`: the letter, its capital, and for `i` also the
Turkish dotless and dotted ones. -/
def isSpelling (c letter : Char) : Bool :=
  c.toLower == letter || (letter == 'i' && (c == 'ı' || c == 'İ'))

/-- The text without a word at its start, the word's letters in any spelling. -/
def dropWord? : Text → Text → Option Text
  | [], t => some t
  | _ :: _, [] => none
  | letter :: word, c :: t => if isSpelling c letter then dropWord? word t else none

/-- The value before a trailing `!important`, or `none` where a trimmed value does not end so. -/
def beforeImportant? (value : Text) : Option Text :=
  match dropWord? "important".toList.reverse value.reverse with
  | none => none
  | some rest =>
    match Text.trimStart rest with
    | '!' :: rest => some (Text.trimStart rest).reverse
    | _ => none

/-- Reads a declaration: what stands before the first colon is the property, what follows is the
value. There is none without a colon or with blanks only before it. -/
def ofText? (t : Text) (span : Option Span) : Option Declaration :=
  match t.cut? ':' with
  | none => none
  | some (property, value) =>
    if property.isAllBlank then none
    else
      let property := String.ofList property.trim
      match beforeImportant? value.trim with
      | none => some ⟨property, String.ofList value.trim, false, span⟩
      | some value => some ⟨property, String.ofList value, true, span⟩

/-- The declaration that a prelude spells. -/
def ofPrelude (tokens : List Token) : Except ParseError Declaration :=
  match ofText? (Prelude.text tokens) (some ⟨Prelude.start tokens, Prelude.stop tokens⟩) with
  | none => .error ⟨.malformedDeclaration (Prelude.text tokens), Prelude.start tokens⟩
  | some d => .ok d

end Declaration

/-! ## Nodes -/

namespace Statement

/-- The name that an at-keyword gives, without its at-sign. -/
def atName (keyword : Token) : String := String.ofList (keyword.text.drop 1)

/-- What heads a block. -/
def blockHead (keyword : Option Token) (prelude : List Token) : BlockHead :=
  match keyword with
  | none => .selector (String.ofList (Prelude.text prelude))
  | some keyword => .atRule (atName keyword) (String.ofList (Prelude.text prelude))

mutual

/-- The node that a statement stands for. -/
def toNode : Statement → Except ParseError Node
  | .declaration prelude =>
    match Declaration.ofPrelude prelude with
    | .error e => .error e
    | .ok d => .ok (.declaration d)
  | .atStatement keyword prelude =>
    .ok (.atStatement (atName keyword) (String.ofList (Prelude.text prelude))
      (some ⟨keyword.start, Prelude.stop (keyword :: prelude)⟩))
  | .block keyword prelude body close =>
    match toNodes body with
    | .error e => .error e
    | .ok nodes =>
      .ok (.block (blockHead keyword prelude)
        (some ⟨Prelude.start (keyword.toList ++ prelude), close.stop⟩) nodes)

/-- The nodes that a list of statements stands for, or the first error in document order. -/
def toNodes : List Statement → Except ParseError (List Node)
  | [] => .ok []
  | statement :: rest =>
    match statement.toNode with
    | .error e => .error e
    | .ok node =>
      match toNodes rest with
      | .error e => .error e
      | .ok nodes => .ok (node :: nodes)

end

end Statement

/-! ## Stylesheets -/

namespace Scan

/-- The place at which a text that ends too early is reported: the start of its last token. -/
def lastStart (s : Scan) : SourcePosition := (s.tokens.getLast?.map (·.start)).getD .first

/-- The statements of a scanned text, or the first place at which it cannot go on. -/
def statements (s : Scan) : Except ParseError (List Statement) :=
  match Reading.start.readAll s.tokens with
  | .error t => .error ⟨.unexpectedToken t.text, t.start⟩
  | .ok r =>
    match s.ending with
    | .stuck c place => .error ⟨.unexpectedCharacter c, place⟩
    | .complete =>
      match r.complete? with
      | none => .error ⟨.unexpectedEnd, s.lastStart⟩
      | some statements => .ok statements

end Scan

namespace Stylesheet

/-- Reads a stylesheet. -/
def parse (t : Text) : Except ParseError Stylesheet :=
  match (Scan.ofText t).statements with
  | .error e => .error e
  | .ok statements =>
    match Statement.toNodes statements with
    | .error e => .error e
    | .ok nodes => .ok ⟨nodes⟩

end Stylesheet
end Stacking
