import Stacking.Text.Printable

/-!
# Quoted texts

How a text or another value is shown inside a message. A text stands between single quotes, or
between double quotes where it holds a single quote and no double quote; a character that is not
printable is shown by its number.
-/

namespace Stacking
namespace Quoted

/-- The digits of `n` in base 16, lower case, filled with zeros up to `width`. -/
def hex (width n : Nat) : Text :=
  let digits := Nat.toDigits 16 n
  List.replicate (width - digits.length) '0' ++ digits

/-- A character as it stands between quotes of the kind `quote`. -/
def escape (quote c : Char) : Text :=
  if c = quote || c = '\\' then ['\\', c]
  else if c = '\n' then ['\\', 'n']
  else if c = '\r' then ['\\', 'r']
  else if c = '\t' then ['\\', 't']
  else if isPrintable c then [c]
  else if c.toNat < 0x100 then ['\\', 'x'] ++ hex 2 c.toNat
  else if c.toNat < 0x10000 then ['\\', 'u'] ++ hex 4 c.toNat
  else ['\\', 'U'] ++ hex 8 c.toNat

/-- The kind of quote that needs no escape, single quotes where it makes no difference. -/
def quoteFor (t : Text) : Char := if t.contains '\'' && !t.contains '"' then '"' else '\''

/-- A text between quotes. -/
def render (t : Text) : String :=
  let quote := quoteFor t
  String.ofList (quote :: t.flatMap (escape quote) ++ [quote])

/-- A list of texts, each between quotes, within brackets. -/
def renderList (ts : List Text) : String :=
  "[" ++ ", ".intercalate (ts.map render) ++ "]"

end Quoted

/-! ## Values -/

/-- A plain value of the kind that messages may have to show. -/
inductive Datum where
  | nothing
  | truth (value : Bool)
  | number (value : Int)
  | text (value : Text)
  | sequence (items : List Datum)
  | record (fields : List (Text × Datum))

namespace Datum

mutual

/-- A value as messages show it. -/
def render : Datum → String
  | .nothing => "None"
  | .truth true => "True"
  | .truth false => "False"
  | .number n => toString n
  | .text t => Quoted.render t
  | .sequence items => "[" ++ ", ".intercalate (renderItems items) ++ "]"
  | .record fields => "\x7b" ++ ", ".intercalate (renderFields fields) ++ "\x7d"

/-- The items of a sequence, one by one. -/
def renderItems : List Datum → List String
  | [] => []
  | item :: items => item.render :: renderItems items

/-- The fields of a record, each with its name. -/
def renderFields : List (Text × Datum) → List String
  | [] => []
  | (name, value) :: fields => (Quoted.render name ++ ": " ++ value.render) :: renderFields fields

end

end Datum
end Stacking
