import Stacking.Diagnostic
import Stacking.Text.Quoted

/-!
# Reports in JSON

The part of JSON that reports need, and how it is laid out: one item or field a line, two spaces of
indentation for each level, everything beyond printable ASCII escaped.
-/

namespace Stacking

/-- A value of a report. -/
inductive JsonValue where
  | number (value : Int)
  | text (value : String)
  | list (items : List JsonValue)
  | object (fields : List (String × JsonValue))

namespace JsonValue

/-- A 16-bit unit as an escape. -/
def unit (n : Nat) : Text := ['\\', 'u'] ++ Quoted.hex 4 n

/-- A character inside a string; beyond the 16-bit range it is written as two units. -/
def escape (c : Char) : Text :=
  if c = '"' || c = '\\' then ['\\', c]
  else if c = '\n' then ['\\', 'n']
  else if c = '\r' then ['\\', 'r']
  else if c = '\t' then ['\\', 't']
  else if c = '\x0c' then ['\\', 'f']
  else if c = '\x08' then ['\\', 'b']
  else if 32 ≤ c.toNat && c.toNat < 127 then [c]
  else if c.toNat < 0x10000 then unit c.toNat
  else
    let n := c.toNat - 0x10000
    unit (0xD800 + n / 0x400) ++ unit (0xDC00 + n % 0x400)

/-- A string. -/
def renderText (s : String) : String :=
  String.ofList ('"' :: s.toList.flatMap escape ++ ['"'])

/-- The start of a line at a level. -/
def newline (level : Nat) : String := "\n" ++ String.ofList (List.replicate (2 * level) ' ')

/-- Parts on lines of their own between brackets; without parts the brackets stand together. -/
def enclose (opening closing : String) (level : Nat) (parts : List String) : String :=
  if parts.isEmpty then opening ++ closing
  else
    opening ++ newline (level + 1) ++ ("," ++ newline (level + 1)).intercalate parts ++
      newline level ++ closing

mutual

/-- A value at a level of indentation. -/
def renderAt (level : Nat) : JsonValue → String
  | .number n => toString n
  | .text s => renderText s
  | .list items => enclose "[" "]" level (renderItems (level + 1) items)
  | .object fields => enclose "\x7b" "\x7d" level (renderFields (level + 1) fields)

/-- The items of a list. -/
def renderItems (level : Nat) : List JsonValue → List String
  | [] => []
  | item :: rest => renderAt level item :: renderItems level rest

/-- The fields of an object. -/
def renderFields (level : Nat) : List (String × JsonValue) → List String
  | [] => []
  | (name, value) :: rest =>
    (renderText name ++ ": " ++ renderAt level value) :: renderFields level rest

end

/-- A value as it is printed. -/
def render (j : JsonValue) : String := renderAt 0 j

/-- A position. -/
def ofPosition (p : Position) : JsonValue :=
  .object [("line", .number p.line), ("character", .number p.character)]

/-- A range. -/
def ofRange (r : Range) : JsonValue :=
  .object [("start", ofPosition r.start), ("end", ofPosition r.stop)]

/-- A finding. -/
def ofDiagnostic (d : Diagnostic) : JsonValue :=
  .object
    [("range", ofRange d.range), ("message", .text d.message),
     ("severity", .number d.severity.number), ("code", .text d.code),
     ("codeDescription", .object [("href", .text d.helpUri)]),
     ("tags", .list (d.tagNumbers.map .number)), ("source", .text d.source)]

end JsonValue
end Stacking
