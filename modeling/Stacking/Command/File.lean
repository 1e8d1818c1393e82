import Stacking.Table
import Stacking.Text.Basic

/-!
# Files

The files that a command works on, as a value. A path is a list of names; a path that is written
relative starts at the base directory of the tree. File addresses are percent-encoded.
-/

namespace Stacking

/-- What a file holds: a text, or bytes that are the encoding of no text. -/
inductive Content where
  | text (text : Text)
  | binary
deriving DecidableEq

/-- A file: its content and when it was changed. -/
structure FileEntry where
  content : Content
  changedAt : Int
deriving DecidableEq

/-- The names that lead from the root of the file system to a file or directory. -/
abbrev Path := List String

/-- The files and directories that a command can see. -/
structure FileTree where
  /-- The directory in which relative paths start. -/
  base : Path
  directories : List Path := []
  files : Table Path FileEntry := {}

/-! ## Written paths -/

namespace Path

/-- The names in a written path, as they are written. -/
def names (written : String) : List String :=
  (Text.splitOn '/' written.toList).map String.ofList

/-- Whether a written path starts at the root. -/
def isAbsolute (written : String) : Bool := written.toList.head? = some '/'

/-- A written path without needless names and slashes. -/
def display (written : String) : String :=
  let kept := (names written).filter fun name => name ≠ "" && name ≠ "."
  let lead := if isAbsolute written then "/" else ""
  if kept.isEmpty && lead.isEmpty then "." else lead ++ "/".intercalate kept

/-- The path that names lead to from another one, if every name but the last is that of a
directory. -/
def descend (base : Path) (names : List String) : Path :=
  names.foldl
    (fun p name =>
      if name = "" || name = "." then p else if name = ".." then p.dropLast else p ++ [name])
    base

/-- A byte in percent-encoding. -/
def percentByte (b : UInt8) : String :=
  let digit (n : Nat) : Char := Char.toUpper (Nat.digitChar n)
  String.ofList ['%', digit (b.toNat / 16), digit (b.toNat % 16)]

/-- A name in percent-encoding: letters, digits and a few marks of ASCII stand for themselves. -/
def percentName (name : String) : String :=
  String.join (name.toList.map fun c =>
    if c.isAlphanum || c == '_' || c == '.' || c == '-' || c == '~' then String.singleton c
    else String.join ((String.singleton c).toUTF8.toList.map percentByte))

/-- The address of a file. -/
def uri (p : Path) : String := "file:///" ++ "/".intercalate (p.map percentName)

end Path

/-! ## Looking up -/

namespace FileTree

/-- Whether there is a directory at a path: one that is listed, or one above another. -/
def isDirectory (t : FileTree) (p : Path) : Bool :=
  p.isPrefixOf t.base || t.directories.any p.isPrefixOf ||
    t.files.keys.any fun f => p.isPrefixOf f.dropLast

/-- Follows names from a path; every name but the last has to lead to a directory. -/
def follow (t : FileTree) : Path → List String → Option Path
  | p, [] => some p
  | p, name :: rest =>
    if !t.isDirectory p then none
    else if name = "" || name = "." then t.follow p rest
    else if name = ".." then t.follow p.dropLast rest
    else t.follow (p ++ [name]) rest

/-- The path that a written one leads to. -/
def resolve? (t : FileTree) (written : String) : Option Path :=
  if written = "" then none
  else t.follow (if Path.isAbsolute written then [] else t.base) (Path.names written)

/-- What a written path names. -/
inductive Found where
  | file (path : Path) (entry : FileEntry)
  | directory
  | nothing

/-- Looks a written path up. -/
def find (t : FileTree) (written : String) : Found :=
  match t.resolve? written with
  | none => .nothing
  | some p =>
    match t.files.get? p with
    | some entry => .file p entry
    | none => if t.isDirectory p then .directory else .nothing

/-- The path that a written one leads to, if there are all the directories on the way. -/
def locate (t : FileTree) (written : String) : Path :=
  Path.descend (if Path.isAbsolute written then [] else t.base) (Path.names written)

/-- The directories on the way of a written path. -/
def way (t : FileTree) (written : String) : List Path :=
  let start := if Path.isAbsolute written then [] else t.base
  let names := Path.names written
  (List.range names.length).map fun count => Path.descend start (names.take count)

/-- Puts a file at a path. -/
def write (t : FileTree) (p : Path) (entry : FileEntry) : FileTree :=
  { t with files := t.files.put p entry }

/-- Puts a file where a written path leads, with the directories on the way. -/
def create (t : FileTree) (written : String) (entry : FileEntry) : FileTree :=
  { t with
    files := t.files.put (t.locate written) entry
    directories := t.way written ++ t.directories }

/-- Makes a directory where a written path leads, with the directories on the way. -/
def makeDirectory (t : FileTree) (written : String) : FileTree :=
  { t with directories := t.locate written :: t.way written ++ t.directories }

/-- Takes the file at a path away; its directory stays. -/
def remove (t : FileTree) (p : Path) : FileTree :=
  { t with files := t.files.erase p, directories := p.dropLast :: t.directories }

/-- Sets when the file at a path was changed, if there is one. -/
def touch (t : FileTree) (p : Path) (changedAt : Int) : FileTree :=
  match t.files.get? p with
  | none => t
  | some entry => t.write p { entry with changedAt }

end FileTree

/-! ## Reading -/

/-- The text with every kind of line break turned into a line feed. -/
def Text.unifyLineBreaks : Text → Text
  | [] => []
  | '\r' :: '\n' :: rest => '\n' :: unifyLineBreaks rest
  | c :: rest => (if c = '\r' then '\n' else c) :: unifyLineBreaks rest

/-- The text of a file as commands see it, with line feeds for line breaks; there is none if the
file holds no text. -/
def Content.read? : Content → Option Text
  | .text t => some t.unifyLineBreaks
  | .binary => none

end Stacking
