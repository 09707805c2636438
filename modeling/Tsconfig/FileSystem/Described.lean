/-
# File systems described as JSON

A tree is described by an object from paths to entries: `"dir"`, an object with the text or the bytes of
a file (`text`, `hex`), or an object with the target of a link (`link`).  What a command has changed is
described in the same way, with null for an entry that is gone.
-/
import Tsconfig.FileSystem.Change
import Tsconfig.Json.Lexeme
import Tsconfig.Json.Printer

namespace Tsconfig

/-! ## 1. Bytes -/

/-- Two digits of base 16. -/
def hexByte (b : UInt8) : List Char :=
  [Json.hexDigit (b.toNat / 16), Json.hexDigit (b.toNat % 16)]

/-- Bytes in base 16. -/
def hexText (bytes : List UInt8) : String := String.ofList (bytes.flatMap hexByte)

/-- The value of a digit of base 16; other characters count as zero. -/
def hexNibble (c : Char) : UInt8 := UInt8.ofNat ((Json.Reader.hexValue? c).getD 0)

/-- The bytes of a text in base 16. -/
def ofHex : List Char → List UInt8
  | a :: b :: rest => (hexNibble a * 16 + hexNibble b) :: ofHex rest
  | _ => []

/-! ## 2. Entries -/

/-- An entry as a value. -/
def Entry.toJson : Entry → Json
  | .directory => .string "dir"
  | .file (.text s) => .object [("text", .string s)]
  | .file (.binary bytes) => .object [("hex", .string (hexText bytes))]
  | .link target => .object [("link", .string target.shown)]

/-- The text of an entry of an object. -/
def textField? (fields : Fields Json) (name : String) : Option String :=
  (fields.get? name).bind Json.asString?

/-- The contents that a description gives: bytes, or else text. -/
def Contents.ofFields (fields : Fields Json) : Contents :=
  match textField? fields "hex" with
  | some hex => .ofBytes (ofHex hex.toList)
  | none => .text ((textField? fields "text").getD "")

namespace FileSystem

/-- Put what a description says at a path. -/
def describe (fs : FileSystem) (path : WrittenPath) : Json → FileSystem
  | .object fields =>
    match textField? fields "link" with
    | some target => fs.makeLink (Route.parse path) target
    | none => fs.writeFile (Route.parse path) (.ofFields fields)
  | _ => fs.makeDirectories (Route.parse path)

/-- The tree that a description gives, on top of a file system. -/
def describeAll (fs : FileSystem) (fields : Fields Json) : FileSystem :=
  fields.foldl (fun fs e => fs.describe e.1 e.2) fs

/-! ## 3. Trees and changes -/

/-- The entries below a directory by their paths from it. -/
def entriesBelow (fs : FileSystem) (dir : Location) : Fields Entry :=
  fs.entries.filterMap fun e =>
    if dir.isPrefixOf e.1 && e.1 ≠ dir then some ((WrittenPath.joined (e.1.drop dir.length)).shown, e.2)
    else none

/-- The tree below a directory as a value. -/
def treeJson (fs : FileSystem) (dir : Location) : Json :=
  .object ((fs.entriesBelow dir).map fun e => (e.1, e.2.toJson))

/-- What differs below a directory as a value: each entry as it is now. -/
def changesJson (before after : FileSystem) (dir : Location) : Json :=
  let old := before.entriesBelow dir
  let new := after.entriesBelow dir
  .object ((new.filter fun e => old.get? e.1 ≠ some e.2).map (fun e => (e.1, e.2.toJson)) ++
    (old.filter fun e => !new.contains e.1).map fun e => (e.1, .null))

end FileSystem

end Tsconfig
