/-
# Editor formatting

The formatting settings of a project.  A descriptor's entries are laid over the defaults one by one;
an entry of the wrong type, a number out of range or an unknown name changes nothing, so that a stale
setting never fails a project.
-/
import Tsconfig.Json.Value

namespace Tsconfig

/-- How an editor formats code. -/
structure FormatOptions where
  indentSize : UInt32
  tabSize : UInt32
  newLineCharacter : String
  convertTabsToSpaces : Bool
  insertSpaceAfterCommaDelimiter : Bool
  insertSpaceAfterSemicolonInForStatements : Bool
  insertSpaceBeforeAndAfterBinaryOperators : Bool
  insertSpaceAfterKeywordsInControlFlowStatements : Bool
  insertSpaceAfterFunctionKeywordForAnonymousFunctions : Bool
  insertSpaceAfterOpeningAndBeforeClosingNonemptyParenthesis : Bool
  placeOpenBraceOnNewLineForFunctions : Bool
  placeOpenBraceOnNewLineForControlBlocks : Bool
  deriving DecidableEq

namespace FormatOptions

/-- The settings of a project that has none. -/
def defaults : FormatOptions where
  indentSize := 4
  tabSize := 4
  newLineCharacter := "\n"
  convertTabsToSpaces := true
  insertSpaceAfterCommaDelimiter := true
  insertSpaceAfterSemicolonInForStatements := true
  insertSpaceBeforeAndAfterBinaryOperators := true
  insertSpaceAfterKeywordsInControlFlowStatements := true
  insertSpaceAfterFunctionKeywordForAnonymousFunctions := false
  insertSpaceAfterOpeningAndBeforeClosingNonemptyParenthesis := false
  placeOpenBraceOnNewLineForFunctions := false
  placeOpenBraceOnNewLineForControlBlocks := false

/-- A number of 32 bits. -/
def size? : Json → Option UInt32
  | .number (.integer i) =>
    if 0 ≤ i ∧ i.toNat < UInt32.size then some (UInt32.ofNat i.toNat) else none
  | _ => none

/-- Set a flag by its name. -/
def setFlag (o : FormatOptions) (name : String) (b : Bool) : FormatOptions :=
  match name with
  | "convertTabsToSpaces" => { o with convertTabsToSpaces := b }
  | "insertSpaceAfterCommaDelimiter" => { o with insertSpaceAfterCommaDelimiter := b }
  | "insertSpaceAfterSemicolonInForStatements" =>
    { o with insertSpaceAfterSemicolonInForStatements := b }
  | "insertSpaceBeforeAndAfterBinaryOperators" =>
    { o with insertSpaceBeforeAndAfterBinaryOperators := b }
  | "insertSpaceAfterKeywordsInControlFlowStatements" =>
    { o with insertSpaceAfterKeywordsInControlFlowStatements := b }
  | "insertSpaceAfterFunctionKeywordForAnonymousFunctions" =>
    { o with insertSpaceAfterFunctionKeywordForAnonymousFunctions := b }
  | "insertSpaceAfterOpeningAndBeforeClosingNonemptyParenthesis" =>
    { o with insertSpaceAfterOpeningAndBeforeClosingNonemptyParenthesis := b }
  | "placeOpenBraceOnNewLineForFunctions" => { o with placeOpenBraceOnNewLineForFunctions := b }
  | "placeOpenBraceOnNewLineForControlBlocks" =>
    { o with placeOpenBraceOnNewLineForControlBlocks := b }
  | _ => o

/-- Lay an entry over the settings. -/
def layer (o : FormatOptions) (name : String) (value : Json) : FormatOptions :=
  match name, value with
  | "indentSize", value => { o with indentSize := (size? value).getD o.indentSize }
  | "tabSize", value => { o with tabSize := (size? value).getD o.tabSize }
  | "newLineCharacter", .string s => { o with newLineCharacter := s }
  | name, .bool b => o.setFlag name b
  | _, _ => o

/-- The settings that a descriptor's value gives.  Anything but an object gives the defaults. -/
def ofSetting : Option Json → FormatOptions
  | some (.object fields) => fields.foldl (fun o e => o.layer e.1 e.2) defaults
  | _ => defaults

/-- The settings as a value, all of them, in the order of their declaration. -/
def toJson (o : FormatOptions) : Json := .object [
  ("indentSize", .int o.indentSize.toNat),
  ("tabSize", .int o.tabSize.toNat),
  ("newLineCharacter", .string o.newLineCharacter),
  ("convertTabsToSpaces", .bool o.convertTabsToSpaces),
  ("insertSpaceAfterCommaDelimiter", .bool o.insertSpaceAfterCommaDelimiter),
  ("insertSpaceAfterSemicolonInForStatements", .bool o.insertSpaceAfterSemicolonInForStatements),
  ("insertSpaceBeforeAndAfterBinaryOperators", .bool o.insertSpaceBeforeAndAfterBinaryOperators),
  ("insertSpaceAfterKeywordsInControlFlowStatements",
    .bool o.insertSpaceAfterKeywordsInControlFlowStatements),
  ("insertSpaceAfterFunctionKeywordForAnonymousFunctions",
    .bool o.insertSpaceAfterFunctionKeywordForAnonymousFunctions),
  ("insertSpaceAfterOpeningAndBeforeClosingNonemptyParenthesis",
    .bool o.insertSpaceAfterOpeningAndBeforeClosingNonemptyParenthesis),
  ("placeOpenBraceOnNewLineForFunctions", .bool o.placeOpenBraceOnNewLineForFunctions),
  ("placeOpenBraceOnNewLineForControlBlocks", .bool o.placeOpenBraceOnNewLineForControlBlocks)]

end FormatOptions

end Tsconfig
