import Rulebook.Phrase

/-! Lines of a rule file. The marker after the indentation says what a line is; one blank after the
marker belongs to it. A line without a marker is plain text. -/
namespace Rulebook

inductive LineKind where
  | condition
  | claim
  | action
  | callback
  | exclusion
  | comment
  | plain
  deriving DecidableEq

namespace LineKind

/-- The kinds that have a marker; no marker begins another. -/
def marked : List (List Char × LineKind) :=
  [([':', ':'], condition), (['/', '/'], comment), (['+'], claim), (['*'], action),
    (['>'], callback), (['?'], exclusion)]

def text : LineKind → String
  | condition => "CONDITION"
  | claim => "CLAIM"
  | action => "ACTION"
  | callback => "CALLBACK"
  | exclusion => "EXCLUSION"
  | comment => "COMMENT"
  | plain => "STRING"

end LineKind

structure Line where
  kind : LineKind
  /-- The line as it was read. -/
  text : String
  /-- The line without indentation and marker. -/
  content : String
  indent : Nat
  phrase : Phrase
  deriving DecidableEq

namespace Line

/-- The number of leading blanks; no other character indents. -/
def indentOf (text : List Char) : Nat := (text.takeWhile (· == ' ')).length

/-- Drops one blank, if there is one. -/
def dropBlank : List Char → List Char
  | ' ' :: rest => rest
  | text => text

/-- What is left of a text behind an opening. -/
def behind? (opening text : List Char) : Option (List Char) :=
  if opening.isPrefixOf text then some (text.drop opening.length) else none

/-- The kind of an unindented line and its content. -/
def classify (text : List Char) : LineKind × List Char :=
  match LineKind.marked.findSome? fun (marker, kind) =>
    (behind? marker text).map fun rest => (kind, dropBlank rest) with
  | some found => found
  | none => (.plain, text)

/-- Reads one line; any text is one. -/
def ofChars (text : List Char) : Line :=
  let (kind, content) := classify (text.dropWhile (· == ' '))
  { kind, text := String.ofList text, content := String.ofList content, indent := indentOf text,
    phrase := .ofText (String.ofList content) }

def ofText (text : String) : Line := ofChars text.toList

/-- The line's kind and content. -/
def summary (line : Line) : String :=
  "Line(" ++ line.kind.text ++ ", " ++ Text.quoted line.content ++ ")"

/-- A character that a callback's name may have. -/
def isNameChar (c : Char) : Bool := c.isAlphanum || c == '_'

/-- The name before the colon in a callback line. -/
def callbackName (line : Line) : Except Fault String :=
  let chars := line.content.toList
  let name := chars.takeWhile isNameChar
  match name, chars.dropWhile isNameChar with
  | _ :: _, ':' :: _ => .ok (String.ofList name)
  | _, _ => .error (.namelessCallback line.text)

end Line
end Rulebook
