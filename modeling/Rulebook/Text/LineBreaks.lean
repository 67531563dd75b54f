import Rulebook.Text.Pieces

/-! The two readings of line ends: a text file ends its lines with a line feed, a carriage return or
both, while a text that is already in memory ends them with line feeds alone. -/
namespace Rulebook.Text

/-- Turns each CR LF pair and each lone CR into a line feed. -/
def unifyBreaks : List Char → List Char
  | [] => []
  | '\r' :: '\n' :: rest => '\n' :: unifyBreaks rest
  | c :: rest => (if c = '\r' then '\n' else c) :: unifyBreaks rest

/-- The contents of a text file, with one kind of line end. -/
def fileContents (text : String) : String := String.ofList (unifyBreaks text.toList)

/-- The lines between line feeds. -/
def splitLines : List Char → List (List Char) := pieces '\n'

/-- Drops what is left of a CR LF line end after splitting. -/
def dropReturns (line : List Char) : List Char :=
  (line.reverse.dropWhile (· == '\r')).reverse

end Rulebook.Text
