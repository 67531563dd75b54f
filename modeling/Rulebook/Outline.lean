import Rulebook.Line
import Rulebook.Text.Blank
import Rulebook.Text.LineBreaks

/-! The tree of a rule file. A line belongs under the nearest line above it that is indented less.
Read from the last line to the first, that says: a new line takes as its children the roots so far
that are indented deeper, up to the first one that is not. -/
namespace Rulebook

/-- A line with the blocks under it. -/
structure Block where
  line : Line
  children : List Block

namespace Block

/-- Puts a line before a forest. -/
def nest (line : Line) (forest : List Block) : List Block :=
  let deeper := fun block : Block => decide (line.indent < block.line.indent)
  ⟨line, forest.takeWhile deeper⟩ :: forest.dropWhile deeper

/-- The forest of a sequence of lines. -/
def ofLines (lines : List Line) : List Block := lines.foldr nest []

/-- The block of a number, counted from 0; a negative number counts from the end. -/
def nth? (blocks : List Block) (n : Int) : Option Block :=
  let place := if n < 0 then n + blocks.length else n
  if place < 0 then none else blocks[place.toNat]?

/-- The block at the end of a path of child numbers, with the lines above it, nearest first. -/
def at? (above : List Line) : List Block → List Int → Option (List Line × Block)
  | _, [] => none
  | blocks, n :: path =>
    match nth? blocks n, path with
    | none, _ => none
    | some block, [] => some (above, block)
    | some block, _ => at? (block.line :: above) block.children path

mutual

/-- The lines of a block, each before those under it. -/
def lines : Block → List Line
  | ⟨line, children⟩ => line :: linesOf children

def linesOf : List Block → List Line
  | [] => []
  | block :: blocks => block.lines ++ linesOf blocks

end

end Block

/-- The lines of a text that are not blank. -/
def linesOfText (text : String) : List Line :=
  ((Text.splitLines text.toList).filter (!Text.isBlankLine ·)).map fun line =>
    .ofChars (Text.dropReturns line)

/-- The tree of a text. -/
def outline (text : String) : List Block := Block.ofLines (linesOfText text)

/-- The block at a path in the tree of a text, with the lines above it, nearest first. -/
def blockAt (text : String) (path : List Int) : Except Fault (List Line × Block) :=
  match Block.at? [] (outline text) path with
  | some found => .ok found
  | none => .error (.missingLine path)

end Rulebook
