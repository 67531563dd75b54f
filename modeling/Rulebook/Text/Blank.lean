/-! White space, as far as it makes a line blank. -/
namespace Rulebook.Text

/-- The separators of the ASCII range, the next-line mark and the Unicode spaces. Zero-width
characters are not among them. -/
def isBlank (c : Char) : Bool :=
  let n := c.toNat
  (0x09 ≤ n && n ≤ 0x0d) || (0x1c ≤ n && n ≤ 0x20) || n == 0x85 || n == 0xa0 || n == 0x1680 ||
    (0x2000 ≤ n && n ≤ 0x200a) || n == 0x2028 || n == 0x2029 || n == 0x202f || n == 0x205f ||
    n == 0x3000

/-- A line that says nothing: empty, or white space throughout. -/
def isBlankLine (line : List Char) : Bool := line.all isBlank

end Rulebook.Text
