/-! Terms of the rule language. Everything is atomic: a term is a literal text or a variable, so the
only way to a loop is a chain of variables that comes back to itself. -/
namespace Rulebook

inductive Term where
  | var (name : String)
  | lit (value : String)
  deriving DecidableEq, Inhabited

namespace Term

/-- The name of a variable, the value of a literal. -/
def key : Term → String
  | var name => name
  | lit value => value

/-- What a query reports for a position: the literal, or nothing for one still open. -/
def value? : Term → Option String
  | var _ => none
  | lit value => some value

/-- The form in which a term is written in a rule file. -/
def text : Term → String
  | var name => "(" ++ name ++ ")"
  | lit value => "\"" ++ value ++ "\""

/-- Renames a variable apart by a salt; a literal stays. -/
def salted (salt : String) : Term → Term
  | var name => var (salt ++ name)
  | lit value => lit value

end Term

/-- Terms in parentheses, separated by commas. -/
def argumentText (terms : List Term) : String :=
  "(" ++ ", ".intercalate (terms.map Term.text) ++ ")"

/-- Terms as a fact shows them, separated by blanks. -/
def factText (terms : List Term) : String := " ".intercalate (terms.map Term.text)

end Rulebook
