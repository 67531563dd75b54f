import Rulebook.Term

/-! Minted names. One counter serves two kinds of name, and no text that a caller supplies makes a
name of one kind equal to a name of the other or to an earlier one: a fresh variable starts with a
question mark, a salt with a numeral or its sign, and each carries its number up to a mark that no
numeral holds. -/
namespace Rulebook.Naming

/-- A fresh variable; the hint says what it stands for. -/
def fresh (id : Int) (hint : String) : Term :=
  .var (if hint = "" then "?" ++ toString id else "?" ++ toString id ++ ":" ++ hint)

/-- What is put before the variables of one use of a rule. -/
def salt (id : Int) : String := toString id ++ "/"

/-- The id of one payload. -/
def payload (id : Int) : String := "payload-" ++ toString id

end Rulebook.Naming
