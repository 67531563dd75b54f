import Rulebook.Text.Quoted
import Rulebook.Term

/-! What can go wrong, by cause. Failing to unify is not among the causes: a goal without answers is
an ordinary outcome. -/
namespace Rulebook

/-- What was to be added to a relation. -/
inductive Addition where
  | fact
  | rule
  deriving DecidableEq

def Addition.text : Addition → String
  | fact => "fact"
  | rule => "rule"

inductive Fault where
  /-- A token starts with a quote or an opening parenthesis, and this text does not. -/
  | notToken (text : String)
  /-- A callback line starts with a name and a colon, and this line does not. -/
  | namelessCallback (line : String)
  /-- A rule would make a relation depend on itself along this path of relation names. -/
  | recursiveRule (path : List String)
  /-- The relation takes another number of arguments. -/
  | arity (what : Addition) (given : Nat) (relation : String) (takes : Nat)
  | undeclaredRelation (key : String)
  | undeclaredAction (key : String)
  | unregisteredCallback (name : String)
  /-- An action was reached again before it had finished, along this chain of actions. -/
  | recursiveAction (chain : List String)
  | bindsLiteral (term : Term)
  | alreadyBound (term : Term)
  /-- The goal has no search of its own. -/
  | noSearch
  /-- A number of answers that cannot be asked for. -/
  | limitOutOfRange
  /-- An option was given without the text that it is for. -/
  | missingText
  | missingFile (path : String)
  /-- The path leads to a folder, and a file is wanted. -/
  | isFolder (path : String)
  /-- The path leads on through a file. -/
  | notFolder (path : String)
  /-- The path, or a name on it, has more bytes than a path or a name may have. -/
  | pathTooLong (path : String)
  /-- The path has a character that no path may have. -/
  | badPath (path : String)
  /-- Nothing of the wanted kind has this name. -/
  | unknownName (name : String)
  /-- There is no line at the end of these child numbers. -/
  | missingLine (path : List Int)
  /-- A search was still going when its bound on steps was used up. Over rules that do not depend
  on themselves the bound suffices. -/
  | endlessSearch
  /-- Actions and callbacks called each other deeper than there are actions. -/
  | tooDeep
  deriving DecidableEq

namespace Fault

/-- Names in quotes along an arrow. -/
def pathText (names : List String) : String := " -> ".intercalate (names.map Text.quoted)

/-- The message, for those faults that have one. -/
def message? : Fault → Option String
  | notToken text => some ("Invalid token: " ++ Text.quoted text)
  | namelessCallback line => some ("Callback line has no name: " ++ Text.quoted line)
  | recursiveRule path => some ("Recursive rule found: " ++ pathText path)
  | arity what given relation takes =>
    some (what.text ++ " with " ++ toString given ++ " arguments added to " ++
      Text.quoted relation ++ ", which takes " ++ toString takes)
  | undeclaredRelation key => some ("No relation declared for " ++ Text.quoted key)
  | undeclaredAction key => some ("No action declared for " ++ Text.quoted key)
  | unregisteredCallback name => some ("No callback registered for " ++ Text.quoted name)
  | recursiveAction chain => some ("Action invoked itself: " ++ pathText chain)
  | bindsLiteral term => some ("cannot bind literal " ++ term.text)
  | alreadyBound term => some (term.text ++ " is already bound")
  | endlessSearch => some "The search does not end"
  | tooDeep => some "Actions are nested too deeply"
  | noSearch | limitOutOfRange | missingText | missingFile _ | isFolder _ | notFolder _
  | pathTooLong _ | badPath _ | unknownName _ | missingLine _ => none

/-- The message as it is printed, empty without one. -/
def message (fault : Fault) : String := fault.message?.getD ""

/-- The faults of a rule program, which the command line reports; the others are mistakes in using
the library or in the files it is given. -/
def isProgramError : Fault → Bool
  | notToken _ | namelessCallback _ | recursiveRule _ | arity _ _ _ _ | undeclaredRelation _
  | undeclaredAction _ | unregisteredCallback _ | recursiveAction _ => true
  | _ => false

end Fault
end Rulebook
