import Rulebook.Search

/-! Actions: rules paired with payloads, in the order in which they were added. Asking an action for
a payload takes the first rule that holds. -/
namespace Rulebook

structure Action where
  name : String := ""
  entries : List (Rule × String) := []

namespace Action

def add (action : Action) (rule : Rule) (payload : String) : Action :=
  { action with entries := action.entries ++ [(rule, payload)] }

/-- Uses each rule in turn, under its own salt. -/
def branches (args : List Term) (out : Term) :
    List (Rule × String) → Progress → List Goal × Progress
  | [], p => ([], p)
  | (rule, payload) :: rest, p =>
    let (first, p) := rule.use args p
    let (others, p) := branches args out rest p
    (.all [first, .unify out (.lit payload)] :: others, p)

/-- Binds `out` to the payload of each rule that holds for the arguments. -/
def goal (action : Action) (args : List Term) (out : Term) (p : Progress) : Goal × Progress :=
  let (goals, p) := branches args out action.entries p
  (.any goals, p)

def text (action : Action) : String :=
  "Action(" ++ Text.quoted action.name ++ ", " ++ toString action.entries.length ++ " payloads)"

end Action
end Rulebook
