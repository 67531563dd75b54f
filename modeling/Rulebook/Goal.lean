import Rulebook.Substitution

/-! Goals: descriptions of searches for substitutions. A goal computes nothing; `Search` runs it. -/
namespace Rulebook

/-- A relation's place in its database. Names can be reused, places cannot. -/
abbrev RelationId := Nat

inductive Goal where
  /-- Both terms are the same. -/
  | unify (left right : Term)
  /-- Both lists are the same, position by position. -/
  | unifyAll (left right : List Term)
  /-- Every goal holds, left to right. -/
  | all (goals : List Goal)
  /-- Some goal holds; the branches take turns. -/
  | any (goals : List Goal)
  /-- The relation holds for the arguments, as it is when it is searched. -/
  | query (relation : RelationId) (args : List Term)
  /-- The goal, with a report of when it is asked and what it answers. -/
  | traced (label : String) (goal : Goal)
  /-- The answers of a function, numbered from 0, up to the first number it has none for. -/
  | stream (answers : Substitution → Nat → Option Substitution)
  /-- A goal that cannot be searched. -/
  | unsearchable

namespace Goal

/-- Yields its input again and again. -/
def forever : Goal := stream fun s _ => some s

/-- Can a search for it be opened? Goals inside it are opened only when the search gets there. -/
def isSearchable : Goal → Bool
  | unsearchable => false
  | _ => true

mutual

/-- The goal as a report shows it, with relations by name. -/
def text (nameOf : RelationId → String) : Goal → String
  | unify left right => "Unify(" ++ left.text ++ ", " ++ right.text ++ ")"
  | unifyAll left right => "UnifyAll(" ++ argumentText left ++ ", " ++ argumentText right ++ ")"
  | all goals => "And([" ++ ", ".intercalate (texts nameOf goals) ++ "])"
  | any goals => "Or([" ++ ", ".intercalate (texts nameOf goals) ++ "])"
  | query relation args =>
    "RelationQuery(" ++ Text.quoted (nameOf relation) ++ ", " ++ argumentText args ++ ")"
  | traced label _ => "Trace(" ++ label ++ ")"
  | stream _ => "Stream()"
  | unsearchable => "Goal()"

def texts (nameOf : RelationId → String) : List Goal → List String
  | [] => []
  | goal :: goals => goal.text nameOf :: texts nameOf goals

end

end Goal
end Rulebook
