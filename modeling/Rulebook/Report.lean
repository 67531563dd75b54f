import Rulebook.Machine.Basic

/-! Reports on a machine, as lines of text. Relations and actions are listed by key, exclusions in
the order in which they were loaded, and the history as it happened. -/
namespace Rulebook.Report

/-- The line that frames a report. -/
def ruler : String := String.ofList (List.replicate 60 '=')

/-- A frame's first line, set off by an empty one. -/
def opening : String := "\n" ++ ruler

def relationLines (key : String) (relation : Relation) : List String :=
  ("  " ++ key ++ "  [" ++ toString relation.facts.length ++ " facts, " ++
    toString relation.rules.length ++ " rules]") ::
    relation.facts.map fun fact => "      " ++ factText fact

def actionLine (key : String) (action : Action) : String :=
  "  " ++ key ++ "  [" ++ toString action.entries.length ++ " payloads]"

/-- Shows a flagged position as `b`, any other as `_`. -/
def exclusionLine (exclusion : Exclusion) : String :=
  "  " ++ exclusion.key ++ "  [" ++
    String.ofList (exclusion.bound.map fun flag => if flag then 'b' else '_') ++ "]"

/-- Every relation with its facts, then actions and exclusions. -/
def stateLines (m : Machine) : List String :=
  let exclusions := m.exclusions.values.flatten
  [opening, "Relations (" ++ toString m.relations.size ++ "):"] ++
    m.relations.sorted.flatMap (fun (key, r) => relationLines key (m.database.relation r)) ++
    ["Actions (" ++ toString m.actions.size ++ "):"] ++
    m.actions.sorted.map (fun (key, action) => actionLine key action) ++
    ["Exclusions (" ++ toString exclusions.length ++ "):"] ++
    exclusions.map exclusionLine ++ [ruler]

def valuesText (values : List String) : String :=
  "(" ++ ", ".intercalate (values.map Text.quoted) ++ ")"

/-- One entry of the history, the kinds in columns of one width. -/
def entryText : Entry → String
  | .claimed key values => "claim   " ++ key ++ " " ++ valuesText values
  | .retracted key values => "retract " ++ key ++ " " ++ valuesText values
  | .performed key payload => "action  " ++ key ++ " -> " ++ payload

/-- The history, numbered from 1. -/
def historyLines (m : Machine) : List String :=
  [opening, "History:", ruler] ++
    m.history.mapIdx fun i entry => "  " ++ toString (i + 1) ++ ". " ++ entryText entry

end Rulebook.Report
