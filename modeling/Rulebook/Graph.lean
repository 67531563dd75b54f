import Rulebook.Machine.Basic

/-! The rule graph in the DOT language. An edge goes from each relation that some rule of a relation
or of an action asks: solid to the relation, dashed to the action. -/
namespace Rulebook.Graph

/-- Writes a quote inside a quoted name. -/
def escape (name : String) : String :=
  String.ofList (name.toList.flatMap fun c => if c = '"' then ['\\', '"'] else [c])

def node (name : String) : String := "\"" ++ escape name ++ "\""

/-- An edge line with its attributes. -/
def edge (style : String) (source target : String) : String :=
  "  " ++ node source ++ " -> " ++ node target ++ style ++ ";\n"

/-- The names of the relations that the rules ask, each once, in code-point order. -/
def sources (db : Database) (rules : List Rule) : List String :=
  sortedNames ((rules.flatMap Rule.relations).map db.nameOf)

/-- A relation with its edges; one with facts is blue. -/
def relationText (db : Database) (key : String) (relation : Relation) : String :=
  let color := if relation.facts.isEmpty then "lightgray" else "lightblue"
  "  " ++ node key ++ " [fillcolor=" ++ color ++ ", style=filled];\n" ++
    String.join ((sources db relation.rules).map fun source => edge "" source key)

def actionText (db : Database) (key : String) (action : Action) : String :=
  "  " ++ node key ++ " [shape=ellipse, fillcolor=khaki, style=filled];\n" ++
    String.join ((sources db (action.entries.map (·.1))).map fun source =>
      edge " [style=dashed]" source key)

/-- The whole graph, relations and actions in the order in which they were declared. -/
def text (m : Machine) : String :=
  "digraph syllogisms \x7b\n  rankdir=LR;\n  node [shape=box, style=rounded];\n" ++
    String.join (m.relations.entries.map fun (key, r) =>
      relationText m.database key (m.database.relation r)) ++
    String.join (m.actions.entries.map fun (key, action) => actionText m.database key action) ++
    "\x7d\n"

/-- What is said once the graph has been written to a file. -/
def exportMessage (path : String) : String := "Graph exported to " ++ path

end Rulebook.Graph
