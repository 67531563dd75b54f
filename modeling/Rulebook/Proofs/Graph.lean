import Mathlib.Data.List.Nodup
import Rulebook.Proofs.Dot
import Rulebook.Proofs.Program.Integrity
import Rulebook.Proofs.Table

/-! Rule graphs read back. As long as no key ends in a backslash, the text of a machine's graph can
be read, and it draws what the machine's rules ask: each relation and each action is one node, and
each relation that some rule of a node asks has one edge to it. -/
namespace Rulebook
open Dot

namespace Graph

def block (look line : Attributes) (key : String) (sources : List String) : List Statement :=
  .node key look :: sources.map fun source => .edge source key line

def edgesTo (t : Table α) (asked : α → List String) : List (String × String) :=
  t.entries.flatMap fun (key, value) => (asked value).map fun source => (source, key)

def blocks (t : Table α) (look : α → Attributes) (line : Attributes) (asked : α → List String) :
    List Statement :=
  t.entries.flatMap fun (key, value) => block (look value) line key (asked value)

section Blocks
variable {α : Type} {t : Table α} {look : α → Attributes} {line : Attributes}
  {asked : α → List String}

theorem nodes_blocks {ellipse : Bool}
    (shaped : ∀ value, (look value).contains ("shape", "ellipse") = ellipse) (wanted : Bool) :
    (blocks t look line asked).filterMap (·.node? wanted) =
      if ellipse = wanted then t.keys else [] := by
  have each (key : String) (value : α) :
      (block (look value) line key (asked value)).filterMap (·.node? wanted) =
        if ellipse = wanted then [key] else [] := by
    have edges : ((asked value).map fun source => Statement.edge source key line).filterMap
        (·.node? wanted) = [] := by simp [Statement.node?]
    rw [block, List.filterMap_cons, edges, Statement.node?, shaped]
    split <;> simp_all
  simp only [blocks, List.filterMap_flatMap, each, Table.keys]
  split
  · exact List.map_eq_flatMap.symm
  · simp

theorem edges_blocks (wanted : Bool) :
    (blocks t look line asked).filterMap (·.edge? wanted) =
      if line.contains ("style", "dashed") = wanted then edgesTo t asked else [] := by
  simp only [blocks, block, List.filterMap_flatMap, List.filterMap_cons, Statement.edge?,
    List.filterMap_map, Function.comp_def]
  split
  · simp only [edgesTo, ← List.filterMap_eq_map, Function.comp_def]
  · simp

theorem mem_edgesTo {source target : String} : (source, target) ∈ edgesTo t asked ↔
    ∃ value, t.get? target = some value ∧ source ∈ asked value := by
  simp only [edgesTo, List.mem_flatMap, List.mem_map, Prod.mk.injEq, Prod.exists,
    Table.get?_eq_some_iff]
  constructor
  · rintro ⟨key, value, inside, _, member, rfl, rfl⟩
    exact ⟨value, inside, member⟩
  · rintro ⟨value, inside, member⟩
    exact ⟨target, value, inside, source, member, rfl, rfl⟩

theorem nodup_edgesTo (once : ∀ value, (asked value).Nodup) : (edgesTo t asked).Nodup := by
  have apart : t.entries.Pairwise fun one other => one.1 ≠ other.1 := List.pairwise_map.mp t.nodup
  refine List.nodup_flatMap.mpr ⟨?_, apart.imp ?_⟩
  · rintro ⟨key, value⟩ _
    exact (once value).map fun _ _ same => (Prod.mk.inj same).1
  · rintro ⟨key, value⟩ ⟨other, _⟩ differ edge one another
    obtain ⟨_, _, rfl⟩ := List.mem_map.mp one
    obtain ⟨_, _, same⟩ := List.mem_map.mp another
    exact differ (Prod.mk.inj same).2.symm

end Blocks

def relationBlocks (m : Machine) : List Statement :=
  blocks m.relations
    (fun r => [("fillcolor", if (m.database.relation r).facts.isEmpty then "lightgray"
      else "lightblue"), ("style", "filled")])
    [] fun r => sources m.database (m.database.relation r).rules

def actionBlocks (m : Machine) : List Statement :=
  blocks m.actions
    (fun _ => [("shape", "ellipse"), ("fillcolor", "khaki"), ("style", "filled")])
    [("style", "dashed")] fun action => sources m.database action.rules

def written (m : Machine) : List Statement :=
  .setting "rankdir" "LR" :: .nodes [("shape", "box"), ("style", "rounded")] ::
    (relationBlocks m ++ actionBlocks m)

theorem nodes_written (m : Machine) (ellipse : Bool) :
    (written m).filterMap (·.node? ellipse) =
      if ellipse then m.actions.keys else m.relations.keys := by
  have relations : (relationBlocks m).filterMap (·.node? ellipse) =
      if false = ellipse then m.relations.keys else [] :=
    nodes_blocks (fun r => by cases (m.database.relation r).facts.isEmpty <;> rfl) ellipse
  have actions : (actionBlocks m).filterMap (·.node? ellipse) =
      if true = ellipse then m.actions.keys else [] := nodes_blocks (fun _ => rfl) ellipse
  have both : (written m).filterMap (·.node? ellipse) =
      (relationBlocks m).filterMap (·.node? ellipse) ++
        (actionBlocks m).filterMap (·.node? ellipse) := List.filterMap_append
  rw [both, relations, actions]
  cases ellipse <;> simp

theorem edges_written (m : Machine) (dashed : Bool) :
    (written m).filterMap (·.edge? dashed) =
      if dashed then edgesTo m.actions fun action => sources m.database action.rules
      else edgesTo m.relations fun r => sources m.database (m.database.relation r).rules := by
  have relations : (relationBlocks m).filterMap (·.edge? dashed) = _ := edges_blocks dashed
  have actions : (actionBlocks m).filterMap (·.edge? dashed) = _ := edges_blocks dashed
  have both : (written m).filterMap (·.edge? dashed) =
      (relationBlocks m).filterMap (·.edge? dashed) ++
        (actionBlocks m).filterMap (·.edge? dashed) := List.filterMap_append
  rw [both, relations, actions]
  cases dashed <;> simp

section Text
variable {source target key : String} {db : Database}

theorem scan_arrow (rest : List Char) :
    scan (.bare []) (" -> ".toList ++ rest) = .mark '-' :: .mark '>' :: scan (.bare []) rest := rfl

theorem scan_edge (start : ¬Spills source) (finish : ¬Spills target) (style : String)
    (rest : List Char) :
    scan (.bare []) ((edge style source target).toList ++ rest) =
      .name source :: .mark '-' :: .mark '>' :: .name target ::
        scan (.bare []) (style.toList ++ (";\n".toList ++ rest)) := by
  simp only [edge, String.toList_append, List.append_assoc]
  rw [scan_indent, scan_node start, scan_arrow, scan_node finish]

theorem opens_edge (style source target : String) : Opens (edge style source target) source :=
  ((((opens_indented source).append " -> ").append (node target)).append style).append ";\n"

theorem reads_solid (start : ¬Spills source) (finish : ¬Spills target) :
    Reads (edge "" source target) [.edge source target []] := by
  intro rest
  rw [scan_edge start finish]
  rfl

theorem reads_dashed (start : ¬Spills source) (finish : ¬Spills target) :
    Reads (edge " [style=dashed]" source target) [.edge source target [("style", "dashed")]] := by
  intro rest
  rw [scan_edge start finish]
  rfl

/-- A line for a node, and one for each edge to it. -/
theorem faithful_block {head style : String} {look line : Attributes} {names : List String}
    (first : Faithful head [.node key look] (¬Spills key))
    (reads : ∀ {source}, ¬Spills source → ¬Spills key →
      Reads (edge style source key) [.edge source key line]) :
    Faithful (head ++ String.join (names.map fun source => edge style source key))
      (block look line key names) (¬Spills key ∧ ∀ source ∈ names, ¬Spills source) := by
  have edges (finish : ¬Spills key) :
      Faithful (String.join (names.map fun source => edge style source key))
        (names.flatMap fun source => [.edge source key line]) (∀ source ∈ names, ¬Spills source) :=
    Faithful.join fun source _ =>
      faithful_line (opens_edge style source key) rfl fun start => reads start finish
  rw [← List.map_eq_flatMap] at edges
  exact first.append edges

theorem faithful_relationText {relation : Relation} :
    Faithful (relationText db key relation)
      (block [("fillcolor", if relation.facts.isEmpty then "lightgray" else "lightblue"),
        ("style", "filled")] [] key (sources db relation.rules))
      (¬Spills key ∧ ∀ source ∈ sources db relation.rules, ¬Spills source) := by
  let color := if relation.facts.isEmpty then "lightgray" else "lightblue"
  have opens : Opens ("  " ++ node key ++ " [fillcolor=" ++ color ++ ", style=filled];\n") key :=
    (((opens_indented key).append " [fillcolor=").append color).append ", style=filled];\n"
  refine faithful_block (faithful_line opens rfl ?_) reads_solid
  intro here rest
  simp only [String.toList_append, List.append_assoc]
  rw [scan_indent, scan_node here]
  cases relation.facts.isEmpty <;> rfl

theorem faithful_actionText {action : Action} :
    Faithful (actionText db key action)
      (block [("shape", "ellipse"), ("fillcolor", "khaki"), ("style", "filled")]
        [("style", "dashed")] key (sources db action.rules))
      (¬Spills key ∧ ∀ source ∈ sources db action.rules, ¬Spills source) := by
  have opens :
      Opens ("  " ++ node key ++ " [shape=ellipse, fillcolor=khaki, style=filled];\n") key :=
    (opens_indented key).append " [shape=ellipse, fillcolor=khaki, style=filled];\n"
  refine faithful_block (faithful_line opens rfl ?_) reads_dashed
  intro here rest
  simp only [String.toList_append, List.append_assoc]
  rw [scan_indent, scan_node here]
  rfl

end Text
end Graph

namespace Machine
variable {m : Machine}

def Asks (m : Machine) (rules : List Rule) (key : String) : Prop :=
  ∃ rule ∈ rules, ∃ r ∈ rule.relations, m.relations.get? key = some r

/-- The statements draw the machine's rule graph: one box for each relation, one ellipse for each
action, and one edge from each relation that some rule asks to what it is a rule of, solid if that
is a relation and dashed if it is an action. -/
structure Drawn (m : Machine) (found : List Statement) : Prop where
  relations : found.filterMap (·.node? false) = m.relations.keys
  actions : found.filterMap (·.node? true) = m.actions.keys
  solid : ∀ source target, (source, target) ∈ found.filterMap (·.edge? false) ↔
    ∃ r, m.relations.get? target = some r ∧ m.Asks (m.database.relation r).rules source
  solidOnce : (found.filterMap (·.edge? false)).Nodup
  dashed : ∀ source target, (source, target) ∈ found.filterMap (·.edge? true) ↔
    ∃ action, m.actions.get? target = some action ∧ m.Asks action.rules source
  dashedOnce : (found.filterMap (·.edge? true)).Nodup

theorem mem_sources {rules : List Rule} {key : String} (consistent : m.Consistent)
    (asks : ∀ rule ∈ rules, m.AsksRegistered rule) :
    key ∈ Graph.sources m.database rules ↔ m.Asks rules key := by
  simp only [Graph.sources, mem_sortedNames, List.mem_map, List.mem_flatMap]
  constructor
  · rintro ⟨r, ⟨rule, inside, asked⟩, rfl⟩
    obtain ⟨condition, member, rfl⟩ := List.mem_map.mp asked
    exact ⟨rule, inside, condition.1, asked, asks rule inside condition member⟩
  · rintro ⟨rule, inside, r, asked, found⟩
    exact ⟨r, ⟨rule, inside, asked⟩, (consistent.relations key r found).2⟩

theorem Asks.mem_keys {rules : List Rule} {key : String} (asks : m.Asks rules key) :
    key ∈ m.relations.keys := by
  obtain ⟨_, _, r, _, found⟩ := asks
  rw [← m.relations.isSome_get?_iff, found, Option.isSome_some]

theorem Consistent.drawn (consistent : m.Consistent) : m.Drawn (Graph.written m) := by
  have once (rules : List Rule) : (Graph.sources m.database rules).Nodup := nodup_sortedNames _
  have solid : (Graph.written m).filterMap (·.edge? false) =
      Graph.edgesTo m.relations fun r => Graph.sources m.database (m.database.relation r).rules :=
    Graph.edges_written m false
  have dashed : (Graph.written m).filterMap (·.edge? true) =
      Graph.edgesTo m.actions fun action => Graph.sources m.database action.rules :=
    Graph.edges_written m true
  constructor
  case relations => exact Graph.nodes_written m false
  case actions => exact Graph.nodes_written m true
  case solid =>
    intro source target
    rw [solid]
    refine Graph.mem_edgesTo.trans (exists_congr fun r => and_congr_right fun _ => ?_)
    exact mem_sources consistent fun rule stored => (consistent.relationRules r rule stored).1
  case solidOnce =>
    rw [solid]
    exact Graph.nodup_edgesTo fun _ => once _
  case dashed =>
    intro source target
    rw [dashed]
    refine Graph.mem_edgesTo.trans (exists_congr fun action => and_congr_right fun found => ?_)
    exact mem_sources consistent fun rule stored =>
      (consistent.actionRules target action found rule stored).1
  case dashedOnce =>
    rw [dashed]
    exact Graph.nodup_edgesTo fun _ => once _

def Closed (m : Machine) : Prop := ∀ key ∈ m.relations.keys ++ m.actions.keys, ¬Spills key

instance (m : Machine) : Decidable m.Closed := inferInstanceAs (Decidable (∀ _ ∈ _, _))

/-- The text of a graph is read as what was written if each key is closed, and only then. -/
theorem read_graph (consistent : m.Consistent) :
    Dot.read (Graph.text m) = some (Graph.written m) ↔ m.Closed := by
  have asked {rules : List Rule} (asks : ∀ rule ∈ rules, m.AsksRegistered rule)
      (relations : ∀ key ∈ m.relations.keys, ¬Spills key) :
      ∀ source ∈ Graph.sources m.database rules, ¬Spills source := by
    intro source inside
    exact relations source ((mem_sources consistent asks).mp inside).mem_keys
  have relations : Faithful (String.join (m.relations.entries.map fun entry =>
      Graph.relationText m.database entry.1 (m.database.relation entry.2)))
      (Graph.relationBlocks m) _ := Faithful.join fun _ _ => Graph.faithful_relationText
  have actions : Faithful (String.join (m.actions.entries.map fun entry =>
      Graph.actionText m.database entry.1 entry.2)) (Graph.actionBlocks m) _ :=
    Faithful.join fun _ _ => Graph.faithful_actionText
  refine ((relations.append fun _ => actions).congr ?_).read_iff
  -- Edges start at relations that are registered, so they ask nothing that the nodes do not.
  have keys : m.Closed ↔
      (∀ entry ∈ m.relations.entries, ¬Spills entry.1) ∧
        ∀ entry ∈ m.actions.entries, ¬Spills entry.1 := by
    simp only [Closed, Table.keys, List.forall_mem_append, List.forall_mem_map]
  rw [keys]
  constructor
  · rintro ⟨first, second⟩
    exact ⟨fun entry inside => (first entry inside).1, fun entry inside => (second entry inside).1⟩
  · rintro ⟨first, second⟩
    have closed : ∀ key ∈ m.relations.keys, ¬Spills key := List.forall_mem_map.mpr first
    refine ⟨fun entry inside => ⟨first entry inside, asked ?_ closed⟩,
      fun entry inside => ⟨second entry inside, asked ?_ closed⟩⟩
    · exact fun rule stored => (consistent.relationRules entry.2 rule stored).1
    · have found := Table.get?_eq_some_iff.mpr inside
      exact fun rule stored => (consistent.actionRules entry.1 entry.2 found rule stored).1

/-- After any operations, the text of the graph is read as statements that draw the machine's rule
graph, unless a key ends in a backslash: then the text says something else or cannot be read. -/
theorem Reachable.graph_readable (reachable : m.Reachable) :
    m.Drawn (Graph.written m) ∧ (Dot.read (Graph.text m) = some (Graph.written m) ↔ m.Closed) :=
  ⟨reachable.consistent.drawn, read_graph reachable.consistent⟩

/-- Names with quotes and backslashes, also a backslash that stands before a quote. -/
def quotedText : String :=
  "+ \"a\" says \\ \"\n:: (x) says \\ \"\n    + heard \\\" (x)\n    * tell \\ n (x)\n" ++
    "        > print: (x)\n:: (y) says \\ \"\n    + heard \\\" (y)"

def quoted : Machine := ((load quotedText).run {}).2

theorem graph_readable_quoted : quoted.Closed ∧
    ∃ found, Dot.read (Graph.text quoted) = some found ∧ quoted.Drawn found := by
  have reachable : quoted.Reachable := ⟨false, false, 0, .load quotedText {}⟩
  have closed : quoted.Closed := by decide +kernel
  obtain ⟨drawn, readable⟩ := reachable.graph_readable
  exact ⟨closed, _, readable.mpr closed, drawn⟩

def spilling : Machine := ((load "+ a\\").run {}).2

/-- The backslash takes the quote that should close the name, and the name runs on to the end of the
text. -/
theorem spilling_unreadable : spilling.Reachable ∧ spilling.relations.keys = ["a\\"] ∧
    Dot.read (Graph.text spilling) = none :=
  ⟨⟨false, false, 0, .load "+ a\\" {}⟩, by decide +kernel, by decide +kernel⟩

end Machine
end Rulebook
