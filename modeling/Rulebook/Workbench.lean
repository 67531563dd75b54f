import Rulebook.Action
import Rulebook.Database.Cycle
import Rulebook.Search.Harvest

/-! A database built by hand, piece by piece and by name, without a rule file. A rule stays open on
the workbench: a condition added to it later counts wherever the rule has been put, so each
relation's copy is kept in step. Nothing guards against relations that depend on themselves this
way; a search that need not end gives up when its patience is used up. -/
namespace Rulebook

/-- A rule's place among the rules made so far. -/
abbrev RuleId := Nat

/-- An action whose rules are still open. -/
structure Draft where
  name : String
  entries : List (RuleId × String) := []

structure Workbench where
  database : Database := {}
  progress : Progress := {}
  sources : Table SourceId := .empty
  relations : Table RelationId := .empty
  /-- Every rule ever made, also those whose name is taken by a newer one. -/
  ruleList : List Rule := []
  rules : Table RuleId := .empty
  /-- Which rule stands at which place of which relation. -/
  uses : List (RuleId × RelationId × Nat) := []
  actions : Table Draft := .empty
  goals : Table Goal := .empty
  cursors : Table Search := .empty
  substitutions : Table Substitution := Table.empty.put "empty" .empty

/-- An operation on the workbench. -/
abbrev WorkbenchM := ExceptT Fault (StateM Workbench)

namespace Workbench

/-- The steps after which a search that need not end is given up. -/
def patience : Nat := 4000000000000000000

/-- What a table holds under a name. -/
def held (table : Table α) (name : String) : WorkbenchM α :=
  match table.get? name with
  | some value => pure value
  | none => throw (.unknownName name)

/-- Makes an id source, or replaces the one of this name; rules keep the source they have. -/
def makeSource (name : String) (start : Int) : WorkbenchM SourceId := do
  let w ← get
  let source := w.progress.nextIds.length
  set { w with
    progress := { w.progress with nextIds := w.progress.nextIds ++ [start] }
    sources := w.sources.put name source }
  return source

/-- The source of a name, made at its first use. -/
def sourceOf (name : String) : WorkbenchM SourceId := do
  match (← get).sources.get? name with
  | some source => return source
  | none => makeSource name 0

/-- Uses up the next id of a source. -/
def mintId (name : String) : WorkbenchM Int := do
  let source ← sourceOf name
  let id := (← get).progress.nextId source
  modify fun w => { w with progress := w.progress.advance source }
  return id

/-- Makes a relation, or replaces the one of this name; rules keep the relation they ask. -/
def makeRelation (name : String) : WorkbenchM Unit :=
  modify fun w =>
    let (r, database) := w.database.declare name
    { w with database, relations := w.relations.put name r }

def relationId (name : String) : WorkbenchM RelationId := do held (← get).relations name

def relation (name : String) : WorkbenchM Relation := do
  let r ← relationId name
  return (← get).database.relation r

def ruleId (name : String) : WorkbenchM RuleId := do held (← get).rules name

def ruleAt (w : Workbench) (id : RuleId) : Rule := w.ruleList[id]?.getD { params := [] }

def rule (name : String) : WorkbenchM Rule := do
  let id ← ruleId name
  return (← get).ruleAt id

/-- The names of the relations that a rule asks. -/
def askedBy (rule : Rule) : WorkbenchM (List String) := do
  return rule.relations.map (← get).database.nameOf

/-- Makes a rule; with a source its variables are renamed at each use. -/
def makeRule (name : String) (params : List Term) (conditions : List (String × List Term))
    (source : Option String) : WorkbenchM Rule := do
  let source ← source.mapM sourceOf
  let conditions ← conditions.mapM fun (relation, args) => do
    return (← relationId relation, args)
  let rule : Rule := { params, conditions, source }
  modify fun w =>
    { w with ruleList := w.ruleList ++ [rule], rules := w.rules.put name w.ruleList.length }
  return rule

/-- Puts the present form of a rule at each place where it stands. -/
def refresh (id : RuleId) (rule : Rule) (uses : List (RuleId × RelationId × Nat))
    (db : Database) : Database :=
  uses.foldl (fun db (used, r, place) =>
    if used = id then
      let relation := db.relation r
      db.set r { relation with rules := relation.rules.set place rule }
    else db) db

/-- Adds a condition to a rule, wherever it stands. -/
def addCondition (name relation : String) (args : List Term) : WorkbenchM Rule := do
  let id ← ruleId name
  let extended := (← rule name).addCondition (← relationId relation) args
  modify fun w =>
    { w with
      ruleList := w.ruleList.set id extended
      database := refresh id extended w.uses w.database }
  return extended

/-- Adds a fact and gives the number of facts there are then. -/
def addFact (name : String) (fact : List Term) : WorkbenchM Nat := do
  let r ← relationId name
  match (← get).database.addFact r fact with
  | .error fault => throw fault
  | .ok database =>
    modify fun w => { w with database }
    return (database.relation r).facts.length

/-- Removes a fact and gives the number of facts that went. -/
def removeFact (name : String) (fact : List Term) : WorkbenchM Nat := do
  let r ← relationId name
  let count := fun w : Workbench => (w.database.relation r).facts.length
  let before := count (← get)
  modify fun w => { w with database := w.database.removeFact r fact }
  return before - count (← get)

/-- The names along the path that adding a rule would close. -/
def findCycle (relation name : String) : WorkbenchM (Option (List String)) := do
  let r ← relationId relation
  let rule ← rule name
  let db := (← get).database
  return (db.findCycle r rule).map (·.map db.nameOf)

/-- Adds a rule to a relation and gives the number of rules there are then. -/
def addRule (relation name : String) : WorkbenchM Nat := do
  let r ← relationId relation
  let id ← ruleId name
  let w ← get
  let place := (w.database.relation r).rules.length
  match w.database.addRule r (w.ruleAt id) with
  | .error fault => throw fault
  | .ok database =>
    set { w with database, uses := w.uses ++ [(id, r, place)] }
    return (database.relation r).rules.length

def makeAction (name : String) : WorkbenchM Unit :=
  modify fun w => { w with actions := w.actions.put name { name } }

/-- An action with its rules as they are now. -/
def action (name : String) : WorkbenchM Action := do
  let w ← get
  let draft ← held w.actions name
  return ⟨draft.name, draft.entries.map fun (id, payload) => (w.ruleAt id, payload)⟩

def addPayload (name rule payload : String) : WorkbenchM Action := do
  let draft ← held (← get).actions name
  let id ← ruleId rule
  let draft := { draft with entries := draft.entries ++ [(id, payload)] }
  modify fun w => { w with actions := w.actions.put name draft }
  action name

/-- A query of a relation. -/
def queryGoal (relation : String) (args : List Term) : WorkbenchM Goal := do
  return .query (← relationId relation) args

/-- Matches the facts that a relation has now. -/
def factsGoal (name : String) (args : List Term) : WorkbenchM Goal := do
  return (← relation name).factsGoal args

/-- A use of a rule; its salt is minted now. -/
def ruleGoal (name : String) (args : List Term) : WorkbenchM Goal := do
  let rule ← rule name
  let w ← get
  let (goal, progress) := rule.use args w.progress
  set { w with progress }
  return goal

/-- The payloads of an action, for `out`; the salts are minted now. -/
def actionGoal (name : String) (args : List Term) (out : Term) : WorkbenchM Goal := do
  let action ← action name
  let w ← get
  let (goal, progress) := action.goal args out w.progress
  set { w with progress }
  return goal

def keepGoal (name : String) (goal : Goal) : WorkbenchM Unit :=
  modify fun w => { w with goals := w.goals.put name goal }

def namedGoal (name : String) : WorkbenchM Goal := do held (← get).goals name

/-- A goal as a report shows it. -/
def goalText (goal : Goal) : WorkbenchM String := do
  return goal.text (← get).database.nameOf

/-- The substitution of a name; without a name, the empty one. -/
def substitution (name : Option String) : WorkbenchM Substitution := do
  match name with
  | none => return .empty
  | some name => held (← get).substitutions name

/-- Keeps a substitution under a name, if there are both. -/
def keep (name : Option String) (s : Option Substitution) : WorkbenchM Unit :=
  match name, s with
  | some name, some s => modify fun w => { w with substitutions := w.substitutions.put name s }
  | _, _ => pure ()

/-- Asks a search for answers, and gives what is left of it. A search that is sure to end is
followed to its end. -/
def harvest (wanted : Option Nat) (search : Search) : WorkbenchM Harvest := do
  let w ← get
  let found :=
    if w.database.isLayered && search.isFinite then search.harvest w.database wanted w.progress
    else search.harvestWithin w.database patience wanted w.progress
  set { w with progress := found.progress }
  return found

/-- The answers of a harvest, unless it failed. -/
def answersOf (found : Harvest) : WorkbenchM (List Substitution) :=
  match found.stop with
  | .failed fault => throw fault
  | .paused => throw .endlessSearch
  | .enough | .ended => return found.answers

/-- At most `limit` answers to a goal. The search is opened before the limit is looked at. -/
def run (goal : Goal) (s : Substitution) (limit : Option Int) :
    WorkbenchM (List Substitution) := do
  let search ← Search.start goal s
  match limit with
  | none => answersOf (← harvest none search)
  | some limit =>
    answersOf (← harvest (some (← Search.wantedOf limit)) search)

/-- The first answer to a goal. -/
def first (goal : Goal) (s : Substitution) : WorkbenchM (Option Substitution) := do
  return (← run goal s (some 1)).head?

/-- The payload of the first rule of an action that holds. -/
def payloadFor (name : String) (args : List Term) (source : String) :
    WorkbenchM (Option String) := do
  let _ ← action name
  let out := Naming.fresh (← mintId source) "outcome"
  let goal ← actionGoal name args out
  return (← first goal .empty).map fun s => (s.walk out).key

/-- Opens a search under a name. -/
def openSearch (name : String) (goal : Goal) (s : Substitution) : WorkbenchM Unit := do
  let search ← Search.start goal s
  modify fun w => { w with cursors := w.cursors.put name search }

/-- The next answers of an open search, at most `limit` of them. -/
def next (name : String) (limit : Int) : WorkbenchM (List Substitution) := do
  let search ← held (← get).cursors name
  let found ← harvest (some (← Search.wantedOf limit)) search
  modify fun w => { w with cursors := w.cursors.put name found.rest }
  answersOf found

/-- The events that searches reported since the last time, taken off the workbench. -/
def takeEvents : WorkbenchM (List Event) := do
  let events := (← get).progress.events
  modify fun w => { w with progress := { w.progress with events := [] } }
  return events

end Workbench
end Rulebook
