import Rulebook.Action
import Rulebook.Database.Cycle
import Rulebook.Outline
import Rulebook.Search.Harvest

/-! The machine that rule files are loaded into: its relations and actions by key, what loading has
collected for them, and what has happened since. An operation may fail; what it did before it
failed stays done. -/
namespace Rulebook

/-- A new fact under `key` retracts the stored facts that the rule matches. The flagged positions
are taken from the new fact, the others match anything. -/
structure Exclusion where
  key : String
  rule : Rule
  bound : List Bool

/-- One thing that happened. -/
inductive Entry where
  | claimed (key : String) (values : List String)
  | retracted (key : String) (values : List String)
  | performed (key : String) (payload : String)
  deriving DecidableEq

structure Machine where
  /-- Print what is done. -/
  verbose : Bool := false
  /-- Refuse claims on keys that no loaded text declared. -/
  strict : Bool := false
  database : Database := {}
  /-- The next id of the one source of fresh variables, salts and payload ids. -/
  nextId : Int := 0
  relations : Table RelationId := .empty
  actions : Table Action := .empty
  /-- The lines that an action's payload runs. -/
  payloads : Table (List Line) := .empty
  exclusions : Table (List Exclusion) := .empty
  /-- The names of the registered callbacks. -/
  callbacks : List String := []
  history : List Entry := []
  /-- The actions whose payloads are running, outermost first. -/
  running : List String := []
  /-- What has been printed, each item a line or more. -/
  printed : List String := []

/-- An operation on the machine. -/
abbrev MachineM := ExceptT Fault (StateM Machine)

namespace Machine

/-- The machine's id source among the sources of its rules. -/
def source : SourceId := 0

def print (text : String) : MachineM Unit :=
  modify fun m => { m with printed := m.printed ++ [text] }

/-- Prints a message if the machine is verbose. -/
def log (message : String) : MachineM Unit := do
  if (← get).verbose then print ("  " ++ message)

def record (entry : Entry) : MachineM Unit :=
  modify fun m => { m with history := m.history ++ [entry] }

/-- Uses up the next id. -/
def mintId : MachineM Int := do
  let id := (← get).nextId
  modify fun m => { m with nextId := id + 1 }
  return id

/-- A variable that nothing refers to yet. -/
def mintVariable (hint : String) : MachineM Term := do
  return Naming.fresh (← mintId) hint

/-- The relation of a key, declared if it is not and may be. -/
def relationFor (key : String) (create : Bool) : MachineM RelationId := do
  let m ← get
  match m.relations.get? key with
  | some r => return r
  | none =>
    if create then
      let (r, database) := m.database.declare key
      set { m with database, relations := m.relations.put key r }
      return r
    else throw (.undeclaredRelation key)

/-- The action of a key, declared if it is not and may be. -/
def actionFor (key : String) (create : Bool) : MachineM Action := do
  let m ← get
  match m.actions.get? key with
  | some action => return action
  | none =>
    if create then
      let action : Action := { name := key }
      set { m with actions := m.actions.put key action }
      return action
    else throw (.undeclaredAction key)

/-- Asks a search for answers, over the relations as they are now. -/
def harvest (wanted : Option Nat) (search : Search) : MachineM Harvest := do
  let m ← get
  let found := search.harvest m.database wanted ⟨[m.nextId], []⟩
  set { m with nextId := found.progress.nextId source }
  match found.stop with
  | .failed fault => throw fault
  | .paused => throw .endlessSearch
  | .enough | .ended => return found

/-- All answers to a goal. -/
def answers (goal : Goal) : MachineM (List Substitution) := do
  return (← harvest none (.pending goal .empty)).answers

/-- The first answer to a goal; no more is searched. -/
def firstAnswer (goal : Goal) : MachineM (Option Substitution) := do
  return (← harvest (some 1) (.pending goal .empty)).answers.head?

end Machine
end Rulebook
