import Rulebook.Graph
import Rulebook.Machine.Load
import Rulebook.Machine.Perform
import Rulebook.Machine.Query
import Rulebook.Report

/-! Sessions: sequences of commands to one machine, among them scripts for callbacks. A scripted
callback gives its commands to the same machine while the action that called it is running. Every
step is reported with what it answered, printed, called and recorded. -/
namespace Rulebook

inductive Command where
  | load (text : String)
  | loadFile (contents : String)
  | loadAt (text : String) (paths : List (List Int))
  | claim (fact : Phrase)
  | isTrue (question : Phrase)
  | values (question : Phrase)
  | solutions (question : Phrase) (limit : Option Int)
  /-- Opens a question under a name. -/
  | ask (name : String) (question : Phrase)
  /-- Takes answers from an open question. -/
  | next (name : String) (limit : Int)
  | perform (action : Phrase)
  /-- Registers a callback that only notes its calls. -/
  | noting (callback : String)
  /-- Registers a callback that also runs commands, going on after a fault if it catches. -/
  | scripted (callback : String) (body : List Command) (catches : Bool)
  | callbackNames
  /-- Registers a noting callback under every name that a payload calls. -/
  | noteAll
  | nextId
  /-- Forgets the relation of a key; rules and open questions keep it. -/
  | forget (key : String)
  | showRelation (key : String) (create : Bool)
  | showAction (key : String) (create : Bool)
  | printState
  | printHistory
  | graph
  | snapshot

namespace Command

/-- The number of lines in a text, blank ones too. -/
def lineCount (text : String) : Nat := (Text.splitLines text.toList).length

mutual

/-- A bound on the actions with payloads that a command can add, itself or through callbacks. -/
def actionBound : Command → Nat
  | load text => lineCount text
  | loadFile contents => lineCount (Text.fileContents contents)
  | loadAt text _ => lineCount text
  | scripted _ body _ => actionBounds body
  | _ => 0

def actionBounds : List Command → Nat
  | [] => 0
  | command :: commands => command.actionBound + actionBounds commands

end

end Command

inductive Answer where
  | done
  | truth (holds : Bool)
  | values (values : Option (List (Option String)))
  | solutions (found : List (List (Option String)))
  | names (names : List String)
  | id (id : Int)
  | text (text : String)
  | snapshot (machine : Machine)

/-- One call of a callback; a scripted one has the answers to its commands so far. -/
structure Call where
  name : String
  values : List (Option String)
  did : Option (List (Except Fault Answer))

structure Script where
  body : List Command
  catches : Bool

/-- What a session keeps beside the machine. -/
structure Desk where
  scripts : Table Script := {}
  cursors : Table Cursor := {}
  calls : List Call := []

abbrev SessionM := HostM Desk

namespace Session

def changeDesk (change : Desk → Desk) : SessionM Unit := modify fun (m, desk) => (m, change desk)

def printAll (lines : List String) : SessionM Unit := HostM.machine (lines.forM Machine.print)

/-- Notes a call and gives its place among the calls. -/
def noteCall (call : Call) : SessionM Nat := do
  let place := (← get).2.calls.length
  changeDesk fun desk => { desk with calls := desk.calls ++ [call] }
  return place

/-- Adds an answer to the call at a place. -/
def noteAnswer (place : Nat) (answer : Except Fault Answer) : SessionM Unit :=
  changeDesk fun desk =>
    { desk with calls := desk.calls.modify place fun call =>
        { call with did := call.did.map (· ++ [answer]) } }

/-- Gives commands in turn and notes their answers at a call. The first fault ends them, unless the
script catches. -/
def runScript (execute : Command → SessionM Answer) (place : Nat) (catches : Bool) :
    List Command → SessionM Unit
  | [] => pure ()
  | command :: commands => do
    let answer ← HostM.outcome (execute command)
    noteAnswer place answer
    match answer with
    | .error fault => if !catches then throw fault
    | .ok _ => pure ()
    runScript execute place catches commands

/-- Calls a callback. -/
def callWith (execute : Command → SessionM Answer) (name : String)
    (values : List (Option String)) : SessionM Unit := do
  match (← get).2.scripts.get? name with
  | none =>
    let _ ← noteCall { name, values, did := none }
  | some script =>
    let place ← noteCall { name, values, did := some [] }
    runScript execute place script.catches script.body

/-- Registers a callback that only notes its calls. -/
def registerNoting (name : String) : SessionM Unit := do
  HostM.machine (Machine.addCallback name)
  changeDesk fun desk => { desk with scripts := desk.scripts.erase name }

/-- Runs one command. The number bounds how deep callbacks and actions call each other. -/
def execute : Nat → Command → SessionM Answer
  | 0, _ => throw .tooDeep
  | depth + 1, command =>
    match command with
    | .load text => do HostM.machine (Machine.load text); return .done
    | .loadFile contents => do HostM.machine (Machine.loadFile contents); return .done
    | .loadAt text paths => do HostM.machine (Machine.loadAt text paths); return .done
    | .claim fact => do HostM.machine (Machine.claim fact); return .done
    | .isTrue question => do return .truth (← HostM.machine (Machine.isTrue question))
    | .values question => do return .values (← HostM.machine (Machine.values question))
    | .solutions question limit => do
      return .solutions (← HostM.machine (Machine.solutions question limit))
    | .ask name question => do
      let cursor ← HostM.machine (Machine.ask question)
      changeDesk fun desk => { desk with cursors := desk.cursors.put name cursor }
      return .done
    | .next name limit => do
      match (← get).2.cursors.get? name with
      | none => throw (.unknownName name)
      | some cursor =>
        let wanted ← Search.wantedOf limit
        let (found, cursor) ← HostM.machine (Machine.pull (some wanted) cursor)
        changeDesk fun desk => { desk with cursors := desk.cursors.put name cursor }
        return .solutions found
    | .perform action => do
      return .truth (← Machine.performTo (depth + 1) (callWith (execute depth)) action)
    | .noting callback => do registerNoting callback; return .done
    | .scripted callback body catches => do
      HostM.machine (Machine.addCallback callback)
      changeDesk fun desk => { desk with scripts := desk.scripts.put callback ⟨body, catches⟩ }
      return .done
    | .callbackNames => do return .names (← HostM.machine Machine.callbackNames)
    | .noteAll => do
      let names ← HostM.machine Machine.callbackNames
      names.forM registerNoting
      return .names names
    | .nextId => do return .id (← HostM.machine Machine.mintId)
    | .forget key => do
      if ((← get).1.relations.get? key).isNone then throw (.unknownName key)
      HostM.machine (modify fun m => { m with relations := m.relations.erase key })
      return .done
    | .showRelation key create => do
      let r ← HostM.machine (Machine.relationFor key create)
      return .text ((← get).1.database.relation r).text
    | .showAction key create => do
      return .text (← HostM.machine (Machine.actionFor key create)).text
    | .printState => do printAll (Report.stateLines (← get).1); return .done
    | .printHistory => do printAll (Report.historyLines (← get).1); return .done
    | .graph => do
      printAll [Graph.exportMessage "graph.dot"]
      return .text (Graph.text (← get).1)
    | .snapshot => do return .snapshot (← get).1

/-- What one command of a session led to. -/
structure Step where
  answer : Except Fault Answer
  printed : List String
  calls : List Call
  entries : List Entry

/-- Runs commands one after the other, whatever became of the ones before. -/
def runWithin (depth : Nat) : List Command → Machine × Desk → List Step × Machine
  | [], (m, _) => ([], m)
  | command :: commands, (m, desk) =>
    let (answer, (after, desk)) := (execute depth command).run (m, { desk with calls := [] })
    let step : Step :=
      { answer, printed := after.printed.drop m.printed.length, calls := desk.calls,
        entries := after.history.drop m.history.length }
    let (steps, last) := runWithin depth commands (after, desk)
    (step :: steps, last)

/-- Runs a session on a machine. Each action that is entered inside another needs an action line
of its own, which bounds the nesting. -/
def run (m : Machine) (commands : List Command) : List Step × Machine :=
  runWithin (m.actions.size + Command.actionBounds commands + 2) commands (m, {})

end Session
end Rulebook
