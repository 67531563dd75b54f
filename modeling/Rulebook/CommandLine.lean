import Rulebook.CommandLine.Options
import Rulebook.FileTree
import Rulebook.Graph
import Rulebook.Machine.Load
import Rulebook.Machine.Perform
import Rulebook.Machine.Query
import Rulebook.Report

/-! The command line as a function from the words and the files to what is printed and written.
Errors of the rule program are reported and end the run with status 1; wrong usage ends it with
status 2; a missing file, and a callback line without a name, are not caught. -/
namespace Rulebook.CommandLine

/-- How a run ended. -/
inductive Ending where
  | exited (status : Nat)
  | escaped (fault : Fault)
  deriving DecidableEq

/-- What a run needs to know of the files. -/
structure Disk where
  /-- The contents of the file that a path leads to. -/
  read : String → Except Fault String
  /-- Can a file be written where a path leads? -/
  admits : String → Except Fault Unit

/-- A disk that holds a tree of files. -/
def Disk.ofTree (tree : FileTree) : Disk where
  read := tree.read
  admits path := (tree.write path "").map fun _ => ()

structure Result where
  ending : Ending
  stdout : String := ""
  stderr : String := ""
  /-- The path of the file that is written, and what is written to it. -/
  written : Option (String × String) := none
  deriving DecidableEq

/-- The callback of every payload line: shows its name and its values. -/
def echo (name : String) (values : List (Option String)) : HostM Unit Unit :=
  let shown := values.map fun value => value.elim "?" Text.quoted
  HostM.machine (Machine.print ("  > " ++ name ++ "(" ++ ", ".intercalate shown ++ ")"))

/-- The text that an option was given for; an option may come without one. -/
def given : Option String → Except Fault String
  | some text => .ok text
  | none => .error .missingText

/-- Loads the sample, or else the file. -/
def loadRules (options : Options) (disk : Disk) : MachineM Unit :=
  match options.sample with
  | some sample => do
    Machine.print ("Sample: " ++ sample.name ++ " -- " ++ sample.description)
    Machine.load sample.text
  | none => do
    let path ← given options.file
    Machine.loadFile (← disk.read path)
    Machine.print ("Loaded " ++ path)

/-- Performs an action under a heading, and says so if none of its rules holds. The heading of an
option without a text is an empty list. -/
def performShown (text : Option String) : MachineM Unit := do
  Machine.print ("\n* " ++ text.getD "[]")
  let text ← given text
  let m ← get
  let (result, (m, _)) := (Machine.perform echo (.ofText text)).run (m, ())
  set m
  if !(← result) then Machine.print "  (no rule holds)"

/-- The claims and actions of the sample, and then those of the options. -/
def runProgram (options : Options) : MachineM Unit := do
  let claims := ((options.sample.map (·.claims)).getD []).map some ++ options.claims
  let actions := ((options.sample.map (·.actions)).getD []).map some ++ options.actions
  claims.forM fun text => do Machine.claim (.ofText (← given text))
  actions.forM performShown

/-- Answers one question, or says why there is no answer. -/
def answer (text : String) : MachineM Unit := do
  let reply ← tryCatch
    (do return if ← Machine.isTrue (.ofText text) then "yes" else "no")
    fun fault =>
      match fault with
      | .undeclaredRelation _ => return fault.message
      | _ => throw fault
  Machine.print ("  " ++ text ++ ": " ++ reply)

/-- The reports and answers after the run. -/
def reportAll (options : Options) : MachineM Unit := do
  if !options.quiet then
    (Report.stateLines (← get)).forM Machine.print
    (Report.historyLines (← get)).forM Machine.print
  let queries := ((options.sample.map (·.queries)).getD []).map some ++ options.queries
  if !queries.isEmpty then
    Machine.print Report.opening
    Machine.print "Queries:"
    queries.forM fun text => do answer (← given text)
    Machine.print Report.ruler

/-- Writes the graph, if a file is named for it. -/
def exportGraph (options : Options) (disk : Disk) : MachineM (Option (String × String)) := do
  match options.dot with
  | none | some "" => return none
  | some path =>
    disk.admits path
    let text := Graph.text (← get)
    Machine.print (Graph.exportMessage path)
    return some (path, text)

/-- What has been printed so far. -/
def printedText (m : Machine) : String := String.join (m.printed.map (· ++ "\n"))

/-- The end of a stage that failed: under its label, if it has one and the error is the rule
program's. -/
def failure (label : Option String) (fault : Fault) (m : Machine) : Result :=
  match label with
  | some label =>
    if fault.isProgramError then
      { ending := .exited 1, stdout := printedText m
        stderr := label ++ ": " ++ fault.message ++ "\n" }
    else { ending := .escaped fault, stdout := printedText m }
  | none => { ending := .escaped fault, stdout := printedText m }

/-- Runs stages in turn, up to the first that fails. -/
def runStages : List (Option String × MachineM Unit) → Machine → Except Result Machine
  | [], m => .ok m
  | (label, stage) :: stages, m =>
    match stage.run m with
    | (.ok (), m) => runStages stages m
    | (.error fault, m) => .error (failure label fault m)

/-- Runs what the options ask for. -/
def runOptions (options : Options) (disk : Disk) : Result :=
  let register : MachineM Unit := do (← Machine.callbackNames).forM Machine.addCallback
  let stages := [(some "Error loading rules", loadRules options disk), (none, register),
    (some "Error", runProgram options), (none, reportAll options)]
  match runStages stages { verbose := !options.quiet, strict := options.strict } with
  | .error result => result
  | .ok m =>
    match (exportGraph options disk).run m with
    | (.ok written, m) => { ending := .exited 0, stdout := printedText m, written }
    | (.error fault, m) => failure none fault m

def usage : String :=
  "usage: rulebook [FILE] [--sample NAME] [--claim TEXT] [--action TEXT] [--query TEXT]\n" ++
  "                [--dot FILE] [--strict] [--quiet]\n"

/-- Runs a command line. -/
def run (words : List String) (disk : Disk) : Result :=
  match Request.ofWords words with
  | .run options => runOptions options disk
  | .help => { ending := .exited 0, stdout := usage }
  | .misuse => { ending := .exited 2, stderr := usage }

end Rulebook.CommandLine
