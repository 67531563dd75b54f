import Rulebook.Machine.Claim

/-! Loading. A claim at the top is a fact. A claim further down holds while the conditions above it
do, nearest first, so it is a rule of its relation. An action keeps the lines under it as its
payload, and an exclusion keeps its rule for later claims. Rules of relations rename their
variables; those of actions and exclusions do not, because payloads and retractions read the
variables that the conditions bound. -/
namespace Rulebook.Machine

/-- The conditions among the lines above, nearest first. -/
def conditionsOf (above : List Line) : List Line := above.filter (·.kind == .condition)

/-- A rule with the conditions above a line; their relations are declared. -/
def ruleUnder (above : List Line) (params : List Term) (source : Option SourceId) :
    MachineM Rule := do
  let conditions ← (conditionsOf above).mapM fun condition => do
    return (← relationFor condition.phrase.key true, condition.phrase.args)
  return { params, conditions, source }

/-- Loads a claim that has lines above it. -/
def loadRule (above : List Line) (line : Line) : MachineM Unit := do
  let r ← relationFor line.phrase.key true
  let rule ← ruleUnder above line.phrase.args (some source)
  match (← get).database.addRule r rule with
  | .error fault => throw fault
  | .ok database =>
    modify fun m => { m with database }
    log ("[rule] " ++ line.content ++ " (" ++ toString rule.conditions.length ++ " conditions)")

/-- Loads an action with its payload. The lines of a payload are run, not loaded, but the claims
among them declare their relations. -/
def loadAction (above : List Line) (line : Line) (payload : List Line) : MachineM Unit := do
  let key := line.phrase.key
  let action ← actionFor key true
  let rule ← ruleUnder above line.phrase.args none
  let id := Naming.payload (← mintId)
  modify fun m =>
    { m with
      actions := m.actions.put key (action.add rule id)
      payloads := m.payloads.put id payload }
  log ("[action] " ++ line.content ++ " -> " ++ id)
  (payload.filter (·.kind == .claim)).forM fun claim => do
    let _ ← relationFor claim.phrase.key true

/-- Loads an exclusion. A position is flagged if a condition above has a token of the same text. -/
def loadExclusion (above : List Line) (line : Line) : MachineM Unit := do
  let key := line.phrase.key
  let _ ← relationFor key true
  let rule ← ruleUnder above line.phrase.args none
  let named := (conditionsOf above).flatMap fun condition => condition.phrase.args.map Term.key
  let exclusion : Exclusion :=
    { key, rule, bound := line.phrase.args.map fun term => named.contains term.key }
  modify fun m =>
    { m with exclusions :=
        m.exclusions.put key (((m.exclusions.get? key).getD []) ++ [exclusion]) }
  log ("[exclusion] " ++ line.content)

mutual

/-- Loads a block under the lines above it, nearest first. -/
def loadBlock (above : List Line) : Block → MachineM Unit
  | ⟨line, children⟩ =>
    match line.kind with
    | .action => loadAction above line (children.map (·.line))
    | .claim => do
      if above.isEmpty then assert line.phrase.key line.phrase.args true
      else loadRule above line
      loadBlocks (line :: above) children
    | .exclusion => do
      loadExclusion above line
      loadBlocks (line :: above) children
    | _ => loadBlocks (line :: above) children

def loadBlocks (above : List Line) : List Block → MachineM Unit
  | [] => pure ()
  | block :: blocks => do
    loadBlock above block
    loadBlocks above blocks

end

/-- Loads a text. -/
def load (text : String) : MachineM Unit := loadBlocks [] (outline text)

/-- Loads the contents of a text file. -/
def loadFile (contents : String) : MachineM Unit := load (Text.fileContents contents)

/-- Loads blocks from inside a text, each with the lines above it there. Nothing is loaded unless
all of them are there. -/
def loadAt (text : String) (paths : List (List Int)) : MachineM Unit := do
  let found ← (paths.mapM (blockAt text) : Except Fault _)
  found.forM fun (above, block) => loadBlock above block

end Rulebook.Machine
