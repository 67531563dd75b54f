import Rulebook.Machine.Basic

/-! Claims. Claiming a fact first retracts the stored facts that the exclusions on its key rule out,
one exclusion after the other, and then adds it. -/
namespace Rulebook.Machine

/-- The arguments an exclusion is searched with: the claimed term at a flagged position, a fresh
variable at any other. -/
def exclusionArgs : List Term → List Bool → MachineM (List Term)
  | term :: terms, flag :: flags => do
    let arg ← if flag then pure term else mintVariable ""
    return arg :: (← exclusionArgs terms flags)
  | _, _ => return []

/-- Takes back one fact. -/
def retract (r : RelationId) (fact : List Term) : MachineM Unit := do
  modify fun m => { m with database := m.database.removeFact r fact }
  let name := (← get).database.nameOf r
  log ("[retract] " ++ name ++ " " ++ factText fact)
  record (.retracted name (fact.map Term.key))

/-- Retracts what one exclusion rules out beside the new fact. The facts are found before the first
of them goes. -/
def exclude (r : RelationId) (terms : List Term) (exclusion : Exclusion) : MachineM Unit := do
  let args ← exclusionArgs terms exclusion.bound
  let stored := ((← get).database.relation r).factsGoal args
  let found ← answers (.all [exclusion.rule.goal args "", stored])
  (found.map (·.reify args)).eraseDups.forM (retract r)

/-- Asserts a fact under a key. -/
def assert (key : String) (terms : List Term) (create : Bool) : MachineM Unit := do
  let r ← relationFor key create
  let exclusions := ((← get).exclusions.get? key).getD []
  exclusions.forM (exclude r terms)
  match (← get).database.addFact r terms with
  | .error fault => throw fault
  | .ok database =>
    modify fun m => { m with database }
    log ("[claim] " ++ key ++ " " ++ factText terms)
    record (.claimed key (terms.map Term.key))

/-- Claims a fact; a strict machine refuses a key that nothing declared. -/
def claim (fact : Phrase) : MachineM Unit := do
  assert fact.key fact.args (!(← get).strict)

end Rulebook.Machine
