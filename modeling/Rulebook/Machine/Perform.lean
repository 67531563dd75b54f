import Rulebook.Machine.Claim

/-! Performing actions. The payload of the first rule that holds is run line by line, under the
variables that the rule's conditions bound: callbacks are called, claims are made, actions are
performed in turn. An action that is running cannot be reached again.

Callbacks belong to a host, which keeps a state of its own beside the machine; a callback may use
the machine, and so perform actions in turn. -/
namespace Rulebook

/-- An operation on the machine and on what its host keeps. -/
abbrev HostM (host : Type) := ExceptT Fault (StateM (Machine × host))

namespace HostM
variable {host α : Type}

/-- An operation on the machine alone. -/
def machine (operation : MachineM α) : HostM host α :=
  fun (m, h) => let (result, m) := operation.run m; (result, (m, h))

/-- The outcome of an operation as a value. -/
def outcome (operation : HostM host α) : HostM host (Except Fault α) :=
  fun s => let (result, s) := operation.run s; (.ok result, s)

/-- Changes the machine after an operation, also after one that failed. -/
def afterwards (operation : HostM host α) (change : Machine → Machine) : HostM host α :=
  fun s => let (result, (m, h)) := operation.run s; (result, (change m, h))

end HostM

namespace Machine
variable {host : Type}

/-- Resolves terms; what is still open becomes a fresh variable, one for each name. -/
def resolveFresh (s : Substitution) : List Term → Table Term → MachineM (List Term)
  | [], _ => return []
  | term :: terms, renamed =>
    match s.walk term with
    | .lit value => do return .lit value :: (← resolveFresh s terms renamed)
    | .var name =>
      match renamed.get? name with
      | some new => do return new :: (← resolveFresh s terms renamed)
      | none => do
        let new ← mintVariable name
        return new :: (← resolveFresh s terms (renamed.put name new))

/-- Refuses an action that is running. -/
def refuseRunning (name : String) : MachineM Unit := do
  let running := (← get).running
  if name ∈ running then
    throw (.recursiveAction (running.dropWhile (· != name) ++ [name]))

/-- The answer under which an action's first rule holds, and its payload. -/
def choosePayload (action : Action) (args : List Term) :
    MachineM (Option (String × Substitution)) := do
  let out ← mintVariable "outcome"
  let m ← get
  let (goal, p) := action.goal args out ⟨[m.nextId], []⟩
  set { m with nextId := p.nextId source }
  match ← firstAnswer goal with
  | none =>
    log ("[action] " ++ action.name ++ ": no rule holds")
    return none
  | some s =>
    let payload := (s.walk out).key
    log ("[action] " ++ action.name ++ " -> " ++ payload)
    record (.performed action.name payload)
    return some (payload, s)

/-- Runs one line of a payload. `nested` performs an action that the line names. -/
def dispatch (call : String → List (Option String) → HostM host Unit)
    (nested : Action → List Term → HostM host Bool) (s : Substitution) (line : Line) :
    HostM host Unit :=
  match line.kind with
  | .callback => do
    let name ← HostM.machine line.callbackName
    if name ∉ (← get).1.callbacks then throw (.unregisteredCallback name)
    call name (s.valuesOf line.phrase.args)
  | .claim => HostM.machine do
    let args ← resolveFresh s line.phrase.args {}
    assert line.phrase.key args (!(← get).strict)
  | .action => do
    let action ← HostM.machine (actionFor line.phrase.key false)
    let args ← HostM.machine (resolveFresh s line.phrase.args {})
    let _ ← nested action args
  | _ => pure ()

/-- Performs an action; false if none of its rules holds. The number bounds how deep actions
nest. -/
def performWithin (call : String → List (Option String) → HostM host Unit) :
    Nat → Action → List Term → HostM host Bool
  | 0, _, _ => throw .tooDeep
  | depth + 1, action, args => do
    HostM.machine (refuseRunning action.name)
    match ← HostM.machine (choosePayload action args) with
    | none => return false
    | some (payload, s) =>
      HostM.machine (modify fun m => { m with running := m.running ++ [action.name] })
      let lines := ((← get).1.payloads.get? payload).getD []
      HostM.afterwards
        (lines.forM (dispatch call (performWithin call depth) s))
        fun m => { m with running := m.running.dropLast }
      return true

/-- Performs the action that a phrase names. -/
def performTo (depth : Nat) (call : String → List (Option String) → HostM host Unit)
    (phrase : Phrase) : HostM host Bool := do
  let action ← HostM.machine (actionFor phrase.key false)
  performWithin call depth action phrase.args

/-- Performs an action whose callbacks leave the machine alone. As no action runs inside itself,
they nest no deeper than there are actions. -/
def perform (call : String → List (Option String) → HostM host Unit) (phrase : Phrase) :
    HostM host Bool := do
  performTo ((← get).1.actions.size + 1) call phrase

/-- Registers a callback; the host knows what it does. -/
def addCallback (name : String) : MachineM Unit :=
  modify fun m => if name ∈ m.callbacks then m else { m with callbacks := m.callbacks ++ [name] }

/-- The names of the callbacks that payloads call, in code-point order. -/
def callbackNames : MachineM (List String) := do
  let lines := (← get).payloads.values.flatten.filter (·.kind == .callback)
  return sortedNames (← lines.mapM fun line => line.callbackName)

end Machine
end Rulebook
