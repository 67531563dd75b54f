import Rulebook.Machine.Basic

/-! Questions to the machine. A question about a key that nothing declared is a mistake; any other
question has an answer, which may be that there is none. -/
namespace Rulebook

/-- An open question: what is left of its search, and the arguments its answers are given for. -/
structure Cursor where
  args : List Term
  search : Search

namespace Machine

/-- The goal of a question. -/
def goalOf (question : Phrase) : MachineM Goal := do
  return .query (← relationFor question.key false) question.args

/-- Does it hold? -/
def isTrue (question : Phrase) : MachineM Bool := do
  return (← firstAnswer (← goalOf question)).isSome

/-- The arguments as the first answer resolves them. -/
def values (question : Phrase) : MachineM (Option (List (Option String))) := do
  return (← firstAnswer (← goalOf question)).map (·.valuesOf question.args)

/-- Opens a question without searching yet. -/
def ask (question : Phrase) : MachineM Cursor := do
  return ⟨question.args, .pending (← goalOf question) .empty⟩

/-- The next answers to an open question, at most as many as wanted. -/
def pull (wanted : Option Nat) (cursor : Cursor) :
    MachineM (List (List (Option String)) × Cursor) := do
  let found ← harvest wanted cursor.search
  return (found.answers.map (·.valuesOf cursor.args), { cursor with search := found.rest })

/-- The answers to a question, at most `limit` of them. -/
def solutions (question : Phrase) (limit : Option Int) :
    MachineM (List (List (Option String))) := do
  let cursor ← ask question
  match limit with
  | none => return (← pull none cursor).1
  | some limit =>
    return (← pull (some (← Search.wantedOf limit)) cursor).1

end Machine
end Rulebook
