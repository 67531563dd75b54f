import Rulebook.Search.Ending

/-! Asking a search for answers, so many at most. What is left of the search is part of the result,
so asking can go on later. A search over layered relations and without streams is followed to its
end; any other one only for a number of steps. -/
namespace Rulebook

/-- Why the asking stopped. -/
inductive Stop where
  | enough
  | ended
  | failed (fault : Fault)
  /-- The search was given up before it ended. -/
  | paused

structure Harvest where
  answers : List Substitution
  rest : Search
  stop : Stop
  progress : Progress

/-- Puts an answer before the others. -/
def Harvest.cons (s : Substitution) (more : Harvest) : Harvest :=
  { more with answers := s :: more.answers }

namespace Search

/-- The largest number of answers that can be asked for. -/
def largestLimit : Nat := 9223372036854775807

/-- How many answers a limit allows. It must be neither negative nor beyond the largest. -/
def wantedOf (limit : Int) : Except Fault Nat :=
  if limit < 0 ∨ limit > largestLimit then .error .limitOutOfRange else .ok limit.toNat

/-- Collects answers for so many steps, at most as many answers as wanted, all without a number.
Nothing is done for an answer that is not wanted. -/
def harvestWithin (db : Database) : Nat → Option Nat → Search → Progress → Harvest
  | _, some 0, search, p => ⟨[], search, .enough, p⟩
  | 0, _, search, p => ⟨[], search, .paused, p⟩
  | steps + 1, wanted, search, p =>
    match search.step db p with
    | (.working rest, p) => harvestWithin db steps wanted rest p
    | (.ended, p) => ⟨[], .ended, .ended, p⟩
    | (.failed fault, p) => ⟨[], .ended, .failed fault, p⟩
    | (.answer s rest, p) => (harvestWithin db steps (wanted.map (· - 1)) rest p).cons s

/-- Collects answers from a search that ends. -/
def harvestEnding (db : Database) (layered : db.isLayered) (wanted : Option Nat)
    (search : Search) (finite : search.isFinite) (p : Progress) : Harvest :=
  match wanted with
  | some 0 => ⟨[], search, .enough, p⟩
  | wanted =>
    match stepped : search.step db p with
    | (.working rest, p) =>
      have lower := working_lowers (db.weighs_weightOf layered) finite stepped
      harvestEnding db layered wanted rest lower.1 p
    | (.ended, p) => ⟨[], .ended, .ended, p⟩
    | (.failed fault, p) => ⟨[], .ended, .failed fault, p⟩
    | (.answer s rest, p) =>
      have lower := answer_lowers (db.weighs_weightOf layered) finite stepped
      (harvestEnding db layered (wanted.map (· - 1)) rest lower.1 p).cons s
termination_by search.weight db db.weightOf
decreasing_by all_goals exact lower.2

/-- Collects answers if the search is sure to end, and gives it up at once if not. -/
def harvest (db : Database) (wanted : Option Nat) (search : Search) (p : Progress) : Harvest :=
  if layered : db.isLayered then
    if finite : search.isFinite then harvestEnding db layered wanted search finite p
    else ⟨[], search, .paused, p⟩
  else ⟨[], search, .paused, p⟩

end Search
end Rulebook
