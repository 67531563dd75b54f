import Rulebook.Database

/-! Suspended searches. A search is a value that can be asked for its next answer at any time, also
after the database has changed: it names facts and rules by their places and reads them when it
gets there. `step` is one unit of work; it may answer, go on, end or fail. -/
namespace Rulebook

/-- What a traced goal reports. -/
inductive Event where
  | started (label : String)
  | answered (label : String)
  | finished (label : String)
  deriving DecidableEq

def Event.text : Event → String
  | started label => "start " ++ label
  | answered label => "result " ++ label
  | finished label => "end " ++ label

/-- What a search uses up and leaves behind: the next id of each source and the events so far. -/
structure Progress where
  nextIds : List Int := []
  events : List Event := []

namespace Progress

def nextId (p : Progress) (source : SourceId) : Int := p.nextIds.getD source 0

/-- Uses up the next id of a source. -/
def advance (p : Progress) (source : SourceId) : Progress :=
  { p with nextIds := p.nextIds.modify source (· + 1) }

def report (p : Progress) (event : Event) : Progress := { p with events := p.events ++ [event] }

end Progress

/-- The rule applied to arguments, under a new salt if it has a source. -/
def Rule.use (rule : Rule) (args : List Term) (p : Progress) : Goal × Progress :=
  match rule.source with
  | none => (rule.goal args "", p)
  | some source => (rule.goal args (Naming.salt (p.nextId source)), p.advance source)

inductive Search where
  | ended
  /-- Nothing of the goal has been asked yet. -/
  | pending (goal : Goal) (base : Substitution)
  /-- Walking a relation's facts, from this place on. -/
  | facts (relation : RelationId) (args : List Term) (base : Substitution) (next : Nat)
  /-- Walking a relation's rules, from this place on. -/
  | rules (relation : RelationId) (args : List Term) (base : Substitution) (next : Nat)
  /-- Each answer of `live` goes on through the goals `rest`; `below` comes when `live` ends. -/
  | each (live : Search) (rest : List Goal) (below : Search)
  /-- The branches take turns, the first one now. -/
  | round (queue : List Search)
  | tracing (label : String) (inner : Search)
  | streaming (answers : Substitution → Nat → Option Substitution) (base : Substitution)
    (next : Nat)

inductive Outcome where
  | answer (s : Substitution) (rest : Search)
  | working (rest : Search)
  | ended
  | failed (fault : Fault)

namespace Outcome

/-- What is left to search. -/
def rest? : Outcome → Option Search
  | answer _ rest => some rest
  | working rest => some rest
  | ended => none
  | failed _ => none

/-- The answer of a unification that gives at most one. -/
def ofUnifier : Option Substitution → Search → Outcome
  | some s, rest => .answer s rest
  | none, rest => .working rest

theorem rest?_answer (s : Substitution) (rest : Search) : (answer s rest).rest? = some rest := rfl

theorem rest?_working (rest : Search) : (working rest).rest? = some rest := rfl

theorem rest?_ended : ended.rest? = none := rfl

theorem rest?_failed (fault : Fault) : (failed fault).rest? = none := rfl

theorem rest?_ofUnifier (unifier : Option Substitution) (rest : Search) :
    (ofUnifier unifier rest).rest? = some rest := by
  cases unifier <;> rfl

end Outcome

namespace Search

/-- Opens a search without asking it anything. -/
def start (goal : Goal) (s : Substitution) : Except Fault Search :=
  if goal.isSearchable then .ok (.pending goal s) else .error .noSearch

/-- The first work on a goal. -/
def enter (s : Substitution) (p : Progress) : Goal → Outcome × Progress
  | .unify left right =>
    match s.unify left right with
    | .error fault => (.failed fault, p)
    | .ok unifier => (.ofUnifier unifier .ended, p)
  | .unifyAll left right => (.ofUnifier (s.unifyAll left right) .ended, p)
  | .all [] => (.answer s .ended, p)
  | .all (goal :: goals) =>
    match start goal s with
    | .error fault => (.failed fault, p)
    | .ok live => (.working (.each live goals .ended), p)
  | .any goals =>
    if goals.all Goal.isSearchable then (.working (.round (goals.map (.pending · s))), p)
    else (.failed .noSearch, p)
  | .query relation args => (.working (.facts relation args s 0), p)
  | .traced label goal =>
    let p := p.report (.started label)
    match start goal s with
    | .error fault => (.failed fault, p)
    | .ok inner => (.working (.tracing label inner), p)
  | .stream answers => (.working (.streaming answers s 0), p)
  | .unsearchable => (.failed .noSearch, p)

/-- One unit of work. -/
def step (db : Database) : Search → Progress → Outcome × Progress
  | .ended, p => (.ended, p)
  | .pending goal s, p => enter s p goal
  | .facts relation args s next, p =>
    match (db.relation relation).facts[next]? with
    | none => (.working (.rules relation args s 0), p)
    | some fact =>
      (.ofUnifier (s.unifyAll args fact) (.facts relation args s (next + 1)), p)
  | .rules relation args s next, p =>
    match (db.relation relation).rules[next]? with
    | none => (.ended, p)
    | some rule =>
      let (goal, p) := rule.use args p
      (.working (.each (.pending goal s) [] (.rules relation args s (next + 1))), p)
  | .each live rest below, p =>
    match live.step db p with
    | (.working live, p) => (.working (.each live rest below), p)
    | (.ended, p) => (.working below, p)
    | (.failed fault, p) => (.failed fault, p)
    | (.answer s live, p) =>
      match rest with
      | [] => (.answer s (.each live [] below), p)
      | goal :: goals =>
        match start goal s with
        | .error fault => (.failed fault, p)
        | .ok next => (.working (.each next goals (.each live (goal :: goals) below)), p)
  | .round [], p => (.ended, p)
  | .round (first :: others), p =>
    match first.step db p with
    | (.working first, p) => (.working (.round (first :: others)), p)
    | (.ended, p) => (.working (.round others), p)
    | (.failed fault, p) => (.failed fault, p)
    | (.answer s first, p) => (.answer s (.round (others ++ [first])), p)
  | .tracing label inner, p =>
    match inner.step db p with
    | (.working inner, p) => (.working (.tracing label inner), p)
    | (.ended, p) => (.ended, p.report (.finished label))
    | (.failed fault, p) => (.failed fault, p)
    | (.answer s inner, p) => (.answer s (.tracing label inner), p.report (.answered label))
  | .streaming answers s next, p =>
    match answers s next with
    | none => (.ended, p)
    | some found => (.answer found (.streaming answers s (next + 1)), p)

end Search
end Rulebook
