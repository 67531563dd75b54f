import Rulebook.Machine.Load
import Rulebook.Machine.Query
import Rulebook.Proofs.Search.Meaning

/-! What the basic operations of the machine do, each as one equation: the outcome and the machine
afterwards, also where the operation fails. -/
namespace Rulebook

section Sequencing
variable {State α β : Type}

theorem run_bind (first : ExceptT Fault (StateM State) α)
    (next : α → ExceptT Fault (StateM State) β) (s : State) :
    (first >>= next).run s =
      match first.run s with
      | (.ok a, s) => (next a).run s
      | (.error fault, s) => (.error fault, s) := by
  change (match first.run s with | (result, s) => ExceptT.bindCont next result s) = _
  obtain ⟨result, s⟩ := first.run s
  cases result <;> rfl

theorem run_bind_ok {first : ExceptT Fault (StateM State) α}
    {next : α → ExceptT Fault (StateM State) β} {s t : State} {a : α}
    (run : first.run s = (.ok a, t)) : (first >>= next).run s = (next a).run t := by
  rw [run_bind, run]

theorem run_of_ok {operation : ExceptT Fault (StateM State) α} {s : State} {a : α}
    (ok : (operation.run s).1 = .ok a) : operation.run s = (.ok a, (operation.run s).2) :=
  Prod.ext ok rfl

theorem run_of_error {operation : ExceptT Fault (StateM State) α} {s : State} {fault : Fault}
    (failed : (operation.run s).1 = .error fault) :
    operation.run s = (.error fault, (operation.run s).2) :=
  Prod.ext failed rfl

theorem run_pure (a : α) (s : State) :
    (pure a : ExceptT Fault (StateM State) α).run s = (.ok a, s) := rfl

theorem run_get (s : State) : (get : ExceptT Fault (StateM State) State).run s = (.ok s, s) := rfl

theorem run_set (s t : State) :
    (set t : ExceptT Fault (StateM State) PUnit).run s = (.ok ⟨⟩, t) := rfl

theorem run_modify (change : State → State) (s : State) :
    (modify change : ExceptT Fault (StateM State) PUnit).run s = (.ok ⟨⟩, change s) := rfl

/-- A sequence succeeds if both parts do. -/
theorem bind_ok {first : ExceptT Fault (StateM State) α}
    {next : α → ExceptT Fault (StateM State) β} {s t : State} {b : β}
    (run : (first >>= next).run s = (.ok b, t)) :
    ∃ a middle, first.run s = (.ok a, middle) ∧ (next a).run middle = (.ok b, t) := by
  rw [run_bind] at run
  split at run
  · rename_i a middle same
    exact ⟨a, middle, same, run⟩
  · cases run

/-- A traversal with an operation that never fails. -/
theorem run_forM {operation : β → ExceptT Fault (StateM State) PUnit} {after : State → β → State}
    (one : ∀ b s, (operation b).run s = (.ok ⟨⟩, after s b)) (items : List β) (s : State) :
    (items.forM operation).run s = (.ok ⟨⟩, items.foldl after s) := by
  induction items generalizing s with
  | nil => rfl
  | cons b items ih =>
    change (operation b >>= fun _ => items.forM operation).run s = _
    rw [run_bind, one, List.foldl_cons]
    exact ih (after s b)

end Sequencing

namespace Machine

def declared (m : Machine) (key : String) : Machine :=
  { m with
    database := (m.database.declare key).2
    relations := m.relations.put key m.database.relations.length }

theorem get?_declared (m : Machine) (key : String) :
    (m.declared key).relations.get? key = some m.database.relations.length := by
  rw [declared, Table.get?_put, if_pos rfl]

/-- Declaring a relation leaves the others where they are. -/
theorem get?_declared_kept {m : Machine} {key other : String} {r : RelationId}
    (new : m.relations.get? key = none) (found : m.relations.get? other = some r) :
    (m.declared key).relations.get? other = some r := by
  have different : other ≠ key := by
    rintro rfl
    rw [new] at found
    cases found
  rw [declared, Table.get?_put, if_neg different, found]

def logged (m : Machine) (message : String) : Machine :=
  { m with printed := m.printed ++ if m.verbose then ["  " ++ message] else [] }

theorem run_relationFor (key : String) (create : Bool) (m : Machine) :
    (relationFor key create).run m =
      match m.relations.get? key with
      | some r => (.ok r, m)
      | none =>
        if create then (.ok m.database.relations.length, m.declared key)
        else (.error (.undeclaredRelation key), m) := by
  unfold relationFor
  rw [run_bind, run_get]
  dsimp only
  cases m.relations.get? key with
  | some r => rfl
  | none => cases create <;> rfl

theorem run_log (message : String) (m : Machine) :
    (log message).run m = (.ok ⟨⟩, m.logged message) := by
  unfold log
  rw [run_bind, run_get]
  dsimp only [logged]
  split
  · rfl
  · rw [List.append_nil, run_pure]

theorem run_record (entry : Entry) (m : Machine) :
    (record entry).run m = (.ok ⟨⟩, { m with history := m.history ++ [entry] }) := rfl

theorem run_mintId (m : Machine) :
    mintId.run m = (.ok m.nextId, { m with nextId := m.nextId + 1 }) := rfl

theorem run_mintVariable (hint : String) (m : Machine) :
    (mintVariable hint).run m =
      (.ok (Naming.fresh m.nextId hint), { m with nextId := m.nextId + 1 }) := rfl

theorem run_actionFor (key : String) (create : Bool) (m : Machine) :
    (actionFor key create).run m =
      match m.actions.get? key with
      | some action => (.ok action, m)
      | none =>
        if create then
          (.ok { name := key }, { m with actions := m.actions.put key { name := key } })
        else (.error (.undeclaredAction key), m) := by
  unfold actionFor
  rw [run_bind, run_get]
  dsimp only
  cases m.actions.get? key with
  | some action => rfl
  | none => cases create <;> rfl

theorem run_harvest (wanted : Option Nat) (search : Search) (m : Machine) :
    (harvest wanted search).run m =
      (match (search.harvest m.database wanted ⟨[m.nextId], []⟩).stop with
        | .failed fault => .error fault
        | .paused => .error .endlessSearch
        | .enough | .ended => .ok (search.harvest m.database wanted ⟨[m.nextId], []⟩),
      { m with
        nextId := (search.harvest m.database wanted ⟨[m.nextId], []⟩).progress.nextId source }) := by
  unfold harvest
  rw [run_bind, run_get]
  dsimp only
  rw [run_bind, run_set]
  dsimp only
  cases (search.harvest m.database wanted ⟨[m.nextId], []⟩).stop <;> rfl

section Searching
variable {m : Machine} {goal : Goal}

/-- A search without a limit is followed to its end. -/
theorem run_harvest_all (layered : m.database.isLayered) (named : goal.Named fun _ => True) :
    ∃ found r, Search.Answers m.database goal ⟨[m.nextId], []⟩ found r ∧
      (harvest none (.pending goal .empty)).run m =
        (.ok ⟨found, .ended, .ended, r⟩, { m with nextId := r.nextId source }) := by
  obtain ⟨found, last, q, run, ⟨all, _⟩ | ⟨r, ended, same⟩⟩ := Search.harvest_known layered none
    (.pending named Substitution.settled_empty) ⟨[m.nextId], []⟩
  · cases all
  · refine ⟨found, r, ⟨last, q, run, ended⟩, ?_⟩
    rw [run_harvest, same]

/-- All answers are found. -/
theorem run_answers (layered : m.database.isLayered) (named : goal.Named fun _ => True) :
    ∃ found r, Search.Answers m.database goal ⟨[m.nextId], []⟩ found r ∧
      (answers goal).run m = (.ok found, { m with nextId := r.nextId source }) := by
  obtain ⟨found, r, given, run⟩ := run_harvest_all layered named
  exact ⟨found, r, given, (run_bind_ok run).trans rfl⟩

/-- The first answer is found, or the search ends without one. -/
theorem run_firstAnswer (layered : m.database.isLayered) (named : goal.Named fun _ => True) :
    ∃ found last q id,
      Search.Runs m.database (.pending goal .empty) ⟨[m.nextId], []⟩ found last q ∧
      (found = [] → ∃ r, last.step m.database q = (.ended, r)) ∧
      (firstAnswer goal).run m = (.ok found.head?, { m with nextId := id }) := by
  obtain ⟨found, last, q, run, ⟨all, same⟩ | ⟨r, ended, same⟩⟩ := Search.harvest_known layered
    (some 1) (.pending named Substitution.settled_empty) ⟨[m.nextId], []⟩
  · refine ⟨found, last, q, q.nextId source, run, ?_, ?_⟩
    · rintro rfl
      cases all
    · rw [firstAnswer, run_bind, run_harvest, same]
      rfl
  · refine ⟨found, last, q, r.nextId source, run, fun _ => ⟨r, ended⟩, ?_⟩
    rw [firstAnswer, run_bind, run_harvest, same]
    rfl

end Searching

def retracted (m : Machine) (r : RelationId) (fact : List Term) : Machine :=
  let name := (m.database.removeFact r fact).nameOf r
  let after := { m with database := m.database.removeFact r fact }
  { after.logged ("[retract] " ++ name ++ " " ++ factText fact) with
    history := m.history ++ [.retracted name (fact.map Term.key)] }

theorem run_retract (r : RelationId) (fact : List Term) (m : Machine) :
    (retract r fact).run m = (.ok ⟨⟩, m.retracted r fact) := by
  unfold retract
  rw [run_bind, run_modify]
  dsimp only
  rw [run_bind, run_get]
  dsimp only
  rw [run_bind, run_log]
  dsimp only
  rw [run_record]
  rfl

/-- Fresh variables in place of the terms that are not flagged, and the id after them. -/
def masked : Int → List Term → List Bool → List Term × Int
  | id, term :: terms, true :: flags =>
    let (args, next) := masked id terms flags
    (term :: args, next)
  | id, _ :: terms, false :: flags =>
    let (args, next) := masked (id + 1) terms flags
    (Naming.fresh id "" :: args, next)
  | id, _, _ => ([], id)

theorem run_exclusionArgs (terms : List Term) (flags : List Bool) (m : Machine) :
    (exclusionArgs terms flags).run m =
      (.ok (masked m.nextId terms flags).1,
        { m with nextId := (masked m.nextId terms flags).2 }) := by
  induction terms generalizing flags m with
  | nil => cases flags <;> rfl
  | cons term terms ih =>
    cases flags with
    | nil => rfl
    | cons flag flags =>
      unfold exclusionArgs
      cases flag with
      | true =>
        simp only [if_true, run_bind, run_pure, ih]
        rfl
      | false =>
        simp only [Bool.false_eq_true, if_false, run_bind, run_mintVariable, ih]
        rfl

theorem run_goalOf {m : Machine} {question : Phrase} {r : RelationId}
    (declared : m.relations.get? question.key = some r) :
    (goalOf question).run m = (.ok (.query r question.args), m) := by
  have found : (relationFor question.key false).run m = (.ok r, m) := by
    rw [run_relationFor, declared]
  exact (run_bind_ok found).trans rfl

theorem run_ask {m : Machine} {question : Phrase} {r : RelationId}
    (declared : m.relations.get? question.key = some r) :
    (ask question).run m =
      (.ok ⟨question.args, .pending (.query r question.args) .empty⟩, m) :=
  (run_bind_ok (run_goalOf declared)).trans rfl

/-- What an exclusion searches for: an instance of its rule that is a stored fact. -/
def excluded (m : Machine) (r : RelationId) (args : List Term) (exclusion : Exclusion) : Goal :=
  .all [exclusion.rule.goal args "", (m.database.relation r).factsGoal args]

theorem excluded_named (m : Machine) (r : RelationId) (args : List Term) (exclusion : Exclusion) :
    (m.excluded r args exclusion).Named fun _ => True := by
  refine .all (List.forall_mem_cons.mpr ⟨?_, List.forall_mem_singleton.mpr ?_⟩)
  · exact exclusion.rule.goal_named (named_any args) fun _ => trivial
  · exact factsGoal_named (named_any args) fun fact _ => named_any fact

/-- An exclusion takes back what it finds. -/
theorem run_exclude {m : Machine} (layered : m.database.isLayered) (r : RelationId)
    (terms : List Term) (exclusion : Exclusion) :
    ∃ found last,
      Search.Answers m.database
        (m.excluded r (masked m.nextId terms exclusion.bound).1 exclusion)
        ⟨[(masked m.nextId terms exclusion.bound).2], []⟩ found last ∧
      (exclude r terms exclusion).run m = (.ok ⟨⟩,
        (found.map (·.reify (masked m.nextId terms exclusion.bound).1)).eraseDups.foldl
          (fun m fact => m.retracted r fact) { m with nextId := last.nextId source }) := by
  generalize mask : masked m.nextId terms exclusion.bound = pair
  obtain ⟨args, next⟩ := pair
  obtain ⟨found, last, given, run⟩ := run_answers (m := { m with nextId := next }) layered
    (excluded_named m r args exclusion)
  refine ⟨found, last, given, ?_⟩
  unfold exclude
  rw [run_bind, run_exclusionArgs, mask]
  dsimp only
  rw [run_bind, run_get]
  dsimp only
  exact (run_bind_ok run).trans (run_forM (run_retract r) _ _)

end Machine
end Rulebook
