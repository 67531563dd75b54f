import Rulebook.Proofs.Machine.Reachable
import Rulebook.Proofs.Search.Bound

/-! Searches of a machine end. Where no relation depends on itself a search can be followed to its
end, and it gives no more answers than the facts and rules allow. So no operation on a machine that
operations lead to ever gives a search up. -/
namespace Rulebook

theorem error_ne {fault other : Fault} (differ : (.error fault : Except Fault α) ≠ .error other) :
    (.error fault : Except Fault β) ≠ .error other :=
  fun same => differ (congrArg Except.error (Except.error.inj same))

/-- A sequence fails with a fault only if a part of it does. -/
theorem bind_ne_error {State : Type} {fault : Fault} {first : ExceptT Fault (StateM State) α}
    {next : α → ExceptT Fault (StateM State) β} {s : State}
    (start : (first.run s).1 ≠ .error fault)
    (more : ∀ a t, first.run s = (.ok a, t) → ((next a).run t).1 ≠ .error fault) :
    ((first >>= next).run s).1 ≠ .error fault := by
  rw [run_bind]
  split
  · rename_i a t same
    exact more a t same
  · rename_i other t same
    rw [same] at start
    exact error_ne start

theorem Search.Answers.length_le {db : Database} (layered : db.isLayered) {goal : Goal}
    {p q : Progress} {found : List Substitution} (finite : goal.isFinite)
    (answers : Answers db goal p found q) : found.length ≤ goal.most db.mostAnswers := by
  obtain ⟨last, _, run, _⟩ := answers
  have opened : (Search.pending goal .empty).isFinite := finite
  exact run.length_le (db.bounds_mostAnswers layered) (db.weighs_weightOf layered) opened

/-- A search without streams over layered relations ends. -/
theorem Search.exists_answers {db : Database} (layered : db.isLayered) {goal : Goal}
    (named : goal.Named fun _ => True) (p : Progress) : ∃ found q, Answers db goal p found q :=
  exists_gives layered (.pending named Substitution.settled_empty) p

namespace Database

theorem addFact_ne_endlessSearch (db : Database) (r : RelationId) (fact : List Term) :
    db.addFact r fact ≠ .error .endlessSearch := by
  unfold addFact Relation.addFact Relation.takes
  split
  · simp [Except.map]
  · split <;> simp [Except.map]

end Database

theorem Line.callbackName_ne_endlessSearch (line : Line) :
    line.callbackName ≠ .error .endlessSearch := by
  unfold callbackName
  dsimp only
  split <;> simp

namespace Machine
variable {m n : Machine}

theorem relationFor_ne_endlessSearch (key : String) (create : Bool) (m : Machine) :
    ((relationFor key create).run m).1 ≠ .error .endlessSearch := by
  rw [run_relationFor]
  split
  · simp
  · split <;> simp

theorem actionFor_ne_endlessSearch (key : String) (create : Bool) (m : Machine) :
    ((actionFor key create).run m).1 ≠ .error .endlessSearch := by
  rw [run_actionFor]
  split
  · simp
  · split <;> simp

/-- All exclusions of a claim find what they search for. -/
theorem run_excludes (formed : m.WellFormed) {key : String} {r : RelationId}
    (found : m.relations.get? key = some r) (terms : List Term) (group : List Exclusion) :
    ∃ n, (group.forM (exclude r terms)).run m = (.ok ⟨⟩, n) := by
  induction group generalizing m with
  | nil => exact ⟨m, rfl⟩
  | cons exclusion group ih =>
    obtain ⟨answers, last, _, run⟩ := run_exclude formed.acyclic.layered r terms exclusion
    have evolves := (works_exclude terms exclusion m found).evolves
    rw [run] at evolves
    obtain ⟨n, rest⟩ := ih (formed.evolves evolves) (evolves.kept found)
    exact ⟨n, (run_bind_ok run).trans rest⟩

theorem assert_ne_endlessSearch (formed : m.WellFormed) (key : String) (terms : List Term)
    (create : Bool) : ((assert key terms create).run m).1 ≠ .error .endlessSearch := by
  rw [run_assert]
  have first := relationFor_ne_endlessSearch key create m
  split
  · rename_i fault n same
    rw [same] at first
    exact error_ne first
  rename_i r n same
  obtain ⟨works, found⟩ := relationFor_ok same
  obtain ⟨k, excluded⟩ := run_excludes (formed.evolves works.evolves) found terms
    ((n.exclusions.get? key).getD [])
  rw [excluded]
  dsimp only
  have last := k.database.addFact_ne_endlessSearch r terms
  split
  · rename_i fault added
    rw [added] at last
    exact error_ne last
  · simp

/-- The search for the first rule of an action that holds ends. -/
theorem choosePayload_ends (layered : m.database.isLayered) (action : Action) (args : List Term) :
    ∃ found n, (choosePayload action args).run m = (.ok found, n) := by
  rw [run_choosePayload]
  let opened := action.goal args (Naming.fresh m.nextId "outcome") ⟨[m.nextId + 1], []⟩
  obtain ⟨found, _, _, _, _, _, run⟩ := run_firstAnswer
    (m := { m with nextId := opened.2.nextId source }) layered
    (.any (Action.branches_named args (Naming.fresh m.nextId "outcome") action.entries
      ⟨[m.nextId + 1], []⟩))
  dsimp only
  split <;> rename_i outcome
  · cases outcome.symm.trans run
  · exact ⟨_, _, rfl⟩
  · exact ⟨_, _, rfl⟩

section Performing
variable {host : Type}

/-- A host operation that gives no search up and leaves its machine in order. -/
structure Ends (operation : HostM host α) : Prop where
  formed : ∀ m h, m.WellFormed → (operation.run (m, h)).2.1.WellFormed
  outcome : ∀ m h, m.WellFormed → (operation.run (m, h)).1 ≠ .error .endlessSearch

theorem Ends.bind {first : HostM host α} {next : α → HostM host β} (start : Ends first)
    (more : ∀ a, Ends (next a)) : Ends (first >>= next) where
  formed m h := bind_related
    (R := fun s t : Machine × host => s.1.WellFormed → t.1.WellFormed) (s := (m, h))
    (fun first second formed => second (first formed)) (start.formed m h)
    fun a t _ => (more a).formed t.1 t.2
  outcome m h formed := by
    have kept := start.formed m h formed
    refine bind_ne_error (start.outcome m h formed) fun a t run => (more a).outcome t.1 t.2 ?_
    rwa [run] at kept

theorem ends_pure (a : α) : Ends (pure a : HostM host α) :=
  ⟨fun _ _ formed => formed, fun _ _ _ eq => nomatch eq⟩

theorem ends_throw {fault : Fault} (other : fault ≠ .endlessSearch) :
    Ends (throw fault : HostM host α) :=
  ⟨fun _ _ formed => formed, fun _ _ _ eq => other (Except.error.inj eq)⟩

theorem ends_get : Ends (get : HostM host (Machine × host)) :=
  ⟨fun _ _ formed => formed, fun _ _ _ eq => nomatch eq⟩

theorem ends_modify {change : Machine × host → Machine × host}
    (kept : ∀ m h, m.WellFormed → (change (m, h)).1.WellFormed) :
    Ends (modify change : HostM host Unit) :=
  ⟨kept, fun _ _ _ eq => nomatch eq⟩

theorem ends_machine {operation : MachineM α} (works : ∀ m, Works m (operation.run m).2)
    (outcome : ∀ m, m.WellFormed → (operation.run m).1 ≠ .error .endlessSearch) :
    Ends (HostM.machine operation : HostM host α) :=
  ⟨fun m _ formed => formed.evolves (works m).evolves, fun m _ formed => outcome m formed⟩

theorem ends_forM {operation : β → HostM host PUnit} (one : ∀ b, Ends (operation b))
    (items : List β) : Ends (items.forM operation) := by
  induction items with
  | nil => exact ends_pure _
  | cons b items ih => exact (one b).bind fun _ => ih

theorem Ends.afterwards {operation : HostM host α} (ends : Ends operation)
    {change : Machine → Machine} (kept : ∀ m, m.WellFormed → (change m).WellFormed) :
    Ends (HostM.afterwards operation change) :=
  ⟨fun m h formed => kept _ (ends.formed m h formed), ends.outcome⟩

theorem ends_resolveFresh (s : Substitution) (terms : List Term) :
    Ends (HostM.machine (resolveFresh s terms {}) : HostM host (List Term)) := by
  apply ends_machine (works_resolveFresh s terms)
  intro m _
  obtain ⟨args, id, run, _⟩ := run_resolveFresh s terms no_renamings m
  rw [run]
  simp

theorem ends_callbackName (line : Line) :
    Ends (HostM.machine line.callbackName : HostM host String) := by
  have named := line.callbackName_ne_endlessSearch
  refine ends_machine (fun m => ?_) fun m _ => ?_
  · cases line.callbackName <;> exact .refl
  · cases found : line.callbackName with
    | error fault =>
      rw [found] at named
      exact error_ne named
    | ok name =>
      intro eq
      cases eq

theorem ends_dispatch {call : String → List (Option String) → HostM host Unit}
    (calls : ∀ name values, Ends (call name values))
    {nested : Action → List Term → HostM host Bool}
    (ends : ∀ action args, Ends (nested action args))
    (s : Substitution) (line : Line) : Ends (dispatch call nested s line) := by
  unfold dispatch
  split
  · refine (ends_callbackName line).bind fun name => ends_get.bind fun state => ?_
    split
    · exact ends_throw (by simp)
    · exact calls _ _
  · refine ends_machine (fun m => ?_) fun m formed => ?_
    · apply works_bind (works_resolveFresh s _ m)
      intro args n _
      apply works_bind .refl
      intro k n run
      cases run
      exact works_assert line.phrase.key args _ _
    · have resolved : Ends (HostM.machine (resolveFresh s line.phrase.args {}) :
          HostM Unit (List Term)) := ends_resolveFresh s line.phrase.args
      refine bind_ne_error (resolved.outcome m () formed) fun args n run => ?_
      refine bind_ne_error (fun eq => nomatch eq) fun k n same => ?_
      cases same
      have kept := resolved.formed m () formed
      rw [run_machine, run] at kept
      exact assert_ne_endlessSearch kept line.phrase.key args _
  · refine (ends_machine (works_actionFor line.phrase.key false)
      fun m _ => actionFor_ne_endlessSearch _ _ m).bind fun action => ?_
    exact (ends_resolveFresh s line.phrase.args).bind fun args =>
      (ends action args).bind fun _ => ends_pure _
  · exact ends_pure _

theorem ends_performWithin {call : String → List (Option String) → HostM host Unit}
    (calls : ∀ name values, Ends (call name values)) (depth : Nat) (action : Action)
    (args : List Term) : Ends (performWithin call depth action args) := by
  induction depth generalizing action args with
  | zero => exact ends_throw (by simp)
  | succ depth ih =>
    rw [performWithin]
    refine (ends_machine (fun m => by rw [run_refuseRunning]) fun m _ => ?_).bind fun _ => ?_
    · rw [run_refuseRunning]
      split <;> simp
    refine (ends_machine (works_choosePayload action args)
      fun m formed => ?_).bind fun found => ?_
    · obtain ⟨found, n, run⟩ := choosePayload_ends formed.acyclic.layered action args
      rw [run]
      simp
    cases found with
    | none => exact ends_pure _
    | some found =>
      refine (ends_modify fun m _ formed => formed.congr rfl rfl rfl).bind fun _ =>
        ends_get.bind fun state => Ends.bind ?_ fun _ => ends_pure _
      exact (ends_forM (fun line => ends_dispatch calls ih found.2 line) _).afterwards
        fun m formed => formed.congr rfl rfl rfl

theorem ends_performTo {call : String → List (Option String) → HostM host Unit}
    (calls : ∀ name values, Ends (call name values)) (depth : Nat) (phrase : Phrase) :
    Ends (performTo depth call phrase) :=
  (ends_machine (works_actionFor phrase.key false)
    fun m _ => actionFor_ne_endlessSearch _ _ m).bind fun action =>
      ends_performWithin calls depth action phrase.args

end Performing

section Questions
variable {question : Phrase} {r : RelationId}

/-- Whatever is done with the goal of a question is done on the same machine. -/
theorem run_asked {next : Goal → MachineM α} (declared : m.relations.get? question.key = some r) :
    (goalOf question >>= next).run m = (next (.query r question.args)).run m :=
  run_bind_ok (run_goalOf declared)

theorem run_isTrue (formed : m.WellFormed) (declared : m.relations.get? question.key = some r) :
    ∃ holds n, (isTrue question).run m = (.ok holds, n) := by
  obtain ⟨found, _, _, id, _, _, run⟩ :=
    run_firstAnswer formed.acyclic.layered (query_named r question.args)
  exact ⟨_, _, (run_asked declared).trans (run_bind_ok run)⟩

theorem run_values (formed : m.WellFormed) (declared : m.relations.get? question.key = some r) :
    ∃ found n, (values question).run m = (.ok found, n) := by
  obtain ⟨found, _, _, id, _, _, run⟩ :=
    run_firstAnswer formed.acyclic.layered (query_named r question.args)
  exact ⟨_, _, (run_asked declared).trans (run_bind_ok run)⟩

theorem run_solutions (formed : m.WellFormed)
    (declared : m.relations.get? question.key = some r) :
    ∃ found n, (solutions question none).run m = (.ok found, n) ∧
      found.length ≤ m.database.mostAnswers r := by
  have named := query_named r question.args
  obtain ⟨found, q, answers, run⟩ := run_harvest_all formed.acyclic.layered named
  have pulled : (pull none ⟨question.args, .pending (.query r question.args) .empty⟩).run m =
      (.ok (found.map (·.valuesOf question.args), ⟨question.args, .ended⟩),
        { m with nextId := q.nextId source }) := (run_bind_ok run).trans rfl
  have all : (solutions question none).run m =
      (.ok (found.map (·.valuesOf question.args)), { m with nextId := q.nextId source }) :=
    (run_bind_ok (run_ask declared)).trans ((run_bind_ok pulled).trans rfl)
  refine ⟨_, _, all, ?_⟩
  rw [List.length_map]
  exact answers.length_le formed.acyclic.layered named.isFinite

end Questions

/-- No search on the machine is given up, and each gives no more answers than the bounds say. -/
structure SearchesEnd (m : Machine) : Prop where
  /-- A relation's bound is the number of its facts, and for each of its rules the product of the
  bounds of the relations in the conditions. -/
  bounds : Bounds m.database m.database.mostAnswers
  query : ∀ r args p, ∃ found q, Search.Answers m.database (.query r args) p found q ∧
    found.length ≤ m.database.mostAnswers r
  isTrue : ∀ question r, m.relations.get? question.key = some r →
    ∃ holds n, (Machine.isTrue question).run m = (.ok holds, n)
  values : ∀ question r, m.relations.get? question.key = some r →
    ∃ found n, (Machine.values question).run m = (.ok found, n)
  solutions : ∀ question r, m.relations.get? question.key = some r →
    ∃ found n, (Machine.solutions question none).run m = (.ok found, n) ∧
      found.length ≤ m.database.mostAnswers r
  exclude : ∀ r terms exclusion, ∃ n, (Machine.exclude r terms exclusion).run m = (.ok ⟨⟩, n)
  claim : ∀ fact, ((Machine.claim fact).run m).1 ≠ .error .endlessSearch
  choosePayload : ∀ action args, ∃ found n,
    (Machine.choosePayload action args).run m = (.ok found, n)
  perform : ∀ (host : Type) (call : String → List (Option String) → HostM host Unit),
    (∀ name values, Ends (call name values)) → ∀ depth phrase h,
      ((performTo depth call phrase).run (m, h)).1 ≠ .error .endlessSearch

/-- Every search ends on a machine that operations lead to, also where some of them failed. -/
theorem Reachable.searchesEnd (reachable : m.Reachable) : m.SearchesEnd where
  bounds := m.database.bounds_mostAnswers reachable.wellFormed.acyclic.layered
  query r args p := by
    have layered := reachable.wellFormed.acyclic.layered
    obtain ⟨found, q, answers⟩ := Search.exists_answers layered (query_named r args) p
    exact ⟨found, q, answers, answers.length_le layered rfl⟩
  isTrue _ _ declared := run_isTrue reachable.wellFormed declared
  values _ _ declared := run_values reachable.wellFormed declared
  solutions _ _ declared := run_solutions reachable.wellFormed declared
  exclude r terms exclusion := by
    obtain ⟨_, _, _, run⟩ := run_exclude reachable.wellFormed.acyclic.layered r terms exclusion
    exact ⟨_, run⟩
  claim fact := by
    refine bind_ne_error (fun eq => nomatch eq) fun k n same => ?_
    cases same
    exact assert_ne_endlessSearch reachable.wellFormed fact.key fact.args _
  choosePayload action args := choosePayload_ends reachable.wellFormed.acyclic.layered action args
  perform _ _ calls depth phrase h :=
    (ends_performTo calls depth phrase).outcome m h reachable.wellFormed

/-- The second rule of this text would make both relations depend on themselves. -/
def circularText : String := "::a\n +b\n::b\n +a"

theorem searchesEnd_circular :
    ((load circularText).run {}).1 = .error (.recursiveRule ["a", "b", "a"]) ∧
      ((load circularText).run {}).2.SearchesEnd :=
  ⟨by decide +kernel, Reachable.searchesEnd ⟨false, false, 0, .load circularText {}⟩⟩

end Machine
end Rulebook
