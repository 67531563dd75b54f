import Rulebook.Proofs.Renaming.Machine

/-! Questions and claims to machines whose counters are at a distance. -/
namespace Rulebook
variable {π : Renaming}

/-- A result of the language, not of the machine, is the same whatever the states. -/
theorem Corresponds.lift {State α : Type} {St : State → State → Prop} {result : Except Fault α}
    (unnamed : ∀ fault, result = .error fault → fault.rename π = fault) {s t : State}
    (state : St s t) :
    Corresponds π Eq St ((liftM result : ExceptT Fault (StateM State) α).run s)
      ((liftM result : ExceptT Fault (StateM State) α).run t) := by
  cases result with
  | ok a => exact .ok rfl state
  | error fault => exact .refused (unnamed fault rfl) state

theorem Search.wantedOf_unnamed (limit : Int) (fault : Fault)
    (refused : Search.wantedOf limit = .error fault) : fault.rename π = fault := by
  unfold wantedOf at refused
  split at refused
  · cases refused
    rfl
  · cases refused

def Cursor.rename (π : Renaming) (cursor : Cursor) : Cursor :=
  ⟨cursor.args.map (Term.rename π), cursor.search.rename π⟩

namespace Machine
variable {past : Int} {m n : Machine} (twins : Twins π past m n)

section Searching
include twins

theorem corresponds_harvest {S : Search → Search → Prop} {A : Substitution → Substitution → Prop}
    (inStep : m.database.isLayered → Search.InStep π m.database 1 S A) {search other : Search}
    (related : S search other) (wanted : Option Nat) :
    Corresponds π (Harvest.Matches π S A) (Twins π past) ((harvest wanted search).run m)
      ((harvest wanted other).run n) := by
  have matched := Search.harvest_matches (p := ⟨[m.nextId], []⟩) inStep related wanted rfl
  have before : Progress.Before ⟨[m.nextId], []⟩
      (search.harvest m.database wanted ⟨[m.nextId], []⟩).progress :=
    Search.harvest_before wanted search _
  have counter : (⟨[m.nextId], []⟩ : Progress).rename π = ⟨[n.nextId], []⟩ := by
    rw [twins.nextId]
    rfl
  rw [← twins.database, counter] at matched
  rw [run_harvest, run_harvest]
  generalize search.harvest m.database wanted ⟨[m.nextId], []⟩ = found at matched before
  generalize other.harvest n.database wanted ⟨[n.nextId], []⟩ = there at matched
  have inside : source < found.progress.nextIds.length := before.1 ▸ Nat.one_pos
  have spent := twins.spend (before.2 source)
  rw [← found.progress.nextId_rename π inside, ← matched.progress] at spent
  have stop := matched.stop
  cases here : found.stop <;> rw [here] at stop <;> rw [stop]
  · exact .ok matched spent
  · exact .ok matched spent
  · exact .error spent
  · exact .refused rfl spent

theorem corresponds_answers {goal : Goal} (finite : goal.isFinite) :
    Corresponds π (fun found other => other = found.map (Substitution.rename π)) (Twins π past)
      ((answers goal).run m) ((answers (goal.rename π)).run n) := by
  have related : (Search.pending goal .empty).isFinite ∧
      Search.pending (goal.rename π) .empty = (Search.pending goal .empty).rename π := ⟨finite, rfl⟩
  refine (corresponds_harvest twins
    (fun layered => Search.inStep_rename layered twins.tame.rules) related none).bind
    fun found other s t matched twins => .ok (eq_map_of_forall₂ matched.answers) twins

theorem corresponds_firstAnswer {S : Search → Search → Prop}
    {A : Substitution → Substitution → Prop}
    (inStep : m.database.isLayered → Search.InStep π m.database 1 S A) {goal other : Goal}
    (related : S (.pending goal .empty) (.pending other .empty)) :
    Corresponds π (Option.Rel A) (Twins π past) ((firstAnswer goal).run m)
      ((firstAnswer other).run n) := by
  refine (corresponds_harvest twins inStep related (some 1)).bind
    fun found other s t matched twins => .ok ?_ twins
  have given := matched.answers
  generalize found.answers = answers, other.answers = others at given
  cases given with
  | nil => exact .none
  | cons first _ => exact .some first

theorem corresponds_goalOf (question : Phrase) :
    Corresponds π (fun goal other => goal = other ∧ ∃ r, goal = .query r question.args)
      (Twins π past) ((goalOf question).run m) ((goalOf question).run n) :=
  (corresponds_relationFor twins question.key false).bind fun r s m n same twins =>
    .ok ⟨by rw [same], r, rfl⟩ twins

/-- Taking answers from a question that was left open. -/
theorem corresponds_pull (wanted : Option Nat) {cursor : Cursor} (finite : cursor.search.isFinite) :
    Corresponds π (fun found other => found.1 = other.1 ∧ other.2 = found.2.rename π ∧
        found.2.search.isFinite)
      (Twins π past) ((pull wanted cursor).run m) ((pull wanted (cursor.rename π)).run n) := by
  have related : cursor.search.isFinite ∧ (cursor.rename π).search = cursor.search.rename π :=
    ⟨finite, rfl⟩
  refine (corresponds_harvest twins
    (fun layered => Search.inStep_rename layered twins.tame.rules) related wanted).bind
    fun found other s t matched twins => .ok ⟨?_, ?_, matched.rest.1⟩ twins
  · rw [eq_map_of_forall₂ matched.answers, List.map_map]
    exact List.map_congr_left fun s _ => (s.valuesOf_rename π cursor.args).symm
  · rw [matched.rest.2]
    rfl

end Searching

section Asking
variable {question : Phrase} (plain : ∀ term ∈ question.args, term.Plain)
include plain

theorem rename_query (r : RelationId) :
    (Goal.query r question.args).rename π = .query r question.args := by
  rw [Goal.rename, map_rename_plain π plain]

theorem valuesOf_plain (s : Substitution) :
    (s.rename π).valuesOf question.args = s.valuesOf question.args := by
  have values := s.valuesOf_rename π question.args
  rwa [map_rename_plain π plain] at values

include twins

/-- The first answer to a question, if there is one. -/
theorem corresponds_asked (r : RelationId) :
    Corresponds π (Option.Rel fun s t => t = s.rename π) (Twins π past)
      ((firstAnswer (.query r question.args)).run m)
      ((firstAnswer (.query r question.args)).run n) := by
  have related : (Search.pending (.query r question.args) .empty).isFinite ∧
      Search.pending (.query r question.args) .empty =
        (Search.pending (.query r question.args) .empty).rename π :=
    ⟨rfl, congrArg (Search.pending · .empty) (rename_query plain r).symm⟩
  exact corresponds_firstAnswer twins
    (fun layered => Search.inStep_rename layered twins.tame.rules) related

theorem corresponds_isTrue :
    Corresponds π Eq (Twins π past) ((isTrue question).run m) ((isTrue question).run n) := by
  refine (corresponds_goalOf twins question).bind fun goal other s t ⟨same, r, asked⟩ twins => ?_
  subst same asked
  refine (corresponds_asked twins plain r).bind fun found other s t given twins => .ok ?_ twins
  cases given <;> rfl

theorem corresponds_values :
    Corresponds π Eq (Twins π past) ((values question).run m) ((values question).run n) := by
  refine (corresponds_goalOf twins question).bind fun goal other s t ⟨same, r, asked⟩ twins => ?_
  subst same asked
  refine (corresponds_asked twins plain r).bind fun found other s t given twins => .ok ?_ twins
  cases given with
  | none => rfl
  | some given =>
    subst given
    exact congrArg some (valuesOf_plain plain _).symm

theorem corresponds_ask :
    Corresponds π (fun cursor other => other = cursor.rename π ∧ cursor.search.isFinite)
      (Twins π past) ((ask question).run m) ((ask question).run n) := by
  refine (corresponds_goalOf twins question).bind fun goal other s t ⟨same, r, asked⟩ twins => ?_
  subst same asked
  refine .ok ⟨?_, rfl⟩ twins
  rw [Cursor.rename, map_rename_plain π plain, Search.rename, rename_query plain]
  rfl

theorem corresponds_solutions (limit : Option Int) :
    Corresponds π Eq (Twins π past) ((solutions question limit).run m)
      ((solutions question limit).run n) := by
  refine (corresponds_ask twins plain).bind fun cursor other s t ⟨same, finite⟩ twins => ?_
  subst same
  cases limit with
  | none =>
    exact (corresponds_pull twins none finite).bind fun found other s t given twins =>
      .ok given.1 twins
  | some limit =>
    refine (Corresponds.lift (Search.wantedOf_unnamed limit) twins).bind
      fun wanted other s t same twins => ?_
    subst same
    exact (corresponds_pull twins (some wanted) finite).bind fun found other s t given twins =>
      .ok given.1 twins

end Asking

end Machine
end Rulebook
