import Rulebook.Proofs.Program.Contents
import Rulebook.Proofs.Program.Placeholders

/-! What the answers to a query stand for, where facts may have variables. These are read as they
are stored, so one valuation reads them throughout a derivation, while each use of a rule has a
valuation of its own. The tuples that the answers to a query stand for are those that the arguments
come to under a valuation which also reads the facts of a derivation. -/
namespace Rulebook

/-- The tuple stands in the relation, with the variables of all facts read by one valuation. -/
inductive DerivableUnder (db : Database) (σ : Valuation) : RelationId → List String → Prop where
  | fact {r : RelationId} {fact : List Term} : fact ∈ (db.relation r).facts →
      DerivableUnder db σ r (fact.map (Term.under σ))
  | rule {r : RelationId} {rule : Rule} (ρ : Valuation) : rule ∈ (db.relation r).rules →
      (∀ condition ∈ rule.conditions,
        DerivableUnder db σ condition.1 (condition.2.map (Term.under ρ))) →
      DerivableUnder db σ r (rule.params.map (Term.under ρ))

namespace Skeleton
variable {db : Database} {σ : Valuation}

mutual

theorem Derives.under : (k : Skeleton) → ∀ {r values}, k.Derives db σ r values →
    DerivableUnder db σ r values
  | .fact place, r, values, derives => by
    obtain ⟨fact, found, rfl⟩ := derives
    exact .fact (List.mem_of_getElem? found)
  | .rule place below, r, values, derives => by
    obtain ⟨rule, ρ, found, rfl, conditions⟩ := derives
    have below := DeriveAll.under below conditions
    exact .rule ρ (List.mem_of_getElem? found) fun condition inside =>
      below _ (List.mem_map_of_mem inside)

theorem DeriveAll.under : (ks : List Skeleton) → ∀ {asked}, DeriveAll db σ ks asked →
    ∀ atom ∈ asked, DerivableUnder db σ atom.1 atom.2
  | [], [], _ => by simp
  | [], _ :: _, derive => derive.elim
  | _ :: _, [], derive => derive.elim
  | k :: ks, (_, _) :: _, derive => List.forall_mem_cons.mpr
    ⟨Derives.under k derive.1, DeriveAll.under ks derive.2⟩

end

/-- Skeletons of each of the tuples make skeletons of all. -/
theorem exists_deriveAll {asked : List (RelationId × List String)}
    (each : ∀ atom ∈ asked, ∃ k : Skeleton, k.Derives db σ atom.1 atom.2) :
    ∃ ks, DeriveAll db σ ks asked := by
  induction asked with
  | nil => exact ⟨[], trivial⟩
  | cons atom others ih =>
    obtain ⟨⟨k, here⟩, rest⟩ := List.forall_mem_cons.mp each
    obtain ⟨ks, derive⟩ := ih rest
    exact ⟨k :: ks, here, derive⟩

end Skeleton

theorem DerivableUnder.exists_skeleton {db : Database} {σ : Valuation} {r : RelationId}
    {values : List String} (derivable : DerivableUnder db σ r values) :
    ∃ k : Skeleton, k.Derives db σ r values := by
  induction derivable with
  | fact stored =>
    obtain ⟨place, found⟩ := List.mem_iff_getElem?.mp stored
    exact ⟨.fact place, _, found, rfl⟩
  | @rule r rule ρ stored _ ih =>
    obtain ⟨place, found⟩ := List.mem_iff_getElem?.mp stored
    have each : ∀ atom ∈ conditionsUnder ρ rule.conditions,
        ∃ k : Skeleton, k.Derives db σ atom.1 atom.2 := by
      intro atom inside
      obtain ⟨condition, member, rfl⟩ := List.mem_map.mp inside
      exact ih condition member
    obtain ⟨below, derive⟩ := Skeleton.exists_deriveAll each
    exact ⟨.rule place below, rule, ρ, found, rfl, derive⟩

namespace Database
variable {db : Database} {r : RelationId} {args : List Term}

/-- The tuple is one that an answer to the query stands for, when the search begins at this id. -/
def Answered (db : Database) (id : Int) (r : RelationId) (args : List Term)
    (values : List String) : Prop :=
  ∃ found q, Search.Answers db (.query r args) ⟨[id], []⟩ found q ∧
    ∃ s ∈ found, s.Instance args values

/-- Relations that can be searched to the end, with no variable in a fact that is named like a
rule's. -/
structure Ready (db : Database) : Prop where
  acyclic : db.Acyclic
  salted : db.Salted Machine.source
  plain : db.Plain

/-- The answers to a query stand for the tuples that it comes to under the valuations by which they
are derivable. -/
theorem Ready.answered_iff (ready : db.Ready) (named : ∀ term ∈ args, term.Named Naming.Plain)
    (id : Int) (values : List String) : db.Answered id r args values ↔
      ∃ σ, args.map (Term.under σ) = values ∧ DerivableUnder db σ r values := by
  classical
  obtain ⟨rank, ranks⟩ := exists_ranks ready.acyclic.not_reaches
  have inside : Machine.source < (⟨[id], []⟩ : Progress).nextIds.length := Nat.one_pos
  have fresh : Search.FreshArgs Machine.source ⟨[id], []⟩ args :=
    fun term member => (named term member).imp fun _ plain => plain.not_toCome
  constructor
  · rintro ⟨found, q, answers, s, given, stands⟩
    have fits := Search.answers_instances ready.plain ready.salted ranks inside fresh answers
    obtain ⟨k, _, here⟩ := Forall₂.exists_right fits given
    obtain ⟨σ, same, derives⟩ := (here values).mp stands
    exact ⟨σ, same, derives.under⟩
  · rintro ⟨σ, same, derivable⟩
    obtain ⟨k, derives⟩ := derivable.exists_skeleton
    obtain ⟨found, q, answers⟩ :=
      Search.exists_answers ready.acyclic.layered (query_named r args) ⟨[id], []⟩
    have fits := Search.answers_instances ready.plain ready.salted ranks inside fresh answers
    have listed : k ∈ (db.skeletons (rank r + 1) r).filter fun k =>
        ∃ values, k.Instance db r args values :=
      List.mem_filter.mpr ⟨mem_skeletons ranks (Nat.lt_succ_self (rank r)) derives,
        decide_eq_true ⟨values, σ, same, derives⟩⟩
    obtain ⟨s, given, here⟩ := Forall₂.exists_right fits.flip listed
    exact ⟨found, q, answers, s, given, (here values).mpr ⟨σ, same, derives⟩⟩

end Database

/-- A question without variables is answered by whether its own tuple is one of those that the
answers stand for. -/
theorem Machine.isTrue_iff_answered {m : Machine} (layered : m.database.isLayered)
    {question : Phrase} (closed : ∀ term ∈ question.args, term.isLiteral) {r : RelationId}
    (declared : m.relations.get? question.key = some r) :
    ((isTrue question).run m).1 = .ok true ↔
      m.database.Answered m.nextId r question.args (question.args.map Term.key) := by
  obtain ⟨found, q, answers, isTrue, _⟩ := run_question layered declared
  rw [isTrue]
  constructor
  · intro some
    cases found with
    | nil => cases some
    | cons s found =>
      have given : s ∈ s :: found := List.mem_cons_self
      have settled := answers.settled (query_named r question.args).isFinite given
      obtain ⟨values, ⟨σ, holds, _⟩, _⟩ := Substitution.exists_instance settled question.args
      exact ⟨_, q, answers, s, given, σ, holds, map_under_key closed σ⟩
  · rintro ⟨others, _, again, s, given, _⟩
    obtain ⟨rfl, _⟩ := Search.Gives.unique answers again
    cases found with
    | nil => cases given
    | cons s found => rfl

end Rulebook
