import Rulebook.Proofs.Derivation
import Rulebook.Proofs.Naming

/-! Derivations without their texts. A skeleton says by which fact or rule a tuple is derived, and
the same of each condition of the rule; the equations along it leave open which texts they are
solved by. Over relations that do not depend on themselves, the skeletons of a relation can be
listed in order. -/
namespace Rulebook

/-- By the fact at a place, or by the rule at a place and a skeleton for each of its conditions. -/
inductive Skeleton where
  | fact (place : Nat)
  | rule (place : Nat) (below : List Skeleton)

def conditionsUnder (σ : Valuation) (conditions : List (RelationId × List Term)) :
    List (RelationId × List String) :=
  conditions.map fun condition => (condition.1, condition.2.map (Term.under σ))

theorem relations_conditionsUnder (σ : Valuation) (conditions : List (RelationId × List Term)) :
    (conditionsUnder σ conditions).map (·.1) = conditions.map (·.1) :=
  List.map_map

def conditionsSalted (salt : String) (conditions : List (RelationId × List Term)) :
    List (RelationId × List Term) :=
  conditions.map fun condition => (condition.1, condition.2.map (·.salted salt))

theorem conditionsUnder_salted (σ : Valuation) (salt : String)
    (conditions : List (RelationId × List Term)) :
    conditionsUnder σ (conditionsSalted salt conditions) =
      conditionsUnder (fun name => σ (salt ++ name)) conditions := by
  simp [conditionsUnder, conditionsSalted, Term.under_salted]

namespace Skeleton

/-- Facts precede rules, and both stand in the order of their places. Uses of one rule are told
apart by the first condition that they derive differently. -/
inductive Precedes : Skeleton → Skeleton → Prop where
  | facts {i j : Nat} : i < j → Precedes (.fact i) (.fact j)
  | factRule {i j : Nat} {below : List Skeleton} : Precedes (.fact i) (.rule j below)
  | rules {i j : Nat} {one other : List Skeleton} : i < j → Precedes (.rule i one) (.rule j other)
  | within {i : Nat} {common rest others : List Skeleton} {a b : Skeleton} : Precedes a b →
      Precedes (.rule i (common ++ a :: rest)) (.rule i (common ++ b :: others))

/-- No skeleton precedes itself. -/
theorem Precedes.ne {a b : Skeleton} (precedes : Precedes a b) : a ≠ b := by
  induction precedes with
  | facts less =>
    rintro ⟨⟩
    exact Nat.lt_irrefl _ less
  | factRule => nofun
  | rules less =>
    rintro ⟨⟩
    exact Nat.lt_irrefl _ less
  | within _ ih =>
    intro same
    obtain ⟨_, lists⟩ := Skeleton.rule.inj same
    exact ih (List.cons.inj (List.append_cancel_left lists)).1

mutual

/-- The tuple stands in the relation by this skeleton. The variables of facts are read by the given
valuation, those of each use of a rule by one of its own. -/
def Derives (db : Database) (σ : Valuation) : Skeleton → RelationId → List String → Prop
  | .fact place, r, values => ∃ fact, (db.relation r).facts[place]? = some fact ∧
      values = fact.map (Term.under σ)
  | .rule place below, r, values => ∃ rule ρ, (db.relation r).rules[place]? = some rule ∧
      values = rule.params.map (Term.under ρ) ∧
      DeriveAll db σ below (conditionsUnder ρ rule.conditions)

def DeriveAll (db : Database) (σ : Valuation) :
    List Skeleton → List (RelationId × List String) → Prop
  | [], [] => True
  | k :: ks, (r, values) :: others => k.Derives db σ r values ∧ DeriveAll db σ ks others
  | _, _ => False

end

/-- The valuation solves the equations along the skeleton, where it is taken for the query, together
with those of the substitution that the query starts from. -/
def Solution (db : Database) (s : Substitution) (r : RelationId) (args : List Term) (k : Skeleton)
    (σ : Valuation) : Prop :=
  s.Holds σ ∧ k.Derives db σ r (args.map (Term.under σ))

section Deriving
variable {db : Database}

section Places
variable {s : Substitution} {r : RelationId} {args : List Term} {place : Nat}

theorem solution_fact {fact : List Term} (found : (db.relation r).facts[place]? = some fact)
    (σ : Valuation) : (Skeleton.fact place).Solution db s r args σ ↔
      s.Holds σ ∧ args.map (Term.under σ) = fact.map (Term.under σ) := by
  simp [Solution, Derives, found]

theorem solution_rule {rule : Rule} (found : (db.relation r).rules[place]? = some rule)
    (below : List Skeleton) (σ : Valuation) : (Skeleton.rule place below).Solution db s r args σ ↔
      s.Holds σ ∧ ∃ ρ, args.map (Term.under σ) = rule.params.map (Term.under ρ) ∧
        DeriveAll db σ below (conditionsUnder ρ rule.conditions) := by
  simp [Solution, Derives, found]

end Places

mutual

/-- Skeletons derive under a valuation, which needs to agree with another on the facts only. -/
theorem Derives.congr {σ τ : Valuation}
    (same : ∀ r, ∀ fact ∈ (db.relation r).facts,
      fact.map (Term.under τ) = fact.map (Term.under σ)) :
    (k : Skeleton) → ∀ {r values}, k.Derives db σ r values → k.Derives db τ r values
  | .fact place, r, values, derives => by
    obtain ⟨fact, found, rfl⟩ := derives
    exact ⟨fact, found, (same r fact (List.mem_of_getElem? found)).symm⟩
  | .rule place below, r, values, derives => by
    obtain ⟨rule, ρ, found, rfl, conditions⟩ := derives
    exact ⟨rule, ρ, found, rfl, DeriveAll.congr same below conditions⟩

theorem DeriveAll.congr {σ τ : Valuation}
    (same : ∀ r, ∀ fact ∈ (db.relation r).facts,
      fact.map (Term.under τ) = fact.map (Term.under σ)) :
    (ks : List Skeleton) → ∀ {asked}, DeriveAll db σ ks asked → DeriveAll db τ ks asked
  | [], [], _ => trivial
  | [], _ :: _, derive => derive
  | _ :: _, [], derive => derive
  | k :: ks, (_, _) :: _, derive =>
    ⟨Derives.congr same k derive.1, DeriveAll.congr same ks derive.2⟩

end

end Deriving

/-- A skeleton for each of the relations, in every combination; those of the first relation vary
slowest. -/
def forests (skeletons : RelationId → List Skeleton) : List RelationId → List (List Skeleton)
  | [] => [[]]
  | r :: rest => (skeletons r).flatMap fun k => (forests skeletons rest).map (k :: ·)

end Skeleton

namespace Database
open Skeleton
variable {db : Database}

/-- The skeletons of a relation in order, as far as their depth is less than the given one. -/
def skeletons (db : Database) : Nat → RelationId → List Skeleton
  | 0, _ => []
  | depth + 1, r =>
    (db.relation r).facts.zipIdx.map (fun entry => .fact entry.2) ++
      (db.relation r).rules.zipIdx.flatMap fun entry =>
        (forests (db.skeletons depth) entry.1.relations).map (.rule entry.2)

theorem pairwise_places {α : Type} (entries : List α) :
    entries.zipIdx.Pairwise fun first second => first.2 < second.2 := by
  rw [← List.pairwise_map (f := Prod.snd), List.zipIdx_map_snd]
  exact List.pairwise_lt_range'

theorem pairwise_forests {skeletons : RelationId → List Skeleton}
    (each : ∀ r, (skeletons r).Pairwise Precedes) (place : Nat) (relations : List RelationId) :
    ((forests skeletons relations).map (.rule place)).Pairwise Precedes := by
  -- What comes before a condition is the same in all combinations of what is left.
  have under (common : List Skeleton) (relations : List RelationId) :
      (forests skeletons relations).Pairwise fun one other =>
        Precedes (.rule place (common ++ one)) (.rule place (common ++ other)) := by
    induction relations generalizing common with
    | nil => exact List.pairwise_singleton ..
    | cons r rest ih =>
      rw [forests, List.pairwise_flatMap]
      constructor
      · intro k _
        rw [List.pairwise_map]
        simpa using ih (common ++ [k])
      · refine (each r).imp fun precedes one inside other there => ?_
        obtain ⟨one, _, rfl⟩ := List.mem_map.mp inside
        obtain ⟨other, _, rfl⟩ := List.mem_map.mp there
        exact .within precedes
  rw [List.pairwise_map]
  exact under [] relations

/-- The list is in order, so it names no skeleton twice. -/
theorem pairwise_skeletons (db : Database) (depth : Nat) (r : RelationId) :
    (db.skeletons depth r).Pairwise Precedes := by
  induction depth generalizing r with
  | zero => exact .nil
  | succ depth ih =>
    rw [skeletons, List.pairwise_append]
    refine ⟨?_, ?_, ?_⟩
    · rw [List.pairwise_map]
      exact (pairwise_places _).imp .facts
    · rw [List.pairwise_flatMap]
      constructor
      · intro entry _
        exact pairwise_forests ih entry.2 _
      · refine (pairwise_places _).imp fun less one inside other there => ?_
        obtain ⟨below, _, rfl⟩ := List.mem_map.mp inside
        obtain ⟨others, _, rfl⟩ := List.mem_map.mp there
        exact .rules less
    · intro one inside other there
      obtain ⟨_, _, rfl⟩ := List.mem_map.mp inside
      obtain ⟨_, _, there⟩ := List.mem_flatMap.mp there
      obtain ⟨_, _, rfl⟩ := List.mem_map.mp there
      exact .factRule

theorem mem_forests {skeletons : RelationId → List Skeleton} {σ : Valuation} {ks : List Skeleton}
    {asked : List (RelationId × List String)} (derive : DeriveAll db σ ks asked)
    (listed : ∀ atom ∈ asked, ∀ k : Skeleton, k.Derives db σ atom.1 atom.2 → k ∈ skeletons atom.1) :
    ks ∈ forests skeletons (asked.map (·.1)) := by
  induction asked generalizing ks with
  | nil =>
    cases ks with
    | nil => simp [forests]
    | cons => exact derive.elim
  | cons atom others ih =>
    cases ks with
    | nil => exact derive.elim
    | cons k ks =>
      obtain ⟨first, rest⟩ := List.forall_mem_cons.mp listed
      exact List.mem_flatMap.mpr
        ⟨k, first k derive.1, List.mem_map_of_mem (ih derive.2 rest)⟩

/-- Every skeleton that derives something is listed, where the depth goes beyond the rank. -/
theorem mem_skeletons {rank : RelationId → Nat} (ranks : db.Ranks rank) {σ : Valuation}
    {depth : Nat} {k : Skeleton} {r : RelationId} {values : List String} (deep : rank r < depth)
    (derives : k.Derives db σ r values) : k ∈ db.skeletons depth r := by
  induction depth generalizing k r values with
  | zero => cases deep
  | succ depth ih =>
    rw [skeletons, List.mem_append]
    cases k with
    | fact place =>
      obtain ⟨fact, found, _⟩ := derives
      exact .inl (List.mem_map.mpr
        ⟨(fact, place), List.mk_mem_zipIdx_iff_getElem?.mpr found, rfl⟩)
    | rule place below =>
      obtain ⟨rule, ρ, found, _, conditions⟩ := derives
      refine .inr (List.mem_flatMap.mpr
        ⟨(rule, place), List.mk_mem_zipIdx_iff_getElem?.mpr found, List.mem_map_of_mem ?_⟩)
      have listed : ∀ atom ∈ conditionsUnder ρ rule.conditions, ∀ k : Skeleton,
          k.Derives db σ atom.1 atom.2 → k ∈ db.skeletons depth atom.1 := by
        intro atom inside k derives
        obtain ⟨condition, member, rfl⟩ := List.mem_map.mp inside
        have lower := ranks r condition.1 (Derivable.depends (List.mem_of_getElem? found) member)
        have shallow : rank condition.1 < depth := by omega
        exact ih shallow derives
      have forest := mem_forests conditions listed
      rwa [relations_conditionsUnder] at forest

end Database
end Rulebook
