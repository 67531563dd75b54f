import Rulebook.Proofs.Exclusion.Refusal
import Rulebook.Proofs.Program.Interleaving
import Rulebook.Proofs.Renaming.Machine
import Rulebook.Proofs.Variant

/-! Exclusions that say the same. What an exclusion takes back are the stored facts that it rules
out, each of them once; and which these are does not depend on what its variables are called. So of
two machines with the same facts, and with rules and exclusions that say the same, a claim takes
back the same, and leaves two such machines. -/
namespace Rulebook

def Renaming.still : Renaming where
  distance := 0
  names := .refl String
  payloads := .refl String
  plain _ _ := rfl
  salt id rest := by
    rw [Int.add_zero]
    rfl
  fresh id hint := by
    rw [Int.add_zero]
    rfl
  payload id := by
    rw [Int.add_zero]
    rfl

theorem Fault.rename_still (fault : Fault) : fault.rename .still = fault := by
  have same (term : Term) : term.rename .still = term := by cases term <;> rfl
  cases fault with
  | bindsLiteral term => exact congrArg _ (same term)
  | alreadyBound term => exact congrArg _ (same term)
  | _ => rfl

/-- The exclusions say the same and flag the same positions, and all variables of both have plain
names. -/
structure Exclusion.Variant (exclusion other : Exclusion) : Prop where
  rule : exclusion.rule.Variant other.rule
  bound : other.bound = exclusion.bound
  flags : exclusion.bound.length = exclusion.rule.params.length
  plain : exclusion.Plain
  others : other.Plain

theorem Exclusion.plain_of_terms {exclusion : Exclusion}
    (plain : ∀ term ∈ exclusion.rule.terms, term.Plain) : exclusion.Plain where
  params term inside := plain term (List.mem_append_left _ inside)
  conditions condition stored term inside :=
    plain term (List.mem_append_right _ (List.mem_flatMap.mpr ⟨condition, stored, inside⟩))

theorem Exclusion.Variant.flags_other {exclusion other : Exclusion}
    (variant : exclusion.Variant other) : other.bound.length = other.rule.params.length := by
  rw [variant.bound, variant.rule.length_params, variant.flags]

theorem RulesOut.variant {db other : Database} (same : db.Variant other)
    {exclusion twin : Exclusion} (rule : exclusion.rule.Variant twin.rule)
    (bound : twin.bound = exclusion.bound) {new fact : List Term}
    (ruled : RulesOut db exclusion new fact) : RulesOut other twin new fact := by
  obtain ⟨σ, params, flagged, conditions⟩ := ruled
  obtain ⟨τ, texts, asks⟩ := rule.exists_instance σ
  refine ⟨τ, ?_, ?_, fun condition inside => ?_⟩
  · rw [texts, params]
  · rwa [bound]
  · obtain ⟨asked, among, place, equal⟩ := asks condition inside
    rw [← place, ← equal]
    exact (conditions asked among).variant same

theorem rulesOut_iff {db other : Database} (same : db.Variant other) {exclusion twin : Exclusion}
    (variant : exclusion.Variant twin) {new fact : List Term} :
    RulesOut other twin new fact ↔ RulesOut db exclusion new fact :=
  ⟨.variant same.symm variant.rule.symm variant.bound.symm,
    .variant same variant.rule variant.bound⟩

namespace Machine
variable {m n : Machine} {key : String} {r : RelationId} {terms : List Term}

/-- An exclusion takes back each of the stored facts that it rules out, if the claim has a term for
each of its parameters. -/
theorem exclude_ruled_out (formed : m.WellFormed) (declared : m.relations.get? key = some r)
    (literal : m.database.Literal) (new : ∀ term ∈ terms, term.isLiteral) {exclusion : Exclusion}
    (plain : exclusion.Plain) (flags : exclusion.bound.length = exclusion.rule.params.length) :
    ∃ n gone, (exclude r terms exclusion).run m = (.ok ⟨⟩, n) ∧ Evolves m n ∧
      Withdraws r gone m n ∧ gone.Nodup ∧
      ∀ fact, fact ∈ gone ↔ fact ∈ (m.database.relation r).facts ∧
        exclusion.rule.params.length ≤ terms.length ∧
        RulesOut m.database exclusion terms fact := by
  obtain ⟨found, last, n, answers, run, evolves, withdraws⟩ :=
    exclude_withdraws_found formed declared terms exclusion
  refine ⟨n, _, run, evolves, withdraws, nodup_eraseDups _, fun fact => ?_⟩
  rw [List.mem_eraseDups, List.mem_map]
  constructor
  · rintro ⟨s, given, rfl⟩
    obtain ⟨stored, ruled⟩ := excluded_sound literal new answers given
    refine ⟨stored, ?_, ruled⟩
    obtain ⟨σ, params, _⟩ := ruled
    have lengths := congrArg List.length params
    rw [Substitution.reify] at lengths
    simp only [List.length_map, length_masked] at lengths
    omega
  · rintro ⟨stored, lengths, ruled⟩
    exact excluded_complete formed literal new plain flags lengths answers stored ruled

/-- The machines have the same facts under the same keys, their rules and exclusions say the same,
and the same has happened to them, each item as often. -/
structure Variant (m n : Machine) : Prop where
  strict : n.strict = m.strict
  relations : n.relations = m.relations
  database : m.database.Variant n.database
  literal : m.database.Literal
  exclusions : ∀ key, List.Forall₂ Exclusion.Variant ((m.exclusions.get? key).getD [])
    ((n.exclusions.get? key).getD [])
  history : m.history.Perm n.history

namespace Variant

theorem logged (variant : m.Variant n) (message other : String) :
    (m.logged message).Variant (n.logged other) :=
  ⟨variant.strict, variant.relations, variant.database, variant.literal, variant.exclusions,
    variant.history⟩

theorem declared (variant : m.Variant n) (key : String) :
    (m.declared key).Variant (n.declared key) where
  strict := variant.strict
  relations := by
    rw [Machine.declared, Machine.declared, variant.relations, variant.database.length]
  database := variant.database.declare key
  literal := (Database.gains_declare m.database key).literal variant.literal
  exclusions := variant.exclusions
  history := variant.history

/-- Facts go from both, in whatever order. -/
theorem withdrawn (variant : m.Variant n) {after twin : Machine} {gone others : List (List Term)}
    (declared : r < m.database.relations.length) (left : Withdraws r gone m after)
    (right : Withdraws r others n twin) (same : gone.Perm others)
    (strict : after.strict = m.strict) (strict' : twin.strict = n.strict) :
    after.Variant twin where
  strict := by rw [strict, strict', variant.strict]
  relations := by rw [left.prunes.relations, right.prunes.relations, variant.relations]
  database := by
    rw [left.prunes.database, right.prunes.database, (variant.database.relation r).facts]
    simp only [same.mem_iff]
    exact variant.database.withFacts r _
  literal := by
    rw [left.prunes.database]
    exact variant.literal.withFacts declared fun fact stored =>
      variant.literal r fact (List.mem_of_mem_filter stored)
  exclusions := by
    rw [left.prunes.exclusions, right.prunes.exclusions]
    exact variant.exclusions
  history := by
    rw [left.history, right.history, variant.database.nameOf]
    exact variant.history.append (same.map _)

theorem asserted (variant : m.Variant n) {db twin : Database} (same : db.Variant twin)
    (literal : db.Literal) (key : String) (fact : List Term) :
    (m.asserted key fact db).Variant (n.asserted key fact twin) :=
  ⟨variant.strict, variant.relations, same, literal, variant.exclusions,
    variant.history.append_right _⟩

theorem excluding (variant : m.Variant n) {exclusion twin : Exclusion}
    (same : exclusion.Variant twin) (key : twin.key = exclusion.key) :
    (m.excluding exclusion).Variant (n.excluding twin) where
  strict := variant.strict
  relations := variant.relations
  database := variant.database
  literal := variant.literal
  exclusions other := by
    rw [Machine.excluding, Machine.excluding, Table.get?_put, Table.get?_put, key]
    split
    · exact List.rel_append (variant.exclusions exclusion.key) (.cons same .nil)
    · exact variant.exclusions other
  history := variant.history

end Variant

/-- Both machines are as operations leave them. -/
structure Paired (m n : Machine) : Prop where
  variant : m.Variant n
  left : m.WellFormed
  right : n.WellFormed

theorem Paired.of_variant {α : Type} {first other : MachineM α} (paired : m.Paired n)
    (works : ∀ m, Works m (first.run m).2) (works' : ∀ m, Works m (other.run m).2)
    (same : Corresponds .still Eq Variant (first.run m) (other.run n)) :
    Corresponds .still Eq Paired (first.run m) (other.run n) := by
  have left := paired.left.evolves (works m).evolves
  have right := paired.right.evolves (works' n).evolves
  generalize first.run m = here, other.run n = there at left right same
  cases same with
  | ok result state => exact .ok result ⟨state, left, right⟩
  | error state => exact .error ⟨state, left, right⟩

theorem variant_relationFor (variant : m.Variant n) (key : String) (create : Bool) :
    Corresponds .still Eq Variant ((relationFor key create).run m)
      ((relationFor key create).run n) := by
  rw [run_relationFor, run_relationFor, variant.relations]
  cases m.relations.get? key with
  | some r => exact .ok rfl variant
  | none =>
    cases create with
    | false => exact .refused rfl variant
    | true => exact .ok variant.database.length.symm (variant.declared key)

theorem paired_exclude (paired : m.Paired n) (declared : m.relations.get? key = some r)
    (new : ∀ term ∈ terms, term.isLiteral) {exclusion twin : Exclusion}
    (same : exclusion.Variant twin) :
    Corresponds .still Eq (fun m n => m.Paired n ∧ m.relations.get? key = some r)
      ((exclude r terms exclusion).run m) ((exclude r terms twin).run n) := by
  obtain ⟨variant, left, right⟩ := paired
  obtain ⟨after, gone, run, evolves, withdraws, nodup, ruled⟩ :=
    exclude_ruled_out left declared variant.literal new same.plain same.flags
  obtain ⟨last, others, run', evolves', withdraws', nodup', ruled'⟩ :=
    exclude_ruled_out right (variant.relations ▸ declared)
      (variant.database.literal variant.literal) new same.others same.flags_other
  have perm : gone.Perm others := by
    rw [List.perm_ext_iff_of_nodup nodup nodup']
    intro fact
    rw [ruled, ruled', (variant.database.relation r).facts, same.rule.length_params,
      rulesOut_iff variant.database same]
  rw [run, run']
  refine .ok rfl ⟨⟨?_, left.evolves evolves, right.evolves evolves'⟩, evolves.kept declared⟩
  exact variant.withdrawn (left.placed key r declared).1 withdraws withdraws' perm evolves.strict
    evolves'.strict

/-- The exclusions of a claim, one after the other. -/
theorem paired_excludes (paired : m.Paired n) (declared : m.relations.get? key = some r)
    (new : ∀ term ∈ terms, term.isLiteral) :
    Corresponds .still Eq Variant
      ((((m.exclusions.get? key).getD []).forM (exclude r terms)).run m)
      ((((n.exclusions.get? key).getD []).forM (exclude r terms)).run n) := by
  have group : Corresponds .still Eq (fun m n => m.Paired n ∧ m.relations.get? key = some r)
      ((((m.exclusions.get? key).getD []).forM (exclude r terms)).run m)
      ((((n.exclusions.get? key).getD []).forM (exclude r terms)).run n) :=
    Corresponds.forM (fun _ _ _ _ same state => paired_exclude state.1 state.2 new same)
      (paired.variant.exclusions key) ⟨paired, declared⟩
  exact group.imp (fun _ _ same => same) fun _ _ state => state.1.variant

/-- What remains of a claim after its exclusions: the fact is put in, or refused. -/
theorem variant_addFact (variant : m.Variant n) (r : RelationId) (key : String)
    (new : ∀ term ∈ terms, term.isLiteral) :
    Corresponds .still (Eq (α := PUnit)) Variant
      (match m.database.addFact r terms with
        | .error fault => (.error fault, m)
        | .ok db => (.ok ⟨⟩, m.asserted key terms db))
      (match n.database.addFact r terms with
        | .error fault => (.error fault, n)
        | .ok db => (.ok ⟨⟩, n.asserted key terms db)) := by
  have added := variant.database.addFact r terms
  generalize given : m.database.addFact r terms = here, n.database.addFact r terms = there
    at added ⊢
  cases added with
  | error fault => exact .refused fault.rename_still variant
  | ok related =>
    exact .ok rfl (variant.asserted related
      ((Database.gains_addFact new given).literal variant.literal) key terms)

theorem paired_assert (paired : m.Paired n) (key : String)
    (new : ∀ term ∈ terms, term.isLiteral) (create : Bool) :
    Corresponds .still Eq Paired ((assert key terms create).run m)
      ((assert key terms create).run n) := by
  apply paired.of_variant (works_assert key terms create) (works_assert key terms create)
  have first := variant_relationFor paired.variant key create
  have left := paired.left.evolves (works_relationFor key create m).evolves
  have right := paired.right.evolves (works_relationFor key create n).evolves
  rw [run_assert, run_assert]
  cases here : (relationFor key create).run m with
  | mk result ready =>
  cases there : (relationFor key create).run n with
  | mk other twin =>
  rw [here, there] at first
  rw [here] at left
  rw [there] at right
  cases first with
  | error variant => exact .error variant
  | @ok r _ _ _ same variant =>
    subst same
    have group := paired_excludes ⟨variant, left, right⟩ (relationFor_ok here).2 new
    dsimp only
    generalize (((ready.exclusions.get? key).getD []).forM (exclude r terms)).run ready =
      outcome, (((twin.exclusions.get? key).getD []).forM (exclude r terms)).run twin =
      other at group
    cases group with
    | error variant => exact .error variant
    | ok _ variant => exact variant_addFact variant r key new

theorem paired_claim (paired : m.Paired n) {fact : Phrase}
    (new : ∀ term ∈ fact.args, term.isLiteral) :
    Corresponds .still Eq Paired ((claim fact).run m) ((claim fact).run n) := by
  unfold claim
  rw [run_bind, run_get, run_bind, run_get]
  dsimp only
  rw [paired.variant.strict]
  exact paired_assert paired fact.key new (!m.strict)

end Machine
end Rulebook
