import Rulebook.Proofs.Search.Enumeration

/-! What the answers to a query say of its arguments. An answer stands for the tuples that the
arguments come to under its valuations, and what it resolves can be read off these tuples. The
answers to a query stand, one after the other, for the tuples that the skeletons of its relation
derive. A limit takes the first of the answers. -/
namespace Rulebook

namespace Substitution
variable {s t : Substitution} {args others : List Term}

/-- The tuple is what the arguments come to under a valuation of the substitution. -/
def Instance (s : Substitution) (args : List Term) (values : List String) : Prop :=
  ∃ σ, s.Holds σ ∧ args.map (Term.under σ) = values

theorem exists_instance (settled : s.Settled) (args : List Term) :
    ∃ values, s.Instance args values ∧ values.length = args.length :=
  ⟨_, ⟨_, holds_reading settled fun _ => "", rfl⟩, List.length_map _⟩

/-- A place is resolved to a text exactly if all tuples have this text there. -/
theorem getElem?_valuesOf (settled : s.Settled) {place : Nat} (inside : place < args.length)
    (text : String) : (s.valuesOf args)[place]? = some (some text) ↔
      ∀ values, s.Instance args values → values[place]? = some text := by
  have read : (s.valuesOf args)[place]? = some (s.walk args[place]).value? := by
    simp [valuesOf, reify, List.getElem?_eq_getElem inside]
  have under (σ : Valuation) :
      (args.map (Term.under σ))[place]? = some (args[place].under σ) := by
    simp [List.getElem?_eq_getElem inside]
  rw [read, Option.some.injEq]
  constructor
  · rintro resolved _ ⟨σ, holds, rfl⟩
    rw [under, ← walk_under holds]
    cases reached : s.walk args[place] with
    | var name =>
      rw [reached] at resolved
      cases resolved
    | lit value =>
      rw [reached] at resolved
      exact resolved
  · intro forced
    have reached : s.walk args[place] = .lit text := by
      refine walk_of_forced settled fun σ holds => ?_
      have here := forced _ ⟨σ, holds, rfl⟩
      rwa [under, Option.some.injEq] at here
    rw [reached]
    rfl

/-- Answers that stand for the same tuples resolve the same. -/
theorem valuesOf_eq (first : s.Settled) (second : t.Settled)
    (same : ∀ values, s.Instance args values ↔ t.Instance others values) :
    s.valuesOf args = t.valuesOf others := by
  have lengths : args.length = others.length := by
    obtain ⟨values, here, length⟩ := exists_instance first args
    obtain ⟨σ, _, rfl⟩ := (same values).mp here
    rw [← length, List.length_map]
  have size (s : Substitution) (args : List Term) : (s.valuesOf args).length = args.length := by
    simp [valuesOf, reify]
  refine List.ext_getElem ((size s args).trans (lengths.trans (size t others).symm)) ?_
  intro place left right
  have here : place < args.length := size s args ▸ left
  have there : place < others.length := size t others ▸ right
  refine Option.ext fun text => ?_
  have one := getElem?_valuesOf first here text
  have other := getElem?_valuesOf second there text
  rw [List.getElem?_eq_getElem left, Option.some.injEq] at one
  rw [List.getElem?_eq_getElem right, Option.some.injEq] at other
  simp only [one, other, same]

end Substitution

def Skeleton.Instance (db : Database) (r : RelationId) (args : List Term) (k : Skeleton)
    (values : List String) : Prop :=
  ∃ σ, args.map (Term.under σ) = values ∧ k.Derives db σ r values

namespace Search
variable {db : Database} {source : SourceId} {search last : Search} {p q r : Progress}
  {answers found : List Substitution}

/-- What a search has still to give once it has given some answers. -/
theorem Runs.rest (run : Runs db search p answers last q) (gives : search.Gives db p found r) :
    ∃ more, found = answers ++ more ∧ last.Gives db q more r := by
  induction run generalizing found with
  | refl => exact ⟨found, rfl, gives⟩
  | working stepped _ ih =>
    obtain ⟨final, state, whole, ended⟩ := gives
    cases whole with
    | refl => cases stepped.symm.trans ended
    | working again run =>
      cases stepped.symm.trans again
      exact ih ⟨final, state, run, ended⟩
    | answer again => cases stepped.symm.trans again
  | answer stepped _ ih =>
    obtain ⟨final, state, whole, ended⟩ := gives
    cases whole with
    | refl => cases stepped.symm.trans ended
    | working again => cases stepped.symm.trans again
    | answer again run =>
      cases stepped.symm.trans again
      obtain ⟨more, rfl, others⟩ := ih ⟨final, state, run, ended⟩
      exact ⟨more, rfl, others⟩

/-- A search that has ended has nothing more to give. -/
theorem Gives.of_ended (ended : search.step db p = (.ended, q))
    (gives : search.Gives db p found r) : found = [] ∧ q = r := by
  obtain ⟨final, state, run, last⟩ := gives
  cases run with
  | refl =>
    cases ended.symm.trans last
    exact ⟨rfl, rfl⟩
  | working again | answer again => cases ended.symm.trans again

/-- What a search gives is settled by where it starts. -/
theorem Gives.unique (first : search.Gives db p answers q) (second : search.Gives db p found r) :
    answers = found ∧ q = r := by
  obtain ⟨final, state, run, ended⟩ := first
  obtain ⟨more, rfl, rest⟩ := run.rest second
  obtain ⟨rfl, rfl⟩ := rest.of_ended ended
  exact ⟨(List.append_nil answers).symm, rfl⟩

/-- No more answers are collected than are wanted. -/
theorem length_harvestEnding (layered : db.isLayered) (wanted : Option Nat) (search : Search)
    (finite : search.isFinite) (p : Progress) {limit : Nat} (bounded : wanted = some limit) :
    (harvestEnding db layered wanted search finite p).answers.length ≤ limit := by
  fun_induction harvestEnding db layered wanted search finite p generalizing limit with
  | case1 => exact Nat.zero_le _
  | case2 _ _ _ _ _ _ _ _ _ ih => exact ih bounded
  | case3 => exact Nat.zero_le _
  | case4 => exact Nat.zero_le _
  | case5 search finite p wanted asks s rest q stepped lower ih =>
    subst bounded
    have positive : limit ≠ 0 := fun none => asks (congrArg some none)
    have more : (harvestEnding db layered _ rest lower.1 q).answers.length ≤ limit - 1 := ih rfl
    simp only [Harvest.cons, List.length_cons]
    omega

/-- A limit takes the first answers, as many as it allows, and the asking does not fail. -/
theorem harvest_take (layered : db.isLayered) (known : search.IsKnown)
    (gives : search.Gives db p found r) (limit : Nat) :
    ∃ last stop q, search.harvest db (some limit) p = ⟨found.take limit, last, stop, q⟩ ∧
      (stop = .enough ∨ stop = .ended) := by
  obtain ⟨answers, last, q, run, ⟨all, same⟩ | ⟨r, ended, same⟩⟩ :=
    harvest_known layered (some limit) known p
  · obtain ⟨more, rfl, _⟩ := run.rest gives
    obtain rfl : limit = answers.length := Option.some.inj all
    rw [List.take_left']
    · exact ⟨last, .enough, q, same, .inl rfl⟩
    · rfl
  · obtain ⟨more, rfl, rest⟩ := run.rest gives
    obtain ⟨rfl, rfl⟩ := rest.of_ended ended
    have short : (search.harvest db (some limit) p).answers.length ≤ limit := by
      rw [harvest, dif_pos layered, dif_pos known.isFinite]
      exact length_harvestEnding layered (some limit) search known.isFinite p rfl
    rw [same] at short
    rw [List.append_nil, List.take_of_length_le short]
    exact ⟨.ended, .ended, r, same, .inr rfl⟩

section Querying
variable {relation : RelationId} {args : List Term}

open Classical in
/-- The answers to a query stand for the tuples of the skeletons that derive any, in their order. -/
theorem answers_instances (plain : db.Plain) (salted : db.Salted source)
    {rank : RelationId → Nat} (ranks : db.Ranks rank) (inside : source < p.nextIds.length)
    (fresh : FreshArgs source p args) (answers : Answers db (.query relation args) p found r) :
    List.Forall₂ (fun (k : Skeleton) (s : Substitution) =>
        ∀ values, s.Instance args values ↔ k.Instance db relation args values)
      ((db.skeletons (rank relation + 1) relation).filter fun k =>
        ∃ values, k.Instance db relation args values) found := by
  have knows : Knows source (Past source p) p := ⟨fun _ past => past, inside⟩
  have solves := enumerates plain salted ranks (Nat.lt_succ_self (rank relation)) knows
    ⟨Substitution.settled_empty, Substitution.named_empty _⟩ fresh
  obtain ⟨given, q, gives, fits⟩ := solves.gives
  obtain ⟨rfl, rfl⟩ := Gives.unique gives answers
  have solution (k : Skeleton) (σ : Valuation) : k.Solution db .empty relation args σ ↔
      k.Derives db σ relation (args.map (Term.under σ)) :=
    and_iff_right (Substitution.holds_empty σ)
  have same : (fun k : Skeleton => decide (∃ σ, k.Solution db .empty relation args σ)) =
      fun k => decide (∃ values, k.Instance db relation args values) := by
    refine funext fun k => decide_eq_decide.mpr ⟨?_, ?_⟩
    · rintro ⟨σ, solves⟩
      exact ⟨_, σ, rfl, (solution k σ).mp solves⟩
    · rintro ⟨_, σ, rfl, derives⟩
      exact ⟨σ, (solution k σ).mpr derives⟩
  rw [same] at fits
  refine fits.imp fun k s alike values => ⟨?_, ?_⟩
  · rintro ⟨σ, holds, rfl⟩
    obtain ⟨τ, agrees, solves⟩ := (alike σ).mp ⟨σ, .self _ σ, holds⟩
    rw [← map_under_agrees agrees fresh]
    exact ⟨τ, rfl, (solution k τ).mp solves⟩
  · rintro ⟨σ, rfl, derives⟩
    obtain ⟨τ, agrees, holds⟩ := (alike σ).mpr ⟨σ, .self _ σ, (solution k σ).mpr derives⟩
    exact ⟨τ, holds, map_under_agrees agrees fresh⟩

end Querying
end Search
end Rulebook
