import Rulebook.Proofs.Renaming.Search

/-! Searches in step. Where every step of one search is matched by a step of another, over renamed
facts and from counters at the distance, whatever is asked of the one is matched by asking the
other. Renaming a search is one way to get such a pair. -/
namespace Rulebook

def Stop.rename (π : Renaming) : Stop → Stop
  | failed fault => failed (fault.rename π)
  | stop => stop

/-- Two steps to outcomes of the same kind, with matching answers and matching rests, and counters
that are still at the distance. -/
inductive Outcome.Matches (π : Renaming) (S : Search → Search → Prop)
    (A : Substitution → Substitution → Prop) : Outcome × Progress → Outcome × Progress → Prop where
  | answer {s t : Substitution} {rest other : Search} {p : Progress} : A s t → S rest other →
      Matches π S A (.answer s rest, p) (.answer t other, p.rename π)
  | working {rest other : Search} {p : Progress} : S rest other →
      Matches π S A (.working rest, p) (.working other, p.rename π)
  | ended {p : Progress} : Matches π S A (.ended, p) (.ended, p.rename π)
  | failed {fault : Fault} {p : Progress} :
      Matches π S A (.failed fault, p) (.failed (fault.rename π), p.rename π)

theorem eq_map_of_forall₂ {α β : Type} {f : α → β} {items : List α} {others : List β}
    (related : List.Forall₂ (fun a b => b = f a) items others) : others = items.map f := by
  induction related with
  | nil => rfl
  | cons here _ ih => rw [here, ih, List.map_cons]

structure Harvest.Matches (π : Renaming) (S : Search → Search → Prop)
    (A : Substitution → Substitution → Prop) (found other : Harvest) : Prop where
  answers : List.Forall₂ A found.answers other.answers
  rest : S found.rest other.rest
  stop : other.stop = found.stop.rename π
  progress : other.progress = found.progress.rename π

namespace Search

/-- A step of either search is matched by a step of the other, as long as there are so many
sources. -/
structure InStep (π : Renaming) (db : Database) (sources : Nat) (S : Search → Search → Prop)
    (A : Substitution → Substitution → Prop) : Prop where
  ended : S .ended .ended
  finite : ∀ {search other}, S search other → search.isFinite ∧ other.isFinite
  step : ∀ {search other} {p : Progress}, S search other → p.nextIds.length = sources →
    Outcome.Matches π S A (search.step db p) (other.step (db.rename π) (p.rename π))

section Harvesting
variable {db : Database}

/-- Asking goes step by step. -/
theorem harvest_step (layered : db.isLayered) {search : Search} (finite : search.isFinite)
    {wanted : Option Nat} (asks : wanted ≠ some 0) (p : Progress) :
    search.harvest db wanted p =
      match search.step db p with
      | (.working rest, q) => rest.harvest db wanted q
      | (.ended, q) => ⟨[], .ended, .ended, q⟩
      | (.failed fault, q) => ⟨[], .ended, .failed fault, q⟩
      | (.answer s rest, q) => (rest.harvest db (wanted.map (· - 1)) q).cons s := by
  have here {rest : Search} (finite : rest.isFinite) (wanted : Option Nat) (q : Progress) :
      rest.harvest db wanted q = harvestEnding db layered wanted rest finite q := by
    rw [harvest, dif_pos layered, dif_pos finite]
  rw [here finite, harvestEnding]
  · split <;> rename_i stepped
    · exact (here _ _ _).symm.trans (by rw [stepped])
    · rw [stepped]
    · rw [stepped]
    · exact (congrArg (Harvest.cons _) (here _ _ _).symm).trans (by rw [stepped])
  · exact asks

variable {π : Renaming} {sources : Nat} {S : Search → Search → Prop}
  {A : Substitution → Substitution → Prop}

/-- Searches in step are asked with matching results. -/
theorem harvest_matches (inStep : db.isLayered → InStep π db sources S A) {search other : Search}
    (related : S search other) (wanted : Option Nat) {p : Progress}
    (minting : p.nextIds.length = sources) :
    (search.harvest db wanted p).Matches π S A
      (other.harvest (db.rename π) wanted (p.rename π)) := by
  have same := db.isLayered_rename π
  by_cases layered : db.isLayered
  · have inStep := inStep layered
    generalize size : search.weight db db.weightOf = n
    induction n using Nat.strongRecOn generalizing search other wanted p with
    | ind n ih =>
      obtain ⟨finite, finite'⟩ := inStep.finite related
      by_cases asks : wanted = some 0
      · rw [asks, harvest, dif_pos layered, dif_pos finite, harvestEnding, harvest,
          dif_pos (same.trans layered), dif_pos finite', harvestEnding]
        exact ⟨.nil, related, rfl, rfl⟩
      -- What a step leaves weighs less and has as many sources, so the hypothesis covers it.
      have less {rest : Search} : (search.step db p).1.rest? = some rest →
          rest.weight db db.weightOf < n :=
        fun left => size ▸ (step_lowers (db.weighs_weightOf layered) finite left).2
      have minting' : (search.step db p).2.nextIds.length = sources :=
        (before_of_step rfl).1.symm.trans minting
      have matched := inStep.step related minting
      rw [harvest_step layered finite asks, harvest_step (same.trans layered) finite' asks]
      generalize search.step db p = here, other.step (db.rename π) (p.rename π) = there
        at matched less minting'
      cases matched with
      | answer given related =>
        obtain ⟨answers, rest, stop, progress⟩ := ih _ (less rfl) related _ minting' rfl
        exact ⟨.cons given answers, rest, stop, progress⟩
      | working related => exact ih _ (less rfl) related _ minting' rfl
      | ended => exact ⟨.nil, inStep.ended, rfl, rfl⟩
      | failed => exact ⟨.nil, inStep.ended, rfl, rfl⟩
  · rw [harvest, dif_neg layered, harvest, dif_neg (same ▸ layered)]
    exact ⟨.nil, related, rfl, rfl⟩

/-- A search and the same search renamed are in step. -/
theorem inStep_rename (layered : db.isLayered)
    (regular : ∀ r, ∀ rule ∈ (db.relation r).rules, rule.Regular sources) :
    InStep π db sources (fun search other => search.isFinite ∧ other = search.rename π)
      (fun s t => t = s.rename π) where
  ended := ⟨rfl, rfl⟩
  finite := by
    rintro search _ ⟨finite, rfl⟩
    exact ⟨finite, (search.isFinite_rename π).trans finite⟩
  step := by
    rintro search _ p ⟨finite, rfl⟩ minting
    have left {rest : Search} : (search.step db p).1.rest? = some rest → rest.isFinite :=
      fun left => (step_lowers (db.weighs_weightOf layered) finite left).1
    rw [step_rename π finite (minting ▸ regular)]
    generalize search.step db p = outcome at left
    obtain ⟨outcome, q⟩ := outcome
    cases outcome with
    | answer s rest => exact .answer rfl ⟨left rfl, rfl⟩
    | working rest => exact .working ⟨left rfl, rfl⟩
    | ended => exact .ended
    | failed fault => exact .failed

end Harvesting
end Search
end Rulebook
