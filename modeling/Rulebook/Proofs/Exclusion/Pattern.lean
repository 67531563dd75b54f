import Rulebook.Proofs.Exclusion.Refusal

/-! Which claims an exclusion looks at. Only the flagged positions of its pattern are held against
the claim; what stands at the others, a literal too, is held against the stored facts alone. So a
claim beside the pattern is passed over where it differs at a flagged position, and wherever the
other positions hold nothing but variables of their own. -/
namespace Rulebook

namespace Exclusion

def Matches (exclusion : Exclusion) (terms : List Term) : Prop :=
  ∃ σ : Valuation, (exclusion.rule.params.map (Term.under σ)).map Term.lit = terms

/-- There is a term for each parameter, and some instance of the parameters has these terms at the
flagged positions. -/
structure Concerns (exclusion : Exclusion) (terms : List Term) : Prop where
  enough : exclusion.rule.params.length ≤ terms.length
  flagged : ∃ σ : Valuation, ∀ place : Nat, exclusion.bound[place]? = some true →
    ((exclusion.rule.params.map (Term.under σ)).map Term.lit)[place]? = terms[place]?

structure OpenAt (exclusion : Exclusion) (place : Nat) (name : String) : Prop where
  unflagged : exclusion.bound[place]? = some false
  stands : exclusion.rule.params[place]? = some (.var name)

/-- Every position without a flag holds a variable that stands at no other position. -/
def OpensUnflagged (exclusion : Exclusion) : Prop :=
  ∀ place : Nat, exclusion.bound[place]? = some false →
    ∃ name, exclusion.rule.params[place]? = some (.var name) ∧
      ∀ other, exclusion.rule.params[other]? = some (.var name) → other = place

section Filling
variable {exclusion : Exclusion} {terms : List Term} {σ : Valuation}

open Classical in
/-- The valuation with other texts for the variables without a flag: those of the terms at their
positions. -/
noncomputable def filled (exclusion : Exclusion) (terms : List Term) (σ : Valuation) : Valuation :=
  fun name =>
    if here : ∃ place, exclusion.OpenAt place name then
      (terms[here.choose]?.map Term.key).getD ""
    else σ name

theorem filled_open (opens : exclusion.OpensUnflagged) {place : Nat} {name : String}
    (here : exclusion.OpenAt place name) :
    exclusion.filled terms σ name = (terms[place]?.map Term.key).getD "" := by
  have found : ∃ other, exclusion.OpenAt other name := ⟨place, here⟩
  obtain ⟨only, stands, alone⟩ := opens place here.unflagged
  obtain rfl : only = name := by simpa [stands] using here.stands
  rw [filled, dif_pos found, alone _ found.choose_spec.stands]

/-- What stands at a flagged position keeps its text. -/
theorem filled_flagged (opens : exclusion.OpensUnflagged) {place : Nat} {param : Term}
    (flagged : exclusion.bound[place]? = some true)
    (given : exclusion.rule.params[place]? = some param) :
    param.under (exclusion.filled terms σ) = param.under σ := by
  cases param with
  | lit value => rfl
  | var name =>
    apply dif_neg
    rintro ⟨other, here⟩
    obtain ⟨only, stands, alone⟩ := opens other here.unflagged
    obtain rfl : only = name := by simpa [stands] using here.stands
    rw [alone place given, here.unflagged] at flagged
    cases flagged

/-- A claim that an exclusion looks at is an instance of it, if the positions without a flag hold
variables of their own. -/
theorem Concerns.matches (concerns : exclusion.Concerns terms) (opens : exclusion.OpensUnflagged)
    (flags : exclusion.bound.length = exclusion.rule.params.length)
    (lengths : terms.length ≤ exclusion.rule.params.length)
    (literal : ∀ term ∈ terms, term.isLiteral) : exclusion.Matches terms := by
  obtain ⟨enough, σ, agree⟩ := concerns
  refine ⟨exclusion.filled terms σ, List.ext_getElem? fun place => ?_⟩
  by_cases inside : place < terms.length
  · have given := List.getElem?_eq_getElem (show place < exclusion.rule.params.length by omega)
    obtain ⟨flag, here⟩ : ∃ flag, exclusion.bound[place]? = some flag :=
      ⟨_, List.getElem?_eq_getElem (show place < exclusion.bound.length by omega)⟩
    cases flag with
    | true =>
      rw [← agree place here]
      simp only [List.getElem?_map, given, Option.map_some, filled_flagged opens here given]
    | false =>
      obtain ⟨name, stands, _⟩ := opens place here
      have text : exclusion.filled terms σ name = _ := filled_open opens ⟨here, stands⟩
      have term := List.getElem?_eq_getElem inside
      have closed := Term.eq_lit_under (literal _ (List.getElem_mem inside)) fun _ => ""
      rw [term] at text
      simp only [List.getElem?_map, stands, term, Option.map_some, Term.under, text]
      rw [closed]
      rfl
  · rw [List.getElem?_eq_none (by simp; omega), List.getElem?_eq_none (by omega)]

end Filling
end Exclusion

namespace Machine
variable {m n : Machine} {key : String} {r : RelationId}

/-- An exclusion finds facts for claims only that it looks at. -/
theorem concerns_of_found (literal : m.database.Literal) {terms : List Term}
    (new : ∀ term ∈ terms, term.isLiteral) {exclusion : Exclusion}
    (flags : exclusion.bound.length = exclusion.rule.params.length) {id : Int}
    {found : List Substitution} {p last : Progress} (answers : Search.Answers m.database
      (m.excluded r (masked id terms exclusion.bound).1 exclusion) p found last)
    {s : Substitution} (given : s ∈ found) : exclusion.Concerns terms := by
  obtain ⟨_, σ, params, flagged, _⟩ := excluded_sound literal new answers given
  constructor
  · have lengths := congrArg List.length params
    rw [Substitution.reify] at lengths
    simp only [List.length_map, length_masked] at lengths
    omega
  · refine ⟨σ, fun place here => ?_⟩
    rw [params]
    exact flagged place here

/-- An exclusion that does not look at the claim only uses up ids. -/
theorem run_exclude_unconcerned (formed : m.WellFormed) (literal : m.database.Literal)
    {terms : List Term} (new : ∀ term ∈ terms, term.isLiteral) {exclusion : Exclusion}
    (flags : exclusion.bound.length = exclusion.rule.params.length)
    (beside : ¬exclusion.Concerns terms) :
    ∃ id, (exclude r terms exclusion).run m = (.ok ⟨⟩, { m with nextId := id }) := by
  obtain ⟨found, last, answers, run⟩ := run_exclude formed.acyclic.layered r terms exclusion
  cases found with
  | nil => exact ⟨_, run⟩
  | cons s found =>
    exact absurd (concerns_of_found literal new flags answers List.mem_cons_self) beside

/-- Also in the midst of a claim, an exclusion takes nothing back for literals that no instance of
its parameters has at the flagged positions. Where the other positions hold variables of their own,
this goes for all that is no instance of the parameters. -/
theorem Reachable.exclude_beside_pattern (reachable : m.Reachable) (evolves : Evolves m n)
    (literal : n.database.Literal) {exclusion : Exclusion}
    (registered : exclusion ∈ (n.exclusions.get? key).getD []) {terms : List Term}
    (new : ∀ term ∈ terms, term.isLiteral) :
    (¬exclusion.Concerns terms →
      ∃ id, (exclude r terms exclusion).run n = (.ok ⟨⟩, { n with nextId := id })) ∧
    (exclusion.OpensUnflagged → terms.length ≤ exclusion.rule.params.length →
      ¬exclusion.Matches terms →
      ∃ id, (exclude r terms exclusion).run n = (.ok ⟨⟩, { n with nextId := id })) := by
  have formed := reachable.wellFormed.evolves evolves
  have flags := (formed.admits registered).2.flags
  constructor
  · intro beside
    exact run_exclude_unconcerned formed literal new flags beside
  · intro opens lengths beside
    apply run_exclude_unconcerned formed literal new flags
    intro concerns
    exact beside (concerns.matches opens flags lengths new)

/-- The condition names the group, so its position is flagged. -/
def groupText : String := "+ may \"a\"\n:: may \"a\"\n    ? seat \"a\" (y)\n+ seat \"a\" \"1\""

def grouped : Machine := ((load groupText).run {}).2

theorem exclude_beside_pattern_grouped :
    ∃ exclusion ∈ (grouped.exclusions.get? "seat %s %s").getD [],
      ¬exclusion.Concerns [.lit "b", .lit "2"] ∧ exclusion.OpensUnflagged ∧
      ¬exclusion.Matches [.lit "b", .lit "2"] ∧
      ∃ id, (exclude 1 [.lit "b", .lit "2"] exclusion).run grouped =
        (.ok ⟨⟩, { grouped with nextId := id }) := by
  obtain ⟨exclusion, registered, params, bound⟩ :
      ∃ exclusion ∈ (grouped.exclusions.get? "seat %s %s").getD [],
        exclusion.rule.params = [.lit "a", .var "y"] ∧ exclusion.bound = [true, false] := by
    decide +kernel
  have differs : ¬exclusion.Concerns [.lit "b", .lit "2"] := by
    rintro ⟨_, σ, agree⟩
    have first := agree 0 (by rw [bound]; rfl)
    rw [params] at first
    exact absurd first (by simp [Term.under])
  have opens : exclusion.OpensUnflagged := by
    intro place unflagged
    rw [bound] at unflagged
    rcases place with _ | _ | place
    · cases unflagged
    · refine ⟨"y", by rw [params]; rfl, fun other stands => ?_⟩
      rw [params] at stands
      rcases other with _ | _ | other
      · cases stands
      · rfl
      · cases stands
    · cases unflagged
  have beside : ¬exclusion.Matches [.lit "b", .lit "2"] := by
    rintro ⟨σ, same⟩
    rw [params] at same
    exact absurd same (by simp [Term.under])
  have reachable : grouped.Reachable := ⟨false, false, 0, .load groupText {}⟩
  have literal : grouped.database.Literal := by decide +kernel
  obtain ⟨passed, _⟩ := reachable.exclude_beside_pattern (r := 1) .refl literal registered
    (show ∀ term ∈ [Term.lit "b", .lit "2"], term.isLiteral by decide)
  exact ⟨exclusion, registered, differs, opens, beside, passed differs⟩

/-- The literal stands at a position without a flag. -/
def fixedText : String := "? seat \"a\" (y)\n+ seat \"a\" \"1\""

def fixed : Machine := ((load fixedText).run {}).2

/-- The claim is for another group than the exclusion, and the stored fact goes. -/
theorem exclude_ignores_literal :
    fixed.Reachable ∧ fixed.database.Literal ∧ fixed.relations.get? "seat %s %s" = some 0 ∧
      (fixed.database.relation 0).facts = [[.lit "a", .lit "1"]] ∧
      ∃ exclusion ∈ (fixed.exclusions.get? "seat %s %s").getD [],
        ¬exclusion.Matches [.lit "b", .lit "2"] ∧
        (((exclude 0 [.lit "b", .lit "2"] exclusion).run fixed).2.database.relation 0).facts =
          [] := by
  refine ⟨⟨false, false, 0, .load fixedText {}⟩, by decide +kernel, by decide +kernel,
    by decide +kernel, ?_⟩
  obtain ⟨exclusion, registered, params, gone⟩ :
      ∃ exclusion ∈ (fixed.exclusions.get? "seat %s %s").getD [],
        exclusion.rule.params = [.lit "a", .var "y"] ∧
        (((exclude 0 [.lit "b", .lit "2"] exclusion).run fixed).2.database.relation 0).facts =
          [] := by
    decide +kernel
  refine ⟨exclusion, registered, ?_, gone⟩
  rintro ⟨σ, same⟩
  rw [params] at same
  exact absurd same (by simp [Term.under])

end Machine
end Rulebook
