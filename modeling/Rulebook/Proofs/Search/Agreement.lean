import Rulebook.Proofs.Exclusion.Variant
import Rulebook.Proofs.Renaming.Simulation
import Rulebook.Proofs.Search.Reflection

/-! Searches that agree on some names. Two substitutions may bind different variables and yet come
to the same for every term that is made of certain names: these names stand for themselves. Then a
search that works with such terms only cannot tell the two apart: from either, it takes the same
steps, and the answers agree again. -/
namespace Rulebook

namespace Pairing
variable {ok : String → Prop}

/-- Names of this kind stand for themselves, and none is still to come. -/
def names (ok : String → Prop) : Pairing :=
  diagonal ok (fun _ => False) (fun _ => False) fun _ _ => ⟨id, id⟩

theorem same_names {x y : Term} : (names ok).Same x y ↔ x = y ∧ x.Named ok := by
  constructor
  · intro same
    cases same with
    | var paired => exact ⟨congrArg Term.var paired.1, paired.2⟩
    | lit value => exact ⟨rfl, trivial⟩
  · rintro ⟨rfl, named⟩
    cases x with
    | var name => exact .var ⟨rfl, named⟩
    | lit value => exact .lit value

theorem same_names_self {terms : List Term} (named : ∀ term ∈ terms, term.Named ok) :
    List.Forall₂ (names ok).Same terms terms :=
  List.forall₂_same.mpr fun term inside => same_names.mpr ⟨rfl, named term inside⟩

end Pairing

namespace Substitution
variable {ok : String → Prop} {s t : Substitution} {x y : Table Term} {left right target value : Term}

/-- Terms with names of this kind come to the same under both, and to a name of this kind or a
literal. -/
structure Agrees (ok : String → Prop) (s t : Substitution) : Prop where
  left : s.Settled
  right : t.Settled
  walk : ∀ term, term.Named ok → s.walk term = t.walk term
  named : ∀ term, term.Named ok → (s.walk term).Named ok

/-- The names stand for themselves. -/
theorem agrees_iff_reflects : s.Agrees ok t ↔ (Pairing.names ok).Reflects s t := by
  have unrestricted (s : Substitution) : s.Named fun _ => ¬False := by
    intro name term _
    cases term <;> exact ⟨id, by simp [Term.Named]⟩
  constructor
  · intro agrees
    refine ⟨agrees.left, agrees.right, fun same => ?_, unrestricted s, unrestricted t⟩
    obtain ⟨rfl, named⟩ := Pairing.same_names.mp same
    exact Pairing.same_names.mpr ⟨agrees.walk _ named, agrees.named _ named⟩
  · intro reflects
    have walks (term : Term) (named : term.Named ok) :=
      Pairing.same_names.mp (reflects.walk (Pairing.same_names.mpr ⟨rfl, named⟩))
    exact ⟨reflects.left, reflects.right, fun term named => (walks term named).1,
      fun term named => (walks term named).2⟩

theorem unifier_reflects {u v : Option Substitution} (related : Option.Rel (Agrees ok) u v) :
    Option.Rel (Pairing.names ok).Reflects u v := by
  cases related with
  | none => exact .none
  | some agrees => exact .some (agrees_iff_reflects.mp agrees)

theorem Agrees.refl_empty (ok : String → Prop) : empty.Agrees ok empty :=
  agrees_iff_reflects.mpr (Pairing.reflects_empty _)

theorem Agrees.push_empty (agrees : s.Agrees ok t) : (s.push .empty).Agrees ok (t.push .empty) :=
  agrees_iff_reflects.mpr (agrees_iff_reflects.mp agrees).push_empty

/-- What was staged is put on top, or left out where it is nothing. -/
theorem Agrees.trimmed (agrees : (s.push x).Agrees ok (t.push y)) (below : s.Agrees ok t) :
    (if x.entries.isEmpty then s else s.push x).Agrees ok
      (if y.entries.isEmpty then t else t.push y) :=
  agrees_iff_reflects.mpr
    ((agrees_iff_reflects.mp agrees).trimmed (agrees_iff_reflects.mp below))

/-- What is requested depends on what the two come to. -/
theorem request_congr {left' right' : Term} (first : s.walk left = t.walk left')
    (second : s.walk right = t.walk right') : s.request left right = t.request left' right' := by
  rw [request, request, first, second]

theorem request_named (asked : s.request left right = some (target, value))
    (first : (s.walk left).Named ok) (second : (s.walk right).Named ok) :
    target.Named ok ∧ value.Named ok := by
  unfold request at asked
  split at asked
  · cases asked
  split at asked
  · rename_i name reached
    cases asked
    exact ⟨reached ▸ first, second⟩
  · rename_i text name literal reached
    cases asked
    exact ⟨reached ▸ second, trivial⟩
  · cases asked

end Substitution

theorem Progress.rename_still (p : Progress) : p.rename .still = p := by
  have same : p.nextIds.map (· + Renaming.still.distance) = p.nextIds := by
    simp [Renaming.still]
  rw [Progress.rename, same]

inductive Outcome.Alike (S : Search → Search → Prop) (A : Substitution → Substitution → Prop) :
    Outcome × Progress → Outcome × Progress → Prop where
  | answer {s t : Substitution} {rest other : Search} {p : Progress} : A s t → S rest other →
      Alike S A (.answer s rest, p) (.answer t other, p)
  | working {rest other : Search} {p : Progress} : S rest other →
      Alike S A (.working rest, p) (.working other, p)
  | ended {p : Progress} : Alike S A (.ended, p) (.ended, p)

theorem Outcome.Alike.matches {S : Search → Search → Prop} {A : Substitution → Substitution → Prop}
    {one other : Outcome × Progress} (alike : Outcome.Alike S A one other) :
    Outcome.Matches .still S A one other := by
  cases alike with
  | @answer s t rest other p given related =>
    have same := Outcome.Matches.answer (π := .still) (p := p) given related
    rwa [p.rename_still] at same
  | @working rest other p related =>
    have same := Outcome.Matches.working (π := .still) (A := A) (p := p) related
    rwa [p.rename_still] at same
  | @ended p =>
    have same := Outcome.Matches.ended (π := .still) (S := S) (A := A) (p := p)
    rwa [p.rename_still] at same

namespace Search
section Stepping
variable {ok : String → Prop} {db : Database} {search other : Search}

/-- All that is stored has names of this kind, and so has every rule under a salt. -/
structure Speaks (ok : String → Prop) (db : Database) : Prop where
  stored : ∀ r, ∀ fact ∈ (db.relation r).facts, ∀ term ∈ fact, term.Named ok
  used : ∀ r, ∀ rule ∈ (db.relation r).rules, ∃ source, rule.source = some source ∧
    ∀ id, ∀ term ∈ rule.terms, (term.salted (Naming.salt id)).Named ok

/-- Searches from the same progress keep to names that stand for themselves. -/
theorem Speaks.keeps (speaks : Speaks ok db) :
    Pairing.Keeps db (fun P p q => P = .names ok ∧ p = q) fun _ _ _ => True where
  stored := by
    rintro P p q ⟨rfl, rfl⟩ r fact stored
    exact Pairing.same_names_self (speaks.stored r fact stored)
  used := by
    rintro P p q ⟨rfl, rfl⟩ r args args' rule stored same _
    obtain ⟨source, salted, named⟩ := speaks.used r rule stored
    rw [rule.use_salted salted, rule.use_salted salted]
    refine ⟨_, .refl _, ⟨rfl, rfl⟩, Pairing.sameGoal_rule same fun term inside => ?_⟩
    exact Pairing.same_names.mpr ⟨rfl, named _ term inside⟩

/-- Searches that go on alike take the same step. -/
theorem step_linked (speaks : Speaks ok db) (linked : (Pairing.names ok).Linked search other)
    (p : Progress) :
    Outcome.Alike (Pairing.names ok).Linked (Substitution.Agrees ok) (search.step db p)
      (other.step db p) := by
  obtain ⟨_, _, ⟨rfl, same⟩, outcomes⟩ := linked.steps speaks.keeps ⟨rfl, rfl⟩ fun _ _ => trivial
  generalize search.step db p = one, other.step db p = two at same outcomes
  obtain ⟨one, p⟩ := one
  obtain ⟨two, q⟩ := two
  cases same
  cases outcomes with
  | answer reflects rest => exact .answer (Substitution.agrees_iff_reflects.mpr reflects) rest
  | working rest => exact .working rest
  | ended => exact .ended

end Stepping

/-- Names that the terms of a search have, and valuations that its answers stand for. -/
structure Kind where
  names : String → Prop
  valuations : Valuation → Prop

section Choosing
variable {db : Database} {kinds : Kind → Prop} {kind : Kind}

/-- A branch that goes on like another, and whose answers stand for valuations of its kind. -/
structure Branch (db : Database) (kind : Kind) (search other : Search) : Prop where
  linked : (Pairing.names kind.names).Linked search other
  settled : search.IsSettled
  means : ∀ σ, search.Means db σ → kind.valuations σ

def Branches (db : Database) (kinds : Kind → Prop) (search other : Search) : Prop :=
  ∃ kind, kinds kind ∧ Branch db kind search other

def Kindred (kinds : Kind → Prop) (s t : Substitution) : Prop :=
  ∃ kind, kinds kind ∧ s.Agrees kind.names t ∧ ∀ σ, s.Holds σ → kind.valuations σ

/-- Alternatives that go on alike, each in names of its own: to be opened, or taking turns. -/
inductive Abreast (db : Database) (kinds : Kind → Prop) : Search → Search → Prop where
  | ended : Abreast db kinds .ended .ended
  | choosing {goals goals' : List Goal} : goals.all Goal.isSearchable →
      goals'.all Goal.isSearchable →
      List.Forall₂ (fun goal goal' => Branches db kinds (.pending goal .empty)
        (.pending goal' .empty)) goals goals' →
      Abreast db kinds (.pending (.any goals) .empty) (.pending (.any goals') .empty)
  | round {queue queue' : List Search} : List.Forall₂ (Branches db kinds) queue queue' →
      Abreast db kinds (.round queue) (.round queue')

theorem areFinite_branches {queue queue' : List Search}
    (branches : List.Forall₂ (Branches db kinds) queue queue') :
    areFinite queue ∧ areFinite queue' := by
  induction branches with
  | nil => exact ⟨rfl, rfl⟩
  | cons first _ ih =>
    obtain ⟨kind, _, branch⟩ := first
    obtain ⟨one, other⟩ := branch.linked.isFinite
    simp only [areFinite, one, other, ih.1, ih.2, Bool.and_self, and_self]

theorem areFinite_goals {goals goals' : List Goal}
    (branches : List.Forall₂ (fun goal goal' => Branches db kinds (.pending goal .empty)
      (.pending goal' .empty)) goals goals') : Goal.areFinite goals ∧ Goal.areFinite goals' := by
  induction branches with
  | nil => exact ⟨rfl, rfl⟩
  | cons first _ ih =>
    obtain ⟨kind, _, branch⟩ := first
    obtain ⟨one, other⟩ := branch.linked.isFinite
    rw [isFinite] at one other
    simp only [Goal.areFinite, one, other, ih.1, ih.2, Bool.and_self, and_self]

theorem Abreast.isFinite {search other : Search} (abreast : Abreast db kinds search other) :
    search.isFinite ∧ other.isFinite := by
  cases abreast with
  | ended => exact ⟨rfl, rfl⟩
  | choosing _ _ branches => exact areFinite_goals branches
  | round branches => exact areFinite_branches branches

/-- A step of a branch is matched, and what it leaves is a branch again. -/
theorem Branch.step {search other : Search} (branch : Branch db kind search other)
    (speaks : Speaks kind.names db) (p : Progress) :
    Outcome.Alike (Branch db kind) (fun s t => s.Agrees kind.names t ∧
      ∀ σ, s.Holds σ → kind.valuations σ) (search.step db p) (other.step db p) := by
  obtain ⟨linked, settled, means⟩ := branch
  have alike := step_linked speaks linked p
  have sound {outcome : Outcome} {q : Progress} (stepped : search.step db p = (outcome, q))
      (σ : Valuation) (here : outcome.Means db σ) : kind.valuations σ :=
    means σ (sound_of_step (.refl db) settled stepped here)
  generalize stepped : search.step db p = here, other.step db p = there at alike
  cases alike with
  | answer agrees linked =>
    exact .answer ⟨agrees, fun σ holds => sound stepped σ (.answer holds)⟩
      ⟨linked, ((kept_settled db).answer settled stepped).2,
        fun σ later => sound stepped σ (.later later)⟩
  | working linked =>
    exact .working ⟨linked, (kept_settled db).working settled stepped,
      fun σ rest => sound stepped σ (.working rest)⟩
  | ended => exact .ended

/-- Alternatives that go on alike take the same step. -/
theorem Abreast.step {search other : Search} (abreast : Abreast db kinds search other)
    (speaks : ∀ kind, kinds kind → Speaks kind.names db) (p : Progress) :
    Outcome.Alike (Abreast db kinds) (Kindred kinds) (search.step db p) (other.step db p) := by
  cases abreast with
  | ended => exact .ended
  | choosing opened opened' branches =>
    simp only [Search.step, enter, opened, opened', if_true]
    apply Outcome.Alike.working
    apply Abreast.round
    rwa [List.forall₂_map_left_iff, List.forall₂_map_right_iff]
  | round branches =>
    cases branches with
    | nil => exact .ended
    | @cons first first' queue queue' here others =>
      obtain ⟨kind, among, branch⟩ := here
      have alike := branch.step (speaks kind among) p
      rw [Search.step, Search.step]
      generalize first.step db p = one, first'.step db p = other at alike
      cases alike with
      | working branch => exact .working (.round (.cons ⟨kind, among, branch⟩ others))
      | ended => exact .working (.round others)
      | answer given branch =>
        exact .answer ⟨kind, among, given⟩
          (.round (List.rel_append others (.cons ⟨kind, among, branch⟩ .nil)))

/-- Alternatives that go on alike are in step. -/
theorem inStep_abreast (speaks : ∀ kind, kinds kind → Speaks kind.names db)
    (same : db.rename .still = db) (sources : Nat) :
    InStep .still db sources (Abreast db kinds) (Kindred kinds) where
  ended := .ended
  finite := Abreast.isFinite
  step abreast _ := by
    rw [same, Progress.rename_still]
    exact (abreast.step speaks _).matches

end Choosing
end Search
end Rulebook
