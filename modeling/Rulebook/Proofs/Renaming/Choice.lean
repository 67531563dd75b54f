import Rulebook.Action
import Rulebook.Proofs.Renaming.Simulation
import Rulebook.Proofs.Search.Completeness

/-! Choosing a payload under a renaming. The alternatives of an action bind one variable, which
nothing else in the search knows, to payload ids. These are literals, and a text may have a literal
like one, so they cannot be renamed together with what else the search compares; but they are never
compared, because the variable is unbound when it meets them. -/
namespace Rulebook
variable (π : Renaming)

def Goal.pays (out payload : String) : Goal := .unify (.var out) (.lit payload)

namespace Substitution
variable {π} {s : Substitution} {out payload other : String}

def paid (s : Substitution) (out payload : String) : Substitution :=
  s.push (Table.empty.put out (.lit payload))

theorem unify_pays (unbound : s.lookup out = none) :
    s.unify (.var out) (.lit payload) = .ok (some (s.paid out payload)) := by
  have reached : s.walk (.var out) = .var out := walk_final unbound
  have final : s.Final (.lit payload) := trivial
  have value : s.walk (.lit payload) = .lit payload := walk_final final
  rw [unify, reached, value, if_neg (by simp)]
  dsimp only
  rw [extend, unbound, occursIn, value]
  rfl

theorem lookup_paid (name : String) : (s.paid out payload).lookup name =
    if name = out then some (.lit payload) else s.lookup name := by
  rw [paid, lookup_push, Table.get?_put]
  split <;> rfl

theorem unbound_of_named (named : s.Named (· ≠ out)) : s.lookup out = none := by
  cases bound : s.lookup out with
  | none => rfl
  | some term => exact absurd rfl (named out term bound).1

/-- Followed from a term that is not the variable for the payload, a substitution never gets to the
payload, so another payload makes no difference. -/
theorem follow_paid (named : s.Named (· ≠ out)) (n : Nat) {term : Term}
    (apart : term.Named (· ≠ out)) :
    ((s.rename π).paid (π.names out) other).follow n (term.rename π) =
      ((s.paid out payload).follow n term).rename π := by
  induction n generalizing term with
  | zero => cases term <;> rfl
  | succ n ih =>
    cases term with
    | lit value => rfl
    | var name =>
      have renamed : π.names name ≠ π.names out := π.names.injective.ne apart
      simp only [Term.rename, follow, lookup_paid, if_neg renamed, lookup_rename, if_neg (show
        name ≠ out from apart)]
      cases bound : s.lookup name with
      | none => rfl
      | some next => exact ih (named name next bound).2

theorem walk_paid (named : s.Named (· ≠ out)) {term : Term} (apart : term.Named (· ≠ out)) :
    ((s.rename π).paid (π.names out) other).walk (term.rename π) =
      ((s.paid out payload).walk term).rename π := by
  have size : ((s.rename π).paid (π.names out) other).size = (s.paid out payload).size :=
    congrArg (1 + ·) (s.size_rename π)
  rw [walk, size, follow_paid named _ apart, walk]

theorem walk_out : (s.paid out payload).walk (.var out) = .lit payload := by
  have bound : (s.paid out payload).lookup out = some (.lit payload) := by
    rw [lookup_paid, if_pos rfl]
  have size : (s.paid out payload).size = s.size + 1 := Nat.add_comm 1 s.size
  have final : (s.paid out payload).Final (.lit payload) := trivial
  rw [walk, size, follow_lookup bound, follow_final final]

end Substitution

namespace Search
variable {π} {db : Database} {sources : Nat} {out : String}

abbrev Avoids (out : String) (search : Search) : Prop :=
  search.Every (fun s => s.Settled ∧ s.Named (· ≠ out)) fun goal => goal.Named (· ≠ out)

theorem Avoids.isFinite {search : Search} (avoids : search.Avoids out) : search.isFinite :=
  IsKnown.isFinite (avoids.imp (fun _ sub => sub.1) fun _ goal => goal.imp fun _ _ => trivial)

/-- A search that avoids the variable goes on avoiding it. -/
theorem kept_avoiding
    (stored : ∀ r, ∀ fact ∈ (db.relation r).facts, ∀ term ∈ fact, term.Named (· ≠ out))
    (used : ∀ {p r args}, (∀ term ∈ args, term.Named (· ≠ out)) →
      ∀ rule ∈ (db.relation r).rules, (rule.use args p).1.Named (· ≠ out)) :
    Kept db (fun _ s => s.Settled ∧ s.Named (· ≠ out)) fun _ goal => goal.Named (· ≠ out) := by
  have kept : Kept db (fun _ s => s.Settled ∧ s.Named (· ≠ out))
      fun _ goal => goal.Named (· ≠ out) ∧ True :=
    kept_named (fun _ fine => fine) (fun _ ready => ready) (fun _ => stored) fun _ => used
  simpa only [and_true] using kept

/-- One alternative of an action, from opening it to after its answers; in the other, it is renamed
and has the renamed payload. -/
inductive Alternative (π : Renaming) (out : String) : Search → Search → Prop where
  | ended : Alternative π out .ended .ended
  | pending {goal : Goal} {payload : String} : goal.Named (· ≠ out) →
      Alternative π out (.pending (.all [goal, .pays out payload]) .empty)
        (.pending (.all [goal.rename π, .pays (π.names out) (π.payloads payload)]) .empty)
  | live {search : Search} {payload : String} : search.Avoids out →
      Alternative π out (.each search [.pays out payload] .ended)
        (.each (search.rename π) [.pays (π.names out) (π.payloads payload)] .ended)
  | paying {s : Substitution} {search : Search} {payload : String} : s.Named (· ≠ out) →
      search.Avoids out →
      Alternative π out
        (.each (.pending (.pays out payload) s) [] (.each search [.pays out payload] .ended))
        (.each (.pending (.pays (π.names out) (π.payloads payload)) (s.rename π)) []
          (.each (search.rename π) [.pays (π.names out) (π.payloads payload)] .ended))
  | paid {search : Search} {payload : String} : search.Avoids out →
      Alternative π out (.each .ended [] (.each search [.pays out payload] .ended))
        (.each .ended [] (.each (search.rename π) [.pays (π.names out) (π.payloads payload)] .ended))

/-- Answers that differ in the payload and are renamed otherwise. -/
inductive Chosen (π : Renaming) (out : String) : Substitution → Substitution → Prop where
  | paid {s : Substitution} {payload : String} : s.Named (· ≠ out) →
      Chosen π out (s.paid out payload) ((s.rename π).paid (π.names out) (π.payloads payload))

theorem Alternative.isFinite {search other : Search} (related : Alternative π out search other) :
    search.isFinite ∧ other.isFinite := by
  cases related with
  | ended => exact ⟨rfl, rfl⟩
  | pending named =>
    have finite := named.isFinite
    simp [Search.isFinite, Goal.isFinite, Goal.areFinite, Goal.pays, finite, Goal.isFinite_rename]
  | live avoids | paid avoids =>
    have finite := avoids.isFinite
    simp [Search.isFinite, Goal.isFinite, Goal.areFinite, Goal.pays, finite, isFinite_rename]
  | paying _ avoids =>
    have finite := avoids.isFinite
    simp [Search.isFinite, Goal.isFinite, Goal.areFinite, Goal.pays, finite, isFinite_rename]

/-- What an action is searched with: its alternatives, to be opened or taking turns. -/
inductive Choice (π : Renaming) (out : String) : Search → Search → Prop where
  | ended : Choice π out .ended .ended
  | pending {entries : List (Goal × String)} : (∀ entry ∈ entries, entry.1.Named (· ≠ out)) →
      Choice π out
        (.pending (.any (entries.map fun entry => .all [entry.1, .pays out entry.2])) .empty)
        (.pending (.any (entries.map fun entry =>
          .all [entry.1.rename π, .pays (π.names out) (π.payloads entry.2)])) .empty)
  | round {queue others : List Search} : List.Forall₂ (Alternative π out) queue others →
      Choice π out (.round queue) (.round others)

theorem areFinite_alternatives {queue others : List Search}
    (related : List.Forall₂ (Alternative π out) queue others) :
    areFinite queue ∧ areFinite others := by
  induction related with
  | nil => exact ⟨rfl, rfl⟩
  | cons first _ ih =>
    simp only [areFinite, Bool.and_eq_true]
    exact ⟨⟨first.isFinite.1, ih.1⟩, first.isFinite.2, ih.2⟩

theorem Choice.isFinite {search other : Search} (related : Choice π out search other) :
    search.isFinite ∧ other.isFinite := by
  cases related with
  | ended => exact ⟨rfl, rfl⟩
  | @pending entries named =>
    constructor
    · refine Goal.areFinite_of_forall fun goal inside => ?_
      obtain ⟨entry, member, rfl⟩ := List.mem_map.mp inside
      simp [Goal.isFinite, Goal.areFinite, Goal.pays, (named entry member).isFinite]
    · refine Goal.areFinite_of_forall fun goal inside => ?_
      obtain ⟨entry, member, rfl⟩ := List.mem_map.mp inside
      simp [Goal.isFinite, Goal.areFinite, Goal.pays, Goal.isFinite_rename,
        (named entry member).isFinite]
  | round queue => exact areFinite_alternatives queue

/-- The rules of an action as they stand, and with renamed arguments and payloads. -/
theorem choice_of_entries {entries : List (Rule × String)} {args : List Term}
    (plain : ∀ entry ∈ entries, entry.1.Plain)
    (named : ∀ entry ∈ entries, (entry.1.goal args "").Named (· ≠ out)) :
    Choice π out
      (.pending (.any (entries.map fun entry =>
        .all [entry.1.goal args "", .pays out entry.2])) .empty)
      (.pending (.any ((entries.map fun entry => (entry.1, π.payloads entry.2)).map fun entry =>
        .all [entry.1.goal (args.map (Term.rename π)) "", .pays (π.names out) entry.2])) .empty) := by
  have goals : ∀ entry ∈ entries.map fun entry => (entry.1.goal args "", entry.2),
      entry.1.Named (· ≠ out) := by
    intro entry inside
    obtain ⟨rule, member, rfl⟩ := List.mem_map.mp inside
    exact named rule member
  have same : (entries.map fun entry => (entry.1, π.payloads entry.2)).map (fun entry =>
        Goal.all [entry.1.goal (args.map (Term.rename π)) "", .pays (π.names out) entry.2]) =
      (entries.map fun entry => (entry.1.goal args "", entry.2)).map fun entry =>
        .all [entry.1.rename π, .pays (π.names out) (π.payloads entry.2)] := by
    rw [List.map_map, List.map_map]
    refine List.map_congr_left fun entry inside => ?_
    rw [Function.comp_apply, (plain entry inside).goal_rename_unsalted π]
    rfl
  have choice := Choice.pending (π := π) goals
  rw [List.map_map] at choice
  rw [same]
  exact choice

section Stepping
variable (regular : ∀ r, ∀ rule ∈ (db.relation r).rules, rule.Regular sources)
  (kept : Kept db (fun _ s => s.Settled ∧ s.Named (· ≠ out)) fun _ goal => goal.Named (· ≠ out))
include regular kept

/-- A step of an alternative. -/
theorem Alternative.step {search other : Search} (related : Alternative π out search other)
    {p : Progress} (minting : p.nextIds.length = sources) :
    Outcome.Matches π (Alternative π out) (Chosen π out) (search.step db p)
      (other.step (db.rename π) (p.rename π)) := by
  cases related with
  | ended => exact .ended
  | @pending goal payload named =>
    have opened : goal.isSearchable := by cases named <;> rfl
    have opened' : (goal.rename π).isSearchable := (goal.isSearchable_rename π).trans opened
    simp only [Search.step, enter, start, if_pos opened, if_pos opened']
    exact .working (.live (.pending named
      ⟨Substitution.settled_empty, Substitution.named_empty _⟩))
  | @live search payload avoids =>
    have stepped := step_rename π avoids.isFinite (minting ▸ regular)
    rw [Search.step, Search.step, stepped]
    cases here : search.step db p with
    | mk outcome q =>
      cases outcome with
      | working rest => exact .working (.live (kept.working avoids here))
      | ended => exact .working .ended
      | failed fault => exact .failed
      | answer s rest =>
        obtain ⟨⟨_, named⟩, avoids⟩ := kept.answer avoids here
        exact .working (.paying named avoids)
  | @paying s search payload named avoids =>
    have unbound := Substitution.unbound_of_named named
    have unbound' : (s.rename π).lookup (π.names out) = none := by
      rw [s.lookup_rename, unbound]
      rfl
    simp only [Search.step, Goal.pays, enter, Substitution.unify_pays unbound,
      Substitution.unify_pays unbound', Outcome.ofUnifier]
    exact .answer (.paid named) (.paid avoids)
  | paid avoids => exact .working (.live avoids)

/-- The two searches that choose a payload are in step. -/
theorem inStep_choice : InStep π db sources (Choice π out) (Chosen π out) where
  ended := .ended
  finite related := related.isFinite
  step := by
    intro search other p related minting
    cases related with
    | ended => exact .ended
    | @pending entries named =>
      have opened (parts : Goal × String → List Goal) :
          (entries.map fun entry => Goal.all (parts entry)).all Goal.isSearchable := by
        rw [List.all_map]
        exact List.all_eq_true.mpr fun _ _ => rfl
      rw [Search.step, Search.step, enter, enter, if_pos (opened _), if_pos (opened _),
        List.map_map, List.map_map]
      refine .working (.round ?_)
      rw [List.forall₂_map_left_iff, List.forall₂_map_right_iff, List.forall₂_same]
      exact fun entry inside => .pending (named entry inside)
    | round queue =>
      cases queue with
      | nil => exact .ended
      | @cons first first' others others' here queue =>
        have stepped := Alternative.step regular kept here minting
        rw [Search.step, Search.step]
        generalize first'.step (db.rename π) (p.rename π) = outcome at stepped
        cases same : first.step db p with
        | mk here q =>
          rw [same] at stepped
          cases stepped with
          | working first => exact .working (.round (.cons first queue))
          | ended => exact .working (.round queue)
          | failed => exact .failed
          | answer given first =>
            exact .answer given (.round (List.rel_append queue (.cons first .nil)))

end Stepping
end Search
end Rulebook
