import Mathlib.Data.List.Basic
import Mathlib.Logic.Relation
import Rulebook.Proofs.Flattening

/-! Substitutions built by extension. Starting from no binding, each extension and each unification
binds names that were open, so no layer shadows another, the bindings can be counted layer by layer,
and following them comes to an end. -/
namespace Rulebook

namespace Substitution

/-- What comes from the empty substitution by extending and unifying. -/
inductive Built : Substitution → Prop where
  | empty : Built empty
  | extend {s t : Substitution} {target value : Term} : Built s →
      s.extend target value = .ok (some t) → Built t
  | unifyAll {s t : Substitution} {left right : List Term} : Built s →
      s.unifyAll left right = some t → Built t

def Binding (s : Substitution) (term next : Term) : Prop :=
  ∃ name, term = .var name ∧ s.lookup name = some next

/-- No name is bound in two layers. -/
def Apart (s : Substitution) : Prop :=
  s.layers.Pairwise fun newer older => newer.keys.Disjoint older.keys

section Following
variable {s : Substitution}

/-- Following goes from binding to binding. -/
theorem follow_bindings (n : Nat) (term : Term) :
    Relation.ReflTransGen s.Binding term (s.follow n term) := by
  induction n generalizing term with
  | zero => cases term <;> exact .refl
  | succ n ih =>
    cases term with
    | lit value => exact .refl
    | var name =>
      cases bound : s.lookup name with
      | none => rw [follow_final (show s.Final (.var name) from bound)]
      | some next =>
        rw [follow_lookup bound]
        exact .head ⟨name, rfl, bound⟩ (ih next)

/-- Where following arrives after some number of bindings, no way along bindings is longer. -/
theorem acc_of_final {n : Nat} {term : Term} (arrived : s.Final (s.follow n term)) :
    Acc (fun next term => s.Binding term next) term := by
  induction n generalizing term with
  | zero =>
    have here : s.follow 0 term = term := by cases term <;> rfl
    rw [here] at arrived
    constructor
    rintro next ⟨name, rfl, bound⟩
    rw [show s.lookup name = none from arrived] at bound
    cases bound
  | succ n ih =>
    constructor
    rintro next ⟨name, rfl, bound⟩
    rw [follow_lookup bound] at arrived
    exact ih arrived

theorem Settled.wellFounded (settled : s.Settled) :
    WellFounded fun next term => s.Binding term next :=
  ⟨fun term => acc_of_final (settled term)⟩

end Following

section Layering
variable {s t : Substitution}

theorem lookup_eq_none_iff {name : String} :
    s.lookup name = none ↔ ∀ layer ∈ s.layers, name ∉ layer.keys := by
  simp only [lookup, List.findSome?_eq_none_iff]
  refine forall₂_congr fun layer _ => ?_
  rw [← layer.isSome_get?_iff, Option.not_isSome_iff_eq_none]

theorem Apart.push (apart : s.Apart) {layer : Table Term}
    (free : ∀ name ∈ layer.keys, s.lookup name = none) : (s.push layer).Apart := by
  refine List.pairwise_cons.mpr ⟨fun older inside name new old => ?_, apart⟩
  exact lookup_eq_none_iff.mp (free name new) older inside old

/-- A layer that binds open names only leaves all bindings as they are. -/
theorem lookup_push_kept {layer : Table Term} (free : ∀ name ∈ layer.keys, s.lookup name = none)
    {name : String} {term : Term} (bound : s.lookup name = some term) :
    (s.push layer).lookup name = some term := by
  have absent : layer.get? name = none := by
    rw [← Option.not_isSome_iff_eq_none, layer.isSome_get?_iff]
    intro inside
    rw [free name inside] at bound
    cases bound
  rw [lookup_push, absent, Option.none_or, bound]

theorem keys_single (name : String) (value : Term) : (Table.empty.put name value).keys = [name] :=
  rfl

theorem keys_put_subset {layer : Table Term} {name : String} {value : Term} {key : String}
    (inside : key ∈ (layer.put name value).keys) : key = name ∨ key ∈ layer.keys := by
  rw [Table.keys_put] at inside
  split at inside
  · exact .inr inside
  · simpa [or_comm] using inside

/-- What unifying stages are bindings of open names. -/
theorem stage_open {staged result : Table Term} {pairs : List (Term × Term)}
    (settled : (s.push staged).Settled) (free : ∀ name ∈ staged.keys, s.lookup name = none)
    (unified : s.stage staged pairs = some result) :
    ∀ name ∈ result.keys, s.lookup name = none := by
  have put {staged : Table Term} {name : String} {value : Term}
      (free : ∀ name ∈ staged.keys, s.lookup name = none)
      (unbound : (s.push staged).lookup name = none) :
      ∀ key ∈ (staged.put name value).keys, s.lookup key = none := by
    intro key inside
    rcases keys_put_subset inside with rfl | old
    · rw [lookup_push, Option.or_eq_none_iff] at unbound
      exact unbound.2
    · exact free key old
  fun_induction stage s staged pairs with
  | case1 staged =>
    cases unified
    exact free
  | case2 staged left right rest a b same ih => exact ih settled free unified
  | case3 staged left right rest a b different name reached ih =>
    have binds := binds_walk settled reached different
    exact ih (binds.settled settled) (put free binds.unbound) unified
  | case4 staged left right rest a b different value name found reached ih =>
    have binds := binds_walk settled found (Ne.symm different)
    exact ih (binds.settled settled) (put free binds.unbound) unified
  | case5 => cases unified

/-- One substitution is the other, or the other with a layer that binds open names. -/
inductive Adds (s : Substitution) : Substitution → Prop where
  | nothing : Adds s s
  | layer {layer : Table Term} : (∀ name ∈ layer.keys, s.lookup name = none) →
      Adds s (s.push layer)

/-- Extending binds the target to what the value comes out as, in a layer of its own. -/
theorem extend_ok (settled : s.Settled) {target value : Term}
    (extended : s.extend target value = .ok (some t)) :
    ∃ name, Binds s name (s.walk value) t ∧ t = s.push (Table.empty.put name (s.walk value)) := by
  unfold extend at extended
  split at extended
  · cases extended
  rename_i name
  split at extended
  · cases extended
  rename_i bound
  split at extended
  · cases extended
  rename_i occurs
  cases extended
  have unbound : s.lookup name = none := Option.not_isSome_iff_eq_none.mp bound
  have apart : s.walk value ≠ .var name := by simpa [occursIn] using occurs
  exact ⟨name, binds_extend unbound (settled value) apart, rfl⟩

theorem adds_extend (settled : s.Settled) {target value : Term}
    (extended : s.extend target value = .ok (some t)) : s.Adds t := by
  obtain ⟨name, binds, rfl⟩ := extend_ok settled extended
  refine .layer fun key inside => ?_
  rw [keys_single, List.mem_singleton] at inside
  rw [inside]
  exact binds.unbound

theorem adds_unifyAll (settled : s.Settled) {left right : List Term}
    (unified : s.unifyAll left right = some t) : s.Adds t := by
  unfold unifyAll at unified
  split at unified
  · cases outcome : s.stage .empty (left.zip right) with
    | none =>
      rw [outcome] at unified
      cases unified
    | some layer =>
      have free := stage_open (settled_push_empty settled) (by simp [Table.keys, Table.empty])
        outcome
      rw [outcome, Option.map_some, Option.some.injEq] at unified
      split at unified
      · exact unified ▸ .nothing
      · exact unified ▸ .layer free
  · cases unified

theorem Adds.kept (adds : s.Adds t) {name : String} {term : Term}
    (bound : s.lookup name = some term) : t.lookup name = some term := by
  cases adds with
  | nothing => exact bound
  | layer free => exact lookup_push_kept free bound

theorem Adds.apart (adds : s.Adds t) (apart : s.Apart) : t.Apart := by
  cases adds with
  | nothing => exact apart
  | layer free => exact apart.push free

theorem Apart.size_bindings (apart : s.Apart) : s.bindings.size = s.size :=
  (s.size_eq_iff.mpr apart).symm

end Layering

namespace Built
variable {s t : Substitution}

theorem settled (built : s.Built) : s.Settled := by
  induction built with
  | empty => exact settled_empty
  | extend _ extended ih =>
    obtain ⟨_, binds, _⟩ := extend_ok ih extended
    exact binds.settled ih
  | unifyAll _ unified ih => exact unifyAll_settled ih unified

theorem apart (built : s.Built) : s.Apart := by
  induction built with
  | empty => exact List.Pairwise.nil
  | extend built extended ih => exact (adds_extend built.settled extended).apart ih
  | unifyAll built unified ih => exact (adds_unifyAll built.settled unified).apart ih

end Built

section Requests
variable {s t : Substitution}

/-- The variable that unifying two terms binds, and to what, where it binds one. -/
def request (s : Substitution) (left right : Term) : Option (Term × Term) :=
  if s.walk left = s.walk right then none
  else match s.walk left, s.walk right with
    | .var name, value => some (.var name, value)
    | .lit value, .var name => some (.var name, .lit value)
    | .lit _, .lit _ => none

/-- Unifying is extending by what it requests. -/
theorem unify_eq_request (left right : Term) :
    s.unify left right = match s.request left right with
      | some (target, value) => s.extend target value
      | none => .ok (if s.walk left = s.walk right then some s else none) := by
  unfold unify request
  by_cases same : s.walk left = s.walk right
  · simp [same]
  · simp only [if_neg same]
    cases s.walk left <;> cases s.walk right <;> rfl

theorem request_cases {left right target value : Term}
    (asked : s.request left right = some (target, value)) :
    ∃ name one other, target = .var name ∧ s.walk one = .var name ∧ value = s.walk other ∧
      s.walk one ≠ s.walk other := by
  unfold request at asked
  split at asked
  · cases asked
  rename_i different
  split at asked
  · rename_i name reached
    cases asked
    exact ⟨name, left, right, rfl, reached, rfl, different⟩
  · rename_i text name found reached
    cases asked
    exact ⟨name, right, left, rfl, reached, found.symm, Ne.symm different⟩
  · cases asked

/-- What unifying requests can be bound: it is a variable, still open and not the value itself. -/
theorem request_extends (settled : s.Settled) {left right target value : Term}
    (asked : s.request left right = some (target, value)) :
    ∃ t, s.extend target value = .ok (some t) := by
  obtain ⟨name, one, other, rfl, reached, rfl, different⟩ := request_cases asked
  obtain ⟨t, extended, _⟩ := extend_walk settled reached different
  exact ⟨t, extended⟩

theorem Built.unify (built : s.Built) {left right : Term}
    (unified : s.unify left right = .ok (some t)) : t.Built := by
  rw [unify_eq_request] at unified
  split at unified
  · exact built.extend unified
  · split at unified
    · cases unified
      exact built
    · cases unified

theorem adds_unify (settled : s.Settled) {left right : Term}
    (unified : s.unify left right = .ok (some t)) : s.Adds t := by
  rw [unify_eq_request] at unified
  split at unified
  · exact adds_extend settled unified
  · split at unified
    · cases unified
      exact .nothing
    · cases unified

end Requests

/-- The first substitution says all that the second does and is in good order itself. -/
structure Extends (t s : Substitution) : Prop where
  kept : ∀ name term, s.lookup name = some term → t.lookup name = some term
  apart : t.Apart
  /-- Walking goes along bindings as far as they go. -/
  arrives : ∀ term, Relation.ReflTransGen t.Binding term (t.walk term) ∧ t.Final (t.walk term)
  /-- Bindings do not go on for ever, nor round. -/
  ends : WellFounded fun next term => t.Binding term next
  size : t.size = t.bindings.size

theorem Built.extends {s t : Substitution} (built : t.Built)
    (kept : ∀ name term, s.lookup name = some term → t.lookup name = some term) :
    t.Extends s where
  kept := kept
  apart := built.apart
  arrives term := ⟨follow_bindings t.size term, built.settled term⟩
  ends := built.settled.wellFounded
  size := built.apart.size_bindings.symm

def renamed : Substitution := empty.push (Table.empty.put "c" (.var "a"))

theorem extend_renamed : empty.extend (.var "c") (.var "a") = .ok (some renamed) := rfl

theorem binds_renamed : Binds empty "c" (.var "a") renamed := binds_extend rfl rfl (by decide)

theorem holds_renamed (σ : Valuation) : renamed.Holds σ ↔ σ "c" = σ "a" := by
  rw [binds_renamed.holds_iff]
  exact and_iff_right (holds_empty σ)

end Substitution
end Rulebook
