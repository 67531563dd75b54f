import Rulebook.Proofs.Valuation

/-! Unification. Unifying adds equations and loses none: a unifier stands for exactly the valuations
of the substitution under which both sides agree, and there is none only if no valuation makes
them agree. -/
namespace Rulebook.Substitution

def Equates (pairs : List (Term × Term)) (σ : Valuation) : Prop :=
  ∀ pair ∈ pairs, pair.1.under σ = pair.2.under σ

/-- What a unifier `found` of equations must be: settled, true under exactly the valuations of `s`
that satisfy the equations, and nothing only if there are no such valuations. -/
def Unifies (s : Substitution) (equations : Valuation → Prop) : Option Substitution → Prop
  | some t => t.Settled ∧ ∀ σ, t.Holds σ ↔ s.Holds σ ∧ equations σ
  | none => ∀ σ, s.Holds σ → ¬equations σ

section
variable {s : Substitution}

theorem lookup_push (layer : Table Term) (name : String) :
    (s.push layer).lookup name = (layer.get? name).or (s.lookup name) := by
  simp only [push, lookup, List.findSome?_cons]
  cases layer.get? name <;> rfl

theorem size_push (layer : Table Term) : (s.push layer).size = layer.size + s.size := rfl

theorem lookup_push_empty (name : String) : (s.push .empty).lookup name = s.lookup name := rfl

theorem size_put_fresh {layer : Table Term} {name : String} (fresh : layer.get? name = none)
    (value : Term) : (layer.put name value).size = layer.size + 1 := by
  have absent : name ∉ layer.keys := by
    rw [← layer.isSome_get?_iff, fresh]
    exact Bool.false_ne_true
  have keys := layer.keys_put name value
  rw [if_neg absent] at keys
  have lengths := congrArg List.length keys
  simpa only [Table.keys, Table.size, List.length_map, List.length_append, List.length_singleton]
    using lengths

theorem follow_push_empty (n : Nat) (term : Term) :
    (s.push .empty).follow n term = s.follow n term := by
  induction n generalizing term with
  | zero => cases term <;> rfl
  | succ n ih =>
    cases term with
    | lit value => rfl
    | var name =>
      simp only [follow, lookup_push_empty]
      cases s.lookup name with
      | none => rfl
      | some next => exact ih next

theorem settled_push_empty (settled : s.Settled) : (s.push .empty).Settled := by
  intro term
  have same : (s.push .empty).size = s.size := Nat.zero_add s.size
  have arrived := settled term
  rw [walk, same, follow_push_empty]
  exact arrived

/-- Staging one more binding. -/
theorem binds_put {staged : Table Term} {name : String} {value : Term}
    (unbound : (s.push staged).lookup name = none) (final : (s.push staged).Final value)
    (apart : value ≠ .var name) :
    Binds (s.push staged) name value (s.push (staged.put name value)) where
  unbound := unbound
  final := final
  apart := apart
  lookup other := by
    rw [lookup_push, lookup_push, Table.get?_put]
    split <;> rfl
  size := by
    have fresh : staged.get? name = none := by
      rw [lookup_push, Option.or_eq_none_iff] at unbound
      exact unbound.1
    rw [size_push, size_push, size_put_fresh fresh]
    omega

/-- Binding a variable to a term in a layer of its own. -/
theorem binds_extend {name : String} {value : Term} (unbound : s.lookup name = none)
    (final : s.Final value) (apart : value ≠ .var name) :
    Binds s name value (s.push (Table.empty.put name value)) where
  unbound := unbound
  final := final
  apart := apart
  lookup other := by
    rw [lookup_push, Table.get?_put]
    split <;> rfl
  size := by
    rw [size_push, size_put_fresh rfl]
    exact Nat.add_comm 1 s.size

/-- A variable that one side comes out as can be bound to what the other side comes out as. -/
theorem binds_walk {staged : Table Term} (settled : (s.push staged).Settled) {target value : Term}
    {name : String} (reached : (s.push staged).walk target = .var name)
    (different : (s.push staged).walk target ≠ (s.push staged).walk value) :
    Binds (s.push staged) name ((s.push staged).walk value)
      (s.push (staged.put name ((s.push staged).walk value))) := by
  have unbound : (s.push staged).Final (.var name) := reached ▸ settled target
  exact binds_put unbound (settled value) fun same => different (reached.trans same.symm)

theorem equates_cons {σ : Valuation} {left right : Term} {rest : List (Term × Term)} :
    Equates ((left, right) :: rest) σ ↔ left.under σ = right.under σ ∧ Equates rest σ :=
  List.forall_mem_cons

theorem equates_zip {σ : Valuation} {left right : List Term}
    (lengths : left.length = right.length) :
    Equates (left.zip right) σ ↔ left.map (Term.under σ) = right.map (Term.under σ) := by
  induction left generalizing right with
  | nil =>
    cases right with
    | nil => simp [Equates]
    | cons b right => cases lengths
  | cons a left ih =>
    cases right with
    | nil => cases lengths
    | cons b right =>
      rw [List.zip_cons_cons, equates_cons, ih (Nat.succ.inj lengths), List.map_cons, List.map_cons,
        List.cons.injEq]

/-- The equations that are left after a pair is settled. -/
theorem Unifies.of_pair {t : Substitution} {found : Option Substitution} {left right : Term}
    {rest : List (Term × Term)}
    (settles : ∀ σ, t.Holds σ ↔ s.Holds σ ∧ left.under σ = right.under σ)
    (unifies : Unifies t (Equates rest) found) :
    Unifies s (Equates ((left, right) :: rest)) found := by
  cases found with
  | none =>
    intro σ holds equal
    rw [equates_cons] at equal
    exact unifies σ ((settles σ).mpr ⟨holds, equal.1⟩) equal.2
  | some u =>
    refine ⟨unifies.1, fun σ => ?_⟩
    rw [unifies.2 σ, settles σ, equates_cons, and_assoc]

/-- Two sides that come out as the same term agree under every valuation. -/
theorem holds_same {left right : Term} (same : s.walk left = s.walk right) (σ : Valuation) :
    s.Holds σ ↔ s.Holds σ ∧ left.under σ = right.under σ := by
  refine (and_iff_left_of_imp fun holds => ?_).symm
  rw [← walk_under holds left, same, walk_under holds right]

/-- Binding the variable that one side comes out as to what the other comes out as. -/
theorem Binds.holds_left {t : Substitution} {name : String} {left right : Term}
    (binds : Binds s name (s.walk right) t) (reached : s.walk left = .var name) (σ : Valuation) :
    t.Holds σ ↔ s.Holds σ ∧ left.under σ = right.under σ := by
  rw [binds.holds_iff]
  apply and_congr_right
  intro holds
  rw [← walk_under holds left, reached, walk_under holds right]
  rfl

theorem Binds.holds_right {t : Substitution} {name : String} {left right : Term}
    (binds : Binds s name (s.walk left) t) (reached : s.walk right = .var name) (σ : Valuation) :
    t.Holds σ ↔ s.Holds σ ∧ left.under σ = right.under σ := by
  rw [binds.holds_left reached, eq_comm (a := left.under σ)]

theorem not_equal_literals {left right : Term} {a b : String} (reached : s.walk left = .lit a)
    (found : s.walk right = .lit b) (different : s.walk left ≠ s.walk right) (σ : Valuation)
    (holds : s.Holds σ) : left.under σ ≠ right.under σ := by
  rw [← walk_under holds left, ← walk_under holds right, reached, found]
  intro same
  rw [reached, found] at different
  exact different (congrArg Term.lit same)

theorem unifies_stage {staged : Table Term} {pairs : List (Term × Term)}
    (settled : (s.push staged).Settled) :
    Unifies (s.push staged) (Equates pairs) ((s.stage staged pairs).map s.push) := by
  fun_induction stage s staged pairs with
  | case1 staged => exact ⟨settled, fun σ => by simp [Equates]⟩
  | case2 staged left right rest a b same ih => exact .of_pair (holds_same same) (ih settled)
  | case3 staged left right rest a b different name reached ih =>
    have binds := binds_walk settled reached different
    exact .of_pair (binds.holds_left reached) (ih (binds.settled settled))
  | case4 staged left right rest a b different value name found reached ih =>
    have binds := binds_walk settled found (Ne.symm different)
    exact .of_pair (binds.holds_right found) (ih (binds.settled settled))
  | case5 staged left right rest a b different value other found reached =>
    intro σ holds equal
    rw [equates_cons] at equal
    exact not_equal_literals reached found different σ holds equal.1

theorem stage_named {ok : String → Prop} {staged result : Table Term} {pairs : List (Term × Term)}
    (settled : (s.push staged).Settled) (named : (s.push staged).Named ok)
    (sides : ∀ pair ∈ pairs, pair.1.Named ok ∧ pair.2.Named ok)
    (unified : s.stage staged pairs = some result) : (s.push result).Named ok := by
  fun_induction stage s staged pairs with
  | case1 staged =>
    cases unified
    exact named
  | case2 staged left right rest a b same ih =>
    exact ih settled named (fun pair inside => sides pair (by simp [inside])) unified
  | case3 staged left right rest a b different name reached ih =>
    have binds := binds_walk settled reached different
    obtain ⟨first, second⟩ := sides _ List.mem_cons_self
    have target : Term.Named ok (.var name) := reached ▸ walk_named named first
    exact ih (binds.settled settled) (binds.named named target (walk_named named second))
      (fun pair inside => sides pair (by simp [inside])) unified
  | case4 staged left right rest a b different value name found reached ih =>
    have binds := binds_walk settled found (Ne.symm different)
    obtain ⟨first, second⟩ := sides _ List.mem_cons_self
    have target : Term.Named ok (.var name) := found ▸ walk_named named second
    exact ih (binds.settled settled) (binds.named named target (walk_named named first))
      (fun pair inside => sides pair (by simp [inside])) unified
  | case5 => cases unified

end

variable {s : Substitution}

/-- Unifying two lists gives what they are equal under. -/
theorem unifies_unifyAll (settled : s.Settled) (left right : List Term) :
    Unifies s (fun σ => left.map (Term.under σ) = right.map (Term.under σ))
      (s.unifyAll left right) := by
  unfold unifyAll
  split
  · rename_i lengths
    have staged : Unifies (s.push .empty) (Equates (left.zip right)) _ :=
      unifies_stage (settled_push_empty settled)
    cases outcome : s.stage .empty (left.zip right) with
    | none =>
      rw [outcome] at staged
      intro σ holds equal
      exact staged σ holds ((equates_zip lengths).mpr equal)
    | some layer =>
      rw [outcome] at staged
      obtain ⟨arrives, meaning⟩ := staged
      have meaning (σ : Valuation) : (s.push layer).Holds σ ↔
          s.Holds σ ∧ left.map (Term.under σ) = right.map (Term.under σ) := by
        rw [meaning σ, equates_zip lengths]
        rfl
      simp only [Option.map_some]
      split
      · rename_i nothing
        obtain ⟨entries, nodup⟩ := layer
        cases List.isEmpty_iff.mp nothing
        exact ⟨settled, meaning⟩
      · exact ⟨arrives, meaning⟩
  · rename_i lengths
    intro σ holds equal
    have := congrArg List.length equal
    rw [List.length_map, List.length_map] at this
    exact lengths this

theorem unifyAll_settled (settled : s.Settled) {left right : List Term} {t : Substitution}
    (unified : s.unifyAll left right = some t) : t.Settled := by
  have unifies := unifies_unifyAll settled left right
  rw [unified] at unifies
  exact unifies.1

theorem unifyAll_holds (settled : s.Settled) {left right : List Term} {t : Substitution}
    (unified : s.unifyAll left right = some t) (σ : Valuation) :
    t.Holds σ ↔ s.Holds σ ∧ left.map (Term.under σ) = right.map (Term.under σ) := by
  have unifies := unifies_unifyAll settled left right
  rw [unified] at unifies
  exact unifies.2 σ

theorem unifyAll_isSome (settled : s.Settled) {left right : List Term} {σ : Valuation}
    (holds : s.Holds σ) (equal : left.map (Term.under σ) = right.map (Term.under σ)) :
    ∃ t, s.unifyAll left right = some t := by
  have unifies := unifies_unifyAll settled left right
  cases unified : s.unifyAll left right with
  | none =>
    rw [unified] at unifies
    exact absurd equal (unifies σ holds)
  | some t => exact ⟨t, rfl⟩

theorem unifyAll_named (settled : s.Settled) {ok : String → Prop} (named : s.Named ok)
    {left right : List Term} (lefts : ∀ term ∈ left, term.Named ok)
    (rights : ∀ term ∈ right, term.Named ok) {t : Substitution}
    (unified : s.unifyAll left right = some t) : t.Named ok := by
  unfold unifyAll at unified
  split at unified
  · cases outcome : s.stage .empty (left.zip right) with
    | none =>
      rw [outcome] at unified
      cases unified
    | some layer =>
      have sides : ∀ pair ∈ left.zip right, pair.1.Named ok ∧ pair.2.Named ok :=
        fun pair inside =>
          ⟨lefts _ (List.of_mem_zip inside).1, rights _ (List.of_mem_zip inside).2⟩
      have result := stage_named (settled_push_empty settled) named sides outcome
      rw [outcome, Option.map_some, Option.some.injEq] at unified
      split at unified
      · exact unified ▸ named
      · exact unified ▸ result
  · cases unified

/-- A variable that one side comes out as is bound without an error. -/
theorem extend_walk (settled : s.Settled) {target value : Term} {name : String}
    (reached : s.walk target = .var name) (different : s.walk target ≠ s.walk value) :
    ∃ t, s.extend (.var name) (s.walk value) = .ok (some t) ∧ Binds s name (s.walk value) t := by
  have unbound : s.lookup name = none := (reached ▸ settled target : s.Final (.var name))
  have apart : s.walk value ≠ .var name := fun same => different (reached.trans same.symm)
  refine ⟨s.push (Table.empty.put name (s.walk value)), ?_,
    binds_extend unbound (settled value) apart⟩
  simp [extend, unbound, occursIn, walk_walk settled, apart]

theorem unify_named (settled : s.Settled) {ok : String → Prop} (named : s.Named ok)
    {left right : Term} (first : left.Named ok) (second : right.Named ok) {t : Substitution}
    (unified : s.unify left right = .ok (some t)) : t.Named ok := by
  by_cases same : s.walk left = s.walk right
  · simp only [unify, same, if_true, Except.ok.injEq, Option.some.injEq] at unified
    exact unified ▸ named
  · simp only [unify, if_neg same] at unified
    split at unified
    · rename_i name reached
      obtain ⟨u, extended, binds⟩ := extend_walk settled reached same
      rw [reached, extended, Except.ok.injEq, Option.some.injEq] at unified
      have target : Term.Named ok (.var name) := reached ▸ walk_named named first
      exact unified ▸ binds.named named target (walk_named named second)
    · rename_i value name reached found
      obtain ⟨u, extended, binds⟩ := extend_walk settled found (Ne.symm same)
      rw [found, extended, Except.ok.injEq, Option.some.injEq] at unified
      have target : Term.Named ok (.var name) := found ▸ walk_named named second
      exact unified ▸ binds.named named target (walk_named named first)
    · cases unified

/-- Two terms unify without an error, into what they are equal under. -/
theorem unifies_unify (settled : s.Settled) (left right : Term) :
    ∃ found, s.unify left right = .ok found ∧
      Unifies s (fun σ => left.under σ = right.under σ) found := by
  by_cases same : s.walk left = s.walk right
  · exact ⟨some s, by simp only [unify, same, if_true], settled, holds_same same⟩
  · cases reached : s.walk left with
    | var name =>
      obtain ⟨t, extended, binds⟩ := extend_walk settled reached same
      refine ⟨some t, ?_, binds.settled settled, binds.holds_left reached⟩
      simp only [unify, if_neg same]
      rw [reached, extended]
    | lit value =>
      cases found : s.walk right with
      | var name =>
        obtain ⟨t, extended, binds⟩ := extend_walk settled found (Ne.symm same)
        refine ⟨some t, ?_, binds.settled settled, binds.holds_right found⟩
        simp only [unify, reached, found, reduceCtorEq, if_false]
        rw [← reached, extended]
      | lit other =>
        refine ⟨none, ?_, fun σ holds => not_equal_literals reached found same σ holds⟩
        have different : Term.lit value ≠ .lit other := reached ▸ found ▸ same
        simp only [unify, reached, found, if_neg different]

end Rulebook.Substitution
