import Rulebook.Substitution

/-! What substitutions mean. A valuation gives every variable a text; a substitution stands for the
valuations under which all of its bindings are true. Following variables in a settled substitution
arrives, so a settled substitution has such a valuation, and one for each choice of texts for the
variables it leaves open. -/
namespace Rulebook

/-- A text for every variable. -/
abbrev Valuation := String → String

namespace Term

def under (σ : Valuation) : Term → String
  | var name => σ name
  | lit value => value

def Named (ok : String → Prop) : Term → Prop
  | var name => ok name
  | lit _ => True

theorem Named.imp {ok fine : String → Prop} {term : Term} (more : ∀ name, ok name → fine name)
    (named : term.Named ok) : term.Named fine := by
  cases term with
  | var name => exact more name named
  | lit value => trivial

theorem under_congr {σ τ : Valuation} {term : Term}
    (same : term.Named fun name => σ name = τ name) :
    term.under σ = term.under τ := by
  cases term with
  | var name => exact same
  | lit value => rfl

end Term

theorem map_under_congr {σ τ : Valuation} {terms : List Term}
    (same : ∀ term ∈ terms, term.Named fun name => σ name = τ name) :
    terms.map (Term.under σ) = terms.map (Term.under τ) :=
  List.map_congr_left fun term inside => Term.under_congr (same term inside)

namespace Substitution

def Holds (s : Substitution) (σ : Valuation) : Prop :=
  ∀ name term, s.lookup name = some term → σ name = term.under σ

/-- There is nothing to follow: a literal, or a variable that is not bound. -/
def Final (s : Substitution) : Term → Prop
  | .var name => s.lookup name = none
  | .lit _ => True

/-- Following variables arrives. -/
def Settled (s : Substitution) : Prop := ∀ term, s.Final (s.walk term)

def Named (ok : String → Prop) (s : Substitution) : Prop :=
  ∀ name term, s.lookup name = some term → ok name ∧ term.Named ok

theorem Named.imp {ok fine : String → Prop} {s : Substitution}
    (more : ∀ name, ok name → fine name) (named : s.Named ok) : s.Named fine := by
  intro name term bound
  obtain ⟨left, right⟩ := named name term bound
  exact ⟨more name left, right.imp more⟩

theorem holds_empty (σ : Valuation) : empty.Holds σ := by
  intro name term bound
  cases bound

theorem settled_empty : empty.Settled := by
  intro term
  cases term with
  | var name => rfl
  | lit value => trivial

theorem named_empty (ok : String → Prop) : empty.Named ok := by
  intro name term bound
  cases bound

section Following
variable {s : Substitution} {σ : Valuation}

theorem follow_final {term : Term} (final : s.Final term) (n : Nat) : s.follow n term = term := by
  cases term with
  | lit value => cases n <;> rfl
  | var name =>
    cases n with
    | zero => rfl
    | succ n => simp only [follow, show s.lookup name = none from final]

theorem follow_lookup {name : String} {term : Term} (bound : s.lookup name = some term) (n : Nat) :
    s.follow (n + 1) (.var name) = s.follow n term := by
  simp only [follow, bound]

/-- One step more makes no difference where following has arrived. -/
theorem follow_succ {n : Nat} {term : Term} (arrived : s.Final (s.follow n term)) :
    s.follow (n + 1) term = s.follow n term := by
  induction n generalizing term with
  | zero =>
    have here : s.follow 0 term = term := by cases term <;> rfl
    rw [here] at arrived ⊢
    exact follow_final arrived 1
  | succ n ih =>
    cases term with
    | lit value => rfl
    | var name =>
      cases bound : s.lookup name with
      | none =>
        have final : s.Final (.var name) := bound
        rw [follow_final final, follow_final final]
      | some next =>
        rw [follow_lookup bound] at arrived ⊢
        rw [follow_lookup bound]
        exact ih arrived

theorem walk_final {term : Term} (final : s.Final term) : s.walk term = term :=
  follow_final final s.size

theorem walk_walk (settled : s.Settled) (term : Term) : s.walk (s.walk term) = s.walk term :=
  walk_final (settled term)

/-- A bound variable stands for what it is bound to. -/
theorem walk_lookup (settled : s.Settled) {name : String} {term : Term}
    (bound : s.lookup name = some term) : s.walk (.var name) = s.walk term :=
  (follow_succ (settled (.var name))).symm.trans (follow_lookup bound s.size)

theorem follow_under (holds : s.Holds σ) (n : Nat) (term : Term) :
    (s.follow n term).under σ = term.under σ := by
  induction n generalizing term with
  | zero => cases term <;> rfl
  | succ n ih =>
    cases term with
    | lit value => rfl
    | var name =>
      cases bound : s.lookup name with
      | none => rw [follow_final (show s.Final (.var name) from bound)]
      | some next => rw [follow_lookup bound, ih, ← holds name next bound, Term.under]

/-- Following variables does not change what a term stands for. -/
theorem walk_under (holds : s.Holds σ) (term : Term) : (s.walk term).under σ = term.under σ :=
  follow_under holds s.size term

theorem reify_under (holds : s.Holds σ) (terms : List Term) :
    (s.reify terms).map (Term.under σ) = terms.map (Term.under σ) := by
  simp only [reify, List.map_map]
  exact List.map_congr_left fun term _ => walk_under holds term

theorem follow_named {ok : String → Prop} (named : s.Named ok) (n : Nat) {term : Term}
    (here : term.Named ok) : (s.follow n term).Named ok := by
  induction n generalizing term with
  | zero => cases term <;> exact here
  | succ n ih =>
    cases term with
    | lit value => exact here
    | var name =>
      cases bound : s.lookup name with
      | none => rwa [follow_final (show s.Final (.var name) from bound)]
      | some next =>
        rw [follow_lookup bound]
        exact ih (named name next bound).2

theorem walk_named {ok : String → Prop} (named : s.Named ok) {term : Term}
    (here : term.Named ok) : (s.walk term).Named ok :=
  follow_named named s.size here

/-- The valuation that reads bound variables off the substitution and takes the others as given. -/
def reading (s : Substitution) (given : Valuation) : Valuation :=
  fun name => (s.walk (.var name)).under given

theorem under_reading (given : Valuation) (term : Term) :
    term.under (s.reading given) = (s.walk term).under given := by
  cases term with
  | lit value => rw [walk_final (show s.Final (.lit value) from trivial)]; rfl
  | var name => rfl

/-- A settled substitution has a valuation for each choice of texts for its open variables. -/
theorem holds_reading (settled : s.Settled) (given : Valuation) : s.Holds (s.reading given) := by
  intro name term bound
  rw [under_reading, reading, walk_lookup settled bound]

/-- A term that has one text under all the valuations that a settled substitution stands for is
bound to that text. -/
theorem walk_of_forced (settled : s.Settled) {term : Term} {text : String}
    (forced : ∀ σ, s.Holds σ → term.under σ = text) : s.walk term = .lit text := by
  have read (ρ : Valuation) : (s.walk term).under ρ = text := by
    rw [← under_reading]
    exact forced _ (holds_reading settled ρ)
  cases reached : s.walk term with
  | lit value =>
    have same := read fun _ => ""
    rw [reached] at same
    exact congrArg Term.lit same
  | var name =>
    have same := read fun _ => text ++ "."
    rw [reached] at same
    have lengths := congrArg String.length same
    simp [Term.under] at lengths

end Following

/-- `t` binds one open variable of `s` more, to something that is not followed further. -/
structure Binds (s : Substitution) (name : String) (value : Term) (t : Substitution) : Prop where
  unbound : s.lookup name = none
  final : s.Final value
  apart : value ≠ .var name
  lookup : ∀ other, t.lookup other = if other = name then some value else s.lookup other
  size : t.size = s.size + 1

namespace Binds
variable {s t : Substitution} {name : String} {value : Term}

theorem lookup_other (binds : Binds s name value t) {other : String} (different : other ≠ name) :
    t.lookup other = s.lookup other := by
  rw [binds.lookup, if_neg different]

theorem final_value (binds : Binds s name value t) : t.Final value := by
  cases value with
  | lit text => trivial
  | var other =>
    have different : other ≠ name := fun same => binds.apart (congrArg Term.var same)
    exact (binds.lookup_other different).trans binds.final

/-- The new binding adds at most one step to a way through the old ones, the last. -/
theorem follow (binds : Binds s name value t) {n : Nat} {term : Term}
    (arrived : s.Final (s.follow n term)) :
    t.follow (n + 1) term = if s.follow n term = .var name then value else s.follow n term := by
  have last (other : String) (free : s.lookup other = none) (n : Nat) :
      t.follow (n + 1) (.var other) = if Term.var other = .var name then value else .var other := by
    by_cases same : other = name
    · have bound : t.lookup other = some value := by rw [binds.lookup, if_pos same]
      rw [follow_lookup bound, follow_final binds.final_value, if_pos (congrArg Term.var same)]
    · have still : t.Final (.var other) := (binds.lookup_other same).trans free
      rw [follow_final still, if_neg fun eq => same (Term.var.inj eq)]
  induction n generalizing term with
  | zero =>
    cases term with
    | lit text => rfl
    | var other => exact last other arrived 0
  | succ n ih =>
    cases term with
    | lit text => rfl
    | var other =>
      cases bound : s.lookup other with
      | none =>
        rw [follow_final (show s.Final (.var other) from bound)]
        exact last other bound (n + 1)
      | some next =>
        have different : other ≠ name := by
          rintro rfl
          rw [binds.unbound] at bound
          cases bound
        rw [follow_lookup bound] at arrived ⊢
        rw [follow_lookup ((binds.lookup_other different).trans bound)]
        exact ih arrived

theorem settled (binds : Binds s name value t) (settled : s.Settled) : t.Settled := by
  intro term
  have arrived := settled term
  rw [walk, binds.size, binds.follow arrived]
  split
  · exact binds.final_value
  · rename_i different
    rw [walk] at arrived
    cases reached : s.follow s.size term with
    | lit text => trivial
    | var other =>
      rw [reached] at arrived different
      exact (binds.lookup_other fun same => different (congrArg Term.var same)).trans arrived

/-- The new binding adds one equation. -/
theorem holds_iff (binds : Binds s name value t) (σ : Valuation) :
    t.Holds σ ↔ s.Holds σ ∧ σ name = value.under σ := by
  constructor
  · intro holds
    refine ⟨?_, holds name value (by rw [binds.lookup, if_pos rfl])⟩
    intro other term bound
    have different : other ≠ name := by
      rintro rfl
      rw [binds.unbound] at bound
      cases bound
    exact holds other term ((binds.lookup_other different).trans bound)
  · rintro ⟨holds, equal⟩ other term bound
    rw [binds.lookup] at bound
    split at bound
    · rename_i same
      cases bound
      rw [same, equal]
    · exact holds other term bound

theorem named (binds : Binds s name value t) {ok : String → Prop} (named : s.Named ok)
    (left : ok name) (right : value.Named ok) : t.Named ok := by
  intro other term bound
  rw [binds.lookup] at bound
  split at bound
  · rename_i same
    cases bound
    exact ⟨same ▸ left, right⟩
  · exact named other term bound

end Binds
end Substitution
end Rulebook
