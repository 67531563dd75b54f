import Mathlib.Data.List.Forall2
import Rulebook.Proofs.Generality
import Rulebook.Proofs.Variant

/-! Names that stand for one another. Of two substitutions, the one may have other names for its
variables: as long as names are paired one by one, terms that are the same but for paired names come
to the same but for paired names, also after such terms have been unified. Names can be paired later
too, if until then neither substitution knows them. -/
namespace Rulebook

namespace Substitution
variable {ok : String → Prop} {s t : Substitution} {name : String} {value : Term}

/-- What a term comes to when one more variable is bound. -/
theorem Binds.walk (binds : Binds s name value t) (settled : s.Settled) (term : Term) :
    t.walk term = if s.walk term = .var name then value else s.walk term := by
  rw [Substitution.walk, binds.size, binds.follow (settled term)]
  rfl

section Requesting
variable {x : Table Term} {left right target : Term} {rest : List (Term × Term)}

/-- Staging a pair stages what unifying the two requests. -/
theorem stage_cons : s.stage x ((left, right) :: rest) =
    match (s.push x).request left right with
    | some (target, value) => s.stage (x.put target.key value) rest
    | none => if (s.push x).walk left = (s.push x).walk right then s.stage x rest else none := by
  rw [stage, request]
  by_cases same : (s.push x).walk left = (s.push x).walk right
  · simp only [if_pos same]
  · simp only [if_neg same]
    cases (s.push x).walk left <;> cases (s.push x).walk right <;> rfl

/-- What is requested can be staged. -/
theorem request_staged (settled : (s.push x).Settled)
    (asked : (s.push x).request left right = some (.var name, value)) :
    Binds (s.push x) name value (s.push (x.put name value)) := by
  obtain ⟨_, one, other, same, reached, rfl, different⟩ := request_cases asked
  cases same
  exact binds_walk settled reached different

/-- What is requested can be bound. -/
theorem request_bound (settled : s.Settled)
    (asked : s.request left right = some (.var name, value)) :
    ∃ u, s.extend (.var name) value = .ok (some u) ∧ Binds s name value u := by
  obtain ⟨_, one, other, same, reached, rfl, different⟩ := request_cases asked
  cases same
  exact extend_walk settled reached different

/-- A layer that binds nothing may be left out. -/
theorem walk_trimmed (x : Table Term) (term : Term) :
    (if x.entries.isEmpty then s else s.push x).walk term = (s.push x).walk term := by
  split
  · rename_i nothing
    obtain ⟨entries, nodup⟩ := x
    cases List.isEmpty_iff.mp nothing
    exact (walk_push_empty term).symm
  · rfl

theorem settled_trimmed (below : s.Settled) (settled : (s.push x).Settled) :
    (if x.entries.isEmpty then s else s.push x).Settled := by
  split
  · exact below
  · exact settled

theorem named_trimmed (below : s.Named ok) (named : (s.push x).Named ok) :
    (if x.entries.isEmpty then s else s.push x).Named ok := by
  split
  · exact below
  · exact named

theorem named_push_empty (named : s.Named ok) : (s.push .empty).Named ok := by
  intro name term bound
  rw [lookup_push_empty] at bound
  exact named name term bound

end Requesting
end Substitution

/-- Names on the left and on the right that stand for one another, and names that are still to come
on either side. -/
structure Pairing where
  pair : String → String → Prop
  left : String → Prop
  right : String → Prop
  functional : ∀ {a b c}, pair a b → pair a c → b = c
  injective : ∀ {a b c}, pair a c → pair b c → a = b
  past : ∀ {a b}, pair a b → ¬left a ∧ ¬right b

namespace Pairing
variable {P Q : Pairing}

def diagonal (ok left right : String → Prop)
    (past : ∀ name, ok name → ¬left name ∧ ¬right name) : Pairing where
  pair a b := a = b ∧ ok a
  left := left
  right := right
  functional := by
    rintro a b c ⟨rfl, _⟩ ⟨rfl, _⟩
    rfl
  injective := by
    rintro a b c ⟨rfl, _⟩ ⟨rfl, _⟩
    rfl
  past := by
    rintro a b ⟨rfl, fine⟩
    exact past a fine

inductive Same (P : Pairing) : Term → Term → Prop where
  | var {a b : String} : P.pair a b → Same P (.var a) (.var b)
  | lit (value : String) : Same P (.lit value) (.lit value)

/-- Names are paired one by one, so terms on the one side are equal just if those on the other
are. -/
theorem Same.eq_iff {x y x' y' : Term} (first : P.Same x y) (second : P.Same x' y') :
    x = x' ↔ y = y' := by
  cases first with
  | lit value =>
    cases second with
    | lit other => exact Iff.rfl
    | var paired => simp
  | var here =>
    cases second with
    | lit value => simp
    | var there =>
      simp only [Term.var.injEq]
      constructor
      · rintro rfl
        exact P.functional here there
      · rintro rfl
        exact P.injective here there

theorem Same.left_known {x y : Term} (same : P.Same x y) : x.Named fun name => ¬P.left name := by
  cases same with
  | var paired => exact (P.past paired).1
  | lit value => trivial

theorem Same.right_known {x y : Term} (same : P.Same x y) : y.Named fun name => ¬P.right name := by
  cases same with
  | var paired => exact (P.past paired).2
  | lit value => trivial

/-- More names are paired, of those that were still to come. -/
structure Grows (P Q : Pairing) : Prop where
  pair : ∀ {a b}, P.pair a b → Q.pair a b
  fresh : ∀ {a b}, Q.pair a b → P.pair a b ∨ P.left a ∧ P.right b
  left : ∀ {a}, Q.left a → P.left a
  right : ∀ {a}, Q.right a → P.right a

theorem Grows.refl (P : Pairing) : P.Grows P := ⟨id, .inl, id, id⟩

theorem Same.grows {x y : Term} (same : P.Same x y) (grows : P.Grows Q) : Q.Same x y := by
  cases same with
  | var paired => exact .var (grows.pair paired)
  | lit value => exact .lit value

theorem same_grows {x y : List Term} (same : List.Forall₂ P.Same x y) (grows : P.Grows Q) :
    List.Forall₂ Q.Same x y :=
  same.imp fun _ _ here => here.grows grows

/-- Substitutions under which what is the same comes to the same, and neither of which knows a name
that is still to come. -/
structure Reflects (P : Pairing) (s t : Substitution) : Prop where
  left : s.Settled
  right : t.Settled
  walk : ∀ {x y}, P.Same x y → P.Same (s.walk x) (t.walk y)
  leftKnown : s.Named fun name => ¬P.left name
  rightKnown : t.Named fun name => ¬P.right name

inductive Asks (P : Pairing) : Term × Term → Term × Term → Prop where
  | binding {a b : String} {value value' : Term} : P.pair a b → P.Same value value' →
      Asks P (.var a, value) (.var b, value')

section Unifying
variable {s t u v : Substitution} {x y : Table Term}

theorem reflects_empty (P : Pairing) : P.Reflects .empty .empty where
  left := Substitution.settled_empty
  right := Substitution.settled_empty
  walk same := by
    cases same with
    | var paired => exact .var paired
    | lit value => exact .lit value
  leftKnown := Substitution.named_empty _
  rightKnown := Substitution.named_empty _

/-- A name that is still to come is unbound, so it can be paired. -/
theorem Reflects.grows (reflects : P.Reflects s t) (grows : P.Grows Q) : Q.Reflects s t where
  left := reflects.left
  right := reflects.right
  walk same := by
    cases same with
    | lit value => exact (reflects.walk (.lit value)).grows grows
    | @var a b paired =>
      rcases grows.fresh paired with old | ⟨left, right⟩
      · exact (reflects.walk (.var old)).grows grows
      · have unbound : s.lookup a = none := by
          by_contra bound
          obtain ⟨term, bound⟩ := Option.ne_none_iff_exists'.mp bound
          exact (reflects.leftKnown a term bound).1 left
        have unbound' : t.lookup b = none := by
          by_contra bound
          obtain ⟨term, bound⟩ := Option.ne_none_iff_exists'.mp bound
          exact (reflects.rightKnown b term bound).1 right
        have stays : s.walk (.var a) = .var a := Substitution.walk_final unbound
        have stays' : t.walk (.var b) = .var b := Substitution.walk_final unbound'
        rw [stays, stays']
        exact .var paired
  leftKnown := reflects.leftKnown.imp fun _ known later => known (grows.left later)
  rightKnown := reflects.rightKnown.imp fun _ known later => known (grows.right later)

theorem Reflects.push_empty (reflects : P.Reflects s t) :
    P.Reflects (s.push .empty) (t.push .empty) where
  left := Substitution.settled_push_empty reflects.left
  right := Substitution.settled_push_empty reflects.right
  walk same := by
    rw [Substitution.walk_push_empty, Substitution.walk_push_empty]
    exact reflects.walk same
  leftKnown := Substitution.named_push_empty reflects.leftKnown
  rightKnown := Substitution.named_push_empty reflects.rightKnown

/-- What was staged is put on top, or left out where it is nothing. -/
theorem Reflects.trimmed (reflects : P.Reflects (s.push x) (t.push y)) (below : P.Reflects s t) :
    P.Reflects (if x.entries.isEmpty then s else s.push x)
      (if y.entries.isEmpty then t else t.push y) where
  left := Substitution.settled_trimmed below.left reflects.left
  right := Substitution.settled_trimmed below.right reflects.right
  walk same := by
    rw [Substitution.walk_trimmed, Substitution.walk_trimmed]
    exact reflects.walk same
  leftKnown := Substitution.named_trimmed below.leftKnown reflects.leftKnown
  rightKnown := Substitution.named_trimmed below.rightKnown reflects.rightKnown

/-- Variables that stand for one another are bound to what is the same. -/
theorem Reflects.binds (reflects : P.Reflects s t) {a b : String} {value value' : Term}
    (paired : P.pair a b) (same : P.Same value value') (one : Substitution.Binds s a value u)
    (other : Substitution.Binds t b value' v) : P.Reflects u v where
  left := one.settled reflects.left
  right := other.settled reflects.right
  walk here := by
    have walked := reflects.walk here
    have both := walked.eq_iff (.var paired)
    rw [one.walk reflects.left, other.walk reflects.right]
    split
    · rename_i reached
      rw [if_pos (both.mp reached)]
      exact same
    · rename_i different
      rw [if_neg fun reached => different (both.mpr reached)]
      exact walked
  leftKnown := one.named reflects.leftKnown (P.past paired).1 same.left_known
  rightKnown := other.named reflects.rightKnown (P.past paired).2 same.right_known

/-- Unifying what is the same requests what is the same. -/
theorem Reflects.request (reflects : P.Reflects s t) {left right left' right' : Term}
    (first : P.Same left left') (second : P.Same right right') :
    Option.Rel P.Asks (s.request left right) (t.request left' right') := by
  have one := reflects.walk first
  have other := reflects.walk second
  have both := one.eq_iff other
  unfold Substitution.request
  generalize s.walk left = x, s.walk right = y, t.walk left' = x', t.walk right' = y' at *
  by_cases same : x = y
  · rw [if_pos same, if_pos (both.mp same)]
    exact .none
  · rw [if_neg same, if_neg fun equal => same (both.mpr equal)]
    cases one with
    | var paired => exact .some (.binding paired other)
    | lit value =>
      cases other with
      | var paired => exact .some (.binding paired (.lit value))
      | lit text => exact .none

theorem Reflects.walk_eq_iff (reflects : P.Reflects s t) {left right left' right' : Term}
    (first : P.Same left left') (second : P.Same right right') :
    s.walk left = s.walk right ↔ t.walk left' = t.walk right' :=
  (reflects.walk first).eq_iff (reflects.walk second)

/-- Two runs over pairs that are the same stage what is the same. -/
theorem Reflects.stage {pairs pairs' : List (Term × Term)}
    (reflects : P.Reflects (s.push x) (t.push y))
    (same : List.Forall₂ (fun one other => P.Same one.1 other.1 ∧ P.Same one.2 other.2)
      pairs pairs') :
    Option.Rel (fun x y => P.Reflects (s.push x) (t.push y)) (s.stage x pairs)
      (t.stage y pairs') := by
  induction same generalizing x y with
  | nil => exact .some reflects
  | @cons pair pair' rest rest' here _ ih =>
    obtain ⟨left, right⟩ := pair
    obtain ⟨left', right'⟩ := pair'
    have both := reflects.walk_eq_iff here.1 here.2
    have requests := reflects.request here.1 here.2
    rw [Substitution.stage_cons, Substitution.stage_cons]
    generalize asked : (s.push x).request left right = request,
      asked' : (t.push y).request left' right' = request' at requests
    cases requests with
    | none =>
      dsimp only
      by_cases equal : (s.push x).walk left = (s.push x).walk right
      · rw [if_pos equal, if_pos (both.mp equal)]
        exact ih reflects
      · rw [if_neg equal, if_neg fun other => equal (both.mpr other)]
        exact .none
    | some asks =>
      obtain ⟨paired, value⟩ := asks
      have one := Substitution.request_staged reflects.left asked
      have other := Substitution.request_staged reflects.right asked'
      exact ih (reflects.binds paired value one other)

theorem Reflects.unifyAll (reflects : P.Reflects s t) {left right left' right' : List Term}
    (lefts : List.Forall₂ P.Same left left') (rights : List.Forall₂ P.Same right right') :
    Option.Rel P.Reflects (s.unifyAll left right) (t.unifyAll left' right') := by
  unfold Substitution.unifyAll
  by_cases lengths : left.length = right.length
  · have lengths' : left'.length = right'.length := by
      rw [← lefts.length_eq, lengths, rights.length_eq]
    have pairs : List.Forall₂ (fun one other => P.Same one.1 other.1 ∧ P.Same one.2 other.2)
        (left.zip right) (left'.zip right') := by
      clear lengths lengths'
      induction lefts generalizing right right' with
      | nil => exact .nil
      | cons first _ ih =>
        cases rights with
        | nil => exact .nil
        | cons second rights => exact .cons ⟨first, second⟩ (ih rights)
    have staged := reflects.push_empty.stage pairs
    rw [if_pos lengths, if_pos lengths']
    generalize s.stage .empty _ = one, t.stage .empty _ = other at staged
    cases staged with
    | none => exact .none
    | some related => exact .some (related.trimmed reflects)
  · rw [if_neg lengths, if_neg]
    · exact .none
    · rwa [← lefts.length_eq, ← rights.length_eq]

theorem Reflects.unify (reflects : P.Reflects s t) {left right left' right' : Term}
    (first : P.Same left left') (second : P.Same right right') :
    ∃ u v, s.unify left right = .ok u ∧ t.unify left' right' = .ok v ∧
      Option.Rel P.Reflects u v := by
  have both := reflects.walk_eq_iff first second
  have requests := reflects.request first second
  rw [Substitution.unify_eq_request, Substitution.unify_eq_request]
  generalize asked : s.request left right = request, asked' : t.request left' right' = request'
    at requests
  cases requests with
  | none =>
    refine ⟨_, _, rfl, rfl, ?_⟩
    by_cases equal : s.walk left = s.walk right
    · rw [if_pos equal, if_pos (both.mp equal)]
      exact .some reflects
    · rw [if_neg equal, if_neg fun other => equal (both.mpr other)]
      exact .none
  | some asks =>
    obtain ⟨paired, value⟩ := asks
    obtain ⟨u, extended, one⟩ := Substitution.request_bound reflects.left asked
    obtain ⟨v, extended', other⟩ := Substitution.request_bound reflects.right asked'
    exact ⟨some u, some v, extended, extended', .some (reflects.binds paired value one other)⟩

end Unifying
end Pairing
end Rulebook
