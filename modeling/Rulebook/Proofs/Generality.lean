import Rulebook.Proofs.Extension

/-! Most general unifiers. Unifying two lists makes them the same with as few bindings as will do:
it binds open variables of the two lists only, leaves all else as it was, and rules out no valuation
under which the lists agree. -/
namespace Rulebook

/-- Terms that stand for the same text under every valuation are the same. -/
theorem Term.eq_of_under {a b : Term} (same : ∀ σ, a.under σ = b.under σ) : a = b := by
  have apart (text : String) (name : String) (forced : ∀ σ : Valuation, σ name = text) : False := by
    have lengths := congrArg String.length (forced fun _ => text ++ ".")
    simp at lengths
  cases a with
  | lit value =>
    cases b with
    | lit other => exact congrArg lit (same fun _ => "")
    | var name => exact (apart value name fun σ => (same σ).symm).elim
  | var name =>
    cases b with
    | lit value => exact (apart value name same).elim
    | var other =>
      by_cases equal : name = other
      · exact congrArg var equal
      · have told := same fun known => if known = name then "" else "."
        simp [under, Ne.symm equal] at told

theorem eq_of_map_under {left right : List Term}
    (same : ∀ σ, left.map (Term.under σ) = right.map (Term.under σ)) : left = right := by
  induction left generalizing right with
  | nil =>
    have empty := same fun _ => ""
    exact (List.map_eq_nil_iff.mp empty.symm).symm
  | cons a left ih =>
    cases right with
    | nil => cases same fun _ => ""
    | cons b right =>
      have first : a = b := Term.eq_of_under fun σ => (List.cons.inj (same σ)).1
      rw [first, ih fun σ => (List.cons.inj (same σ)).2]

namespace Substitution
variable {s t : Substitution}

theorem walk_push_empty (term : Term) : (s.push .empty).walk term = s.walk term := by
  have same : (s.push .empty).size = s.size := Nat.zero_add s.size
  rw [walk, same, follow_push_empty, walk]

/-- Where more is bound, walking can begin where walking along the old bindings has arrived. -/
theorem walk_kept (settled : t.Settled)
    (kept : ∀ name term, s.lookup name = some term → t.lookup name = some term) (term : Term) :
    t.walk (s.walk term) = t.walk term := by
  have after (n : Nat) : t.walk (s.follow n term) = t.walk term := by
    induction n generalizing term with
    | zero => cases term <;> rfl
    | succ n ih =>
      cases term with
      | lit value => rfl
      | var name =>
        cases bound : s.lookup name with
        | none => rw [follow_final (show s.Final (.var name) from bound)]
        | some next => rw [follow_lookup bound, ih, walk_lookup settled (kept name next bound)]
  exact after s.size

/-- A substitution makes two lists the same if they agree under all that it stands for. -/
theorem reify_eq_of_holds (settled : t.Settled) {left right : List Term}
    (agree : ∀ σ, t.Holds σ → left.map (Term.under σ) = right.map (Term.under σ)) :
    t.reify left = t.reify right := by
  have read (ρ : Valuation) (terms : List Term) :
      (t.reify terms).map (Term.under ρ) = terms.map (Term.under (t.reading ρ)) := by
    rw [reify, List.map_map]
    exact List.map_congr_left fun term _ => (under_reading ρ term).symm
  refine eq_of_map_under fun ρ => ?_
  rw [read, read]
  exact agree _ (holds_reading settled ρ)

theorem stage_same {staged : Table Term} {pairs : List (Term × Term)}
    (same : ∀ pair ∈ pairs, (s.push staged).walk pair.1 = (s.push staged).walk pair.2) :
    s.stage staged pairs = some staged := by
  induction pairs with
  | nil => rfl
  | cons pair rest ih =>
    obtain ⟨first, others⟩ := List.forall_mem_cons.mp same
    rw [stage, if_pos first]
    exact ih others

/-- Nothing has to be bound for lists that come out the same. -/
theorem unifyAll_of_reify {left right : List Term} (same : s.reify left = s.reify right) :
    s.unifyAll left right = some s := by
  have lengths : left.length = right.length := by
    simpa only [reify, List.length_map] using congrArg List.length same
  have staged : s.stage .empty (left.zip right) = some .empty := by
    refine stage_same fun pair inside => ?_
    obtain ⟨i, here, rfl⟩ := List.mem_iff_getElem.mp inside
    rw [List.length_zip, Nat.lt_min] at here
    obtain ⟨inLeft, inRight⟩ := here
    have entries := congrArg (·[i]?) same
    simpa [reify, walk_push_empty, inLeft, inRight] using entries
  rw [unifyAll, if_pos lengths, staged]
  rfl

section Relevance
variable {ok : String → Prop}

/-- From names of this kind, bindings lead to such names only. -/
def Closed (s : Substitution) (ok : String → Prop) : Prop :=
  ∀ name term, ok name → s.lookup name = some term → term.Named ok

theorem Closed.walk (closed : s.Closed ok) {term : Term} (named : term.Named ok) :
    (s.walk term).Named ok := by
  have after (n : Nat) : (s.follow n term).Named ok := by
    induction n generalizing term with
    | zero => cases term <;> exact named
    | succ n ih =>
      cases term with
      | lit value => trivial
      | var name =>
        cases bound : s.lookup name with
        | none => rwa [follow_final (show s.Final (.var name) from bound)]
        | some next =>
          rw [follow_lookup bound]
          exact ih (closed name next named bound)
  exact after s.size

theorem Binds.closed {name : String} {value : Term} (binds : Binds s name value t)
    (closed : s.Closed ok) (named : value.Named ok) : t.Closed ok := by
  intro other term here bound
  rw [binds.lookup] at bound
  split at bound
  · cases bound
    exact named
  · exact closed other term here bound

theorem Binds.kept {name : String} {value : Term} (binds : Binds s name value t) {other : String}
    {term : Term} (bound : s.lookup other = some term) : t.lookup other = some term := by
  have different : other ≠ name := by
    rintro rfl
    rw [binds.unbound] at bound
    cases bound
  rw [binds.lookup_other different, bound]

/-- What has been staged for a substitution: bindings of names of this kind, to such names, that
leave the bindings there are. -/
structure Stages (s : Substitution) (ok : String → Prop) (staged : Table Term) : Prop where
  settled : (s.push staged).Settled
  named : ∀ key ∈ staged.keys, ok key
  closed : (s.push staged).Closed ok
  kept : ∀ name term, s.lookup name = some term → (s.push staged).lookup name = some term

theorem Stages.walk {staged : Table Term} (stages : s.Stages ok staged) {term : Term}
    (named : (s.walk term).Named ok) : ((s.push staged).walk term).Named ok := by
  rw [← walk_kept stages.settled stages.kept]
  exact stages.closed.walk named

/-- One more variable that comes out on one side is bound to what comes out on the other. -/
theorem Stages.put {staged : Table Term} (stages : s.Stages ok staged) {target value : Term}
    {name : String} (reached : (s.push staged).walk target = .var name)
    (different : (s.push staged).walk target ≠ (s.push staged).walk value)
    (left : (s.walk target).Named ok) (right : (s.walk value).Named ok) :
    s.Stages ok (staged.put name ((s.push staged).walk value)) := by
  have binds := binds_walk stages.settled reached different
  have here : ok name := (reached ▸ stages.walk left : Term.Named ok (.var name))
  refine ⟨binds.settled stages.settled, fun key inside => ?_,
    binds.closed stages.closed (stages.walk right),
    fun other term bound => binds.kept (stages.kept other term bound)⟩
  rcases keys_put_subset inside with rfl | old
  · exact here
  · exact stages.named key old

theorem stage_stages {staged result : Table Term} {pairs : List (Term × Term)}
    (stages : s.Stages ok staged)
    (sides : ∀ pair ∈ pairs, (s.walk pair.1).Named ok ∧ (s.walk pair.2).Named ok)
    (unified : s.stage staged pairs = some result) : s.Stages ok result := by
  fun_induction stage s staged pairs with
  | case1 staged =>
    cases unified
    exact stages
  | case2 staged left right rest a b same ih =>
    exact ih stages (List.forall_mem_cons.mp sides).2 unified
  | case3 staged left right rest a b different name reached ih =>
    obtain ⟨⟨first, second⟩, others⟩ := List.forall_mem_cons.mp sides
    exact ih (stages.put reached different first second) others unified
  | case4 staged left right rest a b different value name found reached ih =>
    obtain ⟨⟨first, second⟩, others⟩ := List.forall_mem_cons.mp sides
    exact ih (stages.put found (Ne.symm different) second first) others unified
  | case5 => cases unified

/-- The variable comes out of one of the lists. -/
def Occurs (s : Substitution) (left right : List Term) (name : String) : Prop :=
  .var name ∈ s.reify left ∨ .var name ∈ s.reify right

theorem stages_empty (settled : s.Settled) (left right : List Term) :
    s.Stages (s.Occurs left right) .empty where
  settled := settled_push_empty settled
  named := by simp [Table.keys, Table.empty]
  kept name term bound := bound
  closed := by
    have out {terms : List Term} {name : String} (inside : .var name ∈ s.reify terms) :
        s.lookup name = none := by
      obtain ⟨term, _, reached⟩ := List.mem_map.mp inside
      exact (reached ▸ settled term : s.Final (.var name))
    intro name term occurs bound
    rw [lookup_push_empty, occurs.elim out out] at bound
    cases bound

/-- Unifying leaves a substitution as it is, or binds open variables that come out of the lists. -/
theorem unifyAll_binds (settled : s.Settled) {left right : List Term}
    (unified : s.unifyAll left right = some t) :
    t = s ∨ ∃ layer, t = s.push layer ∧
      ∀ name ∈ layer.keys, s.lookup name = none ∧ s.Occurs left right name := by
  rw [unifyAll] at unified
  split at unified
  case isFalse => cases unified
  obtain ⟨layer, outcome, rfl⟩ := Option.map_eq_some_iff.mp unified
  split
  · exact .inl rfl
  · refine .inr ⟨layer, rfl, fun name inside => ⟨?_, ?_⟩⟩
    · refine stage_open (settled_push_empty settled) ?_ outcome name inside
      simp [Table.keys, Table.empty]
    · have named {terms : List Term} {term : Term} (member : term ∈ terms)
          (fine : ∀ name, .var name ∈ s.reify terms → s.Occurs left right name) :
          (s.walk term).Named (s.Occurs left right) := by
        cases reached : s.walk term with
        | lit value => trivial
        | var name => exact fine name (reached ▸ List.mem_map_of_mem member)
      refine (stage_stages (stages_empty settled left right) ?_ outcome).named name inside
      exact fun pair member => ⟨named (List.of_mem_zip member).1 fun _ => .inl,
        named (List.of_mem_zip member).2 fun _ => .inr⟩

end Relevance

/-- What unifying two lists comes to: the lists become the same by binding open variables of theirs,
no valuation is lost that makes them the same, and doing it again changes nothing. -/
structure MostGeneral (s : Substitution) (left right : List Term) (t : Substitution) : Prop where
  same : t.reify left = t.reify right
  kept : ∀ name term, s.lookup name = some term → t.lookup name = some term
  binds : t = s ∨ ∃ layer, t = s.push layer ∧ ∀ name ∈ layer.keys,
    s.lookup name = none ∧ s.Occurs left right name
  holds : ∀ σ, t.Holds σ ↔ s.Holds σ ∧ left.map (Term.under σ) = right.map (Term.under σ)
  again : t.unifyAll left right = some t

/-- Unifying two lists gives nothing exactly if they are of different lengths or no valuation of the
substitution makes them the same; otherwise it gives a most general unifier. -/
theorem unifyAll_mostGeneral (built : s.Built) (left right : List Term) :
    (s.unifyAll left right = none ↔ left.length ≠ right.length ∨
      ¬∃ σ, s.Holds σ ∧ left.map (Term.under σ) = right.map (Term.under σ)) ∧
    ∀ t, s.unifyAll left right = some t → s.MostGeneral left right t := by
  have settled := built.settled
  refine ⟨⟨fun none_ => ?_, ?_⟩, fun t unified => ?_⟩
  · have unifies := unifies_unifyAll settled left right
    rw [none_] at unifies
    exact .inr fun ⟨σ, holds, equal⟩ => unifies σ holds equal
  · rintro (lengths | none_)
    · rw [unifyAll, if_neg lengths]
    · cases unified : s.unifyAll left right with
      | none => rfl
      | some t =>
        have reads := holds_reading (unifyAll_settled settled unified) fun _ => ""
        exact absurd ⟨_, (unifyAll_holds settled unified _).mp reads⟩ none_
  · have holds := unifyAll_holds settled unified
    have same : t.reify left = t.reify right :=
      reify_eq_of_holds (unifyAll_settled settled unified) fun σ here => ((holds σ).mp here).2
    exact {
      same
      kept := fun name term bound => (adds_unifyAll settled unified).kept bound
      binds := unifyAll_binds settled unified
      holds
      again := unifyAll_of_reify same }

/-- Two variables exchanged for each other, one of them through an older binding, and fixed last. -/
theorem mostGeneral_exchanged : ∃ t,
    renamed.unifyAll [.var "c", .var "b", .var "d"] [.var "b", .var "a", .lit "x"] = some t ∧
      renamed.MostGeneral [.var "c", .var "b", .var "d"] [.var "b", .var "a", .lit "x"] t := by
  have built : renamed.Built := .extend .empty extend_renamed
  exact ⟨_, rfl, (unifyAll_mostGeneral built _ _).2 _ rfl⟩

end Substitution
end Rulebook
