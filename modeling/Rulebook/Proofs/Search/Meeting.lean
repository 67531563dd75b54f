import Rulebook.Proofs.Program.Placeholders
import Rulebook.Proofs.Search.Agreement

/-! Queries beside parameters that share names with them. A variable that both sides have is one
variable. If it stands in the query first where it stands among the parameters too, making the two
variables one adds nothing: unifying the query under other names comes to a substitution that agrees
on the names of the parameters. -/
namespace Rulebook

/-- Where the variable stands for the first time on the left, it stands on the right too. -/
def Meets (name : String) (pairs : List (Term × Term)) : Prop :=
  (pairs.find? (·.1 = .var name)).all (·.2 = .var name)

instance (name : String) (pairs : List (Term × Term)) : Decidable (Meets name pairs) :=
  inferInstanceAs (Decidable (_ = true))

section Meeting
variable {name : String} {left right : Term} {rest : List (Term × Term)}

theorem meets_here : Meets name ((.var name, right) :: rest) ↔ right = .var name := by
  simp [Meets]

theorem meets_later (other : left ≠ .var name) :
    Meets name ((left, right) :: rest) ↔ Meets name rest := by
  simp [Meets, other]

end Meeting

def renamedPairs (f : String → String) (pairs : List (Term × Term)) : List (Term × Term) :=
  pairs.map fun pair => (pair.1.withNames f, pair.2)

theorem renamedPairs_cons (f : String → String) (left right : Term) (rest : List (Term × Term)) :
    renamedPairs f ((left, right) :: rest) = (left.withNames f, right) :: renamedPairs f rest := rfl

namespace Substitution
variable {ok : String → Prop} {s t : Substitution} {x y : Table Term} {name : String}

/-- The variable has not been met: it is unbound, and not one of these names or still to be met. -/
inductive Waits (ok : String → Prop) (s : Substitution) (name : String)
    (pairs : List (Term × Term)) : Prop where
  | foreign : ¬ok name → s.walk (.var name) = .var name → Waits ok s name pairs
  | meets : ok name → Meets name pairs → Waits ok s name pairs

/-- It goes on waiting while others are met. -/
theorem Waits.later {left right : Term} {rest : List (Term × Term)}
    (waits : s.Waits ok name ((left, right) :: rest)) (other : left ≠ .var name)
    (kept : ¬ok name → s.walk (.var name) = .var name → t.walk (.var name) = .var name) :
    t.Waits ok name rest := by
  cases waits with
  | foreign foreign unbound => exact .foreign foreign (kept foreign unbound)
  | meets native meets => exact .meets native ((meets_later other).mp meets)

/-- When a waiting variable is met it comes to what stands on the right. Terms that did not come to
it before come to what they came to. -/
theorem Waits.stage {param : Term} {rest : List (Term × Term)}
    (waits : (s.push x).Waits ok name ((.var name, param) :: rest)) (settled : (s.push x).Settled)
    (named : ((s.push x).walk param).Named ok) :
    ∃ y, s.stage x ((.var name, param) :: rest) = s.stage y rest ∧ (s.push y).Settled ∧
      (s.push y).walk (.var name) = (s.push x).walk param ∧
      ∀ term, ((s.push x).walk term = .var name → ok name) →
        (s.push y).walk term = (s.push x).walk term := by
  cases waits with
  | foreign foreign unbound =>
    have different : (s.push x).walk (.var name) ≠ (s.push x).walk param := by
      intro same
      rw [← same, unbound] at named
      exact foreign named
    have binds := binds_walk settled unbound different
    have asked : (s.push x).request (.var name) param = some (.var name, (s.push x).walk param) := by
      rw [request, if_neg different, unbound]
    refine ⟨x.put name ((s.push x).walk param), ?_, binds.settled settled, ?_, fun term apart => ?_⟩
    · rw [stage_cons, asked]
      rfl
    · rw [binds.walk settled, if_pos unbound]
    · rw [binds.walk settled, if_neg fun reached => foreign (apart reached)]
  | meets native meets =>
    rw [meets_here] at meets
    subst meets
    exact ⟨x, by simp [Substitution.stage], settled, rfl, fun _ _ => rfl⟩

/-- Substitutions that agree on names of this kind, and under which a variable of one query comes to
the same as that of the other, unless it is still to be met. -/
structure Meeting (ok : String → Prop) (f : String → String) (names : String → Prop)
    (pairs : List (Term × Term)) (s t : Substitution) : Prop where
  agrees : s.Agrees ok t
  queried : ∀ name, names name →
    (s.walk (.var name) = t.walk (.var (f name)) ∧ (s.walk (.var name)).Named ok) ∨
    (s.Waits ok name pairs ∧ t.Waits ok (f name) (renamedPairs f pairs))

/-- What came to the same under both still does, and variables that wait are still unbound. -/
structure Onward (ok : String → Prop) (f : String → String) (names : String → Prop) (left : Term)
    (s t u v : Substitution) : Prop where
  settled : u.Settled
  other : v.Settled
  same : ∀ a b, s.walk a = t.walk b → (s.walk a).Named ok →
    u.walk a = v.walk b ∧ (u.walk a).Named ok
  unmet : ∀ name, names name → left ≠ .var name → ¬ok name → s.walk (.var name) = .var name →
    u.walk (.var name) = .var name
  unmet' : ∀ name, names name → left ≠ .var name → ¬ok (f name) →
    t.walk (.var (f name)) = .var (f name) → v.walk (.var (f name)) = .var (f name)

section Staging
variable {f : String → String} {names : String → Prop} {left param : Term}
  {rest : List (Term × Term)} {u v : Substitution}

theorem withNames_ne {name : String} (other : left ≠ .var name) (named : left.Named names)
    (here : names name) (apart : ∀ name other, names name → names other → f name = f other →
      name = other) : left.withNames f ≠ .var (f name) := by
  cases left with
  | lit value => nofun
  | var old =>
    intro same
    have := apart old name named here (Term.var.inj same)
    exact other (congrArg Term.var this)

/-- The rest is to be met once the first pair has been. -/
theorem Onward.meeting (onward : Onward ok f names left s t u v)
    (meeting : Meeting ok f names ((left, param) :: rest) s t)
    (met : ∀ name, left = .var name → u.walk left = v.walk (left.withNames f) ∧
      (u.walk left).Named ok)
    (apart : ∀ name, names name → left ≠ .var name → left.withNames f ≠ .var (f name)) :
    Meeting ok f names rest u v := by
  constructor
  · exact ⟨onward.settled, onward.other,
      fun term named => (onward.same _ _ (meeting.agrees.walk term named)
        (meeting.agrees.named term named)).1,
      fun term named => (onward.same _ _ (meeting.agrees.walk term named)
        (meeting.agrees.named term named)).2⟩
  · intro name inside
    by_cases here : left = .var name
    · subst here
      exact .inl (met name rfl)
    · rcases meeting.queried name inside with ⟨same, named⟩ | ⟨one, other⟩
      · exact .inl (onward.same _ _ same named)
      · exact .inr ⟨one.later here (onward.unmet name inside here),
          other.later (apart name inside here) (onward.unmet' name inside here)⟩

/-- Nothing is bound. -/
theorem Onward.refl (agrees : s.Agrees ok t) : Onward ok f names left s t s t :=
  ⟨agrees.left, agrees.right, fun _ _ same named => ⟨same, named⟩, fun _ _ _ _ unbound => unbound,
    fun _ _ _ _ unbound => unbound⟩

/-- Both bind one variable, of this kind, to the same value. -/
theorem Onward.binds (agrees : s.Agrees ok t) {target : String} {value : Term}
    (one : Binds s target value u) (other : Binds t target value v) (native : ok target)
    (fine : value.Named ok) : Onward ok f names left s t u v where
  settled := one.settled agrees.left
  other := other.settled agrees.right
  same a b same named := by
    rw [one.walk agrees.left, other.walk agrees.right, ← same]
    split
    · exact ⟨rfl, fine⟩
    · exact ⟨rfl, named⟩
  unmet name _ _ foreign unbound := by
    rw [one.walk agrees.left, unbound, if_neg]
    intro same
    exact foreign (Term.var.inj same ▸ native)
  unmet' name _ _ foreign unbound := by
    rw [other.walk agrees.right, unbound, if_neg]
    intro same
    exact foreign (Term.var.inj same ▸ native)

/-- A variable that waits is met, in both. -/
theorem Onward.waits {name : String} (agrees : (s.push x).Agrees ok (t.push y)) (here : names name)
    (apart : ∀ name other, names name → names other → f name = f other → name = other)
    (fine : param.Named ok) (one : (s.push x).Waits ok name ((.var name, param) :: rest))
    (other : (t.push y).Waits ok (f name) ((.var (f name), param) :: renamedPairs f rest)) :
    ∃ x' y', s.stage x ((.var name, param) :: rest) = s.stage x' rest ∧
      t.stage y ((.var (f name), param) :: renamedPairs f rest) = t.stage y' (renamedPairs f rest) ∧
      Onward ok f names (.var name) (s.push x) (t.push y) (s.push x') (t.push y') ∧
      (s.push x').walk (.var name) = (t.push y').walk (.var (f name)) ∧
      ((s.push x').walk (.var name)).Named ok := by
  have second := agrees.walk param fine
  have native := agrees.named param fine
  obtain ⟨x', staged, settled, reached, kept⟩ := one.stage agrees.left native
  obtain ⟨y', staged', settled', reached', kept'⟩ := other.stage agrees.right (second ▸ native)
  refine ⟨x', y', staged, staged', ⟨settled, settled', ?_, ?_, ?_⟩, ?_, reached ▸ native⟩
  · intro a b same named
    have here := kept a fun reached => by rwa [reached] at named
    have there := kept' b fun reached => by rwa [same, reached] at named
    rw [here, there]
    exact ⟨same, named⟩
  · intro next _ different _ unbound
    rw [kept _ fun same => absurd (unbound.symm.trans same).symm different, unbound]
  · intro next inside different _ unbound
    have distinct : name ≠ next := fun same => different (congrArg Term.var same)
    rw [kept' _ fun same => ?_, unbound]
    have same := Term.var.inj (unbound.symm.trans same)
    exact absurd (apart _ _ inside here same).symm distinct
  · rw [reached, reached', second]

/-- The queries are unified with the same parameters. -/
theorem Meeting.stage (apart : ∀ name other, names name → names other → f name = f other →
      name = other) {pairs : List (Term × Term)}
    (meeting : Meeting ok f names pairs (s.push x) (t.push y))
    (lefts : ∀ pair ∈ pairs, pair.1.Named names) (rights : ∀ pair ∈ pairs, pair.2.Named ok) :
    Option.Rel (fun x y => (s.push x).Agrees ok (t.push y)) (s.stage x pairs)
      (t.stage y (renamedPairs f pairs)) := by
  induction pairs generalizing x y with
  | nil => exact .some meeting.agrees
  | cons pair rest ih =>
    obtain ⟨left, param⟩ := pair
    obtain ⟨named, queried⟩ := List.forall_mem_cons.mp lefts
    obtain ⟨fine, stated⟩ := List.forall_mem_cons.mp rights
    have agrees := meeting.agrees
    have second := agrees.walk param fine
    have later (name : String) (inside : names name) (other : left ≠ .var name) :=
      withNames_ne other named inside apart
    rw [renamedPairs_cons]
    by_cases first : (s.push x).walk left = (t.push y).walk (left.withNames f) ∧
        ((s.push x).walk left).Named ok
    · have same := request_congr first.1 second
      rw [stage_cons, stage_cons, ← same, ← first.1, ← second]
      cases asked : (s.push x).request left param with
      | none =>
        dsimp only
        split
        · exact ih ((Onward.refl agrees).meeting meeting (fun _ _ => first) later) queried stated
        · exact .none
      | some request =>
        obtain ⟨target, value⟩ := request
        obtain ⟨native, valued⟩ := request_named asked first.2 (agrees.named param fine)
        obtain ⟨target, _, _, rfl, _⟩ := request_cases asked
        have one := request_staged agrees.left asked
        have other := request_staged agrees.right (same ▸ asked)
        have onward : Onward ok f names left (s.push x) (t.push y) _ _ :=
          .binds agrees one other native valued
        have met := onward.same _ _ first.1 first.2
        exact ih (onward.meeting meeting (fun _ _ => met) later) queried stated
    · cases left with
      | lit value =>
        have final (s : Substitution) : s.walk (.lit value) = .lit value := walk_final trivial
        refine absurd ?_ first
        rw [final, Term.withNames, final]
        exact ⟨rfl, trivial⟩
      | var name =>
        obtain ⟨one, other⟩ := (meeting.queried name named).resolve_left first
        obtain ⟨x', y', staged, staged', onward, met⟩ :=
          Onward.waits agrees named apart fine one other
        rw [Term.withNames, staged, staged']
        exact ih (onward.meeting meeting (fun _ _ => met) later) queried stated

/-- A name that is changed is not one of these, or it is met where it stands first. -/
def Spared (ok : String → Prop) (name : String) (pairs : List (Term × Term)) : Prop :=
  ok name → Meets name pairs

theorem Spared.waits (spared : Spared ok name pairs) : (empty.push .empty).Waits ok name pairs := by
  by_cases native : ok name
  · exact .meets native (spared native)
  · exact .foreign native (walk_push_empty _)

theorem renamedPairs_zip (f : String → String) (args params : List Term) :
    renamedPairs f (args.zip params) = (args.map (.withNames f)).zip params :=
  List.zip_map_left.symm

/-- Unifying a query with parameters, and the renamed query. -/
theorem unifyAll_renamed {args params : List Term}
    (apart : ApartOn f args) (named : ∀ term ∈ params, term.Named ok)
    (spared : ∀ name, .var name ∈ args → f name ≠ name → Spared ok name (args.zip params) ∧
      Spared ok (f name) ((args.map (.withNames f)).zip params)) :
    Option.Rel (Agrees ok) (empty.unifyAll args params)
      (empty.unifyAll (args.map (.withNames f)) params) := by
  have agrees := (Agrees.refl_empty ok).push_empty
  have meeting : Meeting ok f (fun name => .var name ∈ args) (args.zip params)
      (empty.push .empty) (empty.push .empty) := by
    refine ⟨agrees, fun name inside => ?_⟩
    rw [renamedPairs_zip]
    by_cases same : f name = name
    · rw [same]
      by_cases native : ok name
      · exact .inl ⟨rfl, agrees.named (.var name) native⟩
      · have foreign := walk_push_empty (s := empty) (.var name)
        exact .inr ⟨.foreign native foreign, .foreign native foreign⟩
    · obtain ⟨one, other⟩ := spared name inside same
      exact .inr ⟨one.waits, other.waits⟩
  have queried (pair : Term × Term) (inside : pair ∈ args.zip params) :
      pair.1.Named fun name => .var name ∈ args := by
    have member := (List.of_mem_zip inside).1
    cases same : pair.1 with
    | lit value => trivial
    | var name => rwa [same] at member
  have stated (pair : Term × Term) (inside : pair ∈ args.zip params) : pair.2.Named ok :=
    named _ (List.of_mem_zip inside).2
  have staged := meeting.stage apart queried stated
  rw [renamedPairs_zip] at staged
  unfold unifyAll
  rw [List.length_map]
  split
  · generalize empty.stage .empty (args.zip params) = one,
      empty.stage .empty ((args.map (.withNames f)).zip params) = other at staged
    cases staged with
    | none => exact .none
    | some related => exact .some (related.trimmed (.refl_empty ok))
  · exact .none

end Staging
end Substitution

end Rulebook
