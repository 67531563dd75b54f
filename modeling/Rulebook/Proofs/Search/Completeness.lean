import Rulebook.Proofs.Search.Meaning

/-! Searches lose no answer. Each use of a rule takes variables that nothing in the search knows
yet, so the texts that the rule needs for them can be grafted onto any valuation, and a step keeps
every way through the search. -/
namespace Rulebook

/-- The names that a valuation may still give to salted variables do not matter to these. -/
def Valuation.Agrees (ok : String → Prop) (σ τ : Valuation) : Prop :=
  ∀ name, ok name → τ name = σ name

section Agreement
variable {ok : String → Prop} {σ τ : Valuation}

theorem Valuation.Agrees.self (ok : String → Prop) (σ : Valuation) : σ.Agrees ok σ := fun _ _ => rfl

theorem Valuation.Agrees.symm (agrees : σ.Agrees ok τ) : τ.Agrees ok σ :=
  fun name fine => (agrees name fine).symm

theorem Valuation.Agrees.trans {υ : Valuation} (first : σ.Agrees ok τ) (second : τ.Agrees ok υ) :
    σ.Agrees ok υ :=
  fun name fine => (second name fine).trans (first name fine)

theorem Valuation.Agrees.imp {fine : String → Prop} (less : ∀ name, ok name → fine name)
    (agrees : σ.Agrees fine τ) : σ.Agrees ok τ :=
  fun name known => agrees name (less name known)

/-- New texts under a salt do not matter to names that are not made under it. -/
theorem Valuation.agrees_graft {salt : String} (past : ∀ name, ¬ok (salt ++ name)) :
    σ.Agrees ok (σ.graft salt τ) := by
  intro name fine
  apply Valuation.graft_other
  rintro ⟨rest, rfl⟩
  exact past rest fine

theorem Term.under_agrees (agrees : σ.Agrees ok τ) {term : Term} (named : term.Named ok) :
    term.under τ = term.under σ :=
  Term.under_congr (named.imp agrees)

theorem map_under_agrees (agrees : σ.Agrees ok τ) {terms : List Term}
    (named : ∀ term ∈ terms, term.Named ok) :
    terms.map (Term.under τ) = terms.map (Term.under σ) :=
  map_under_congr fun term inside => (named term inside).imp agrees

theorem Substitution.Holds.agrees {s : Substitution} (holds : s.Holds σ) (named : s.Named ok)
    (agrees : σ.Agrees ok τ) : s.Holds τ := by
  intro name term bound
  obtain ⟨left, right⟩ := named name term bound
  rw [agrees name left, holds name term bound, Term.under_agrees agrees right]

theorem Goal.Holds.agrees {db : Database} {goal : Goal} (holds : goal.Holds db σ)
    (named : goal.Named ok) (agrees : σ.Agrees ok τ) : goal.Holds db τ := by
  induction holds with
  | unify equal =>
    cases named with
    | unify left right =>
      exact .unify (by rwa [Term.under_agrees agrees left, Term.under_agrees agrees right])
  | unifyAll equal =>
    cases named with
    | unifyAll left right =>
      exact .unifyAll (by rwa [map_under_agrees agrees left, map_under_agrees agrees right])
  | all _ ih =>
    cases named with
    | all named => exact .all fun goal inside => ih goal inside (named goal inside)
  | any inside _ ih =>
    cases named with
    | any named => exact .any inside (ih (named _ inside))
  | query derivable =>
    cases named with
    | query named => exact .query (by rwa [map_under_agrees agrees named])
  | traced _ ih =>
    cases named with
    | traced named => exact .traced (ih named)

end Agreement

def Database.Salted (db : Database) (source : SourceId) : Prop :=
  ∀ r, ∀ rule ∈ (db.relation r).rules, rule.source = some source

theorem Rule.use_salted {rule : Rule} {source : SourceId} (salted : rule.source = some source)
    (args : List Term) (p : Progress) :
    rule.use args p = (rule.goal args (Naming.salt (p.nextId source)), p.advance source) := by
  simp only [use, salted]

namespace Search
variable {db : Database} {source : SourceId}

/-- Names that no salt to come makes. -/
def Past (source : SourceId) (p : Progress) (name : String) : Prop :=
  ¬Naming.ToCome (p.nextId source) name

theorem Past.later {p q : Progress} {name : String} (before : p.Before q)
    (past : Past source p name) : Past source q name :=
  fun made => past (made.mono (before.2 source))

def FreshSub (source : SourceId) (p : Progress) (s : Substitution) : Prop :=
  s.Settled ∧ s.Named (Past source p)

/-- The same of a goal that can be searched, where the source is there to mint from. -/
def FreshGoal (source : SourceId) (p : Progress) (goal : Goal) : Prop :=
  goal.Named (Past source p) ∧ source < p.nextIds.length

theorem FreshSub.later {p q : Progress} (before : p.Before q) {s : Substitution}
    (fresh : FreshSub source p s) : FreshSub source q s :=
  ⟨fresh.1, fresh.2.imp fun _ => Past.later before⟩

theorem FreshGoal.later {p q : Progress} (before : p.Before q) {goal : Goal}
    (fresh : FreshGoal source p goal) : FreshGoal source q goal :=
  ⟨fresh.1.imp fun _ => Past.later before, before.1 ▸ fresh.2⟩

/-- Once a salt is minted, the names it makes are past. -/
theorem past_salt {p : Progress} (inside : source < p.nextIds.length) (name : String) :
    Past source (p.advance source) (Naming.salt (p.nextId source) ++ name) := by
  apply Naming.not_toCome_salt
  rw [p.nextId_advance inside]
  omega

/-- A search stays over known names, where names once known stay so, if the facts are and each use
of a rule is. -/
theorem kept_named {known : Progress → String → Prop} {ready : Progress → Prop}
    (later : ∀ {p q name}, p.Before q → known p name → known q name)
    (still : ∀ {p q : Progress}, p.Before q → ready p → ready q)
    (stored : ∀ p r, ∀ fact ∈ (db.relation r).facts, ∀ term ∈ fact, term.Named (known p))
    (used : ∀ {p r args}, ready p → (∀ term ∈ args, term.Named (known p)) →
      ∀ rule ∈ (db.relation r).rules, (rule.use args p).1.Named (known (rule.use args p).2)) :
    Kept db (fun p s => s.Settled ∧ s.Named (known p))
      (fun p goal => goal.Named (known p) ∧ ready p) where
  laterSub before sub := ⟨sub.1, sub.2.imp fun _ => later before⟩
  laterGoal before fine := ⟨fine.1.imp fun _ => later before, still before fine.2⟩
  unify := by
    rintro p s t left right ⟨goal, _⟩ ⟨settled, named⟩ unified
    obtain ⟨found, same, unifies⟩ := Substitution.unifies_unify settled left right
    rw [unified, Except.ok.injEq] at same
    subst same
    cases goal with
    | unify first second =>
      exact ⟨unifies.1, Substitution.unify_named settled named first second unified⟩
  unifyAll := by
    rintro p s t left right ⟨goal, _⟩ ⟨settled, named⟩ unified
    cases goal with
    | unifyAll first second =>
      exact ⟨Substitution.unifyAll_settled settled unified,
        Substitution.unifyAll_named settled named first second unified⟩
  fact := by
    rintro p s t r args ⟨goal, _⟩ ⟨settled, named⟩ fact inside unified
    cases goal with
    | query args =>
      exact ⟨Substitution.unifyAll_settled settled unified,
        Substitution.unifyAll_named settled named args (stored p r fact inside) unified⟩
  all := by
    rintro p goals ⟨named, ready⟩ goal member
    cases named with
    | all named => exact ⟨named goal member, ready⟩
  any := by
    rintro p goals ⟨named, ready⟩ goal member
    cases named with
    | any named => exact ⟨named goal member, ready⟩
  traced := by
    rintro p label goal ⟨named, ready⟩
    cases named with
    | traced named => exact ⟨named, ready⟩
  stream := by
    rintro p answers ⟨named, _⟩
    cases named
  use := by
    rintro p r args ⟨named, ready⟩ rule inside
    cases named with
    | query named => exact ⟨used ready named rule inside, still (rule.before_use args p) ready⟩

theorem kept_fresh (literal : db.Literal) (salted : db.Salted source) :
    Kept db (FreshSub source) (FreshGoal source) := by
  refine kept_named Past.later (fun before inside => before.1 ▸ inside) ?_ ?_
  · exact fun p r fact stored term inside => .of_literal (literal r fact stored term inside) _
  · intro p r args inside named rule stored
    rw [Rule.use_salted (salted r rule stored)]
    exact rule.goal_named (fun term member => (named term member).imp
      fun _ => Past.later (p.before_advance source)) fun name => past_salt inside name

/-- What a search needs to lose no valuation, given the names known at each of its points: the facts
that it asks for are literal, and wherever it uses a rule that holds, there are texts for the names
that come with the use. -/
structure Retains (db : Database) (known : Progress → String → Prop)
    (okGoal : Progress → Goal → Prop) : Prop
    extends Kept db (fun p s => s.Settled ∧ s.Named (known p)) okGoal where
  later : ∀ {p q : Progress} {name}, p.Before q → known p name → known q name
  named : ∀ {p goal}, okGoal p goal → goal.Named (known p)
  literal : ∀ {p r args}, okGoal p (.query r args) →
    ∀ fact ∈ (db.relation r).facts, ∀ term ∈ fact, term.isLiteral
  graft : ∀ {p r args}, okGoal p (.query r args) → ∀ rule ∈ (db.relation r).rules,
    ∀ {s : Substitution} {σ ρ : Valuation}, s.Named (known p) → s.Holds σ →
      args.map (Term.under σ) = rule.params.map (Term.under ρ) →
      (∀ condition ∈ rule.conditions,
        Derivable db condition.1 (condition.2.map (Term.under ρ))) →
      ∃ τ, σ.Agrees (known p) τ ∧ s.Holds τ ∧ (rule.use args p).1.Holds db τ

abbrev IsOver (known : Progress → String → Prop) (okGoal : Progress → Goal → Prop) (p : Progress)
    (search : Search) : Prop :=
  search.Every (fun s => s.Settled ∧ s.Named (known p)) (okGoal p)

section Retaining
variable {known : Progress → String → Prop} {okGoal : Progress → Goal → Prop}

theorem Retains.isKnown (retains : Retains db known okGoal) {search : Search} {p : Progress}
    (every : search.IsOver known okGoal p) : search.IsKnown :=
  every.imp (fun _ sub => sub.1) fun _ fine => (retains.named fine).imp fun _ _ => trivial

/-- The first work on a goal loses no valuation. -/
theorem enter_complete (retains : Retains db known okGoal) {σ : Valuation} {p : Progress}
    {s : Substitution} {goal : Goal} (settled : s.Settled) (fine : okGoal p goal)
    (holds : s.Holds σ) (here : goal.Holds db σ) : (enter s p goal).1.Means db σ := by
  have named := retains.named fine
  cases here with
  | @unify left right equal =>
    obtain ⟨found, unified, unifies⟩ := Substitution.unifies_unify settled left right
    simp only [enter, unified]
    cases found with
    | none => exact absurd equal (unifies σ holds)
    | some t => exact .answer ((unifies.2 σ).mpr ⟨holds, equal⟩)
  | unifyAll equal =>
    obtain ⟨t, unified⟩ := Substitution.unifyAll_isSome settled holds equal
    simp only [enter, unified]
    exact .answer ((Substitution.unifyAll_holds settled unified σ).mpr ⟨holds, equal⟩)
  | @all goals here =>
    cases goals with
    | nil => exact .answer holds
    | cons goal goals =>
      cases named with
      | all named =>
        simp only [enter, start_named (named goal (by simp))]
        obtain ⟨first, others⟩ := List.forall_mem_cons.mp here
        exact .working (.each (.pending holds first) others)
  | any inside here =>
    cases named with
    | any named =>
      simp only [enter, all_isSearchable named, if_true]
      exact .working (.round (List.mem_map_of_mem inside) (.pending holds here))
  | @query r args derivable =>
    simp only [enter]
    generalize same : args.map (Term.under σ) = values at derivable
    cases derivable with
    | fact τ stored =>
      obtain ⟨place, found⟩ := List.getElem?_of_mem stored
      exact .working (.fact holds (Nat.zero_le place) found
        (same.trans (map_under_literal (retains.literal fine _ stored) τ σ)))
    | rule ρ stored conditions =>
      obtain ⟨place, found⟩ := List.getElem?_of_mem stored
      exact .working (.factsDone (.rule holds (Nat.zero_le place) found same conditions))
  | traced here =>
    cases named with
    | traced named =>
      simp only [enter, start_named named]
      exact .working (.tracing (.pending holds here))

/-- A use of a rule whose parameters and conditions hold under some texts for its variables: these
are grafted onto the valuation under the salt of this use. -/
theorem graft_holds {rule : Rule} {args : List Term} {s : Substitution} {σ ρ : Valuation}
    {salt : String} {ok : String → Prop} (past : ∀ name, ¬ok (salt ++ name))
    (named : ∀ term ∈ args, term.Named ok) (sub : s.Named ok) (holds : s.Holds σ)
    (equal : args.map (Term.under σ) = rule.params.map (Term.under ρ))
    (conditions : ∀ condition ∈ rule.conditions,
      Derivable db condition.1 (condition.2.map (Term.under ρ))) :
    σ.Agrees ok (σ.graft salt ρ) ∧ s.Holds (σ.graft salt ρ) ∧
      (rule.goal args salt).Holds db (σ.graft salt ρ) := by
  have agrees : σ.Agrees ok (σ.graft salt ρ) := Valuation.agrees_graft past
  refine ⟨agrees, holds.agrees sub agrees, ?_⟩
  rw [rule.holds_goal, Valuation.graft_through, map_under_agrees agrees named]
  exact ⟨equal, conditions⟩

/-- A step from here loses no valuation, but may have to give new texts to variables it mints. -/
def Lossless (db : Database) (ok : String → Prop) (p : Progress) (search : Search) : Prop :=
  ∀ σ, search.Means db σ → ∃ τ, σ.Agrees ok τ ∧ (search.step db p).1.Means db τ

section Steps
variable {p : Progress} {r : RelationId} {args : List Term} {s : Substitution} {next : Nat}

theorem facts_lossless {ok : String → Prop} (settled : s.Settled) :
    (Search.facts r args s next).Lossless db ok p := by
  intro σ means
  refine ⟨σ, .self _ σ, ?_⟩
  rw [step]
  cases found : (db.relation r).facts[next]? with
  | none =>
    cases means with
    | fact _ later here _ =>
      have := List.getElem?_eq_none_iff.mp found
      have := (List.getElem?_eq_some_iff.mp here).1
      omega
    | factsDone means => exact .working means
  | some fact =>
    rw [Outcome.means_ofUnifier]
    cases means with
    | @fact _ _ other _ _ place holds later here equal =>
      rcases Nat.eq_or_lt_of_le later with rfl | beyond
      · rw [found, Option.some.injEq] at here
        subst here
        obtain ⟨t, unified⟩ := Substitution.unifyAll_isSome settled holds equal
        exact .inl ⟨t, unified,
          (Substitution.unifyAll_holds settled unified σ).mpr ⟨holds, equal⟩⟩
      · exact .inr (.fact holds beyond here equal)
    | factsDone means => exact .inr (.factsDone means)

theorem rules_lossless (retains : Retains db known okGoal) (fine : okGoal p (.query r args))
    (named : s.Named (known p)) : (Search.rules r args s next).Lossless db (known p) p := by
  intro σ means
  rw [step]
  cases means with
  | @rule _ _ other _ _ place ρ holds later here equal conditions =>
    cases found : (db.relation r).rules[next]? with
    | none =>
      have := List.getElem?_eq_none_iff.mp found
      have := (List.getElem?_eq_some_iff.mp here).1
      omega
    | some rule =>
      rcases Nat.eq_or_lt_of_le later with rfl | beyond
      · rw [found, Option.some.injEq] at here
        subst here
        have stored := List.mem_of_getElem? found
        obtain ⟨τ, agrees, base, here⟩ := retains.graft fine rule stored named holds equal conditions
        exact ⟨τ, agrees, .working (.each (.pending base here) (by simp))⟩
      · exact ⟨σ, .self _ σ, .working (.eachDone (.rule holds beyond here equal conditions))⟩

theorem each_lossless (retains : Retains db known okGoal) {live below : Search}
    {rest : List Goal} (searchable : live.IsKnown) (lossless : live.Lossless db (known p) p)
    (others : ∀ goal ∈ rest, okGoal p goal) :
    (Search.each live rest below).Lossless db (known p) p := by
  intro σ means
  rw [step]
  have succeeds : ∀ fault, (live.step db p).1 ≠ .failed fault := step_succeeds searchable
  have started (goal : Goal) (inside : goal ∈ rest) :
      ∀ s, start goal s = .ok (.pending goal s) := start_named (retains.named (others goal inside))
  cases means with
  | eachDone later =>
    refine ⟨σ, .self _ σ, ?_⟩
    generalize live.step db p = stepped at succeeds ⊢
    obtain ⟨outcome, q⟩ := stepped
    cases outcome with
    | working => exact .working (.eachDone later)
    | ended => exact .working later
    | failed fault => exact absurd rfl (succeeds fault)
    | answer s =>
      cases rest with
      | nil => exact .later (.eachDone later)
      | cons goal goals =>
        simp only [started goal List.mem_cons_self]
        exact .working (.eachDone (.eachDone later))
  | each here behind =>
    obtain ⟨τ, agrees, kept⟩ := lossless σ here
    have behind (goal : Goal) (inside : goal ∈ rest) : goal.Holds db τ :=
      (behind goal inside).agrees (retains.named (others goal inside)) agrees
    refine ⟨τ, agrees, ?_⟩
    generalize live.step db p = stepped at kept ⊢
    obtain ⟨outcome, q⟩ := stepped
    cases kept with
    | working live => exact .working (.each live behind)
    | answer holds =>
      cases rest with
      | nil => exact .answer holds
      | cons goal goals =>
        simp only [started goal List.mem_cons_self]
        obtain ⟨now, after⟩ := List.forall_mem_cons.mp behind
        exact .working (.each (.pending holds now) after)
    | later live =>
      cases rest with
      | nil => exact .later (.each live behind)
      | cons goal goals =>
        simp only [started goal List.mem_cons_self]
        exact .working (.eachDone (.each live behind))

theorem round_lossless {ok : String → Prop} {queue : List Search}
    (searchable : ∀ search ∈ queue, search.IsKnown)
    (lossless : ∀ search ∈ queue, search.Lossless db ok p) :
    (Search.round queue).Lossless db ok p := by
  intro σ means
  cases means with
  | round inside branch =>
    cases queue with
    | nil => cases inside
    | cons first others =>
      rw [step]
      have succeeds : ∀ fault, (first.step db p).1 ≠ .failed fault :=
        step_succeeds (searchable first List.mem_cons_self)
      rcases List.mem_cons.mp inside with rfl | later
      · obtain ⟨τ, agrees, kept⟩ := lossless _ List.mem_cons_self σ branch
        refine ⟨τ, agrees, ?_⟩
        generalize Search.step db _ p = stepped at kept ⊢
        obtain ⟨outcome, q⟩ := stepped
        cases kept with
        | working branch => exact .working (.round List.mem_cons_self branch)
        | answer holds => exact .answer holds
        | later branch => exact .later (.round (by simp) branch)
      · -- The turn of the branch has not come yet.
        refine ⟨σ, .self _ σ, ?_⟩
        generalize first.step db p = stepped at succeeds ⊢
        obtain ⟨outcome, q⟩ := stepped
        cases outcome with
        | working => exact .working (.round (List.mem_cons_of_mem _ later) branch)
        | ended => exact .working (.round later branch)
        | failed fault => exact absurd rfl (succeeds fault)
        | answer => exact .later (.round (List.mem_append_left _ later) branch)

theorem tracing_lossless {ok : String → Prop} {label : String} {inner : Search}
    (lossless : inner.Lossless db ok p) : (Search.tracing label inner).Lossless db ok p := by
  intro σ means
  cases means with
  | tracing means =>
    obtain ⟨τ, agrees, kept⟩ := lossless σ means
    refine ⟨τ, agrees, ?_⟩
    rw [step]
    generalize inner.step db p = stepped at kept ⊢
    obtain ⟨outcome, q⟩ := stepped
    cases kept with
    | working means => exact .working (.tracing means)
    | answer holds => exact .answer holds
    | later means => exact .later (.tracing means)

end Steps

/-- No step loses a valuation. -/
theorem lossless_of_over (retains : Retains db known okGoal) {search : Search} {p : Progress}
    (every : search.IsOver known okGoal p) : search.Lossless db (known p) p := by
  induction every with
  | ended =>
    intro σ means
    cases means
  | pending fine sub =>
    intro σ means
    cases means with
    | pending holds here =>
      rw [step]
      exact ⟨σ, .self _ σ, enter_complete retains sub.1 fine holds here⟩
  | facts _ sub => exact facts_lossless sub.1
  | rules fine sub => exact rules_lossless retains fine sub.2
  | each live others _ ih => exact each_lossless retains (retains.isKnown live) ih others
  | round queue ih =>
    exact round_lossless (fun search inside => retains.isKnown (queue search inside)) ih
  | tracing _ ih => exact tracing_lossless ih

theorem complete_of_step (retains : Retains db known okGoal) {search : Search} {p q : Progress}
    {outcome : Outcome} {σ : Valuation} (every : search.IsOver known okGoal p)
    (stepped : search.step db p = (outcome, q)) (means : search.Means db σ) :
    ∃ τ, σ.Agrees (known p) τ ∧ outcome.Means db τ := by
  have kept := lossless_of_over retains every σ means
  rwa [stepped] at kept

theorem Retains.agrees (retains : Retains db known okGoal) {p q : Progress} {σ τ υ : Valuation}
    (before : p.Before q) (first : σ.Agrees (known p) τ) (second : τ.Agrees (known q) υ) :
    σ.Agrees (known p) υ :=
  fun name old => (second name (retains.later before old)).trans (first name old)

/-- A run loses no valuation: it is one of an answer, or of what is left. -/
theorem Runs.complete (retains : Retains db known okGoal) {search last : Search}
    {p q : Progress} {answers : List Substitution} {σ : Valuation}
    (run : Runs db search p answers last q) (every : search.IsOver known okGoal p)
    (means : search.Means db σ) :
    ∃ τ, σ.Agrees (known p) τ ∧ ((∃ s ∈ answers, s.Holds τ) ∨ last.Means db τ) := by
  induction run generalizing σ with
  | refl => exact ⟨σ, .self _ σ, .inr means⟩
  | working stepped _ ih =>
    obtain ⟨τ, agrees, next⟩ := complete_of_step retains every stepped means
    cases next with
    | working next =>
      obtain ⟨υ, more, found⟩ := ih (retains.working every stepped) next
      exact ⟨υ, retains.agrees (before_of_step stepped) agrees more, found⟩
  | answer stepped _ ih =>
    obtain ⟨τ, agrees, next⟩ := complete_of_step retains every stepped means
    cases next with
    | answer holds => exact ⟨τ, agrees, .inl ⟨_, by simp, holds⟩⟩
    | later next =>
      obtain ⟨υ, more, found⟩ := ih (retains.answer every stepped).2 next
      refine ⟨υ, retains.agrees (before_of_step stepped) agrees more, found.imp_left ?_⟩
      rintro ⟨t, inside, holds⟩
      exact ⟨t, List.mem_cons_of_mem _ inside, holds⟩

/-- A search that has ended has answered under every valuation. -/
theorem Runs.complete_ended (retains : Retains db known okGoal) {search last : Search}
    {p q r : Progress} {answers : List Substitution} {σ : Valuation}
    (run : Runs db search p answers last q) (ended : last.step db q = (.ended, r))
    (every : search.IsOver known okGoal p) (means : search.Means db σ) :
    ∃ τ, σ.Agrees (known p) τ ∧ ∃ s ∈ answers, s.Holds τ := by
  obtain ⟨τ, agrees, found | means⟩ := run.complete retains every means
  · exact ⟨τ, agrees, found⟩
  · obtain ⟨_, _, rest⟩ := run.kept retains.toKept every
    obtain ⟨_, _, none⟩ := complete_of_step retains rest ended means
    cases none

end Retaining

/-- Where all facts are literal and all rules salted, grafting finds the texts for new names. -/
theorem retains_fresh (literal : db.Literal) (salted : db.Salted source) :
    Retains db (Past source) (FreshGoal source) where
  toKept := kept_fresh literal salted
  later := Past.later
  named fresh := fresh.1
  literal _ := literal _
  graft := by
    rintro p r args ⟨goal, _⟩ rule stored s σ ρ sub holds equal conditions
    have unknown (name : String) : ¬Past source p (Naming.salt (p.nextId source) ++ name) :=
      fun past => past (Naming.toCome_salt name)
    rw [Rule.use_salted (salted r rule stored)]
    cases goal with
    | query named => exact ⟨_, graft_holds unknown named sub holds equal conditions⟩

/-- Where a goal holds, some answer to it holds under the same texts for all names from before. -/
theorem Answers.complete (literal : db.Literal) (salted : db.Salted source) {goal : Goal}
    {p r : Progress} {found : List Substitution} {σ : Valuation}
    (answers : Answers db goal p found r) (fresh : FreshGoal source p goal)
    (holds : goal.Holds db σ) : ∃ τ, σ.Agrees (Past source p) τ ∧ ∃ s ∈ found, s.Holds τ := by
  obtain ⟨last, q, run, ended⟩ := answers
  exact run.complete_ended (retains_fresh literal salted) ended
    (.pending fresh ⟨Substitution.settled_empty, Substitution.named_empty _⟩)
    (.pending (Substitution.holds_empty σ) holds)

end Search
end Rulebook
