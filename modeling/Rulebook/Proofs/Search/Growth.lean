import Rulebook.Proofs.Search.Completeness

/-! Searches over a database that grows. A suspended search is taken up again at any time: what it
names by its place is still there, so growing loses none of its valuations, and it adds none that
the database does not hold by then. -/
namespace Rulebook
namespace Search
variable {db : Database} {source : SourceId} {σ : Valuation}

/-- What there was a way through stays so as the database grows. -/
theorem Means.grown {later : Database} (grown : db.Grown later) {search : Search}
    (means : search.Means db σ) : search.Means later σ := by
  induction means with
  | pending holds here => exact .pending holds (here.grown grown)
  | fact holds beyond found equal =>
    exact .fact holds beyond (getElem?_of_starts (grown.facts _) found) equal
  | factsDone _ ih => exact .factsDone ih
  | rule holds beyond found equal conditions =>
    exact .rule holds beyond (getElem?_of_starts (grown.rules _) found) equal
      fun condition inside => (conditions condition inside).grown grown
  | each _ rest ih => exact .each ih fun goal inside => (rest goal inside).grown grown
  | eachDone _ ih => exact .eachDone ih
  | round inside _ ih => exact .round inside ih
  | tracing _ ih => exact .tracing ih

abbrev IsFresh (source : SourceId) (p : Progress) (search : Search) : Prop :=
  search.IsOver (Past source) (FreshGoal source) p

theorem IsFresh.later {p q : Progress} (before : p.Before q) {search : Search}
    (fresh : search.IsFresh source p) : search.IsFresh source q :=
  fresh.imp (fun _ => FreshSub.later before) fun _ => FreshGoal.later before

/-- Between these answers and what is left nothing is lost, and nothing added but what the database
comes to hold. -/
structure Advances (db : Database) (source : SourceId) (search : Search) (p : Progress)
    (answers : List Substitution) (rest : Search) (q : Progress) : Prop where
  before : p.Before q
  fresh : rest.IsFresh source q
  settled : ∀ s ∈ answers, s.Settled
  sound : ∀ {later σ}, db.Grown later → (∃ s ∈ answers, s.Holds σ) ∨ rest.Means later σ →
    search.Means later σ
  complete : ∀ {σ}, search.Means db σ →
    ∃ τ, σ.Agrees (Past source p) τ ∧ ((∃ s ∈ answers, s.Holds τ) ∨ rest.Means db τ)

section Advancing
variable {search last : Search} {p q r : Progress} {answers : List Substitution}

theorem IsFresh.isKnown (literal : db.Literal) (salted : db.Salted source)
    (fresh : search.IsFresh source p) : search.IsKnown :=
  (retains_fresh literal salted).isKnown fresh

theorem Runs.advances (literal : db.Literal) (salted : db.Salted source)
    (run : Runs db search p answers last q) (fresh : search.IsFresh source p) :
    Advances db source search p answers last q := by
  have settled : search.IsSettled := (fresh.isKnown literal salted).imp (fun _ sub => sub)
    fun _ named => named.isFinite
  obtain ⟨before, given, rest⟩ := run.kept (kept_fresh literal salted) fresh
  exact ⟨before, rest, fun s inside => (given s inside).1, fun grown => run.sound_later grown settled,
    run.complete (retains_fresh literal salted) fresh⟩

/-- Where a run ends, the answers are all. -/
theorem Runs.advances_ended (literal : db.Literal) (salted : db.Salted source)
    (run : Runs db search p answers last q) (ended : last.step db q = (.ended, r))
    (fresh : search.IsFresh source p) : Advances db source search p answers .ended r := by
  have advances := run.advances literal salted fresh
  refine ⟨advances.before.trans (before_of_step ended), .ended, advances.settled, ?_, ?_⟩
  · intro later σ grown means
    exact advances.sound grown (means.imp_right fun none => nomatch none)
  · intro σ means
    obtain ⟨τ, agrees, found⟩ :=
      run.complete_ended (retains_fresh literal salted) ended fresh means
    exact ⟨τ, agrees, .inl found⟩

/-- Asking a search gives as many answers as wanted, or all that are left. -/
theorem exists_advances (layered : db.isLayered) (literal : db.Literal) (salted : db.Salted source)
    (wanted : Option Nat) (fresh : search.IsFresh source p) :
    ∃ answers rest stop q, search.harvest db wanted p = ⟨answers, rest, stop, q⟩ ∧
      Advances db source search p answers rest q ∧
      (stop = .enough ∧ wanted = some answers.length ∨ stop = .ended ∧ rest = .ended) := by
  obtain ⟨answers, last, q, run, ⟨all, same⟩ | ⟨r, ended, same⟩⟩ :=
    harvest_known layered wanted (fresh.isKnown literal salted) p
  · exact ⟨answers, last, .enough, q, same, run.advances literal salted fresh, .inl ⟨rfl, all⟩⟩
  · exact ⟨answers, .ended, .ended, r, same, run.advances_ended literal salted ended fresh,
      .inr ⟨rfl, rfl⟩⟩

end Advancing
end Search
end Rulebook
