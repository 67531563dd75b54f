import Rulebook.Proofs.Exclusion.Group
import Rulebook.Proofs.Literals
import Rulebook.Proofs.Program.Contents
import Rulebook.Proofs.Program.Requests
import Rulebook.Proofs.Renaming.Loading

/-! The shapes of relations. What a text asserts is a phrase, and where its literal text has no `%s`
the key of the phrase has as many as the phrase has arguments. So relations that are filled from
such texts take as many arguments as their keys have places for, and nothing is ever refused for
the number of its arguments. -/
namespace Rulebook

/-- The operation has succeeded, or failed for another reason than a number of arguments. -/
def Fitting (outcome : Except Fault α) : Prop :=
  ∀ what given relation takes, outcome ≠ .error (.arity what given relation takes)

theorem fitting_ok (result : α) : Fitting (.ok result) := nofun

theorem Fitting.error {fault : Fault} (fitting : Fitting (.error fault : Except Fault α)) :
    Fitting (.error fault : Except Fault β) :=
  fun what given relation takes same => fitting what given relation takes
    (congrArg _ (Except.error.inj same))

namespace Machine
variable {m n : Machine}

/-- What a relation takes is written in its key. -/
structure Shaped (m : Machine) : Prop where
  formed : m.WellFormed
  arity : ∀ key count, (m.under key).arity = some count → count = Phrase.marks key

structure Suits (run : Except Fault α × Machine) : Prop where
  fitting : Fitting run.1
  shaped : run.2.Shaped

namespace Shaped

theorem of_new (verbose strict : Bool) (id : Int) :
    ({ verbose, strict, nextId := id } : Machine).Shaped where
  formed := wellFormed_new verbose strict id
  arity key count fixed := by
    rw [under_of_absent rfl] at fixed
    cases fixed

theorem of_under (shaped : m.Shaped) (formed : n.WellFormed)
    (same : ∀ key, (n.under key).arity = (m.under key).arity) : n.Shaped where
  formed := formed
  arity key count fixed := shaped.arity key count ((same key).symm.trans fixed)

theorem declares (shaped : m.Shaped) (declares : Declares m n) : n.Shaped :=
  shaped.of_under (shaped.formed.evolves declares.evolves)
    fun key => (declares.under shaped.formed key).2.2

/-- Nothing but relations and keys matters. -/
theorem congr (shaped : m.Shaped) (formed : n.WellFormed) (database : n.database = m.database)
    (relations : n.relations = m.relations) : n.Shaped := by
  apply shaped.of_under formed
  intro key
  rw [under, under, database, relations]

/-- Exclusions take facts away and leave numbers of arguments as they are. -/
theorem prunes (shaped : m.Shaped) (formed : n.WellFormed) {key : String} {r : RelationId}
    (found : m.relations.get? key = some r) {facts : List (List Term)}
    (prunes : Prunes r facts m n) : n.Shaped := by
  apply shaped.of_under formed
  intro other
  rw [under_set shaped.formed found prunes.relations prunes.database]
  split
  · rename_i same
    rw [same, under_of_found found]
  · rfl

/-- One relation has been held to what its key says. -/
theorem fixed (shaped : m.Shaped) (formed : n.WellFormed) {key : String} {count : Nat}
    (here : (n.under key).arity = some count) (size : count = Phrase.marks key)
    (other : ∀ other ≠ key, n.under other = m.under other) : n.Shaped where
  formed := formed
  arity name given fixed := by
    by_cases same : name = key
    · subst same
      cases here.symm.trans fixed
      exact size
    · rw [other name same] at fixed
      exact shaped.arity name given fixed

/-- What a further fact or rule of the key is held to. -/
theorem takes (shaped : m.Shaped) {key : String} {r : RelationId}
    (found : m.relations.get? key = some r) {count : Nat} (size : count = Phrase.marks key)
    (fixed : Nat) (takes : (m.database.relation r).arity = some fixed) : count = fixed := by
  rw [← under_of_found found] at takes
  exact size.trans (shaped.arity key fixed takes).symm

theorem assert (shaped : m.Shaped) {key : String} {terms : List Term}
    (size : terms.length = Phrase.marks key) (create : Bool) :
    Suits ((Machine.assert key terms create).run m) := by
  rw [run_assert]
  split
  · rename_i fault n first
    have stays : fault = .undeclaredRelation key ∧ n = m := by
      rw [run_relationFor] at first
      split at first
      · cases first
      · split at first <;> cases first
        exact ⟨rfl, rfl⟩
    obtain ⟨rfl, rfl⟩ := stays
    exact ⟨nofun, shaped⟩
  rename_i r middle first
  have declares : Declares m middle := by
    rcases relationFor_cases first with ⟨_, rfl⟩ | ⟨absent, _, rfl⟩
    · exact .refl _
    · exact .step absent (.refl _)
  have found := (relationFor_ok first).2
  have declared := shaped.declares declares
  obtain ⟨after, facts, second, formed, _, prunes⟩ := excludes_prune declared.formed found terms
    ((middle.exclusions.get? key).getD [])
  have ready := declared.prunes formed found prunes
  rw [← prunes.relations] at found
  obtain ⟨db, added⟩ := Database.addFact_fits (ready.takes found size)
  rw [second]
  dsimp only
  rw [added]
  have under := under_of_addFact (n := after.asserted key terms db) formed found added rfl rfl
  have last := formed.evolves (works_asserted found added).evolves
  have here : ((after.asserted key terms db).under key).arity = some terms.length := by
    rw [under, if_pos rfl]
  refine ⟨fitting_ok _, ready.fixed last here size fun other apart => ?_⟩
  rw [under, if_neg apart]

theorem loadRule (shaped : m.Shaped) (above : List Line) {line : Line}
    (size : line.phrase.args.length = Phrase.marks line.phrase.key) :
    Suits ((Machine.loadRule above line).run m) := by
  obtain ⟨r, rule, middle, declares, found, compiled, loaded⟩ := run_loadRule above line m
  have ready := shaped.declares declares
  have formed := shaped.formed.evolves (works_loadRule above line m).evolves
  have params : rule.params.length = Phrase.marks line.phrase.key := by
    rw [compiled.params]
    exact size
  rw [loaded] at formed ⊢
  cases added : middle.database.addRule r rule with
  | error fault =>
    obtain ⟨path, _, rfl⟩ := Database.addRule_refused (ready.takes found params) added
    exact ⟨nofun, ready⟩
  | ok db =>
    rw [added] at formed
    dsimp only at formed ⊢
    generalize same : logged { middle with database := db } _ = last at formed ⊢
    have relations : last.relations = middle.relations := by rw [← same]; rfl
    have database : last.database = db := by rw [← same]; rfl
    have under := under_of_addRule ready.formed found added relations database
    have here : (last.under line.phrase.key).arity = some rule.params.length := by
      rw [under, if_pos rfl]
    refine ⟨fitting_ok _, ready.fixed formed here params fun other apart => ?_⟩
    rw [under, if_neg apart]

theorem loadExclusion (shaped : m.Shaped) (above : List Line) (line : Line) :
    Suits ((Machine.loadExclusion above line).run m) := by
  have formed := shaped.formed.evolves (works_loadExclusion above line m).evolves
  obtain ⟨exclusion, middle, declares, _, _, _, loaded⟩ := run_loadExclusion above line m
  rw [loaded] at formed ⊢
  exact ⟨fitting_ok _, (shaped.declares declares).congr formed rfl rfl⟩

theorem loadAction (shaped : m.Shaped) (above : List Line) (line : Line) (payload : List Line) :
    Suits ((Machine.loadAction above line payload).run m) := by
  obtain ⟨action, rule, middle, ready, last, first, declares, _, later, loaded, _⟩ :=
    run_loadAction above line payload m
  have opened : middle.Shaped := by
    rw [run_actionFor] at first
    split at first
    · cases first
      exact shaped
    · cases first
      exact shaped.congr (shaped.formed.congr rfl rfl rfl) rfl rfl
  have declared := opened.declares declares
  rw [loaded]
  refine ⟨fitting_ok _, Shaped.declares ?_ later⟩
  exact declared.congr (declared.formed.congr rfl rfl rfl) rfl rfl

/-- One line of a text is loaded. Only a claim has a number of arguments that matters. -/
theorem loadSite (shaped : m.Shaped) {site : Site} (size : site.line.kind = .claim →
      site.line.phrase.args.length = Phrase.marks site.line.phrase.key) :
    Suits ((Machine.loadSite site).run m) := by
  unfold Machine.loadSite
  split
  · exact shaped.loadAction site.above site.line site.payload
  · rename_i claim
    split
    · exact shaped.assert (size claim) true
    · exact shaped.loadRule site.above (size claim)
  · exact shaped.loadExclusion site.above site.line
  · exact ⟨fitting_ok _, shaped⟩

theorem loadSites (shaped : m.Shaped) {sites : List Site} (sizes : ∀ site ∈ sites,
      site.line.kind = .claim →
        site.line.phrase.args.length = Phrase.marks site.line.phrase.key) :
    Suits ((sites.forM Machine.loadSite).run m) := by
  induction sites generalizing m with
  | nil => exact ⟨fitting_ok _, shaped⟩
  | cons site sites ih =>
    obtain ⟨size, others⟩ := List.forall_mem_cons.mp sizes
    have here := shaped.loadSite size
    rw [forM_sites, run_bind]
    split
    · rename_i middle first
      rw [first] at here
      exact ih here.shaped others
    · rename_i fault middle first
      rw [first] at here
      exact ⟨here.fitting.error, here.shaped⟩

end Shaped

/-- The phrase of each line of a text is read from what the line says. -/
theorem phrase_of_site {text : String} {site : Site} (inside : site ∈ sitesOfText text) :
    site.line.phrase = .ofText site.line.content := by
  have lines : ∀ line ∈ linesOfText text, line.phrase = .ofText line.content := by
    intro line there
    obtain ⟨raw, _, rfl⟩ := List.mem_map.mp there
    rfl
  exact (Block.every_sitesOf nofun (outline text) (Block.every_ofLines lines) site inside).line

/-- A text is loaded whose claims have no `%s` in their literal text, or such a text is claimed. -/
inductive Request.Unmarked : Request → Prop where
  | load {text : String} : (∀ site ∈ sitesOfText text, site.line.kind = .claim →
      Phrase.Unmarked site.line.content) → Unmarked (.load text)
  | claim {text : String} : Phrase.Unmarked text → Unmarked (.claim (.ofText text))

section Requests
variable {host : Type}

/-- What an operation replies is what it comes to. -/
theorem fitting_reply {operation : MachineM Unit} {h : host} (fitting : Fitting (operation.run m).1) :
    Fitting ((do HostM.machine operation; return .done : HostM host Reply).run (m, h)).1 := by
  rw [run_bind, run_machine]
  generalize operation.run m = run at fitting
  obtain ⟨outcome, n⟩ := run
  cases outcome with
  | ok _ => exact fitting_ok _
  | error fault => exact fitting.error

variable (call : String → List (Option String) → HostM host Unit)

theorem Shaped.request (shaped : m.Shaped) (h : host) {request : Request}
    (unmarked : request.Unmarked) : Fitting ((request.run call).run (m, h)).1 ∧
      ((request.run call).run (m, h)).2.1.Shaped := by
  cases unmarked with
  | @load text unmarked =>
    have sizes : ∀ site ∈ sitesOfText text, site.line.kind = .claim →
        site.line.phrase.args.length = Phrase.marks site.line.phrase.key := by
      intro site inside claim
      rw [phrase_of_site inside]
      exact (unmarked site inside claim).marks_key.symm
    have suits := shaped.loadSites sizes
    rw [← load_eq] at suits
    refine ⟨fitting_reply suits.fitting, ?_⟩
    rw [Request.run, after_reply, run_machine]
    exact suits.shaped
  | @claim text unmarked =>
    have suits := shaped.assert unmarked.marks_key.symm (!m.strict)
    refine ⟨fitting_reply suits.fitting, ?_⟩
    rw [Request.run, after_reply, run_machine]
    exact suits.shaped

theorem Shaped.runAll (shaped : m.Shaped) (h : host) {requests : List Request}
    (unmarked : ∀ request ∈ requests, request.Unmarked) :
    (∀ reply ∈ (Machine.runAll call requests (m, h)).1, Fitting reply) ∧
      (Machine.runAll call requests (m, h)).2.1.Shaped := by
  induction requests generalizing m h with
  | nil => exact ⟨nofun, shaped⟩
  | cons request requests ih =>
    obtain ⟨first, others⟩ := List.forall_mem_cons.mp unmarked
    obtain ⟨fitting, next⟩ := shaped.request call h first
    obtain ⟨later, last⟩ := ih next _ others
    rw [runAll_cons]
    exact ⟨List.forall_mem_cons.mpr ⟨fitting, later⟩, last⟩

/-- Two texts have the same key exactly if their literal texts are the same once they are also cut
at each `%s` in them; where there is none, the texts have as many tokens and the same literal text
between them. A new machine that loads and claims texts without `%s` in the literal text of their
claims never refuses one for the number of its arguments, whatever else became of those before; a
relation that a text without `%s` names takes as many arguments as the text has tokens, and no such
text with another literal text names it. -/
theorem key_determines_phrase (verbose strict : Bool) (id : Int) (h : host)
    (requests : List Request) (unmarked : ∀ request ∈ requests, request.Unmarked) :
    (∀ text other : String, (Phrase.ofText text).key = (Phrase.ofText other).key ↔
      (Phrase.literals text).flatMap Phrase.cutMarks =
        (Phrase.literals other).flatMap Phrase.cutMarks) ∧
    (∀ text other : String, Phrase.Unmarked text → Phrase.Unmarked other →
      (Phrase.ofText text).key = (Phrase.ofText other).key →
      (Phrase.ofText text).args.length = (Phrase.ofText other).args.length ∧
        Phrase.literals text = Phrase.literals other) ∧
    let run := Machine.runAll call requests ({ verbose, strict, nextId := id }, h)
    (∀ reply ∈ run.1, ∀ what given relation takes,
      reply ≠ .error (.arity what given relation takes)) ∧
    ∀ text r, Phrase.Unmarked text →
      run.2.1.relations.get? (Phrase.ofText text).key = some r →
      (∀ count, (run.2.1.database.relation r).arity = some count →
        count = (Phrase.ofText text).args.length) ∧
      ∀ other, Phrase.Unmarked other →
        run.2.1.relations.get? (Phrase.ofText other).key = some r →
        Phrase.literals other = Phrase.literals text := by
  obtain ⟨fitting, shaped⟩ := (Shaped.of_new verbose strict id).runAll call h unmarked
  refine ⟨Phrase.key_eq_iff, fun text other plain too same => ?_, fitting,
    fun text r plain found => ⟨fun count fixed => ?_, fun other too there => ?_⟩⟩
  · have literals := plain.literals_eq too same
    have lengths := congrArg List.length literals
    rw [Phrase.length_literals, Phrase.length_literals] at lengths
    exact ⟨Nat.succ.inj lengths, literals⟩
  · rw [← under_of_found found] at fixed
    exact (shaped.arity _ count fixed).trans plain.marks_key
  · exact too.literals_eq plain (shaped.formed.key_inj there found)

/-- A fact, a rule and an exclusion under one key, a text that is refused for a cycle, and a claim
with `%s` within a token. -/
def seatRequests : List Request := [
  .load "+ seat \"a\" 100% (x)\n:: free (x)\n  + seat (y) 100% (x)\n  ? seat (x) 100% (z)",
  .load ":: seat (x) 100% (y)\n  + free (x)", .claim (.ofText "seat \"b\" 100% \"%s\"")]

def seatRun : List (Except Fault Reply) × Machine × Unit :=
  Machine.runAll (asides fun _ _ => pure ⟨⟩) seatRequests ({}, ())

theorem key_determines_phrase_seats :
    (∀ request ∈ seatRequests, request.Unmarked) ∧
      (∀ reply ∈ seatRun.1, ∀ what given relation takes,
        reply ≠ .error (.arity what given relation takes)) ∧
      Phrase.Unmarked "seat (p) 100% (q)" ∧
      seatRun.2.1.relations.get? (Phrase.ofText "seat (p) 100% (q)").key = some 0 ∧
      (seatRun.2.1.database.relation 0).arity = some 2 ∧
      ∀ other, Phrase.Unmarked other →
        seatRun.2.1.relations.get? (Phrase.ofText other).key = some 0 →
        Phrase.literals other = Phrase.literals "seat (p) 100% (q)" := by
  have unmarked : ∀ request ∈ seatRequests, request.Unmarked := by
    refine List.forall_mem_cons.mpr ⟨.load ?_, List.forall_mem_cons.mpr ⟨.load ?_,
      List.forall_mem_singleton.mpr (.claim ?_)⟩⟩
    · decide +kernel
    · decide +kernel
    · decide +kernel
  have whole := key_determines_phrase (asides fun _ _ => pure ⟨⟩) false false 0 () seatRequests
    unmarked
  -- Under its name the run is not evaluated to compare it with itself.
  rw [show Machine.runAll (asides fun _ _ => pure ⟨⟩) seatRequests
    (({ verbose := false, strict := false, nextId := 0 } : Machine), ()) = seatRun from rfl] at whole
  obtain ⟨_, _, fitting, shapes⟩ := whole
  have plain : Phrase.Unmarked "seat (p) 100% (q)" := by decide +kernel
  have found : seatRun.2.1.relations.get? (Phrase.ofText "seat (p) 100% (q)").key = some 0 := by
    decide +kernel
  have takes : (seatRun.2.1.database.relation 0).arity = some 2 := by decide +kernel
  have alone := (shapes "seat (p) 100% (q)" 0 plain found).2
  exact ⟨unmarked, fitting, plain, found, takes, alone⟩

end Requests

/-- A literal `%s` is read as the place of a token, so two phrases with one and with two tokens name
one relation, and the second is refused. -/
theorem marked_phrase_refused :
    let fact := Phrase.ofText "a \"2\" \"3\""
    let loaded := ((load "+ a %s \"1\"").run {}).2
    (Phrase.ofText "a %s \"1\"").key = fact.key ∧
      (Phrase.ofText "a %s \"1\"").args.length ≠ fact.args.length ∧
      Phrase.literals "a %s \"1\"" ≠ Phrase.literals "a \"2\" \"3\"" ∧
      ((load "+ a %s \"1\"").run {}).1 = .ok ⟨⟩ ∧
      (loaded.relations.get? fact.key).isSome ∧
      ((claim fact).run loaded).1 = .error (.arity .fact 2 "a %s %s" 1) := by
  decide +kernel

end Machine
end Rulebook
