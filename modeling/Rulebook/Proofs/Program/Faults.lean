import Rulebook.Proofs.Phrase
import Rulebook.Proofs.Program.Firing
import Rulebook.Proofs.Program.Nesting
import Rulebook.Proofs.Program.Placeholders

/-! What operations fail with. Reading a text never fails: a piece that is cut out as a token is
one. Whatever else goes wrong has a cause that the operation names; none of the faults by which a
search, a unification or a table of the machine would give up ever comes out of an operation. -/
namespace Rulebook

theorem mapM_ok {ε : Type} {f : α → Except ε β} {g : α → β} {items : List α}
    (each : ∀ a ∈ items, f a = .ok (g a)) : items.mapM f = .ok (items.map g) := by
  induction items with
  | nil => rfl
  | cons a items ih =>
    obtain ⟨here, others⟩ := List.forall_mem_cons.mp each
    rw [List.mapM_cons, here, ih others]
    rfl

namespace Phrase

/-- The arguments that a piece contributes; a text that is no token is refused. -/
def Piece.readArgs : Piece → Except Fault (List Term)
  | plain _ => .ok []
  | token text => (Phrase.token text).map fun term => [term]

/-- Reads a phrase, and fails on a token that cannot be read. -/
def read (text : String) : Except Fault Phrase := do
  let found := pieces text.toList
  let args ← found.mapM Piece.readArgs
  return ⟨String.ofList (found.flatMap Piece.key), args.flatten⟩

theorem readArgs_of_piece {piece : Piece} {text : List Char} (cut : piece ∈ pieces text) :
    piece.readArgs = .ok piece.arg?.toList := by
  cases piece with
  | plain c => rfl
  | token inside =>
    obtain ⟨term, read, _⟩ := (cut_pieces text).legible cut
    rw [Piece.readArgs, Piece.arg?, read]
    rfl

/-- Any text is a phrase. -/
theorem read_eq (text : String) : read text = .ok (ofText text) := by
  have args : (pieces text.toList).mapM Piece.readArgs =
      .ok ((pieces text.toList).map fun piece => piece.arg?.toList) :=
    mapM_ok fun piece cut => readArgs_of_piece cut
  have flat : ((pieces text.toList).map fun piece => piece.arg?.toList).flatten =
      (pieces text.toList).filterMap Piece.arg? := by
    rw [← List.flatMap_def, List.filterMap_eq_flatMap_toList]
  rw [read, args]
  change Except.ok (Phrase.mk _ _) = _
  rw [flat, ofText]

end Phrase

namespace Line

def read (text : List Char) : Except Fault Line := do
  let (kind, content) := classify (text.dropWhile (· == ' '))
  let phrase ← Phrase.read (String.ofList content)
  return { kind, text := String.ofList text, content := String.ofList content,
           indent := indentOf text, phrase }

theorem read_eq (text : List Char) : read text = .ok (ofChars text) := by
  rw [read]
  dsimp only
  rw [Phrase.read_eq]
  rfl

end Line

def readOutline (text : String) : Except Fault (List Block) := do
  let lines ← ((Text.splitLines text.toList).filter (!Text.isBlankLine ·)).mapM fun line =>
    Line.read (Text.dropReturns line)
  return Block.ofLines lines

/-- Any text has a tree. -/
theorem readOutline_eq (text : String) : readOutline text = .ok (outline text) := by
  have lines : (((Text.splitLines text.toList).filter (!Text.isBlankLine ·)).mapM fun line =>
      Line.read (Text.dropReturns line)) = .ok (linesOfText text) :=
    mapM_ok fun line _ => Line.read_eq (Text.dropReturns line)
  rw [readOutline, lines]
  rfl

namespace Fault

inductive OfLoading : Fault → Prop where
  | recursiveRule (path : List String) : OfLoading (.recursiveRule path)
  | arity (what : Addition) (given : Nat) (relation : String) (takes : Nat) :
      OfLoading (.arity what given relation takes)

inductive OfClaiming (m : Machine) (fact : Phrase) : Fault → Prop where
  | arity (what : Addition) (given : Nat) (relation : String) (takes : Nat) :
      OfClaiming m fact (.arity what given relation takes)
  | undeclared : m.strict = true → m.relations.get? fact.key = none →
      OfClaiming m fact (.undeclaredRelation fact.key)

/-- What performing an action fails with, where no callback fails. -/
inductive OfPerforming : Fault → Prop where
  | undeclaredRelation (key : String) : OfPerforming (.undeclaredRelation key)
  | undeclaredAction (key : String) : OfPerforming (.undeclaredAction key)
  | unregisteredCallback (name : String) : OfPerforming (.unregisteredCallback name)
  | namelessCallback (line : String) : OfPerforming (.namelessCallback line)
  | arity (what : Addition) (given : Nat) (relation : String) (takes : Nat) :
      OfPerforming (.arity what given relation takes)
  | recursiveAction (chain : List String) : OfPerforming (.recursiveAction chain)

end Fault

theorem Database.addRule_fails {db : Database} {r : RelationId} {rule : Rule} {fault : Fault}
    (failed : db.addRule r rule = .error fault) : fault.OfLoading := by
  rcases addRule_error failed with ⟨_, _, rfl⟩ | ⟨_, _, _, _, rfl⟩
  · exact .recursiveRule _
  · exact .arity _ _ _ _

namespace Machine
variable {m n : Machine}

section Claiming
variable {key : String} {terms : List Term} {create : Bool} {fault : Fault}

/-- Asserting fails where the relation is not declared and may not be, or takes another number of
arguments. -/
theorem assert_fails (formed : m.WellFormed)
    (failed : ((assert key terms create).run m).1 = .error fault) :
    (create = false ∧ m.relations.get? key = none ∧ fault = .undeclaredRelation key) ∨
      ∃ relation takes, fault = .arity .fact terms.length relation takes := by
  rw [run_assert] at failed
  split at failed
  · rename_i other k first
    cases failed
    rw [run_relationFor] at first
    split at first
    · cases first
    · rename_i absent
      split at first
      · cases first
      · rename_i fixed
        cases first
        exact .inl ⟨by simpa using fixed, absent, rfl⟩
  · rename_i r k first
    obtain ⟨works, found⟩ := relationFor_ok first
    obtain ⟨after, excluded⟩ := run_excludes (formed.evolves works.evolves) found terms
      ((k.exclusions.get? key).getD [])
    rw [excluded] at failed
    dsimp only at failed
    split at failed
    · rename_i other refused
      cases failed
      obtain ⟨takes, _, _, rfl⟩ := Database.addFact_refused refused
      exact .inr ⟨_, _, rfl⟩
    · cases failed

theorem claim_fails (formed : m.WellFormed) {fact : Phrase}
    (failed : ((claim fact).run m).1 = .error fault) : fault.OfClaiming m fact := by
  have asserted : ((assert fact.key fact.args (!m.strict)).run m).1 = .error fault := failed
  rcases assert_fails formed asserted with ⟨strict, absent, rfl⟩ | ⟨relation, takes, rfl⟩
  · exact .undeclared (by simpa using strict) absent
  · exact .arity _ _ _ _

/-- A strict machine refuses a key that nothing declared. -/
theorem claim_undeclared {fact : Phrase} (strict : m.strict = true)
    (absent : m.relations.get? fact.key = none) :
    ((claim fact).run m).1 = .error (.undeclaredRelation fact.key) := by
  change ((assert fact.key fact.args (!m.strict)).run m).1 = _
  rw [run_assert, run_relationFor, absent, strict]
  rfl

end Claiming

section Loading
variable {fault : Fault}

theorem loadSite_fails (formed : m.WellFormed) {site : Site}
    (failed : ((loadSite site).run m).1 = .error fault) : fault.OfLoading := by
  unfold loadSite at failed
  split at failed
  · obtain ⟨_, _, _, _, _, _, _, _, _, run, _⟩ :=
      run_loadAction site.above site.line site.payload m
    rw [run] at failed
    cases failed
  · split at failed
    · rcases assert_fails formed failed with ⟨fixed, _, _⟩ | ⟨relation, takes, rfl⟩
      · cases fixed
      · exact .arity _ _ _ _
    · obtain ⟨r, rule, k, _, _, _, run⟩ := run_loadRule site.above site.line m
      rw [run] at failed
      split at failed
      · rename_i refused
        cases failed
        exact Database.addRule_fails refused
      · cases failed
  · obtain ⟨_, _, _, _, _, _, run⟩ := run_loadExclusion site.above site.line m
    rw [run] at failed
    cases failed
  · cases failed

theorem load_fails (formed : m.WellFormed) {text : String}
    (failed : ((load text).run m).1 = .error fault) : fault.OfLoading := by
  rw [load_eq] at failed
  generalize sitesOfText text = sites at failed
  induction sites generalizing m with
  | nil => cases failed
  | cons site sites ih =>
    rw [forM_sites, run_bind] at failed
    split at failed
    · rename_i middle first
      have works := works_loadSite site m
      rw [first] at works
      exact ih (formed.evolves works.evolves) failed
    · rename_i other middle first
      cases failed
      exact loadSite_fails formed (congrArg Prod.fst first)

end Loading

section Asking
variable {question : Phrase} {fault : Fault}

/-- However a question is asked, it fails where its key is not declared, and there only. -/
structure AsksOrFails (m : Machine) (question : Phrase) (fault : Fault) : Prop where
  isTrue : ((isTrue question).run m).1 = .error fault ↔
    m.relations.get? question.key = none ∧ fault = .undeclaredRelation question.key
  values : ((values question).run m).1 = .error fault ↔
    m.relations.get? question.key = none ∧ fault = .undeclaredRelation question.key
  solutions : ((solutions question none).run m).1 = .error fault ↔
    m.relations.get? question.key = none ∧ fault = .undeclaredRelation question.key
  ask : ((ask question).run m).1 = .error fault ↔
    m.relations.get? question.key = none ∧ fault = .undeclaredRelation question.key

/-- The three ways to ask agree on whether there is an answer. -/
structure AnswersAgree (m : Machine) (question : Phrase) : Prop where
  values : ((isTrue question).run m).1 = .ok false ↔
    ((Machine.values question).run m).1 = .ok none
  solutions : ((Machine.values question).run m).1 = .ok none ↔
    ((Machine.solutions question none).run m).1 = .ok []

/-- What a question comes to whose key is not declared. -/
theorem run_question_undeclared (absent : m.relations.get? question.key = none) :
    ((isTrue question).run m).1 = .error (.undeclaredRelation question.key) ∧
      ((values question).run m).1 = .error (.undeclaredRelation question.key) ∧
      ((solutions question none).run m).1 = .error (.undeclaredRelation question.key) ∧
      ((ask question).run m).1 = .error (.undeclaredRelation question.key) := by
  have goal : (goalOf question).run m = (.error (.undeclaredRelation question.key), m) := by
    rw [goalOf, run_bind, run_relationFor, absent]
    rfl
  have asked : (ask question).run m = (.error (.undeclaredRelation question.key), m) := by
    rw [ask, run_bind, goal]
  refine ⟨?_, ?_, ?_, congrArg Prod.fst asked⟩
  · rw [isTrue, run_bind, goal]
  · rw [values, run_bind, goal]
  · rw [solutions, run_bind, asked]

theorem WellFormed.asksOrFails (formed : m.WellFormed) (question : Phrase) (fault : Fault) :
    m.AsksOrFails question fault := by
  cases declared : m.relations.get? question.key with
  | none =>
    obtain ⟨isTrue, values, solutions, ask⟩ := run_question_undeclared declared
    constructor
    · simp [isTrue, declared, eq_comm]
    · simp [values, declared, eq_comm]
    · simp [solutions, declared, eq_comm]
    · simp [ask, declared, eq_comm]
  | some r =>
    obtain ⟨found, q, _, isTrue, values, solutions⟩ :=
      run_question formed.acyclic.layered declared
    constructor
    · simp [isTrue, declared]
    · simp [values, declared]
    · simp [solutions, declared, limited]
    · simp [run_ask declared, declared]

theorem WellFormed.answersAgree (formed : m.WellFormed) (question : Phrase) :
    m.AnswersAgree question := by
  cases declared : m.relations.get? question.key with
  | none =>
    obtain ⟨isTrue, values, solutions, _⟩ := run_question_undeclared declared
    constructor
    · simp [isTrue, values]
    · simp [values, solutions]
  | some r =>
    obtain ⟨found, q, _, isTrue, values, solutions⟩ :=
      run_question formed.acyclic.layered declared
    constructor
    · cases found <;> simp [isTrue, values]
    · cases found <;> simp [values, solutions, limited]

/-- An open question can be asked on and on. -/
theorem pull_known (layered : m.database.isLayered) {cursor : Cursor}
    (known : cursor.search.IsKnown) (wanted : Option Nat) :
    ∃ found next n, (pull wanted cursor).run m = (.ok (found, next), n) ∧
      next.search.IsKnown := by
  obtain ⟨answers, last, q, run, ⟨_, same⟩ | ⟨r, _, same⟩⟩ :=
    Search.harvest_known layered wanted known ⟨[m.nextId], []⟩
  · have harvested : (harvest wanted cursor.search).run m =
        (.ok ⟨answers, last, .enough, q⟩, { m with nextId := q.nextId source }) := by
      rw [run_harvest, same]
    exact ⟨_, _, _, (run_bind_ok harvested).trans rfl, (run.kept (Search.kept_known _) known).2.2⟩
  · have harvested : (harvest wanted cursor.search).run m =
        (.ok ⟨answers, .ended, .ended, r⟩, { m with nextId := r.nextId source }) := by
      rw [run_harvest, same]
    exact ⟨_, _, _, (run_bind_ok harvested).trans rfl, .ended⟩

theorem ask_known {cursor : Cursor} (asked : (ask question).run m = (.ok cursor, n)) :
    cursor.search.IsKnown := by
  obtain ⟨goal, k, opened, last⟩ := bind_ok asked
  obtain ⟨r, _, _, same⟩ := bind_ok opened
  cases same
  cases last
  exact .pending (query_named r question.args) Substitution.settled_empty

end Asking

section Performing
variable {host : Type} {call : String → List (Option String) → HostM host Unit}

/-- The payload that a search finds is one of the action's. -/
theorem choosePayload_among (formed : m.WellFormed) {action : Action} {args : List Term}
    (unsalted : ∀ entry ∈ action.entries, entry.1.source = none) {payload : String}
    {s : Substitution} (chosen : (choosePayload action args).run m = (.ok (some (payload, s)), n)) :
    (∃ entry ∈ action.entries, entry.2 = payload) ∧ n.payloads = m.payloads := by
  obtain ⟨name, out, _⟩ := Naming.exists_fresh (show '/' ∉ "outcome".toList by decide) m.nextId
  have named : ∀ goal ∈ action.entries.map (alternative args (.var name)),
      goal.Named fun _ => True := by
    intro goal inside
    obtain ⟨entry, _, rfl⟩ := List.mem_map.mp inside
    apply Goal.Named.all
    simp only [List.forall_mem_cons]
    exact ⟨entry.1.goal_named (named_any args) fun _ => trivial, .unify trivial trivial, nofun⟩
  obtain ⟨found, last, q, id, run, _, first⟩ :=
    run_firstAnswer (m := { m with nextId := m.nextId + 1 }) formed.acyclic.layered (.any named)
  rw [run_choosePayload_alternatives unsalted out, first] at chosen
  cases found with
  | nil => cases chosen
  | cons answer more =>
    cases chosen
    obtain ⟨before, goal, after, parts, _, p, rest, r, _, answered⟩ := run.exists_first_any named
    have among : goal ∈ action.entries.map (alternative args (.var name)) := by
      rw [parts]
      simp
    obtain ⟨entry, member, rfl⟩ := List.mem_map.mp among
    have settled : (Search.pending (alternative args (.var name) entry) .empty).IsSettled :=
      .pending (named _ among).isFinite Substitution.settled_empty
    have reached : s.walk (.var name) = .lit entry.2 := by
      apply Substitution.walk_of_forced (answered.settled settled List.mem_cons_self)
      intro σ holds
      cases answered.sound settled List.mem_cons_self holds with
      | pending _ here => exact (holds_alternative.mp here).2
    refine ⟨⟨entry, member, ?_⟩, rfl⟩
    rw [reached]
    rfl

/-- The payload that a search finds is registered. -/
theorem Arises.payload_registered (arises : m.Arises) {key : String} {action : Action}
    (declared : m.actions.get? key = some action) {args : List Term} {payload : String}
    {s : Substitution} (chosen : (choosePayload action args).run m = (.ok (some (payload, s)), n)) :
    ∃ lines, n.payloads.get? payload = some lines := by
  have formed := arises.wellFormed
  obtain ⟨verbose, strict, id, evolves⟩ := arises
  obtain ⟨sites, _, entries⟩ := (pays_new verbose strict id key).evolves evolves
  rw [actionOf, declared, Option.getD_some] at entries
  have enters (entry : Rule × String) (member : entry ∈ action.entries) :
      ∃ site, m.Enters key entry site := by
    obtain ⟨place, here, rfl⟩ := List.getElem_of_mem member
    exact ⟨_, entries.get here (entries.length_eq ▸ here)⟩
  have unsalted (entry : Rule × String) (member : entry ∈ action.entries) :
      entry.1.source = none := by
    obtain ⟨site, enters⟩ := enters entry member
    exact enters.compiled.source
  obtain ⟨⟨entry, member, rfl⟩, same⟩ := choosePayload_among formed unsalted chosen
  obtain ⟨site, enters⟩ := enters entry member
  rw [same]
  exact ⟨_, enters.payload⟩

/-- A claim line fails as the claim of what its tokens stand for does. -/
theorem dispatch_claim_fails (formed : m.WellFormed) {line : Line} (kind : line.kind = .claim)
    {nested : Action → List Term → HostM host Bool} {s : Substitution} {h : host} {fault : Fault}
    (failed : ((dispatch call nested s line).run (m, h)).1 = .error fault) :
    (m.strict = true ∧ m.relations.get? line.phrase.key = none ∧
        fault = .undeclaredRelation line.phrase.key) ∨
      ∃ given relation takes, fault = .arity .fact given relation takes := by
  obtain ⟨args, id, le, _, run⟩ := run_dispatch_claim call nested s kind h
  rw [run] at failed
  have kept : ({ m with nextId := id } : Machine).WellFormed :=
    formed.evolves (works_spend m le).evolves
  rcases assert_fails kept failed with ⟨strict, absent, rfl⟩ | ⟨relation, takes, rfl⟩
  · exact .inl ⟨by simpa using strict, absent, rfl⟩
  · exact .inr ⟨_, _, _, rfl⟩

/-- A line that names no action fails for a callback that is not there, or as a claim fails. -/
theorem dispatch_fails (formed : m.WellFormed)
    (sound : ∀ name values t, ((call name values).run t).1 = .ok ⟨⟩)
    {nested : Action → List Term → HostM host Bool} {line : Line} (kind : line.kind ≠ .action)
    {s : Substitution} {h : host} {fault : Fault}
    (failed : ((dispatch call nested s line).run (m, h)).1 = .error fault) :
    fault.OfPerforming := by
  match same : line.kind with
  | .action => contradiction
  | .claim =>
    rcases dispatch_claim_fails formed same failed with ⟨_, _, rfl⟩ | ⟨_, _, _, rfl⟩
    · exact .undeclaredRelation _
    · exact .arity _ _ _ _
  | .callback =>
    rw [run_dispatch_call s same] at failed
    split at failed
    · rename_i unnamed
      cases failed
      unfold Line.callbackName at unnamed
      dsimp only at unnamed
      split at unnamed
      · cases unnamed
      · cases unnamed
        exact .namelessCallback _
    · split at failed
      · rw [sound] at failed
        cases failed
      · cases failed
        exact .unregisteredCallback _
  | .condition | .exclusion | .comment | .plain =>
    unfold dispatch at failed
    rw [same] at failed
    cases failed

/-- Whatever a task fails with, it has met on the way. -/
theorem Finishes.fails (sparing : Sparing call)
    (sound : ∀ name values t, ((call name values).run t).1 = .ok ⟨⟩) {depth : Nat} {task : Task}
    {t : Machine × host} {outcome : Except Fault Bool × Machine × host}
    (finishes : Finishes call depth task t outcome) (arises : t.1.Arises) {fault : Fault}
    (failed : outcome.1 = .error fault) : fault.OfPerforming := by
  induction finishes with
  | refused =>
    cases failed
    exact .recursiveAction _
  | idle => cases failed
  | @fired _ action args payload s m n _ _ _ _ free chosen _ ih =>
    have keeps := keeps_choosePayload action args m
    rw [chosen] at keeps
    have before := arises.evolves keeps.restores.evolves
    exact ih (before.evolves (.single (.enter (keeps.restores.running ▸ free)))) failed
  | done => cases failed
  | @line _ s line _ nested t _ _ kind dispatched _ ih =>
    have keeps := keeps_dispatch sparing kind nested s t.1 t.2
    rw [dispatched] at keeps
    exact ih (arises.evolves keeps.restores.evolves) failed
  | lineFailed kind _ dispatched =>
    cases failed
    exact dispatch_fails arises.wellFormed sound kind (congrArg Prod.fst dispatched)
  | undeclared =>
    cases failed
    exact .undeclaredAction _
  | @nested _ s line _ _ _ m n _ _ _ _ _ _ resolved first _ _ others =>
    have keeps := keeps_resolveFresh s line.phrase.args m
    rw [resolved] at keeps
    have again := keeps.trans (first.keeps sparing)
    exact others (arises.evolves again.restores.evolves) failed
  | @nestedFailed _ s line _ _ _ m n _ _ _ _ _ resolved _ ih =>
    have keeps := keeps_resolveFresh s line.phrase.args m
    rw [resolved] at keeps
    exact ih (arises.evolves keeps.restores.evolves) failed

theorem Sparing.perform_fails (sparing : Sparing call) (arises : m.Arises)
    (sound : ∀ name values t, ((call name values).run t).1 = .ok ⟨⟩) {phrase : Phrase} {h : host}
    {fault : Fault} (failed : ((perform call phrase).run (m, h)).1 = .error fault) :
    fault.OfPerforming := by
  cases declared : m.actions.get? phrase.key with
  | none =>
    rw [run_perform_undeclared declared] at failed
    cases failed
    exact .undeclaredAction _
  | some action =>
    obtain ⟨outcome, finishes, same⟩ := sparing.exists_finishes arises declared h
    rw [run_perform, same _ (Nat.lt_succ_self _)] at failed
    exact finishes.fails sparing sound arises failed

theorem perform_fails (arises : m.Arises) (apart : Apart call)
    (sound : ∀ name values t, ((call name values).run t).1 = .ok ⟨⟩) {phrase : Phrase} {h : host}
    {fault : Fault} (failed : ((perform call phrase).run (m, h)).1 = .error fault) :
    fault.OfPerforming :=
  apart.sparing.perform_fails arises sound failed

end Performing

/-- What can go wrong on a machine, operation by operation. -/
structure FailsAsDocumented (m : Machine) : Prop where
  phrase : ∀ text, Phrase.read text = .ok (.ofText text)
  outline : ∀ text, readOutline text = .ok (Rulebook.outline text)
  load : ∀ text fault, ((load text).run m).1 = .error fault → fault.OfLoading
  loadFile : ∀ contents fault, ((loadFile contents).run m).1 = .error fault → fault.OfLoading
  claim : ∀ fact fault, ((claim fact).run m).1 = .error fault → fault.OfClaiming m fact
  refuses : ∀ fact, m.strict = true → m.relations.get? fact.key = none →
    ((Machine.claim fact).run m).1 = .error (.undeclaredRelation fact.key)
  asks : ∀ question fault, m.AsksOrFails question fault
  agree : ∀ question, m.AnswersAgree question
  /-- A question that has been opened, on whichever machine, can be asked on here. -/
  pull : ∀ wanted cursor, cursor.search.IsKnown → ∃ found next n,
    (pull wanted cursor).run m = (.ok (found, next), n) ∧ next.search.IsKnown
  opens : ∀ question cursor n, (ask question).run m = (.ok cursor, n) → cursor.search.IsKnown
  perform : ∀ (host : Type) (call : String → List (Option String) → HostM host Unit), Apart call →
    (∀ name values t, ((call name values).run t).1 = .ok ⟨⟩) → ∀ phrase h fault,
      ((perform call phrase).run (m, h)).1 = .error fault → fault.OfPerforming
  payload : ∀ key action args payload s n, m.actions.get? key = some action →
    (choosePayload action args).run m = (.ok (some (payload, s)), n) →
    ∃ lines, n.payloads.get? payload = some lines

/-- Only these faults come out of the operations on a machine that operations lead to, or that a
performing finds on the way from there. -/
theorem Reachable.failsAsDocumented (reachable : m.Reachable) (evolves : Evolves m n) :
    n.FailsAsDocumented := by
  have arises := reachable.arises.evolves evolves
  have formed := arises.wellFormed
  constructor
  case phrase => exact Phrase.read_eq
  case outline => exact readOutline_eq
  case load =>
    intro text fault failed
    exact load_fails formed failed
  case loadFile =>
    intro contents fault failed
    exact load_fails formed failed
  case claim =>
    intro fact fault failed
    exact claim_fails formed failed
  case refuses =>
    intro fact strict absent
    exact claim_undeclared strict absent
  case asks => exact formed.asksOrFails
  case agree => exact formed.answersAgree
  case pull =>
    intro wanted cursor known
    exact pull_known formed.acyclic.layered known wanted
  case opens =>
    intro question cursor n asked
    exact ask_known asked
  case perform =>
    intro host call apart sound phrase h fault failed
    exact perform_fails arises apart sound failed
  case payload =>
    intro key action args payload s n declared chosen
    exact arises.payload_registered declared chosen

/-- The callback line has no colon, so it names no callback. -/
def clumsyText : String := "* greet (x)\n    + greeted (x)\n    > hello"

theorem failsAsDocumented_clumsy :
    let m := ((load clumsyText).run {}).2
    let n := ((claim ⟨"greeted %s", [.lit "a"]⟩).run m).2
    ((claim ⟨"greeted %s", []⟩).run n).1 = .error (.arity .fact 0 "greeted %s" 1) ∧
      ((perform (fun _ _ => pure ()) ⟨"greet %s", [.lit "b"]⟩).run (n, ())).1 =
        .error (.namelessCallback "    > hello") ∧ n.FailsAsDocumented :=
  ⟨by decide +kernel, by decide +kernel,
    Reachable.failsAsDocumented ⟨false, false, 0, .load clumsyText {}⟩
      (works_claim ⟨"greeted %s", [.lit "a"]⟩ _).evolves⟩

end Machine
end Rulebook
