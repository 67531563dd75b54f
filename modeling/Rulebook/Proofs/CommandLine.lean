import Rulebook.CommandLine
import Rulebook.Proofs.Program.Registration

/-! What a command line reports. Loading, claiming and performing fail with errors of the rule
program only, and each of these ends the run with status 1. Questions are always answered. Between
loading and claiming, the payload lines are searched for callbacks: an error there is reported by
nobody. -/
namespace Rulebook

theorem Fault.OfLoading.isProgramError {fault : Fault} (cause : fault.OfLoading) :
    fault.isProgramError = true := by
  cases cause <;> rfl

theorem Fault.OfClaiming.isProgramError {m : Machine} {fact : Phrase} {fault : Fault}
    (cause : fault.OfClaiming m fact) : fault.isProgramError = true := by
  cases cause <;> rfl

theorem Fault.OfPerforming.isProgramError {fault : Fault} (cause : fault.OfPerforming) :
    fault.isProgramError = true := by
  cases cause <;> rfl

namespace CommandLine
variable {m n : Machine} {options : Options} {disk : Disk}

/-- The rules can be read, the graph can be written, and each option has its text. -/
structure Given (options : Options) (disk : Disk) : Prop where
  rules : options.sample = none →
    ∃ path contents, options.file = some path ∧ disk.read path = .ok contents
  claims : none ∉ options.claims
  actions : none ∉ options.actions
  queries : none ∉ options.queries
  dot : ∀ path, options.dot = some path → path ≠ "" → disk.admits path = .ok ()

theorem run_print (text : String) (m : Machine) :
    (Machine.print text).run m = (.ok ⟨⟩, { m with printed := m.printed ++ [text] }) := rfl

section Failing

/-- On machines that changes lead to, the operation fails with errors of the rule program only, and
makes changes only. -/
def Reportable (operation : MachineM α) : Prop :=
  ∀ m : Machine, m.Arises → (operation.run m).2.Arises ∧
    ∀ fault, (operation.run m).1 = .error fault → fault.isProgramError = true

theorem reportable_pure (a : α) : Reportable (pure a) := fun _ arises => ⟨arises, nofun⟩

theorem Reportable.bind {first : MachineM α} {next : α → MachineM β} (start : Reportable first)
    (more : ∀ a, Reportable (next a)) : Reportable (first >>= next) := by
  intro m arises
  have here := start m arises
  rw [run_bind]
  match run : first.run m with
  | (.ok a, n) =>
    rw [run] at here
    exact more a n here.1
  | (.error fault, n) =>
    rw [run] at here
    refine ⟨here.1, fun other failed => ?_⟩
    cases failed
    exact here.2 fault rfl

theorem reportable_forM {operation : β → MachineM PUnit} {items : List β}
    (each : ∀ b ∈ items, Reportable (operation b)) : Reportable (items.forM operation) := by
  induction items with
  | nil => exact reportable_pure _
  | cons b items ih =>
    obtain ⟨first, others⟩ := List.forall_mem_cons.mp each
    exact first.bind fun _ => ih others

/-- What works fails for the reasons that are given. -/
theorem reportable_of_works {operation : MachineM α}
    (works : ∀ m, Machine.Works m (operation.run m).2)
    (fails : ∀ (m : Machine) fault, m.WellFormed → (operation.run m).1 = .error fault →
      fault.isProgramError = true) : Reportable operation :=
  fun m arises =>
    ⟨arises.evolves (works m).evolves, fun fault => fails m fault arises.wellFormed⟩

theorem reportable_print (text : String) : Reportable (Machine.print text) :=
  reportable_of_works (fun _ => .single ⟨.print, rfl⟩) fun _ _ _ => nofun

theorem reportable_load (text : String) : Reportable (Machine.load text) :=
  reportable_of_works (Machine.works_load text) fun _ _ formed failed =>
    (Machine.load_fails formed failed).isProgramError

theorem reportable_claim (fact : Phrase) : Reportable (Machine.claim fact) :=
  reportable_of_works (Machine.works_claim fact) fun _ _ formed failed =>
    (Machine.claim_fails formed failed).isProgramError

/-- What is there can be read. -/
theorem reportable_read {result : Except Fault α} {a : α} (ok : result = .ok a)
    {next : α → MachineM β} (more : Reportable (next a)) :
    Reportable (liftM result >>= next) := by
  rw [ok]
  exact more

/-- Loading fails only for what is in the rules. -/
theorem reportable_loadRules (given : Given options disk) :
    Reportable (loadRules options disk) := by
  unfold loadRules
  split
  · exact (reportable_print _).bind fun _ => reportable_load _
  · rename_i none
    obtain ⟨path, contents, file, read⟩ := given.rules none
    rw [file]
    refine reportable_read (a := path) rfl (reportable_read read ?_)
    exact (reportable_load _).bind fun _ => reportable_print _

theorem sparing_echo : Machine.Sparing echo := by
  intro name values m h
  exact ⟨⟨.single .print, rfl⟩, rfl⟩

/-- An action is performed under its heading. -/
theorem run_performShown (text : String) (m : Machine) :
    (performShown (some text)).run m =
      match (Machine.perform echo (.ofText text)).run
        ({ m with printed := m.printed ++ ["\n* " ++ text] }, ()) with
      | (.error fault, n, _) => (.error fault, n)
      | (.ok true, n, _) => (.ok ⟨⟩, n)
      | (.ok false, n, _) =>
        (.ok ⟨⟩, { n with printed := n.printed ++ ["  (no rule holds)"] }) := by
  have headed (n : Machine) :
      (liftM (CommandLine.given (some text)) : MachineM String).run n = (.ok text, n) := rfl
  simp only [performShown, run_bind, run_print, headed, run_get, Option.getD_some]
  generalize (Machine.perform echo (.ofText text)).run _ = performed
  match performed with
  | (.error fault, n, _) => rfl
  | (.ok true, n, _) => rfl
  | (.ok false, n, _) => rfl

/-- Performing fails only for what is in the rules; the callbacks do not fail. -/
theorem reportable_performShown (text : String) : Reportable (performShown (some text)) := by
  intro m arises
  let shown : Machine := { m with printed := m.printed ++ ["\n* " ++ text] }
  have ready : shown.Arises := arises.evolves (.single .print)
  have fails (fault : Fault) : ((Machine.perform echo (.ofText text)).run (shown, ())).1 =
      .error fault → fault.OfPerforming := sparing_echo.perform_fails ready fun _ _ _ => rfl
  have after : ((Machine.perform echo (.ofText text)).run (shown, ())).2.1.Arises := by
    rw [Machine.run_perform]
    exact ready.evolves (Machine.grows_performTo sparing_echo.grows _ _ _ _).evolves
  rw [run_performShown]
  split <;> rename_i run <;> rw [run] at fails after
  · refine ⟨after, fun fault failed => ?_⟩
    cases failed
    exact (fails _ rfl).isProgramError
  · exact ⟨after, nofun⟩
  · exact ⟨after.evolves (.single .print), nofun⟩

/-- Claims and actions fail only for what is in the rules. -/
theorem reportable_runProgram (given : Given options disk) : Reportable (runProgram options) := by
  refine (reportable_forM fun text inside => ?_).bind fun _ => reportable_forM fun text inside => ?_
  · cases text with
    | none => exact absurd inside (by simp [given.claims])
    | some text => exact reportable_read (a := text) rfl (reportable_claim _)
  · cases text with
    | none => exact absurd inside (by simp [given.actions])
    | some text => exact reportable_performShown text

end Failing

section Registering

def register : MachineM Unit := do (← Machine.callbackNames).forM Machine.addCallback

theorem run_namesOf (lines : List Line) (m : Machine) :
    (Machine.namesOf lines).run m = (lines.mapM Line.callbackName, m) := by
  unfold Machine.namesOf
  induction lines with
  | nil => rfl
  | cons line lines ih =>
    rw [List.mapM_cons, List.mapM_cons, run_bind]
    cases line.callbackName with
    | error fault => rfl
    | ok name =>
      change ((lines.mapM fun line => (liftM line.callbackName : MachineM String)) >>= fun names =>
        pure (name :: names) : MachineM (List String)).run m = _
      rw [run_bind, ih]
      cases lines.mapM Line.callbackName with
      | error fault => rfl
      | ok names => rfl

/-- The first that fails, fails the whole. -/
theorem exists_of_mapM_error {ε : Type} {f : α → Except ε β} {items : List α} {e : ε}
    (failed : items.mapM f = .error e) : ∃ a ∈ items, f a = .error e := by
  induction items with
  | nil => cases failed
  | cons a items ih =>
    rw [List.mapM_cons] at failed
    cases here : f a with
    | error other =>
      rw [here] at failed
      cases failed
      exact ⟨a, List.mem_cons_self, here⟩
    | ok b =>
      rw [here] at failed
      cases later : items.mapM f with
      | error other =>
        rw [later] at failed
        cases failed
        obtain ⟨c, inside, same⟩ := ih later
        exact ⟨c, List.mem_cons_of_mem _ inside, same⟩
      | ok others =>
        rw [later] at failed
        cases failed

theorem run_register (m : Machine) :
    register.run m =
      match m.callbackLines.mapM Line.callbackName with
      | .error fault => (.error fault, m)
      | .ok names => ((sortedNames names).forM Machine.addCallback).run m := by
  unfold register
  rw [run_bind, Machine.run_callbackNames, run_namesOf]
  cases m.callbackLines.mapM Line.callbackName <;> rfl

theorem run_addCallbacks (names : List String) (m : Machine) :
    ∃ callbacks, (names.forM Machine.addCallback).run m = (.ok ⟨⟩, { m with callbacks }) := by
  induction names generalizing m with
  | nil => exact ⟨m.callbacks, rfl⟩
  | cons name names ih =>
    obtain ⟨callbacks, _, first⟩ := Machine.run_addCallback name m
    obtain ⟨others, rest⟩ := ih { m with callbacks }
    exact ⟨others, (run_bind_ok first).trans rest⟩

/-- Registering stops at a callback line without a name. -/
theorem register_fails {fault : Fault} (failed : (register.run m).1 = .error fault) :
    ∃ line ∈ m.callbackLines, line.callbackName = .error fault ∧
      fault = .namelessCallback line.text := by
  rw [run_register] at failed
  cases read : m.callbackLines.mapM Line.callbackName with
  | ok names =>
    obtain ⟨callbacks, run⟩ := run_addCallbacks (sortedNames names) m
    rw [read] at failed
    dsimp only at failed
    rw [run] at failed
    cases failed
  | error other =>
    rw [read] at failed
    cases failed
    obtain ⟨line, inside, unnamed⟩ := exists_of_mapM_error read
    refine ⟨line, inside, unnamed, ?_⟩
    unfold Line.callbackName at unnamed
    dsimp only at unnamed
    split at unnamed
    · cases unnamed
    · cases unnamed
      rfl

/-- Where each callback line has a name, the callbacks are registered, and nothing else changes. -/
theorem register_ends (named : ∀ line ∈ m.callbackLines, ∃ name, line.callbackName = .ok name) :
    ∃ callbacks, register.run m = (.ok ⟨⟩, { m with callbacks }) := by
  rw [run_register]
  cases read : m.callbackLines.mapM Line.callbackName with
  | ok names => exact run_addCallbacks (sortedNames names) m
  | error fault =>
    obtain ⟨line, inside, unnamed⟩ := exists_of_mapM_error read
    obtain ⟨name, same⟩ := named line inside
    rw [same] at unnamed
    cases unnamed

theorem arises_register (arises : m.Arises) : (register.run m).2.Arises := by
  rw [run_register]
  cases m.callbackLines.mapM Line.callbackName with
  | error fault => exact arises
  | ok names =>
    obtain ⟨callbacks, run⟩ := run_addCallbacks (sortedNames names) m
    dsimp only
    rw [run]
    exact arises.evolves (.single .register)

end Registering

section Answering

inductive Replies (m : Machine) (text : String) : String → Prop where
  | yes : ((Machine.isTrue (.ofText text)).run m).1 = .ok true → Replies m text "yes"
  | no : ((Machine.isTrue (.ofText text)).run m).1 = .ok false → Replies m text "no"
  | undeclared : m.relations.get? (Phrase.ofText text).key = none →
      Replies m text (Fault.undeclaredRelation (Phrase.ofText text).key).message

def replyLine (text reply : String) : String := "  " ++ text ++ ": " ++ reply

theorem run_tryCatch (operation : MachineM α) (handler : Fault → MachineM α) (m : Machine) :
    (tryCatch operation handler).run m =
      match operation.run m with
      | (.ok a, n) => (.ok a, n)
      | (.error fault, n) => (handler fault).run n := by
  unfold ExceptT.run
  simp only [tryCatch, tryCatchThe, MonadExceptOf.tryCatch, ExceptT.tryCatch, ExceptT.mk, bind,
    StateT.bind]
  cases operation m with
  | mk result n => cases result <;> rfl

/-- A question is always answered. -/
theorem answer_ends (arises : m.Arises) (text : String) :
    ∃ reply id, m.nextId ≤ id ∧ Replies m text reply ∧ (answer text).run m =
      (.ok ⟨⟩, { m with nextId := id, printed := m.printed ++ [replyLine text reply] }) := by
  obtain ⟨id, le, spent⟩ := Machine.spends_isTrue (.ofText text) m
  have asked := fun fault => (arises.wellFormed.asksOrFails (.ofText text) fault).isTrue
  match run : (Machine.isTrue (.ofText text)).run m with
  | (.ok holds, n) =>
    rw [run] at spent
    obtain rfl : n = { m with nextId := id } := spent
    refine ⟨if holds then "yes" else "no", id, le, ?_, ?_⟩
    · cases holds with
      | true => exact .yes (congrArg Prod.fst run)
      | false => exact .no (congrArg Prod.fst run)
    · unfold answer
      rw [run_bind, run_tryCatch, run_bind, run]
      rfl
  | (.error fault, n) =>
    rw [run] at spent
    obtain rfl : n = { m with nextId := id } := spent
    obtain ⟨absent, rfl⟩ := (asked fault).mp (congrArg Prod.fst run)
    refine ⟨_, id, le, .undeclared absent, ?_⟩
    unfold answer
    rw [run_bind, run_tryCatch, run_bind, run]
    rfl

/-- The questions are answered in turn, each after what was searched for the ones before. -/
theorem answers_end (arises : m.Arises) (texts : List String) :
    ∃ replies id, m.nextId ≤ id ∧
      List.Forall₂ (fun text reply => ∃ later printed,
        Replies { m with nextId := later, printed } text reply) texts replies ∧
      ((texts.map some).forM fun text => do answer (← CommandLine.given text) : MachineM Unit).run
        m = (.ok ⟨⟩, { m with
          nextId := id
          printed := m.printed ++ List.zipWith replyLine texts replies }) := by
  induction texts generalizing m with
  | nil =>
    refine ⟨[], m.nextId, Int.le_refl _, .nil, ?_⟩
    rw [List.zipWith_nil_left, List.append_nil]
    rfl
  | cons text texts ih =>
    obtain ⟨reply, id, le, replied, first⟩ := answer_ends arises text
    have evolves : Machine.Evolves m
        { m with nextId := id, printed := m.printed ++ [replyLine text reply] } :=
      .tail (.single (.spend le)) .print
    obtain ⟨replies, last, more, all, rest⟩ := ih (arises.evolves evolves)
    refine ⟨reply :: replies, last, Int.le_trans le more,
      .cons ⟨m.nextId, m.printed, replied⟩ all, ?_⟩
    have here : (do answer (← CommandLine.given (some text)) : MachineM Unit).run m = _ :=
      (run_bind_ok rfl).trans first
    refine (run_bind_ok here).trans (rest.trans ?_)
    rw [List.zipWith_cons_cons, List.append_assoc]
    rfl

end Answering

section Reporting

def questions (options : Options) : List String :=
  (options.sample.map (·.queries)).getD [] ++ options.queries.filterMap id

def reportLines (options : Options) (m : Machine) : List String :=
  if options.quiet then [] else Report.stateLines m ++ Report.historyLines m

def answerLines (texts replies : List String) : List String :=
  if texts.isEmpty then []
  else [Report.opening, "Queries:"] ++ List.zipWith replyLine texts replies ++ [Report.ruler]

def graphPath (options : Options) : Option String := options.dot.filter (· ≠ "")

def graphLines (options : Options) : List String :=
  (graphPath options).toList.map Graph.exportMessage

def graphFile (options : Options) (m : Machine) : Option (String × String) :=
  (graphPath options).map fun path => (path, Graph.text m)

theorem run_prints (lines : List String) (m : Machine) :
    (lines.forM Machine.print).run m = (.ok ⟨⟩, { m with printed := m.printed ++ lines }) := by
  induction lines generalizing m with
  | nil =>
    rw [List.append_nil]
    rfl
  | cons line lines ih =>
    refine (run_bind_ok (run_print line m)).trans ((ih _).trans ?_)
    rw [List.append_assoc]
    rfl

theorem given_questions (given : Given options disk) :
    ((options.sample.map (·.queries)).getD []).map some ++ options.queries =
      (questions options).map some := by
  have own : options.queries = (options.queries.filterMap id).map some := by
    have texts := given.queries
    generalize options.queries = queries at texts
    induction queries with
    | nil => rfl
    | cons query queries ih =>
      obtain ⟨first, others⟩ := List.ne_and_not_mem_of_not_mem_cons texts
      cases query with
      | none => exact absurd rfl first
      | some text => simpa using ih others
  rw [questions, List.map_append, ← own]

/-- Answers the questions in a frame of their own, if there are any. -/
def answerAll (texts : List (Option String)) : MachineM Unit := do
  if !texts.isEmpty then
    Machine.print Report.opening
    Machine.print "Queries:"
    texts.forM fun text => do answer (← CommandLine.given text)
    Machine.print Report.ruler

theorem run_reportAll (given : Given options disk) (m : Machine) :
    (reportAll options).run m = (answerAll ((questions options).map some)).run
      { m with printed := m.printed ++ reportLines options m } := by
  unfold reportAll
  rw [← given_questions given, reportLines]
  cases options.quiet with
  | true =>
    rw [if_pos rfl, List.append_nil]
    rfl
  | false =>
    simp only [Bool.not_false, if_true, Bool.false_eq_true, if_false, run_bind, run_get, run_prints,
      List.append_assoc]
    rfl

theorem answerAll_ends (arises : m.Arises) (texts : List String) :
    ∃ replies id, m.nextId ≤ id ∧
      List.Forall₂ (fun text reply => ∃ later printed,
        Replies { m with nextId := later, printed } text reply) texts replies ∧
      (answerAll (texts.map some)).run m = (.ok ⟨⟩, { m with
        nextId := id, printed := m.printed ++ answerLines texts replies }) := by
  cases texts with
  | nil =>
    have none : answerLines [] [] = [] := rfl
    refine ⟨[], m.nextId, Int.le_refl _, .nil, ?_⟩
    rw [none, List.append_nil]
    rfl
  | cons text texts =>
    have opened : Machine.Evolves m
        { m with printed := m.printed ++ [Report.opening] ++ ["Queries:"] } := .single .print
    obtain ⟨replies, id, le, all, answered⟩ := answers_end (arises.evolves opened) (text :: texts)
    refine ⟨replies, id, le, all, ?_⟩
    have whole : (answerAll ((text :: texts).map some)).run m = (Machine.print Report.ruler).run
        { m with
          nextId := id
          printed := m.printed ++ [Report.opening] ++ ["Queries:"] ++
            List.zipWith replyLine (text :: texts) replies } :=
      (run_bind_ok (run_print _ m)).trans <| (run_bind_ok (run_print _ _)).trans <|
        run_bind_ok answered
    rw [whole, run_print]
    simp [answerLines]

/-- The reports and answers come to an end. -/
theorem reportAll_ends (given : Given options disk) (arises : m.Arises) :
    ∃ replies id, m.nextId ≤ id ∧
      List.Forall₂ (fun text reply => ∃ later printed,
        Replies { m with nextId := later, printed } text reply) (questions options) replies ∧
      (reportAll options).run m = (.ok ⟨⟩, { m with
        nextId := id
        printed := m.printed ++ reportLines options m ++
          answerLines (questions options) replies }) := by
  have reported : Machine.Evolves m { m with printed := m.printed ++ reportLines options m } :=
    .single .print
  obtain ⟨replies, id, le, all, run⟩ := answerAll_ends (arises.evolves reported) (questions options)
  exact ⟨replies, id, le, all, (run_reportAll given m).trans run⟩

theorem exportGraph_ends (given : Given options disk) (m : Machine) :
    (exportGraph options disk).run m =
      (.ok (graphFile options m), { m with printed := m.printed ++ graphLines options }) := by
  have unwritten (nowhere : graphPath options = none) : ((pure none :
      MachineM (Option (String × String))).run m) =
      (.ok (graphFile options m), { m with printed := m.printed ++ graphLines options }) := by
    rw [graphFile, graphLines, nowhere, Option.toList_none, List.map_nil, List.append_nil]
    rfl
  unfold exportGraph
  split
  · rename_i dot
    exact unwritten (by rw [graphPath, dot]; rfl)
  · rename_i dot
    exact unwritten (by rw [graphPath, dot]; rfl)
  · rename_i path other dot
    have there : graphPath options = some path := by
      rw [graphPath, dot, Option.filter_some, if_pos (by simpa using other)]
    rw [given.dot path dot other, graphFile, graphLines, there]
    rfl

end Reporting

def start (options : Options) : Machine := { verbose := !options.quiet, strict := options.strict }

theorem arises_start (options : Options) : (start options).Arises := ⟨_, _, _, .refl⟩

def reported (label : String) (fault : Fault) (m : Machine) : Result :=
  { ending := .exited 1, stdout := printedText m, stderr := label ++ ": " ++ fault.message ++ "\n" }

theorem failure_reported {fault : Fault} (program : fault.isProgramError = true) (label : String)
    (m : Machine) : failure (some label) fault m = reported label fault m := by
  rw [failure, if_pos program]
  rfl

/-- How a run ends, by where it fails. -/
structure Reports (options : Options) (disk : Disk) (result : Result) : Prop where
  /-- An error in loading is reported. -/
  loading : ∀ fault m, (loadRules options disk).run (start options) = (.error fault, m) →
    fault.isProgramError = true ∧ result = reported "Error loading rules" fault m
  /-- A callback line without a name is not. -/
  registering : ∀ m fault k, (loadRules options disk).run (start options) = (.ok ⟨⟩, m) →
    register.run m = (.error fault, k) →
    (∃ line ∈ m.callbackLines, line.callbackName = .error fault ∧
      fault = .namelessCallback line.text) ∧
    result = { ending := .escaped fault, stdout := printedText k }
  /-- This is all that can go wrong there. -/
  named : ∀ m, (loadRules options disk).run (start options) = (.ok ⟨⟩, m) →
    (∀ line ∈ m.callbackLines, ∃ name, line.callbackName = .ok name) →
    ∃ callbacks, register.run m = (.ok ⟨⟩, { m with callbacks })
  /-- An error in a claim or an action is reported. -/
  running : ∀ m n fault k, (loadRules options disk).run (start options) = (.ok ⟨⟩, m) →
    register.run m = (.ok ⟨⟩, n) → (runProgram options).run n = (.error fault, k) →
    fault.isProgramError = true ∧ result = reported "Error" fault k
  /-- Otherwise every question is answered. -/
  done : ∀ m n k, (loadRules options disk).run (start options) = (.ok ⟨⟩, m) →
    register.run m = (.ok ⟨⟩, n) → (runProgram options).run n = (.ok ⟨⟩, k) →
    ∃ replies, List.Forall₂ (fun text reply => ∃ nextId printed,
        Replies { k with nextId, printed } text reply) (questions options) replies ∧
      result = {
        ending := .exited 0
        stdout := printedText { k with
          printed := k.printed ++ reportLines options k ++
            answerLines (questions options) replies ++ graphLines options }
        written := graphFile options k }

theorem runOptions_stages (options : Options) (disk : Disk) :
    runOptions options disk =
      match runStages [(some "Error loading rules", loadRules options disk), (none, register),
        (some "Error", runProgram options), (none, reportAll options)] (start options) with
      | .error result => result
      | .ok m =>
        match (exportGraph options disk).run m with
        | (.ok written, m) => { ending := .exited 0, stdout := printedText m, written }
        | (.error fault, m) => failure none fault m := rfl

theorem runOptions_reports (given : Given options disk) :
    Reports options disk (runOptions options disk) := by
  have loads := reportable_loadRules given (start options) (arises_start options)
  rw [runOptions_stages]
  constructor
  case loading =>
    intro fault m loaded
    rw [loaded] at loads
    have program := loads.2 fault rfl
    refine ⟨program, ?_⟩
    simp only [runStages, loaded]
    exact failure_reported program _ m
  case registering =>
    intro m fault k loaded failed
    have unnamed := register_fails (congrArg Prod.fst failed)
    refine ⟨unnamed, ?_⟩
    simp only [runStages, loaded, failed]
    rfl
  case named =>
    intro m _ named
    exact register_ends named
  case running =>
    intro m n fault k loaded registered failed
    rw [loaded] at loads
    have ready := arises_register loads.1
    rw [registered] at ready
    have runs := reportable_runProgram given n ready
    rw [failed] at runs
    have program := runs.2 fault rfl
    refine ⟨program, ?_⟩
    simp only [runStages, loaded, registered, failed]
    exact failure_reported program _ k
  case done =>
    intro m n k loaded registered ran
    rw [loaded] at loads
    have ready := arises_register loads.1
    rw [registered] at ready
    have runs := reportable_runProgram given n ready
    rw [ran] at runs
    obtain ⟨replies, id, _, all, answered⟩ := reportAll_ends given runs.1
    refine ⟨replies, all.imp fun _ _ ⟨later, printed, replied⟩ => ⟨later, printed, replied⟩, ?_⟩
    simp only [runStages, loaded, registered, ran, answered, exportGraph_ends given]
    rfl

/-- For all rules that can be read, and all claims, actions and questions: where loading, a claim or
an action fails, the run ends with status 1 and the message; where nothing fails, every question is
answered and the status is 0. A callback line without a name is met between loading and the claims,
and nothing catches it. -/
theorem run_reports {words : List String} (asked : Request.ofWords words = .run options)
    (given : Given options disk) : Reports options disk (run words disk) := by
  rw [run, asked]
  exact runOptions_reports given

def Disk.holding (contents : String) : Disk where
  read _ := .ok contents
  admits _ := .ok ()

/-- A rule of a relation that depends on itself is reported; two questions are answered, one of them
about a relation that is not there. -/
theorem run_reports_recursive :
    run ["rules.txt"] (.holding ":: p (x)\n    + p (x)") =
      { ending := .exited 1
        stderr := "Error loading rules: Recursive rule found: 'p %s' -> 'p %s'\n" } ∧
    (run ["--quiet", "--query", "p (x)", "--query", "q", "rules.txt"]
      (.holding "+ p \"a\"")).ending = .exited 0 := by
  constructor
  · let options : Options := { file := some "rules.txt" }
    let disk : Disk := .holding ":: p (x)\n    + p (x)"
    have asked : Request.ofWords ["rules.txt"] = .run options := by rfl
    have given : Given options disk :=
      ⟨fun _ => ⟨_, _, rfl, rfl⟩, by simp [options], by simp [options], by simp [options], nofun⟩
    have loaded : (loadRules options disk).run (start options) =
        (.error (.recursiveRule ["p %s", "p %s"]), _) := run_of_error (by decide +kernel)
    refine ((run_reports asked given).loading _ _ loaded).2.trans ?_
    decide +kernel
  · let options : Options :=
      { file := some "rules.txt", queries := [some "p (x)", some "q"], quiet := true }
    let disk : Disk := .holding "+ p \"a\""
    have asked : Request.ofWords ["--quiet", "--query", "p (x)", "--query", "q", "rules.txt"] =
        .run options := by rfl
    have given : Given options disk :=
      ⟨fun _ => ⟨_, _, rfl, rfl⟩, by simp [options], by simp [options], by simp [options], nofun⟩
    have loaded : (loadRules options disk).run (start options) = (.ok ⟨⟩, _) :=
      run_of_ok (by decide +kernel)
    have none : ((loadRules options disk).run (start options)).2.callbackLines = [] := by
      decide +kernel
    have reports := run_reports asked given
    obtain ⟨callbacks, registered⟩ := reports.named _ loaded (by rw [none]; nofun)
    obtain ⟨replies, _, same⟩ := reports.done _ _ _ loaded registered rfl
    rw [same]

/-- A callback line without a name: the rules can be read, and the error is one of the rule program;
still the run does not end with a status. -/
theorem nameless_callback_escapes :
    run ["rules.txt"] (.holding "* A\n    > hello") =
      { ending := .escaped (.namelessCallback "    > hello")
        stdout := "  [action] A -> payload-0\nLoaded rules.txt\n" } ∧
    (Fault.namelessCallback "    > hello").isProgramError = true := by
  decide +kernel

end CommandLine
end Rulebook
