import Rulebook.Proofs.Program.Faults
import Rulebook.Proofs.Program.Requests

/-! What strictness changes. A machine is read as strict in one place only, where a claim is made
under a key that nothing declared. Every other operation does the same on a strict machine and on
the same machine made lenient, and the claims among payload lines find their keys declared, as
loading an action declares them. So a strict run and a lenient one agree until a claim is
refused. -/
namespace Rulebook

section Carrying
variable {State α β : Type} {f : State → State}

/-- The operation does to the image of a state what it does to the state. -/
def Commutes (f : State → State) (operation : ExceptT Fault (StateM State) α) : Prop :=
  ∀ s, operation.run (f s) = (operation.run s).map id f

theorem Commutes.bind {first : ExceptT Fault (StateM State) α}
    {next : α → ExceptT Fault (StateM State) β} (start : Commutes f first)
    (more : ∀ a, Commutes f (next a)) : Commutes f (first >>= next) := by
  intro s
  rw [run_bind, run_bind, start s]
  match first.run s with
  | (.error fault, t) => rfl
  | (.ok a, t) => exact more a t

theorem commutes_pure (a : α) : Commutes f (pure a : ExceptT Fault (StateM State) α) :=
  fun _ => rfl

theorem commutes_throw (fault : Fault) :
    Commutes f (throw fault : ExceptT Fault (StateM State) α) := fun _ => rfl

theorem commutes_lift (result : Except Fault α) :
    Commutes f (liftM result : ExceptT Fault (StateM State) α) := by
  intro s
  cases result <;> rfl

theorem commutes_modify {change : State → State} (same : ∀ s, change (f s) = f (change s)) :
    Commutes f (modify change : ExceptT Fault (StateM State) PUnit) := by
  intro s
  rw [run_modify, run_modify, same]
  rfl

/-- What reads the state and does not tell it from its image. -/
theorem commutes_get {next : State → ExceptT Fault (StateM State) α}
    (same : ∀ s, next (f s) = next s) (each : ∀ s, Commutes f (next s)) :
    Commutes f (get >>= next) := by
  intro s
  rw [run_bind, run_bind, run_get, run_get]
  dsimp only
  rw [same]
  exact each s s

theorem commutes_forM {operation : β → ExceptT Fault (StateM State) PUnit}
    (each : ∀ b, Commutes f (operation b)) (items : List β) :
    Commutes f (items.forM operation) := by
  induction items with
  | nil => exact commutes_pure _
  | cons b items ih => exact (each b).bind fun _ => ih

theorem commutes_mapM {operation : β → ExceptT Fault (StateM State) α}
    (each : ∀ b, Commutes f (operation b)) (items : List β) :
    Commutes f (items.mapM operation) := by
  induction items with
  | nil => exact commutes_pure _
  | cons b items ih =>
    rw [List.mapM_cons]
    exact (each b).bind fun _ => ih.bind fun _ => commutes_pure _

end Carrying

namespace Machine
variable {m n : Machine}

def relaxed (m : Machine) : Machine := { m with strict := false }

section Lenient

theorem commutes_relationFor (key : String) (create : Bool) :
    Commutes relaxed (relationFor key create) := by
  intro m
  have same : m.relaxed.relations.get? key = m.relations.get? key := rfl
  rw [run_relationFor, run_relationFor, same]
  cases m.relations.get? key with
  | some r => rfl
  | none => cases create <;> rfl

theorem commutes_actionFor (key : String) (create : Bool) :
    Commutes relaxed (actionFor key create) := by
  intro m
  have same : m.relaxed.actions.get? key = m.actions.get? key := rfl
  rw [run_actionFor, run_actionFor, same]
  cases m.actions.get? key with
  | some action => rfl
  | none => cases create <;> rfl

theorem commutes_harvest (wanted : Option Nat) (search : Search) :
    Commutes relaxed (harvest wanted search) := by
  intro m
  rw [run_harvest, run_harvest]
  rfl

theorem commutes_log (message : String) : Commutes relaxed (log message) := by
  intro m
  rw [run_log, run_log]
  rfl

theorem commutes_record (entry : Entry) : Commutes relaxed (record entry) := fun _ => rfl

theorem commutes_mintId : Commutes relaxed mintId := fun _ => rfl

theorem commutes_mintVariable (hint : String) : Commutes relaxed (mintVariable hint) := fun _ => rfl

theorem commutes_answers (goal : Goal) : Commutes relaxed (answers goal) :=
  (commutes_harvest none _).bind fun _ => commutes_pure _

theorem commutes_firstAnswer (goal : Goal) : Commutes relaxed (firstAnswer goal) :=
  (commutes_harvest (some 1) _).bind fun _ => commutes_pure _

theorem commutes_exclude (r : RelationId) (terms : List Term) (exclusion : Exclusion) :
    Commutes relaxed (exclude r terms exclusion) := by
  have args : Commutes relaxed (exclusionArgs terms exclusion.bound) := by
    intro m
    rw [run_exclusionArgs, run_exclusionArgs]
    rfl
  have retracts (fact : List Term) : Commutes relaxed (retract r fact) := by
    intro m
    rw [run_retract, run_retract]
    rfl
  exact args.bind fun _ => commutes_get (fun _ => rfl) fun _ =>
    (commutes_answers _).bind fun _ => commutes_forM retracts _

theorem commutes_assert (key : String) (terms : List Term) (create : Bool) :
    Commutes relaxed (assert key terms create) := by
  refine (commutes_relationFor key create).bind fun r => ?_
  refine commutes_get (fun _ => rfl) fun _ => ?_
  refine (commutes_forM (commutes_exclude r terms) _).bind fun _ => ?_
  refine commutes_get (fun _ => rfl) fun m => ?_
  cases m.database.addFact r terms with
  | error fault => exact commutes_throw fault
  | ok db =>
    refine (commutes_modify fun m => ?_).bind fun _ => ?_
    · rfl
    · exact (commutes_log _).bind fun _ => commutes_record _

theorem commutes_ruleUnder (above : List Line) (params : List Term) (source : Option SourceId) :
    Commutes relaxed (ruleUnder above params source) :=
  (commutes_mapM (fun _ => (commutes_relationFor _ true).bind fun _ => commutes_pure _) _).bind
    fun _ => commutes_pure _

theorem commutes_loadSite (site : Site) : Commutes relaxed (loadSite site) := by
  unfold loadSite
  split
  · refine (commutes_actionFor _ true).bind fun action => ?_
    refine (commutes_ruleUnder _ _ none).bind fun rule => ?_
    refine commutes_mintId.bind fun id => ?_
    refine (commutes_modify fun m => ?_).bind fun _ => ?_
    · rfl
    · exact (commutes_log _).bind fun _ => commutes_forM
        (fun _ => (commutes_relationFor _ true).bind fun _ => commutes_pure _) _
  · split
    · exact commutes_assert _ _ true
    · refine (commutes_relationFor _ true).bind fun r => ?_
      refine (commutes_ruleUnder _ _ _).bind fun rule => ?_
      refine commutes_get (fun _ => rfl) fun m => ?_
      cases m.database.addRule r rule with
      | error fault => exact commutes_throw fault
      | ok db =>
        refine (commutes_modify fun m => ?_).bind fun _ => ?_
        · rfl
        · exact commutes_log _
  · refine (commutes_relationFor _ true).bind fun _ => ?_
    refine (commutes_ruleUnder _ _ none).bind fun rule => ?_
    refine (commutes_modify fun m => ?_).bind fun _ => ?_
    · rfl
    · exact commutes_log _
  · exact commutes_pure _

theorem commutes_load (text : String) : Commutes relaxed (load text) := by
  rw [load_eq]
  exact commutes_forM commutes_loadSite _

theorem commutes_goalOf (question : Phrase) : Commutes relaxed (goalOf question) :=
  (commutes_relationFor _ false).bind fun _ => commutes_pure _

theorem commutes_isTrue (question : Phrase) : Commutes relaxed (isTrue question) :=
  (commutes_goalOf question).bind fun goal => (commutes_firstAnswer goal).bind fun _ =>
    commutes_pure _

theorem commutes_values (question : Phrase) : Commutes relaxed (values question) :=
  (commutes_goalOf question).bind fun goal => (commutes_firstAnswer goal).bind fun _ =>
    commutes_pure _

theorem commutes_ask (question : Phrase) : Commutes relaxed (ask question) :=
  (commutes_goalOf question).bind fun _ => commutes_pure _

theorem commutes_pull (wanted : Option Nat) (cursor : Cursor) :
    Commutes relaxed (pull wanted cursor) :=
  (commutes_harvest wanted _).bind fun _ => commutes_pure _

theorem commutes_solutions (question : Phrase) (limit : Option Int) :
    Commutes relaxed (solutions question limit) := by
  refine (commutes_ask question).bind fun cursor => ?_
  cases limit with
  | none => exact (commutes_pull none cursor).bind fun _ => commutes_pure _
  | some limit =>
    exact (commutes_lift _).bind fun wanted =>
      (commutes_pull (some wanted) cursor).bind fun _ => commutes_pure _

theorem commutes_addCallback (name : String) : Commutes relaxed (addCallback name) := by
  refine commutes_modify fun m => ?_
  change (if name ∈ m.callbacks then _ else _) = _
  split <;> rfl

theorem commutes_choosePayload (action : Action) (args : List Term) :
    Commutes relaxed (choosePayload action args) := by
  intro m
  have same (goal : Goal) (next : Int) : (firstAnswer goal).run { m.relaxed with nextId := next } =
      ((firstAnswer goal).run { m with nextId := next }).map id relaxed :=
    commutes_firstAnswer goal { m with nextId := next }
  have still : m.relaxed.nextId = m.nextId := rfl
  simp only [run_choosePayload, still, same]
  rcases (firstAnswer _).run _ with ⟨fault | none | s, n⟩ <;> rfl

theorem commutes_resolveFresh (s : Substitution) (terms : List Term) (given : Table Term) :
    Commutes relaxed (resolveFresh s terms given) := by
  induction terms generalizing given with
  | nil => exact commutes_pure _
  | cons term terms ih =>
    unfold resolveFresh
    split
    · exact (ih given).bind fun _ => commutes_pure _
    · split
      · exact (ih given).bind fun _ => commutes_pure _
      · exact (commutes_mintVariable _).bind fun _ => (ih _).bind fun _ => commutes_pure _

end Lenient

section Claiming

/-- Whether a relation may be declared does not matter where it is. -/
theorem assert_declared {key : String} {r : RelationId} (found : m.relations.get? key = some r)
    (terms : List Term) (create other : Bool) :
    (assert key terms create).run m = (assert key terms other).run m := by
  rw [run_assert, run_assert, run_relationFor, run_relationFor, found]

/-- A claim that is not refused comes to the same on a lenient machine. -/
theorem claim_relaxed {fact : Phrase}
    (accepted : ((claim fact).run m).1 ≠ .error (.undeclaredRelation fact.key)) :
    (claim fact).run m.relaxed = ((claim fact).run m).map id relaxed := by
  have lenient : (claim fact).run m.relaxed = ((assert fact.key fact.args true).run m).map id relaxed :=
    commutes_assert fact.key fact.args true m
  have own : (claim fact).run m = (assert fact.key fact.args (!m.strict)).run m := rfl
  rw [lenient, own]
  cases strict : m.strict with
  | false => rfl
  | true =>
    cases found : m.relations.get? fact.key with
    | none => exact absurd (claim_undeclared strict found) accepted
    | some r => rw [assert_declared found fact.args (!true) true]

end Claiming

section Performing
variable {host : Type}

def lenient (t : Machine × host) : Machine × host := (t.1.relaxed, t.2)

/-- The claims among the payload lines that a task gets to find their keys declared. -/
def ClaimsDeclared (call : String → List (Option String) → HostM host Unit) (depth : Nat)
    (task : Task) (t : Machine × host) : Prop :=
  ∀ s line u, Dispatches call depth task t s line u → line.kind = .claim →
    ∃ r, u.1.relations.get? line.phrase.key = some r

variable {act : String → List (Option String) → ExceptT Fault (StateM host) Unit} {depth : Nat}

theorem dispatch_relaxed {line : Line} (kind : line.kind ≠ .action)
    {nested : Action → List Term → HostM host Bool} {s : Substitution} {h : host}
    (declared : line.kind = .claim → ∃ r, m.relations.get? line.phrase.key = some r) :
    (dispatch (asides act) nested s line).run (m.relaxed, h) =
      ((dispatch (asides act) nested s line).run (m, h)).map id lenient := by
  match same : line.kind with
  | .action => contradiction
  | .callback =>
    rw [run_dispatch_call s same, run_dispatch_call s same]
    cases line.callbackName with
    | error fault => rfl
    | ok name =>
      dsimp only
      change (if name ∈ m.callbacks then _ else _) = _
      split <;> rfl
  | .claim =>
    obtain ⟨r, found⟩ := declared same
    obtain ⟨args, next, resolved, _⟩ := run_resolveFresh s line.phrase.args no_renamings m
    have relaxed := commutes_resolveFresh s line.phrase.args {} m
    rw [resolved] at relaxed
    let ready : Machine := { m with nextId := next }
    have still : ready.relations.get? line.phrase.key = some r := found
    have claimed := commutes_assert line.phrase.key args true ready
    unfold dispatch
    rw [same]
    dsimp only
    rw [run_machine, run_machine, run_bind, run_bind, relaxed, resolved]
    change ((assert line.phrase.key args true).run ready.relaxed).map id (fun n => (n, h)) =
      (((assert line.phrase.key args (!m.strict)).run ready).map id fun n => (n, h)).map id lenient
    rw [claimed, assert_declared still args (!m.strict) true]
    rfl
  | .condition | .exclusion | .comment | .plain =>
    unfold dispatch
    rw [same]
    rfl

/-- A payload comes to the same on a lenient machine, if the actions that it performs do. -/
theorem payload_relaxed (performs : ∀ action args t,
      ClaimsDeclared (asides act) depth (.perform action args) t →
      (performWithin (asides act) depth action args).run (lenient t) =
        ((performWithin (asides act) depth action args).run t).map id lenient)
    (s : Substitution) (lines : List Line) {t : Machine × host}
    (declared : ClaimsDeclared (asides act) depth (.payload s lines) t) :
    ((Task.payload s lines).run (asides act) depth).run (lenient t) =
      (((Task.payload s lines).run (asides act) depth).run t).map id lenient := by
  induction lines generalizing t with
  | nil => rfl
  | cons line lines ih =>
    obtain ⟨m, h⟩ := t
    have first : (dispatch (asides act) (performWithin (asides act) depth) s line).run
        (m.relaxed, h) = ((dispatch (asides act) (performWithin (asides act) depth) s line).run
          (m, h)).map id lenient := by
      by_cases kind : line.kind = .action
      · cases found : m.actions.get? line.phrase.key with
        | none =>
          rw [run_dispatch_undeclared kind found,
            run_dispatch_undeclared kind (m := m.relaxed) found]
          rfl
        | some action =>
          obtain ⟨args, id, resolved, _⟩ := run_resolveFresh s line.phrase.args no_renamings m
          have relaxed := commutes_resolveFresh s line.phrase.args {} m
          rw [resolved] at relaxed
          have inside : (performWithin (asides act) depth action args).run
              (Machine.relaxed { m with nextId := id }, h) = _ :=
            performs action args ({ m with nextId := id }, h) fun r other u dispatched =>
              declared r other u (.nested kind found resolved dispatched)
          rw [run_dispatch_nested kind found resolved,
            run_dispatch_nested kind (m := m.relaxed) found relaxed, inside]
          cases (performWithin (asides act) depth action args).run ({ m with nextId := id }, h) with
          | mk result u => cases result <;> rfl
      · exact dispatch_relaxed kind (declared s line (m, h) .here)
    rw [run_payload_cons, lenient, run_payload_cons, first]
    rcases run : (dispatch (asides act) (performWithin (asides act) depth) s line).run (m, h) with
      ⟨fault | _, u⟩
    · rfl
    · exact ih fun r other v dispatched => declared r other v (.later run dispatched)

theorem performWithin_relaxed (action : Action) (args : List Term) {t : Machine × host}
    (declared : ClaimsDeclared (asides act) depth (.perform action args) t) :
    (performWithin (asides act) depth action args).run (lenient t) =
      ((performWithin (asides act) depth action args).run t).map id lenient := by
  induction depth generalizing action args t with
  | zero => rfl
  | succ depth ih =>
    obtain ⟨m, h⟩ := t
    change (performWithin (asides act) (depth + 1) action args).run (m.relaxed, h) = _
    by_cases running : action.name ∈ m.running
    · rw [run_performWithin_running running, run_performWithin_running (m := m.relaxed) running]
      rfl
    have free : action.name ∉ m.relaxed.running := running
    have relaxed := commutes_choosePayload action args m
    match chosen : (choosePayload action args).run m with
    | (.error fault, n) =>
      rw [chosen] at relaxed
      rw [run_performWithin, run_performWithin, if_neg free, if_neg running, chosen, relaxed]
      rfl
    | (.ok none, n) =>
      rw [chosen] at relaxed
      rw [run_performWithin, run_performWithin, if_neg free, if_neg running, chosen, relaxed]
      rfl
    | (.ok (some (payload, s)), n) =>
      rw [chosen] at relaxed
      have inside := payload_relaxed ih s ((n.payloads.get? payload).getD [])
        (t := (n.entered action.name, h))
        fun r line u dispatched => declared r line u (.inside running chosen dispatched)
      have here : (performWithin (asides act) (depth + 1) action args).run (m, h) = _ :=
        run_action_chosen running chosen depth h
      have there : (performWithin (asides act) (depth + 1) action args).run (m.relaxed, h) = _ :=
        run_action_chosen free relaxed depth h
      rw [here, there]
      change ((((Task.payload s ((n.payloads.get? payload).getD [])).run (asides act) depth).run
        (lenient (n.entered action.name, h))).map id _) = _
      rw [inside]
      rfl

end Performing

structure Retained (m n : Machine) : Prop where
  payloads : n.payloads = m.payloads
  declared : ∀ key r, m.relations.get? key = some r → n.relations.get? key = some r

def Covers (m : Machine) : Prop :=
  ∀ payload, ∀ line ∈ (m.payloads.get? payload).getD [], line.kind = .claim →
    ∃ r, m.relations.get? line.phrase.key = some r

section Retaining

theorem Retained.refl (m : Machine) : Retained m m := ⟨rfl, fun _ _ found => found⟩

theorem Retained.trans {k : Machine} (first : Retained m n) (second : Retained n k) :
    Retained m k :=
  ⟨second.payloads.trans first.payloads,
    fun key r found => second.declared key r (first.declared key r found)⟩

theorem Retained.of_works (works : Works m n) (same : SameProgram m n) : Retained m n :=
  ⟨congrArg Program.payloads same, fun _ _ found => works.evolves.kept found⟩

theorem Covers.retained (covers : m.Covers) (retained : Retained m n) : n.Covers := by
  intro payload line inside kind
  rw [retained.payloads] at inside
  obtain ⟨r, found⟩ := covers payload line inside kind
  exact ⟨r, retained.declared _ r found⟩

theorem covers_new (verbose strict : Bool) (id : Int) :
    ({ verbose, strict, nextId := id } : Machine).Covers := by
  intro payload line inside
  cases inside

/-- Loading an action declares the keys of the claims in its payload. -/
theorem Covers.loadSite (covers : m.Covers) (site : Site) : ((loadSite site).run m).2.Covers := by
  have evolves := (works_loadSite site m).evolves
  by_cases kind : site.line.kind = .action
  · have loaded : (Machine.loadSite site).run m =
        (loadAction site.above site.line site.payload).run m := by
      unfold Machine.loadSite
      rw [kind]
    rw [loaded] at evolves ⊢
    obtain ⟨action, rule, middle, ready, last, first, declares, _, more, run, all⟩ :=
      run_loadAction site.above site.line site.payload m
    rw [run] at evolves ⊢
    have opened : middle.payloads = m.payloads := by
      rw [run_actionFor] at first
      split at first
      · cases first
        rfl
      · cases first
        rfl
    have stored : last.payloads =
        m.payloads.put (Naming.payload ready.nextId) site.payload := by
      rw [more.same, ← opened]
      change ready.payloads.put (Naming.payload ready.nextId) site.payload = _
      rw [declares.same]
    intro payload line inside kind
    dsimp only at inside evolves
    rw [stored, Table.get?_put] at inside
    split at inside
    · exact all line inside kind
    · obtain ⟨r, found⟩ := covers payload line inside kind
      exact ⟨r, evolves.kept found⟩
  · exact covers.retained ⟨(loadSite_other kind m).2, fun _ _ found => evolves.kept found⟩

variable {host : Type} {call : String → List (Option String) → HostM host Unit} {depth : Nat}

theorem maintains_retained (apart : Apart call) (m : Machine) :
    Maintains call (fun _ => True) (Retained m) where
  spend le retained := retained.trans (.of_works (works_spend _ le) rfl)
  choose action args _ retained := retained.trans
    (.of_works (works_choosePayload action args _) (sameProgram_choosePayload action args _))
  claim key terms _ retained _ _ := retained.trans
    (.of_works (works_assert key terms _ _) (sameProgram_assert key terms _ _))
  call name values n h retained := by rwa [apart]
  enter _ retained := ⟨retained.payloads, retained.declared⟩
  leave retained := ⟨retained.payloads, retained.declared⟩

/-- Wherever a performing gets to a claim in a payload, its key is declared. -/
theorem Covers.claimsDeclared (covers : m.Covers) (apart : Apart call) (action : Action)
    (args : List Term) (h : host) :
    ClaimsDeclared call depth (.perform action args) (m, h) := by
  intro s line u dispatched kind
  have maintains := maintains_retained apart m
  have start : Retained m (m, h).1 := .refl m
  obtain ⟨payload, stored⟩ := (maintains.stored (fun n retained => retained.payloads) start
    dispatched).resolve_left List.not_mem_nil
  obtain ⟨r, found⟩ := covers payload line stored kind
  exact ⟨r, ((maintains.always start).dispatched _ _ _ dispatched).declared _ r found⟩

end Retaining

section Asking
variable {host : Type} {act : String → List (Option String) → ExceptT Fault (StateM host) Unit}
  {t : Machine × host}

theorem commutes_machine {operation : MachineM α} (same : Commutes relaxed operation) :
    Commutes lenient (HostM.machine operation : HostM host α) := by
  rintro ⟨m, h⟩
  change (((operation.run m.relaxed).1, ((operation.run m.relaxed).2, h)) : Except Fault α × _) = _
  rw [same m]
  rfl

theorem perform_relaxed (covers : t.1.Covers) (phrase : Phrase) :
    (perform (asides act) phrase).run (lenient t) =
      ((perform (asides act) phrase).run t).map id lenient := by
  obtain ⟨m, h⟩ := t
  have here : (perform (asides act) phrase).run (m, h) = _ := run_perform phrase m h
  have there : (perform (asides act) phrase).run (m.relaxed, h) =
      (performTo (m.actions.size + 1) (asides act) phrase).run (m.relaxed, h) :=
    run_perform phrase m.relaxed h
  change (perform (asides act) phrase).run (m.relaxed, h) = _
  rw [here, there]
  cases declared : m.actions.get? phrase.key with
  | none =>
    rw [run_performTo_undeclared declared, run_performTo_undeclared (m := m.relaxed) declared]
    rfl
  | some action =>
    rw [run_performTo declared, run_performTo (m := m.relaxed) declared]
    exact performWithin_relaxed action phrase.args
      (covers.claimsDeclared apart_asides action phrase.args h)

def Request.refused : Request → Except Fault Reply → Bool
  | .claim _, .error (.undeclaredRelation _) => true
  | _, _ => false

/-- A request comes to the same on a lenient machine, unless it is a claim that is refused. -/
theorem Request.relaxed (covers : t.1.Covers) (request : Request)
    (accepted : request.refused ((request.run (asides act)).run t).1 = false) :
    (request.run (asides act)).run (lenient t) =
      ((request.run (asides act)).run t).map id lenient := by
  cases request with
  | load text => exact ((commutes_machine (commutes_load text)).bind fun _ => commutes_pure _) t
  | isTrue question =>
    exact ((commutes_machine (commutes_isTrue question)).bind fun _ => commutes_pure _) t
  | values question =>
    exact ((commutes_machine (commutes_values question)).bind fun _ => commutes_pure _) t
  | solutions question limit =>
    exact ((commutes_machine (commutes_solutions question limit)).bind fun _ => commutes_pure _) t
  | ask question =>
    exact ((commutes_machine (commutes_ask question)).bind fun _ => commutes_pure _) t
  | pull wanted cursor =>
    exact ((commutes_machine (commutes_pull wanted cursor)).bind fun _ => commutes_pure _) t
  | register callback =>
    exact ((commutes_machine (commutes_addCallback callback)).bind fun _ => commutes_pure _) t
  | claim fact =>
    obtain ⟨m, h⟩ := t
    have whole (n : Machine) : (((Request.claim fact).run (asides act)).run (n, h)) =
        ((Machine.claim fact).run n).map (·.map fun _ => Reply.done) fun n => (n, h) := by
      change (HostM.machine (Machine.claim fact) >>= fun _ => pure Reply.done :
        HostM host Reply).run (n, h) = _
      rw [run_bind, run_machine]
      match (Machine.claim fact).run n with
      | (.ok _, n) => rfl
      | (.error fault, n) => rfl
    have same : (Machine.claim fact).run m.relaxed = ((Machine.claim fact).run m).map id
        Machine.relaxed := by
      refine claim_relaxed fun failed => ?_
      rw [whole, run_of_error failed] at accepted
      cases accepted
    change ((Request.claim fact).run (asides act)).run (m.relaxed, h) = _
    rw [whole, whole, same]
    rfl
  | perform action =>
    change (Machine.perform (asides act) action >>= fun found => pure (Reply.truth found) :
      HostM host Reply).run (lenient t) = ((Machine.perform (asides act) action >>= fun found =>
        pure (Reply.truth found) : HostM host Reply).run t).map id lenient
    rw [run_bind, run_bind, perform_relaxed covers]
    match (Machine.perform (asides act) action).run t with
    | (.ok _, u) => rfl
    | (.error fault, u) => rfl

end Asking

section Refusing
variable {host : Type} {call : String → List (Option String) → HostM host Unit}
  {act : String → List (Option String) → ExceptT Fault (StateM host) Unit} {t : Machine × host}

/-- At any time of a run, the claims in the payloads have declared keys. -/
theorem upholds_covers (apart : Apart call) : Upholds call (fun _ => True) Covers := by
  have each (m : Machine) := maintains_retained apart m
  constructor
  · constructor
    case spend => exact fun le covers => covers.retained ((each _).spend le (.refl _))
    case choose => exact fun action args m covers =>
      covers.retained ((each m).choose action args (.refl m))
    case claim => exact fun key terms m covers _ _ =>
      covers.retained ((each m).claim key terms (.refl m) trivial trivial)
    case call => exact fun name values m h covers =>
      covers.retained ((each m).call name values h (.refl m))
    case enter => exact fun free covers => covers.retained ((each _).enter free (.refl _))
    case leave => exact fun covers => covers.retained ((each _).leave (.refl _))
  · exact fun site m covers _ _ => covers.loadSite site
  · intro name m covers
    obtain ⟨_, _, run⟩ := run_addCallback name m
    rw [run]
    exact covers.retained ⟨rfl, fun _ _ found => found⟩

def Unrefused (requests : List Request) (replies : List (Except Fault Reply)) : Prop :=
  List.Forall₂ (fun request reply => request.refused reply = false) requests replies

/-- A run in which no claim is refused is the run of a lenient machine. -/
theorem runAll_relaxed (requests : List Request) (covers : t.1.Covers)
    (accepted : Unrefused requests (runAll (asides act) requests t).1) :
    runAll (asides act) requests (lenient t) =
      (runAll (asides act) requests t).map id lenient := by
  induction requests generalizing t with
  | nil => rfl
  | cons request requests ih =>
    cases accepted with
    | cons first others =>
      have later := ih ((upholds_covers apart_asides).request covers trivial
        (fun _ _ => trivial) .after) others
      rw [runAll_cons, runAll_cons, request.relaxed covers first]
      change (((request.run (asides act)).run t).1 ::
          (runAll (asides act) requests (lenient ((request.run (asides act)).run t).2)).1,
        (runAll (asides act) requests (lenient ((request.run (asides act)).run t).2)).2) = _
      rw [later]
      rfl

/-- A strict machine gets no keys by claims. -/
theorem maintains_keys (apart : Apart call) (m : Machine) :
    Maintains call (fun _ => True) fun n => n.strict = true ∧ SameKeys m n where
  spend _ keys := keys
  choose action args n keys := by
    obtain ⟨_, _, _, _, same⟩ := choosePayload_changes action args n
    rw [same]
    exact keys
  claim key terms n keys _ _ := by
    have strict : ((assert key terms (!n.strict)).run n).2.strict = n.strict :=
      congrArg Program.strict (sameProgram_assert key terms _ n)
    refine ⟨strict.trans keys.1, keys.2.trans ?_⟩
    rw [keys.1]
    exact sameKeys_assert key terms n
  call name values n h keys := by rwa [apart]
  enter _ keys := keys
  leave keys := keys

/-- Whatever is asked of a new strict machine, whose callbacks leave it alone: until it refuses a
claim, the replies, what the host keeps and the machine are those of a lenient one, the setting
apart. It gets no keys by a claim or by performing an action, however that ends; and it refuses no
claim among the payload lines that a performing gets to. -/
theorem strict_only_refuses
    (act : String → List (Option String) → ExceptT Fault (StateM host) Unit) (verbose : Bool)
    (id : Int) (h : host) (requests : List Request) :
    let ended := runAll (asides act) requests ({ verbose, strict := true, nextId := id }, h)
    (Unrefused requests ended.1 →
      runAll (asides act) requests ({ verbose, strict := false, nextId := id }, h) =
        (ended.1, ({ ended.2.1 with strict := false }, ended.2.2))) ∧
    (∀ fact, ((claim fact).run ended.2.1).2.relations = ended.2.1.relations) ∧
    (∀ phrase, ((perform (asides act) phrase).run ended.2).2.1.relations = ended.2.1.relations) ∧
    ∀ depth action args s line u nested key,
      Dispatches (asides act) depth (.perform action args) ended.2 s line u →
      line.kind = .claim →
      ((dispatch (asides act) nested s line).run u).1 ≠ .error (.undeclaredRelation key) := by
  intro ended
  let start : Machine := { verbose, strict := true, nextId := id }
  have passed : Passed (asides act) requests (start, h) ended.2.1 := passed_ended requests (start, h)
  have evolves : Evolves start ended.2.1 :=
    (upholds_evolves apart_asides.sparing.grows start).passed .refl (fun _ _ => trivial) passed
  have strict : ended.2.1.strict = true := evolves.strict
  have covers : ended.2.1.Covers :=
    (upholds_covers apart_asides).passed (covers_new verbose true id) (fun _ _ => trivial) passed
  have keys : Maintains (asides act) (fun _ => True) _ := maintains_keys apart_asides ended.2.1
  refine ⟨fun accepted => ?_, fun fact => ?_, fun phrase => ?_, ?_⟩
  · exact runAll_relaxed requests (t := (start, h)) (covers_new verbose true id) accepted
  · exact (keys.claim fact.key fact.args ⟨strict, rfl⟩ trivial trivial).2
  · rw [run_perform]
    exact (keys.performTo ⟨strict, rfl⟩ _ phrase ended.2.2).2
  · intro depth action args s line u nested key dispatched kind failed
    obtain ⟨r, found⟩ := covers.claimsDeclared apart_asides action args ended.2.2 s line u
      dispatched kind
    have arises : u.1.Arises := by
      have there := ((maintains_evolves apart_asides.sparing.grows start).always
        (t := ended.2) evolves).dispatched _ _ _ dispatched
      exact ⟨verbose, true, id, there⟩
    rcases dispatch_claim_fails arises.wellFormed kind failed with
      ⟨_, absent, _⟩ | ⟨_, _, _, other⟩
    · rw [found] at absent
      cases absent
    · cases other

def doorRequests : List Request :=
  [.load "* open (x)\n    + opened (x)\n    > ring: (x)\n    * close (x)\n* close (y)\n    + closed (y)",
    .register "ring", .perform ⟨"open %s", [.lit "a"]⟩, .isTrue ⟨"closed %s", [.lit "a"]⟩]

def bell (name : String) (_ : List (Option String)) : ExceptT Fault (StateM (List String)) Unit :=
  modify (· ++ [name])

theorem strict_only_refuses_door :
    let ended := runAll (asides bell) doorRequests ({ strict := true }, [])
    ended.2.2 = ["ring"] ∧
    ended.2.1.history = [.performed "open %s" "payload-0", .claimed "opened %s" ["a"],
      .performed "close %s" "payload-1", .claimed "closed %s" ["a"]] ∧
    ((claim ⟨"seen", []⟩).run ended.2.1).1 = .error (.undeclaredRelation "seen") ∧
    runAll (asides bell) doorRequests ({ strict := false }, []) =
      (ended.1, ({ ended.2.1 with strict := false }, ended.2.2)) := by
  have accepted : Unrefused doorRequests
      (runAll (asides bell) doorRequests ({ strict := true }, [])).1 := by
    unfold Unrefused
    decide +kernel
  refine ⟨by decide +kernel, by decide +kernel, by decide +kernel, ?_⟩
  exact (strict_only_refuses bell false 0 [] doorRequests).1 accepted

end Refusing
end Machine
end Rulebook
