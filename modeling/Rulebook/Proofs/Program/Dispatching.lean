import Rulebook.Proofs.Program.Firing
import Rulebook.Proofs.Program.Nesting

/-! The lines that a performing gets to. The state in which each of them is dispatched is followed
through the actions that perform each other, so that what single lines keep holds wherever a line is
dispatched and in the end, and a performing fails only where it meets a reason to. -/
namespace Rulebook.Machine
variable {host : Type} {call : String → List (Option String) → HostM host Unit} {m n : Machine}

/-- On the way of a task the line is dispatched, under the substitution of its payload, in this
state. -/
inductive Dispatches (call : String → List (Option String) → HostM host Unit) :
    Nat → Task → Machine × host → Substitution → Line → Machine × host → Prop where
  | inside {depth : Nat} {action : Action} {args : List Term} {payload : String}
      {s r : Substitution} {m n : Machine} {h : host} {line : Line} {u : Machine × host} :
      action.name ∉ m.running → (choosePayload action args).run m = (.ok (some (payload, s)), n) →
      Dispatches call depth (.payload s ((n.payloads.get? payload).getD []))
        (n.entered action.name, h) r line u →
      Dispatches call (depth + 1) (.perform action args) (m, h) r line u
  | here {depth : Nat} {s : Substitution} {line : Line} {lines : List Line} {t : Machine × host} :
      Dispatches call depth (.payload s (line :: lines)) t s line t
  | later {depth : Nat} {s r : Substitution} {first line : Line} {lines : List Line}
      {t u v : Machine × host} :
      (dispatch call (performWithin call depth) s first).run t = (.ok ⟨⟩, u) →
      Dispatches call depth (.payload s lines) u r line v →
      Dispatches call depth (.payload s (first :: lines)) t r line v
  | nested {depth : Nat} {s r : Substitution} {first line : Line} {lines : List Line}
      {action : Action} {args : List Term} {m n : Machine} {h : host} {u : Machine × host} :
      first.kind = .action → m.actions.get? first.phrase.key = some action →
      (resolveFresh s first.phrase.args {}).run m = (.ok args, n) →
      Dispatches call depth (.perform action args) (n, h) r line u →
      Dispatches call depth (.payload s (first :: lines)) (m, h) r line u

def Task.lines : Task → List Line
  | .perform _ _ => []
  | .payload _ lines => lines

/-- The property holds of the machine at every line that is dispatched, and in the end. -/
structure Throughout (call : String → List (Option String) → HostM host Unit)
    (holds : Machine → Prop) (depth : Nat) (task : Task) (t : Machine × host) : Prop where
  dispatched : ∀ s line u, Dispatches call depth task t s line u → holds u.1
  ended : holds ((task.run call depth).run t).2.1

section Parts
variable {holds : Machine → Prop} {depth : Nat} {s : Substitution} {line : Line}
  {lines : List Line} {t u : Machine × host}

/-- The first line of a payload is dispatched at once; without one the payload ends at once. -/
theorem Throughout.first (all : Throughout call holds depth (.payload s lines) t) : holds t.1 := by
  cases lines with
  | nil => exact all.ended
  | cons line lines => exact all.dispatched _ _ _ .here

theorem Throughout.later (all : Throughout call holds depth (.payload s (line :: lines)) t)
    (run : (dispatch call (performWithin call depth) s line).run t = (.ok ⟨⟩, u)) :
    Throughout call holds depth (.payload s lines) u := by
  refine ⟨fun r other v dispatched => all.dispatched _ _ _ (.later run dispatched), ?_⟩
  have ended := all.ended
  rwa [run_payload_cons, run] at ended

/-- What a line leaves is what the next line finds, or what the payload ends with. -/
theorem Throughout.after (all : Throughout call holds depth (.payload s (line :: lines)) t) :
    holds ((dispatch call (performWithin call depth) s line).run t).2.1 := by
  match run : (dispatch call (performWithin call depth) s line).run t with
  | (.ok _, u) => exact (all.later run).first
  | (.error fault, u) =>
    have ended := all.ended
    rwa [run_payload_cons, run] at ended

theorem Throughout.nested {action : Action} {args : List Term} {h : host}
    (all : Throughout call holds depth (.payload s (line :: lines)) (m, h))
    (kind : line.kind = .action) (declared : m.actions.get? line.phrase.key = some action)
    (resolved : (resolveFresh s line.phrase.args {}).run m = (.ok args, n)) :
    Throughout call holds depth (.perform action args) (n, h) := by
  refine ⟨fun r other v dispatched =>
    all.dispatched _ _ _ (.nested kind declared resolved dispatched), ?_⟩
  have after := all.after
  rw [run_dispatch_nested kind declared resolved] at after
  change holds ((performWithin call depth action args).run (n, h)).2.1
  match run : (performWithin call depth action args).run (n, h) with
  | (.ok _, u) => rwa [run] at after
  | (.error fault, u) => rwa [run] at after

end Parts

/-- What lines do to a machine keeps the property, as long as the facts are as they should be before
and after each claim. -/
structure Maintains (call : String → List (Option String) → HostM host Unit)
    (facts : Database → Prop) (kept : Machine → Prop) : Prop where
  spend : ∀ {m : Machine} {id : Int}, m.nextId ≤ id → kept m → kept { m with nextId := id }
  choose : ∀ (action : Action) (args : List Term) {m : Machine}, kept m →
    kept ((choosePayload action args).run m).2
  claim : ∀ (key : String) (terms : List Term) {m : Machine}, kept m → facts m.database →
    facts ((assert key terms (!m.strict)).run m).2.database →
    kept ((assert key terms (!m.strict)).run m).2
  call : ∀ (name : String) (values : List (Option String)) {m : Machine} (h : host), kept m →
    kept ((call name values).run (m, h)).2.1
  enter : ∀ {name : String} {m : Machine}, name ∉ m.running → kept m → kept (m.entered name)
  leave : ∀ {m : Machine}, kept m → kept m.left

namespace Maintains
variable {facts : Database → Prop} {kept : Machine → Prop} {depth : Nat}

theorem resolve (maintains : Maintains call facts kept) (s : Substitution) (terms : List Term)
    (start : kept m) : kept ((resolveFresh s terms {}).run m).2 := by
  obtain ⟨args, id, run, le, _⟩ := run_resolveFresh s terms no_renamings m
  rw [run]
  exact maintains.spend le start

/-- A line that performs no action. -/
theorem dispatch (maintains : Maintains call facts kept) {line : Line} (kind : line.kind ≠ .action)
    {nested : Action → List Term → HostM host Bool} {s : Substitution} {t : Machine × host}
    (start : kept t.1) (before : facts t.1.database)
    (after : facts ((dispatch call nested s line).run t).2.1.database) :
    kept ((Machine.dispatch call nested s line).run t).2.1 := by
  obtain ⟨m, h⟩ := t
  match same : line.kind with
  | .action => contradiction
  | .callback =>
    rw [run_dispatch_call s same]
    split
    · exact start
    · split
      · exact maintains.call _ _ h start
      · exact start
  | .claim =>
    obtain ⟨args, id, le, _, run⟩ := run_dispatch_claim call nested s same h
    rw [run] at after ⊢
    exact maintains.claim line.phrase.key args (maintains.spend le start) before after
  | .condition | .exclusion | .comment | .plain =>
    unfold Machine.dispatch
    rw [same]
    exact start

/-- A payload keeps the property if the actions that it performs do. -/
theorem payload (maintains : Maintains call facts kept)
    (performs : ∀ action args t, kept t.1 →
      Throughout call (fun m => facts m.database) depth (.perform action args) t →
      Throughout call kept depth (.perform action args) t)
    (s : Substitution) (lines : List Line) {t : Machine × host} (start : kept t.1)
    (fine : Throughout call (fun m => facts m.database) depth (.payload s lines) t) :
    Throughout call kept depth (.payload s lines) t := by
  induction lines generalizing t with
  | nil => exact ⟨fun _ _ _ dispatched => (nomatch dispatched), start⟩
  | cons line lines ih =>
    obtain ⟨m, h⟩ := t
    -- What the line leaves is fit for the others.
    have others (after : kept ((Machine.dispatch call (performWithin call depth) s line).run
        (m, h)).2.1) (inside : ∀ action args n, line.kind = .action →
          m.actions.get? line.phrase.key = some action →
          (resolveFresh s line.phrase.args {}).run m = (.ok args, n) →
          Throughout call kept depth (.perform action args) (n, h)) :
        Throughout call kept depth (.payload s (line :: lines)) (m, h) := by
      constructor
      · intro r other v dispatched
        cases dispatched with
        | here => exact start
        | later run dispatched =>
          rw [run] at after
          exact (ih after (fine.later run)).dispatched _ _ _ dispatched
        | nested kind declared resolved dispatched =>
          exact (inside _ _ _ kind declared resolved).dispatched _ _ _ dispatched
      · rw [run_payload_cons]
        match run : (Machine.dispatch call (performWithin call depth) s line).run (m, h) with
        | (.ok _, u) =>
          rw [run] at after
          exact (ih after (fine.later run)).ended
        | (.error fault, u) => rwa [run] at after
    by_cases kind : line.kind = .action
    · have inside (action : Action) (args : List Term) (n : Machine)
          (declared : m.actions.get? line.phrase.key = some action)
          (resolved : (resolveFresh s line.phrase.args {}).run m = (.ok args, n)) :
          Throughout call kept depth (.perform action args) (n, h) := by
        have ready := maintains.resolve s line.phrase.args start
        rw [resolved] at ready
        exact performs action args (n, h) ready (fine.nested kind declared resolved)
      refine others ?_ fun action args n _ => inside action args n
      cases declared : m.actions.get? line.phrase.key with
      | none =>
        rw [run_dispatch_undeclared kind declared]
        exact start
      | some action =>
        obtain ⟨args, id, resolved, _⟩ := run_resolveFresh s line.phrase.args no_renamings m
        have ended := (inside action args _ declared resolved).ended
        rw [run_dispatch_nested kind declared resolved]
        change kept ((performWithin call depth action args).run _).2.1 at ended
        split <;> rename_i run <;> rwa [run] at ended
    · exact others (maintains.dispatch kind start fine.first fine.after)
        fun action args n action => absurd action kind

theorem perform (maintains : Maintains call facts kept) (action : Action) (args : List Term)
    {t : Machine × host} (start : kept t.1)
    (fine : Throughout call (fun m => facts m.database) depth (.perform action args) t) :
    Throughout call kept depth (.perform action args) t := by
  induction depth generalizing action args t with
  | zero => exact ⟨fun _ _ _ dispatched => (nomatch dispatched), start⟩
  | succ depth ih =>
    obtain ⟨m, h⟩ := t
    by_cases running : action.name ∈ m.running
    · refine ⟨fun _ _ _ dispatched => ?_, ?_⟩
      · cases dispatched with
        | inside free => exact absurd running free
      · rw [Task.run, run_performWithin_running running]
        exact start
    have ready := maintains.choose action args start
    have spent := (works_choosePayload action args m).running
    rcases chosen : (choosePayload action args).run m with ⟨fault | _ | ⟨payload, s⟩, n⟩
    case error | ok.none =>
      rw [chosen] at ready
      refine ⟨fun _ _ _ dispatched => ?_, ?_⟩
      · cases dispatched with
        | inside _ other => cases chosen.symm.trans other
      · rw [Task.run, run_performWithin, if_neg running, chosen]
        exact ready
    case ok.some =>
      rw [chosen] at ready spent
      have ended := fine.ended
      rw [run_action_chosen running chosen] at ended
      have whole := maintains.payload ih s ((n.payloads.get? payload).getD [])
        (t := (n.entered action.name, h)) (maintains.enter (spent ▸ running) ready)
        ⟨fun _ _ _ dispatched => fine.dispatched _ _ _ (.inside running chosen dispatched), ended⟩
      refine ⟨fun _ _ _ dispatched => ?_, ?_⟩
      · cases dispatched with
        | inside _ other dispatched =>
          cases chosen.symm.trans other
          exact whole.dispatched _ _ _ dispatched
      · rw [run_action_chosen running chosen]
        exact maintains.leave whole.ended

/-- What lines keep, a task keeps throughout. -/
theorem task (maintains : Maintains call facts kept) {task : Task} {t : Machine × host}
    (start : kept t.1) (fine : Throughout call (fun m => facts m.database) depth task t) :
    Throughout call kept depth task t := by
  cases task with
  | perform action args => exact maintains.perform action args start fine
  | payload s lines =>
    exact maintains.payload (fun action args t => maintains.perform action args) s lines start fine

theorem always (maintains : Maintains call (fun _ => True) kept) {task : Task} {t : Machine × host}
    (start : kept t.1) : Throughout call kept depth task t :=
  maintains.task start ⟨fun _ _ _ _ => trivial, trivial⟩

/-- What lines keep is kept by performing, also where nothing is declared to be performed. -/
theorem performTo (maintains : Maintains call (fun _ => True) kept) (start : kept m)
    (depth : Nat) (phrase : Phrase) (h : host) :
    kept ((Machine.performTo depth call phrase).run (m, h)).2.1 := by
  cases declared : m.actions.get? phrase.key with
  | none =>
    rw [run_performTo_undeclared declared]
    exact start
  | some action =>
    rw [run_performTo declared]
    have all : Throughout call kept depth (.perform action phrase.args) (m, h) :=
      maintains.always start
    exact all.ended

theorem after (maintains : Maintains call (fun _ => True) kept) {s : Substitution} {line : Line}
    {t u : Machine × host} (start : kept t.1)
    (run : (Machine.dispatch call (performWithin call depth) s line).run t = (.ok ⟨⟩, u)) :
    kept u.1 := by
  have one : Throughout call kept depth (.payload s [line]) t := maintains.always start
  exact (one.later run).first

/-- Where the stored payloads stay the same, the lines that are dispatched are among those of the
task and of the stored payloads. -/
theorem stored (maintains : Maintains call (fun _ => True) kept) {payloads : Table (List Line)}
    (fixed : ∀ m, kept m → m.payloads = payloads) {task : Task} {t u : Machine × host}
    {s : Substitution} {line : Line} (start : kept t.1)
    (dispatched : Dispatches call depth task t s line u) :
    line ∈ task.lines ∨ ∃ payload, line ∈ (payloads.get? payload).getD [] := by
  induction dispatched with
  | @inside _ action args payload _ _ m n _ _ _ free chosen _ ih =>
    have ready := maintains.choose action args start
    have spent := (works_choosePayload action args m).running
    rw [chosen] at ready spent
    rcases ih (maintains.enter (spent ▸ free) ready) with here | there
    · exact .inr ⟨payload, fixed n ready ▸ here⟩
    · exact .inr there
  | here => exact .inl List.mem_cons_self
  | later run _ ih =>
    exact (ih (maintains.after start run)).imp_left (List.mem_cons_of_mem _)
  | @nested _ s _ first _ _ _ _ _ _ _ _ _ _ resolved _ ih =>
    have ready := maintains.resolve s first.phrase.args start
    rw [resolved] at ready
    exact .inr ((ih ready).resolve_left (List.not_mem_nil))

end Maintains

/-- A performing finds only machines that changes lead to, if its callbacks make changes only. -/
theorem maintains_evolves (calls : ∀ name values, Grows (call name values)) (m : Machine) :
    Maintains call (fun _ => True) (Evolves m) where
  spend le evolves := evolves.trans (works_spend _ le).evolves
  choose action args n evolves := evolves.trans (works_choosePayload action args n).evolves
  claim key terms n evolves _ _ := evolves.trans (works_assert key terms _ n).evolves
  call name values n h evolves := evolves.trans (calls name values n h).evolves
  enter free evolves := evolves.tail (.enter free)
  leave evolves := evolves.tail .leave

/-- These faults may come of performing itself, on machines that have the property. -/
structure Excuses (kept : Machine → Prop) (allowed : Fault → Prop) : Prop where
  tooDeep : allowed .tooDeep
  recursive : ∀ chain, allowed (.recursiveAction chain)
  undeclared : ∀ key, allowed (.undeclaredAction key)
  choose : ∀ (action : Action) (args : List Term) {m : Machine} {fault : Fault}, kept m →
    ((choosePayload action args).run m).1 = .error fault → allowed fault

def LinesFailOnly (call : String → List (Option String) → HostM host Unit)
    (allowed : Fault → Prop) (depth : Nat) (task : Task) (t : Machine × host) : Prop :=
  ∀ s line u nested fault, Dispatches call depth task t s line u → line.kind ≠ .action →
    ((dispatch call nested s line).run u).1 = .error fault → allowed fault

section Failing
variable {kept : Machine → Prop} {allowed : Fault → Prop} {depth : Nat} {fault : Fault}

theorem payload_fails (maintains : Maintains call (fun _ => True) kept)
    (excuses : Excuses kept allowed)
    (performs : ∀ action args t, kept t.1 →
      LinesFailOnly call allowed depth (.perform action args) t →
      ∀ fault, ((performWithin call depth action args).run t).1 = .error fault → allowed fault)
    (s : Substitution) (lines : List Line) {t : Machine × host} (start : kept t.1)
    (fine : LinesFailOnly call allowed depth (.payload s lines) t)
    (failed : (((Task.payload s lines).run call depth).run t).1 = .error fault) :
    allowed fault := by
  induction lines generalizing t with
  | nil => cases failed
  | cons line lines ih =>
    obtain ⟨m, h⟩ := t
    rw [run_payload_cons] at failed
    match run : (dispatch call (performWithin call depth) s line).run (m, h) with
    | (.ok _, u) =>
      rw [run] at failed
      exact ih (maintains.after start run)
        (fun r other v nested fault dispatched => fine _ _ _ nested fault (.later run dispatched))
        failed
    | (.error other, u) =>
      rw [run] at failed
      cases failed
      by_cases kind : line.kind = .action
      · cases declared : m.actions.get? line.phrase.key with
        | none =>
          rw [run_dispatch_undeclared kind declared] at run
          cases run
          exact excuses.undeclared _
        | some action =>
          obtain ⟨args, id, resolved, _⟩ := run_resolveFresh s line.phrase.args no_renamings m
          have ready := maintains.resolve s line.phrase.args start
          rw [resolved] at ready
          have inside : ((performWithin call depth action args).run ({ m with nextId := id }, h)).1 =
              .error fault := by
            rw [run_dispatch_nested kind declared resolved] at run
            split at run <;> cases run
            rename_i same
            exact congrArg Prod.fst same
          refine performs action args _ ready (fun r other v nested fault dispatched => ?_) _ inside
          exact fine _ _ _ nested fault (.nested kind declared resolved dispatched)
      · exact fine _ _ _ _ _ .here kind (congrArg Prod.fst run)

/-- A performing fails only as its lines do, or for a reason of its own. -/
theorem performWithin_fails (maintains : Maintains call (fun _ => True) kept)
    (excuses : Excuses kept allowed) (action : Action) (args : List Term) {t : Machine × host}
    (start : kept t.1) (fine : LinesFailOnly call allowed depth (.perform action args) t)
    (failed : ((performWithin call depth action args).run t).1 = .error fault) :
    allowed fault := by
  induction depth generalizing action args t fault with
  | zero =>
    cases failed
    exact excuses.tooDeep
  | succ depth ih =>
    obtain ⟨m, h⟩ := t
    by_cases running : action.name ∈ m.running
    · rw [run_performWithin_running running] at failed
      cases failed
      exact excuses.recursive _
    have ready := maintains.choose action args start
    have spent := (works_choosePayload action args m).running
    match chosen : (choosePayload action args).run m with
    | (.error other, n) =>
      rw [run_performWithin, if_neg running, chosen] at failed
      cases failed
      exact excuses.choose action args start (congrArg Prod.fst chosen)
    | (.ok none, n) =>
      rw [run_performWithin, if_neg running, chosen] at failed
      cases failed
    | (.ok (some (payload, s)), n) =>
      rw [chosen] at ready spent
      have inside : (performWithin call (depth + 1) action args).run (m, h) = _ :=
        run_action_chosen running chosen depth h
      rw [inside] at failed
      refine payload_fails maintains excuses (fun action args t start fine fault =>
        ih action args start fine) s ((n.payloads.get? payload).getD [])
        (maintains.enter (spent ▸ running) ready) (fun r line u nested fault dispatched => ?_) failed
      exact fine _ _ _ nested fault (.inside running chosen dispatched)

end Failing
end Rulebook.Machine
