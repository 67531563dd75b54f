import Rulebook.Proofs.Program.Dispatching
import Rulebook.Proofs.Program.Faults
import Rulebook.Proofs.Table

/-! Which callbacks have to be registered. The names that the stored payloads call are all that a
performing ever calls, however actions perform each other and whatever is claimed before, since only
loading brings new payload lines. Where these names are registered, performing fails neither on a
callback nor on a line that cannot be read. -/
namespace Rulebook

/-- A text that cannot be read, or a callback that is not there. -/
inductive Fault.OfCallbacks : Fault → Prop where
  | unregistered (name : String) : OfCallbacks (.unregisteredCallback name)
  | nameless (line : String) : OfCallbacks (.namelessCallback line)
  | notToken (text : String) : OfCallbacks (.notToken text)

namespace Machine
variable {m n k : Machine} {names : List String}

/-- One machine comes from the other by operations that load nothing, among them those of callbacks
that load nothing either. A callback finds the machine as it is at a line on the way. -/
inductive Follows : Machine → Machine → Prop where
  | refl (m : Machine) : Follows m m
  | trans {m n k : Machine} : Follows m n → Follows n k → Follows m k
  | claim (fact : Phrase) (m : Machine) : Follows m ((claim fact).run m).2
  | isTrue (question : Phrase) (m : Machine) : Follows m ((isTrue question).run m).2
  | values (question : Phrase) (m : Machine) : Follows m ((values question).run m).2
  | pull (wanted : Option Nat) (cursor : Cursor) (m : Machine) :
      Follows m ((pull wanted cursor).run m).2
  | addCallback (name : String) (m : Machine) : Follows m ((addCallback name).run m).2
  | perform {host : Type} (depth : Nat) {call : String → List (Option String) → HostM host Unit}
      (phrase : Phrase) (m : Machine) (h : host) :
      (∀ name values m h, Follows m ((call name values).run (m, h)).2.1) →
      Follows m ((performTo depth call phrase).run (m, h)).2.1
  | within {host : Type} {depth : Nat} {call : String → List (Option String) → HostM host Unit}
      {action : Action} {args : List Term} {m : Machine} {h : host} {s : Substitution}
      {line : Line} {u : Machine × host} :
      (∀ name values m h, Follows m ((call name values).run (m, h)).2.1) →
      Dispatches call depth (.perform action args) (m, h) s line u → Follows m u.1

/-- Nothing has been loaded, and no callback has gone. -/
structure Unloaded (m n : Machine) : Prop where
  arises : n.Arises
  payloads : n.payloads = m.payloads
  callbacks : m.callbacks ⊆ n.callbacks

namespace Unloaded

theorem refl (arises : m.Arises) : Unloaded m m := ⟨arises, rfl, List.Subset.refl _⟩

theorem of_works (unloaded : Unloaded m n) (works : Works n k) (same : SameProgram n k) :
    Unloaded m k where
  arises := unloaded.arises.evolves works.evolves
  payloads := (congrArg Program.payloads same).trans unloaded.payloads
  callbacks := by
    have kept : k.callbacks = n.callbacks := congrArg Program.callbacks same
    rw [kept]
    exact unloaded.callbacks

theorem spent (unloaded : Unloaded m n) {operation : MachineM α} (spends : Spends operation) :
    Unloaded m (operation.run n).2 := by
  refine unloaded.of_works (spends.works n) ?_
  obtain ⟨_, _, same⟩ := spends n
  rw [same]
  rfl

theorem claim (unloaded : Unloaded m n) (key : String) (terms : List Term) (create : Bool) :
    Unloaded m ((assert key terms create).run n).2 :=
  unloaded.of_works (works_assert key terms create n) (sameProgram_assert key terms create n)

theorem addCallback (unloaded : Unloaded m n) (name : String) :
    Unloaded m ((addCallback name).run n).2 := by
  obtain ⟨_, more, run⟩ := run_addCallback name n
  rw [run]
  exact ⟨unloaded.arises.evolves (.single .register), unloaded.payloads,
    List.Subset.trans unloaded.callbacks more⟩

/-- What is told to do something goes on to be told the same. -/
theorem maintains {host : Type} {call : String → List (Option String) → HostM host Unit}
    (calls : ∀ name values n h, Unloaded m n → Unloaded m ((call name values).run (n, h)).2.1) :
    Maintains call (fun _ => True) (Unloaded m) where
  spend le unloaded := unloaded.of_works (works_spend _ le) rfl
  choose action args _ unloaded := unloaded.of_works (works_choosePayload action args _)
    (sameProgram_choosePayload action args _)
  claim key terms _ unloaded _ _ := unloaded.claim key terms _
  call name values _ h := calls name values _ h
  enter free unloaded :=
    ⟨unloaded.arises.evolves (.single (.enter free)), unloaded.payloads, unloaded.callbacks⟩
  leave unloaded := ⟨unloaded.arises.evolves (.single .leave), unloaded.payloads, unloaded.callbacks⟩

end Unloaded

theorem Follows.unloaded (follows : Follows n k) (unloaded : Unloaded m n) : Unloaded m k := by
  induction follows with
  | refl => exact unloaded
  | trans _ _ first second => exact second (first unloaded)
  | claim fact n => exact unloaded.claim fact.key fact.args _
  | isTrue question n => exact unloaded.spent (spends_isTrue question)
  | values question n => exact unloaded.spent (spends_values question)
  | pull wanted cursor n => exact unloaded.spent (spends_pull wanted cursor)
  | addCallback name n => exact unloaded.addCallback name
  | perform depth phrase n h _ ih =>
    exact (Unloaded.maintains fun name values n h => ih name values n h).performTo unloaded depth
      phrase h
  | within _ dispatched ih =>
    exact ((Unloaded.maintains fun name values n h => ih name values n h).always
      unloaded).dispatched _ _ _ dispatched

section Scanning

def namesOf (lines : List Line) : MachineM (List String) := lines.mapM fun line => line.callbackName

theorem callbackName_of_scan {lines : List Line} (run : (namesOf lines).run m = (.ok names, n))
    {line : Line} (inside : line ∈ lines) : ∃ name ∈ names, line.callbackName = .ok name := by
  unfold namesOf at run
  induction lines generalizing m names with
  | nil => cases inside
  | cons first lines ih =>
    rw [List.mapM_cons] at run
    obtain ⟨name, k, named, others⟩ := bind_ok run
    obtain ⟨more, l, rest, last⟩ := bind_ok others
    cases last
    rcases List.mem_cons.mp inside with rfl | later
    · refine ⟨name, List.mem_cons_self, ?_⟩
      cases read : line.callbackName with
      | error fault =>
        rw [read] at named
        cases named
      | ok other =>
        rw [read] at named
        cases named
        rfl
    · obtain ⟨other, member, read⟩ := ih rest later
      exact ⟨other, List.mem_cons_of_mem _ member, read⟩

def callbackLines (m : Machine) : List Line :=
  m.payloads.values.flatten.filter (·.kind == .callback)

theorem mem_callbackLines {payload : String} {line : Line}
    (inside : line ∈ (m.payloads.get? payload).getD []) (kind : line.kind = .callback) :
    line ∈ m.callbackLines := by
  refine List.mem_filter.mpr ⟨?_, beq_iff_eq.mpr kind⟩
  cases there : m.payloads.get? payload with
  | none => simp [there] at inside
  | some lines =>
    rw [there] at inside
    exact List.mem_flatten_of_mem (Table.mem_values_of_get? there) inside

/-- The names are those of the callback lines, if each of them has one. -/
theorem run_callbackNames (m : Machine) :
    callbackNames.run m = ((namesOf m.callbackLines).run m).map (·.map sortedNames) id := by
  unfold callbackNames
  rw [run_bind, run_get]
  dsimp only
  rw [run_bind]
  change _ = ((namesOf (m.payloads.values.flatten.filter (·.kind == .callback))).run m).map _ _
  unfold namesOf
  split <;> rename_i same <;> rw [same] <;> rfl

/-- Every callback line of a stored payload calls one of the names that are found. -/
theorem callbackNames_complete (scanned : (callbackNames.run m).1 = .ok names) {payload : String}
    {line : Line} (inside : line ∈ (m.payloads.get? payload).getD [])
    (kind : line.kind = .callback) : ∃ name ∈ names, line.callbackName = .ok name := by
  rw [run_callbackNames] at scanned
  match read : (namesOf m.callbackLines).run m with
  | (.error fault, n) =>
    rw [read] at scanned
    cases scanned
  | (.ok found, n) =>
    rw [read] at scanned
    cases scanned
    obtain ⟨name, member, named⟩ := callbackName_of_scan read (mem_callbackLines inside kind)
    exact ⟨name, mem_sortedNames.mpr member, named⟩

end Scanning

section Serving
variable {host : Type} {call : String → List (Option String) → HostM host Unit}

/-- Only the calls that were found are made: a callback line that is dispatched calls one of the
names. -/
theorem Unloaded.calls_known (scanned : (callbackNames.run m).1 = .ok names)
    (registered : ∀ name ∈ names, name ∈ m.callbacks)
    (maintains : Maintains call (fun _ => True) (Unloaded m)) {depth : Nat} {action : Action}
    {args : List Term} {s : Substitution} {line : Line} {t u : Machine × host}
    (unloaded : Unloaded m t.1) (dispatched : Dispatches call depth (.perform action args) t s line u)
    (kind : line.kind = .callback) :
    ∃ name ∈ names, line.callbackName = .ok name ∧ ∀ nested,
      (dispatch call nested s line).run u = (call name (s.valuesOf line.phrase.args)).run u := by
  have fixed (n : Machine) (unloaded : Unloaded m n) : n.payloads = m.payloads := unloaded.payloads
  obtain ⟨payload, stored⟩ :=
    (maintains.stored fixed unloaded dispatched).resolve_left List.not_mem_nil
  obtain ⟨name, member, named⟩ := callbackNames_complete scanned stored kind
  have there := (maintains.always unloaded).dispatched _ _ _ dispatched
  exact ⟨name, member, named, fun nested =>
    run_dispatch_callback s kind named (there.callbacks (registered name member)) u.2⟩

/-- If every name that the stored payloads call is registered, and only operations that load nothing
come after, then no performing fails on a callback that is not there or on a line that cannot be
read, unless a callback does; and every callback line that is dispatched, however deep the actions
perform each other, calls one of the names. -/
theorem Reachable.registered_suffices (reachable : m.Reachable)
    (scanned : (callbackNames.run m).1 = .ok names)
    (registered : ∀ name ∈ names, name ∈ m.callbacks) (follows : Follows m n)
    (calls : ∀ name values k h, Follows k ((call name values).run (k, h)).2.1)
    (sound : ∀ name ∈ names, ∀ values k h fault, Follows m k →
      ((call name values).run (k, h)).1 = .error fault → ¬fault.OfCallbacks)
    (depth : Nat) (phrase : Phrase) (h : host) :
    (∀ fault, ((performTo depth call phrase).run (n, h)).1 = .error fault → ¬fault.OfCallbacks) ∧
    ∀ action s line u, n.actions.get? phrase.key = some action →
      Dispatches call depth (.perform action phrase.args) (n, h) s line u →
      line.kind = .callback → ∃ name ∈ names, line.callbackName = .ok name ∧
        ∀ nested, (dispatch call nested s line).run u =
          (call name (s.valuesOf line.phrase.args)).run u := by
  have unloaded : Unloaded m n := follows.unloaded (.refl reachable.arises)
  have maintains : Maintains call (fun _ => True) (Unloaded m) :=
    Unloaded.maintains fun name values k h => (calls name values k h).unloaded
  refine ⟨fun fault failed => ?_, fun action s line u _ dispatched kind =>
    Unloaded.calls_known scanned registered maintains unloaded dispatched kind⟩
  have excuses : Excuses (Unloaded m) fun fault => ¬fault.OfCallbacks := by
    refine ⟨nofun, nofun, nofun, fun action args k fault unloaded failed => ?_⟩
    obtain ⟨found, l, run⟩ :=
      choosePayload_ends unloaded.arises.wellFormed.acyclic.layered action args
    rw [run] at failed
    cases failed
  cases declared : n.actions.get? phrase.key with
  | none =>
    rw [run_performTo_undeclared declared] at failed
    cases failed
    nofun
  | some action =>
    rw [run_performTo declared] at failed
    refine performWithin_fails maintains excuses action phrase.args (t := (n, h)) unloaded ?_ failed
    intro s line u nested fault dispatched other failed
    have there := (maintains.always (t := (n, h)) unloaded).dispatched _ _ _ dispatched
    match kind : line.kind with
    | .action => contradiction
    | .callback =>
      obtain ⟨name, member, _, run⟩ :=
        Unloaded.calls_known scanned registered maintains unloaded dispatched kind
      rw [run] at failed
      exact sound name member _ u.1 u.2 fault (follows.trans (.within calls dispatched)) failed
    | .claim =>
      rcases dispatch_claim_fails there.arises.wellFormed kind failed with
        ⟨_, _, rfl⟩ | ⟨_, _, _, rfl⟩
      · nofun
      · nofun
    | .condition | .exclusion | .comment | .plain =>
      unfold dispatch at failed
      rw [kind] at failed
      cases failed

/-- An action with a callback line that performs another one with a callback line. -/
def tourText : String :=
  "* tour (x)\n    > greet: (x)\n    * show (x)\n* show (y)\n    + shown (y)\n    > tell: (y)"

def tour : Machine :=
  ((addCallback "tell").run ((addCallback "greet").run ((load tourText).run {}).2).2).2

def guide (name : String) (_ : List (Option String)) : HostM Unit Unit :=
  HostM.machine (claim ⟨"called %s", [.lit name]⟩)

theorem registered_suffices_tour :
    let n := ((claim ⟨"late", []⟩).run tour).2
    let performed := (performTo 2 guide ⟨"tour %s", [.lit "a"]⟩).run (n, ())
    performed.2.1.history =
      [.claimed "late" [], .performed "tour %s" "payload-0", .claimed "called %s" ["greet"],
        .performed "show %s" "payload-1", .claimed "shown %s" ["a"],
        .claimed "called %s" ["tell"]] ∧
    (∀ fault, performed.1 = .error fault → ¬fault.OfCallbacks) ∧
    ∀ action s line u, n.actions.get? "tour %s" = some action →
      Dispatches guide 2 (.perform action [.lit "a"]) (n, ()) s line u → line.kind = .callback →
      ∃ name ∈ ["greet", "tell"], line.callbackName = .ok name ∧
        ∀ nested, (dispatch guide nested s line).run u =
          (guide name (s.valuesOf line.phrase.args)).run u := by
  have reachable : tour.Reachable := by
    have loaded : ((load tourText).run {}).2.Reachable := ⟨false, false, 0, .load tourText {}⟩
    exact (loaded.leads (.addCallback "greet" _)).leads (.addCallback "tell" _)
  have scanned : (callbackNames.run tour).1 = .ok ["greet", "tell"] := by
    have found : ((namesOf tour.callbackLines).run tour).1 = .ok ["greet", "tell"] := by
      decide +kernel
    have sorted : sortedNames ["greet", "tell"] = ["greet", "tell"] := by
      rw [sortedNames, show ["greet", "tell"].eraseDups = ["greet", "tell"] by decide]
      exact List.mergeSort_of_pairwise (by decide)
    rw [run_callbackNames, run_of_ok found]
    exact congrArg Except.ok sorted
  have registered : ∀ name ∈ ["greet", "tell"], name ∈ tour.callbacks := by decide +kernel
  have calls (name : String) (values : List (Option String)) (k : Machine) (h : Unit) :
      Follows k ((guide name values).run (k, h)).2.1 := .claim _ k
  refine ⟨by decide +kernel, ?_⟩
  refine reachable.registered_suffices scanned registered (.claim ⟨"late", []⟩ tour) calls ?_ 2
    ⟨"tour %s", [.lit "a"]⟩ ()
  intro name _ values k h fault follows failed
  have formed := (follows.unloaded (.refl reachable.arises)).arises.wellFormed
  cases claim_fails formed failed with
  | arity => nofun
  | undeclared => nofun

end Serving
end Machine
end Rulebook
