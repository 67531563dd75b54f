import Rulebook.Proofs.Renaming.Loading
import Rulebook.Proofs.Renaming.Performing
import Rulebook.Session

/-! Nothing that a session shows depends on where the counter of ids starts. Two sessions with the
same commands answer, call and record the same in each step, up to one renaming of what the machines
have minted. -/
namespace Rulebook
variable {π : Renaming}

/-- An operation on the machine whose texts have variables with plain names only, the registering of
a callback that only notes its calls, or a look at the machine. -/
def Command.Plain : Command → Prop
  | load text => PlainText text
  | loadFile contents => PlainText (Text.fileContents contents)
  | loadAt text _ => PlainText text
  | claim phrase | isTrue phrase | values phrase | solutions phrase _ | ask _ phrase
  | perform phrase => ∀ term ∈ phrase.args, term.Plain
  | next _ _ | noting _ | snapshot => True
  | _ => False

/-- The same answer; of a machine that is shown, the other shows the one renamed. -/
def Answer.Matches (π : Renaming) : Answer → Answer → Prop
  | snapshot m, snapshot n => m.Alike π n
  | answer, other => answer = other

inductive Answer.Replies (π : Renaming) : Except Fault Answer → Except Fault Answer → Prop where
  | ok {answer other : Answer} : answer.Matches π other → Replies π (.ok answer) (.ok other)
  | error (fault : Fault) : Replies π (.error fault) (.error (fault.rename π))

theorem Corresponds.replies {State : Type} {St : State → State → Prop}
    {x y : Except Fault Answer × State} (same : Corresponds π (Answer.Matches π) St x y) :
    Answer.Replies π x.1 y.1 ∧ St x.2 y.2 := by
  cases same with
  | ok answers state => exact ⟨.ok answers, state⟩
  | error state => exact ⟨.error _, state⟩

structure Desk.Twins (π : Renaming) (d e : Desk) : Prop where
  unscripted : d.scripts.entries = [] ∧ e.scripts.entries = []
  cursors : e.cursors = d.cursors.mapped (.refl String) (Cursor.rename π)
  finite : ∀ name cursor, d.cursors.get? name = some cursor → cursor.search.isFinite
  calls : e.calls = d.calls

namespace Desk.Twins
variable {d e : Desk} (twins : Desk.Twins π d e)
include twins

theorem cursor (name : String) :
    e.cursors.get? name = (d.cursors.get? name).map (Cursor.rename π) := by
  rw [twins.cursors]
  exact d.cursors.get?_mapped (.refl String) (Cursor.rename π) name

theorem put (name : String) {cursor : Cursor} (finite : cursor.search.isFinite) :
    Desk.Twins π { d with cursors := d.cursors.put name cursor }
      { e with cursors := e.cursors.put name (cursor.rename π) } := by
  refine ⟨twins.unscripted, ?_, fun other found here => ?_, twins.calls⟩
  · rw [twins.cursors, Table.mapped_put]
    rfl
  · rw [Table.get?_put] at here
    split at here
    · exact Option.some.inj here ▸ finite
    · exact twins.finite other found here

theorem called (call : Call) :
    Desk.Twins π { d with calls := d.calls ++ [call] } { e with calls := e.calls ++ [call] } :=
  ⟨twins.unscripted, twins.cursors, twins.finite, by rw [twins.calls]⟩

theorem erased (name : String) :
    Desk.Twins π { d with scripts := d.scripts.erase name }
      { e with scripts := e.scripts.erase name } := by
  refine ⟨⟨?_, ?_⟩, twins.cursors, twins.finite, twins.calls⟩
  · change d.scripts.entries.filter _ = []
    rw [twins.unscripted.1, List.filter_nil]
  · change e.scripts.entries.filter _ = []
    rw [twins.unscripted.2, List.filter_nil]

/-- A new command begins. -/
theorem cleared : Desk.Twins π { d with calls := [] } { e with calls := [] } :=
  ⟨twins.unscripted, twins.cursors, twins.finite, rfl⟩

end Desk.Twins

namespace Session
open Machine
variable {past : Int}

/-- Without a script, a callback only notes its call. -/
theorem run_callWith {d : Desk} (unscripted : d.scripts.entries = [])
    (execute : Command → SessionM Answer) (name : String) (values : List (Option String))
    (m : Machine) : (callWith execute name values).run (m, d) =
      (.ok ⟨⟩, (m, { d with calls := d.calls ++ [{ name, values, did := none }] })) := by
  have none : d.scripts.get? name = none := by
    rw [Table.get?, unscripted]
    rfl
  unfold callWith
  rw [run_bind, run_get]
  dsimp only
  rw [none]
  rfl

theorem callsAlike (execute : Command → SessionM Answer) :
    CallsAlike π (Desk.Twins π) (callWith execute) := by
  rintro name values past ⟨m, d⟩ ⟨n, e⟩ ⟨twins, desks⟩
  rw [run_callWith desks.unscripted.1, run_callWith desks.unscripted.2]
  exact .ok rfl ⟨twins, desks.called _⟩

theorem corresponds_registerNoting (name : String) {s t : Machine × Desk}
    (beside : Beside π past (Desk.Twins π) s t) :
    Corresponds π Eq (Beside π past (Desk.Twins π)) ((registerNoting name).run s)
      ((registerNoting name).run t) := by
  refine (corresponds_machine (corresponds_addCallback beside.1 name) beside.2).bind
    fun _ _ s t _ beside => ?_
  exact .ok rfl ⟨beside.1, beside.2.erased name⟩

theorem corresponds_next (name : String) (limit : Int) {s t : Machine × Desk}
    (beside : Beside π past (Desk.Twins π) s t) (depth : Nat) :
    Corresponds π (Answer.Matches π) (Beside π past (Desk.Twins π))
      ((execute (depth + 1) (.next name limit)).run s)
      ((execute (depth + 1) (.next name limit)).run t) := by
  unfold execute
  rw [run_bind, run_get, run_bind, run_get]
  dsimp only
  rw [beside.2.cursor]
  cases found : s.2.cursors.get? name with
  | none => exact .refused rfl beside
  | some cursor =>
    have finite := beside.2.finite name cursor found
    refine (Corresponds.lift (Search.wantedOf_unnamed limit) beside).bind
      fun wanted other s t same beside => ?_
    subst same
    refine (corresponds_machine (corresponds_pull beside.1 (some wanted) finite) beside.2).bind ?_
    rintro ⟨found, cursor⟩ ⟨others, other⟩ ⟨m, d⟩ ⟨n, e⟩ ⟨same, renamed, finite⟩ ⟨twins, desks⟩
    dsimp only at same renamed
    subst same renamed
    exact .ok (congrArg Answer.solutions rfl) ⟨twins, desks.put name finite⟩

/-- A command is answered alike. -/
theorem corresponds_execute (depth : Nat) {command : Command} (plain : command.Plain)
    {s t : Machine × Desk} (beside : Beside π past (Desk.Twins π) s t) :
    Corresponds π (Answer.Matches π) (Beside π past (Desk.Twins π))
      ((execute depth command).run s) ((execute depth command).run t) := by
  obtain ⟨twins, desks⟩ := id beside
  cases depth with
  | zero => exact .refused rfl beside
  | succ depth =>
    cases command with
    | load text | loadFile contents =>
      exact (corresponds_machine (corresponds_load twins plain) desks).map fun _ _ _ => rfl
    | loadAt text paths =>
      exact (corresponds_machine (corresponds_loadAt twins plain paths) desks).map fun _ _ _ => rfl
    | claim fact =>
      exact (corresponds_machine (corresponds_claim twins plain) desks).map fun _ _ _ => rfl
    | isTrue question =>
      exact (corresponds_machine (corresponds_isTrue twins plain) desks).map
        fun _ _ same => congrArg Answer.truth same
    | values question =>
      exact (corresponds_machine (corresponds_values twins plain) desks).map
        fun _ _ same => congrArg Answer.values same
    | solutions question limit =>
      exact (corresponds_machine (corresponds_solutions twins plain limit) desks).map
        fun _ _ same => congrArg Answer.solutions same
    | ask name question =>
      refine (corresponds_machine (corresponds_ask twins plain) desks).bind ?_
      rintro cursor other ⟨m, d⟩ ⟨n, e⟩ ⟨same, finite⟩ ⟨twins, desks⟩
      subst same
      exact .ok rfl ⟨twins, desks.put name finite⟩
    | next name limit => exact corresponds_next name limit beside depth
    | perform action =>
      exact (corresponds_performTo (callsAlike _) (depth + 1) plain beside).map
        fun _ _ same => congrArg Answer.truth same
    | noting callback => exact (corresponds_registerNoting callback beside).map fun _ _ _ => rfl
    | snapshot => exact .ok twins.alike beside
    | _ => exact plain.elim

/-- Two steps are answered alike and make the same calls, and record the same up to the
renaming. -/
structure Step.Matches (π : Renaming) (step other : Step) : Prop where
  answer : Answer.Replies π step.answer other.answer
  calls : other.calls = step.calls
  entries : List.Forall₂ (Entry.Matches π) step.entries other.entries

theorem runWithin_matches (depth : Nat) {commands : List Command}
    (plain : ∀ command ∈ commands, command.Plain) {s t : Machine × Desk}
    (beside : Beside π past (Desk.Twins π) s t) :
    List.Forall₂ (Step.Matches π) (runWithin depth commands s).1 (runWithin depth commands t).1 ∧
      Machine.Alike π (runWithin depth commands s).2 (runWithin depth commands t).2 := by
  induction commands generalizing s t with
  | nil => exact ⟨.nil, beside.1.alike⟩
  | cons command commands ih =>
    obtain ⟨m, d⟩ := s
    obtain ⟨n, e⟩ := t
    obtain ⟨twins, desks⟩ := beside
    obtain ⟨here, later⟩ := List.forall_mem_cons.mp plain
    have begun : Beside π past (Desk.Twins π) (m, { d with calls := [] })
        (n, { e with calls := [] }) := ⟨twins, desks.cleared⟩
    obtain ⟨answers, after⟩ := (corresponds_execute depth here begun).replies
    obtain ⟨steps, last⟩ := ih later after
    have entries := List.forall₂_drop m.history.length after.1.history
    have length : n.history.length = m.history.length := twins.history.length_eq.symm
    rw [runWithin, runWithin]
    dsimp only
    rw [length]
    exact ⟨.cons ⟨answers, after.2.calls, entries⟩ steps, last⟩

/-- New machines differ in their counters only. -/
theorem twins_new (verbose strict : Bool) (a b : Int) :
    Machine.Twins (Renaming.shift (b - a)) a { verbose, strict, nextId := a }
      { verbose, strict, nextId := b } := by
  let m : Machine := { verbose, strict, nextId := a }
  have bare (r : RelationId) : m.database.relation r = {} := rfl
  refine ⟨?_, ⟨fun r => ?_, fun r => ?_, nofun, nofun, nofun⟩, Int.le_refl a⟩
  · have counter : a + (b - a) = b := by omega
    have alike : m.Alike (Renaming.shift (b - a)) (m.rename (Renaming.shift (b - a)) [] []) :=
      .intro .nil
    have same : m.rename (Renaming.shift (b - a)) [] [] =
        { verbose, strict, nextId := a + (b - a) } := rfl
    rwa [same, counter] at alike
  · rw [bare]
    nofun
  · rw [bare]
    nofun

/-- Two sessions with the same commands on new machines, with any two starts of the counter, answer
and fail alike and make the same calls in each step. What they record, and what their machines hold
wherever a command looks and in the end, is the same up to one renaming of what was minted. -/
theorem run_independent_of_counter (verbose strict : Bool) (a b : Int) {commands : List Command}
    (plain : ∀ command ∈ commands, command.Plain) :
    let first := run { verbose, strict, nextId := a } commands
    let second := run { verbose, strict, nextId := b } commands
    List.Forall₂ (Step.Matches (Renaming.shift (b - a))) first.1 second.1 ∧
      Machine.Alike (Renaming.shift (b - a)) first.2 second.2 := by
  have desks : Desk.Twins (Renaming.shift (b - a)) {} {} := ⟨⟨rfl, rfl⟩, rfl, nofun, rfl⟩
  exact runWithin_matches _ plain ⟨twins_new verbose strict a b, desks⟩

/-- A rule, and an action whose payload notes a guest and claims something of an open token. -/
def visitText : String :=
  "+man \"a\"\n::man (x)\n +mortal (x)\n * visit (x)\n  > note: (x)\n  + met (x) (y)"

def visitCommands : List Command :=
  [.load visitText, .noting "note", .perform ⟨"visit %s", [.lit "a"]⟩, .snapshot,
    .solutions ⟨"mortal %s", [.var "w"]⟩ none, .perform ⟨"visit %s", [.var "w"]⟩]

/-- What is recorded does depend on the start, until it is renamed. -/
theorem run_independent_of_counter_visits :
    (∀ command ∈ visitCommands, command.Plain) ∧
      let first := run { verbose := false, strict := false, nextId := 0 } visitCommands
      let second := run { verbose := false, strict := false, nextId := 7 } visitCommands
      first.2.history ≠ second.2.history ∧
        List.Forall₂ (Step.Matches (Renaming.shift (7 - 0))) first.1 second.1 ∧
        Machine.Alike (Renaming.shift (7 - 0)) first.2 second.2 := by
  have text : PlainText visitText := by decide +kernel
  have literal : ∀ term ∈ [Term.lit "a"], term.Plain := by decide
  have token : ∀ term ∈ [Term.var "w"], term.Plain := by decide
  have plain : ∀ command ∈ visitCommands, command.Plain := by
    simp only [visitCommands, List.forall_mem_cons]
    exact ⟨text, trivial, literal, trivial, token, token, nofun⟩
  have differ : (run { verbose := false, strict := false, nextId := 0 } visitCommands).2.history ≠
      (run { verbose := false, strict := false, nextId := 7 } visitCommands).2.history := by
    decide +kernel
  exact ⟨plain, differ, run_independent_of_counter false false 0 7 plain⟩

end Session
end Rulebook
