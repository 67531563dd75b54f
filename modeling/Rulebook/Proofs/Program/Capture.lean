import Rulebook.Proofs.Program.Faults
import Rulebook.Proofs.Program.Integrity
import Rulebook.Proofs.Search.Meeting

/-! Names of an action's query. The rules of an action are searched as they stand, so a variable of
the query and a variable of a rule that are called alike are one variable. A query can be given
other names without any difference to what is performed, as long as none of them, old or new, is
taken for a variable that the rule has elsewhere. -/
namespace Rulebook

/-- The substitution counts only for what the line is written with. -/
theorem Machine.resolveFresh_congr {s t : Substitution} {terms : List Term}
    (same : ∀ term ∈ terms, s.walk term = t.walk term) (given : Table Term) :
    resolveFresh s terms given = resolveFresh t terms given := by
  induction terms generalizing given with
  | nil => rfl
  | cons term terms ih =>
    obtain ⟨first, others⟩ := List.forall_mem_cons.mp same
    have later := ih others
    simp only [resolveFresh, first, later]

/-- Callbacks, claims and actions are run; other lines say nothing. -/
def Line.isRun (line : Line) : Bool :=
  line.kind = .callback || line.kind = .claim || line.kind = .action

theorem forM_congr {State : Type} {items : List α} {first other : α → ExceptT Fault (StateM State) PUnit}
    (same : ∀ a ∈ items, first a = other a) : items.forM first = items.forM other := by
  induction items with
  | nil => rfl
  | cons a items ih =>
    obtain ⟨here, later⟩ := List.forall_mem_cons.mp same
    change (first a >>= fun _ => items.forM first) = other a >>= fun _ => items.forM other
    rw [here, ih later]

theorem Relation.rename_still (relation : Relation) : relation.rename .still = relation := by
  have terms : Term.rename .still = id := funext fun term => by cases term <;> rfl
  simp [rename, terms]

theorem Database.rename_still (db : Database) : db.rename .still = db := by
  have relations : Relation.rename .still = id := funext Relation.rename_still
  simp [rename, relations]

namespace Machine
variable {m : Machine} {host : Type} {call : String → List (Option String) → HostM host Unit}

theorem dispatch_congr {nested : Action → List Term → HostM host Bool} {s t : Substitution}
    {line : Line} (same : line.isRun → ∀ term ∈ line.phrase.args, s.walk term = t.walk term) :
    dispatch call nested s line = dispatch call nested t line := by
  by_cases run : line.isRun
  · have walks := same run
    have values : s.valuesOf line.phrase.args = t.valuesOf line.phrase.args := by
      rw [Substitution.valuesOf, Substitution.valuesOf, Substitution.reify, Substitution.reify,
        List.map_congr_left walks]
    unfold dispatch
    rw [values, resolveFresh_congr walks]
  · unfold dispatch
    cases kind : line.kind <;> simp_all [Line.isRun]

/-- All terms that a rule of an action and what its payload runs are written with. -/
def block (m : Machine) (entry : Rule × String) : List Term :=
  entry.1.terms ++
    (((m.payloads.get? entry.2).getD []).filter Line.isRun).flatMap (·.phrase.args)

/-- The names in the block of a rule, and all that are minted. -/
def Native (m : Machine) (entry : Rule × String) (name : String) : Prop :=
  .var name ∈ m.block entry ∨ '?' ∈ name.toList ∨ '/' ∈ name.toList

/-- The name makes no difference in a query for the rule: it is not in the rule's block; or the rule
has that variable too where the query has it first. -/
def Harmless (m : Machine) (args : List Term) (entry : Rule × String) (name : String) : Prop :=
  .var name ∈ m.block entry → Meets name (args.zip entry.1.params)

theorem native_of_mem {entry : Rule × String} {term : Term} (inside : term ∈ m.block entry) :
    term.Named (m.Native entry) := by
  cases term with
  | lit value => trivial
  | var name => exact .inl inside

theorem native_params {entry : Rule × String} {term : Term} (inside : term ∈ entry.1.params) :
    term.Named (m.Native entry) :=
  native_of_mem (List.mem_append_left _ (List.mem_append_left _ inside))

theorem native_line {entry : Rule × String} {line : Line}
    (among : line ∈ (m.payloads.get? entry.2).getD []) (run : line.isRun) {term : Term}
    (inside : term ∈ line.phrase.args) : term.Named (m.Native entry) :=
  native_of_mem (List.mem_append_right _ (List.mem_flatMap.mpr
    ⟨line, List.mem_filter.mpr ⟨among, run⟩, inside⟩))

theorem native_condition {entry : Rule × String} {condition : RelationId × List Term}
    (stored : condition ∈ entry.1.conditions) {term : Term} (inside : term ∈ condition.2) :
    term.Named (m.Native entry) :=
  native_of_mem (List.mem_append_left _ (List.mem_append_right _
    (List.mem_flatMap.mpr ⟨condition, stored, inside⟩)))

/-- Literal facts have names of any kind, and rules in use have minted ones. -/
theorem WellFormed.speaks (formed : m.WellFormed) (literal : m.database.Literal)
    (entry : Rule × String) : Search.Speaks (m.Native entry) m.database where
  stored r fact stored term inside := .of_literal (literal r fact stored term inside) _
  used r rule stored := by
    refine ⟨_, formed.salted r rule stored, fun id term _ => term.named_salted fun name => ?_⟩
    exact .inr (.inr (by simp [Naming.salt]))

def Kinds (m : Machine) (action : Action) (out : Term) (kind : Search.Kind) : Prop :=
  ∃ entry ∈ action.entries, kind = ⟨m.Native entry, fun σ => out.under σ = entry.2⟩

section Choosing
variable {action : Action} {args : List Term} {f : String → String}

def UnmarkedNames (f : String → String) (args : List Term) : Prop :=
  ∀ name, .var name ∈ args →
    ('?' ∉ name.toList ∧ '/' ∉ name.toList) ∧ '?' ∉ (f name).toList ∧ '/' ∉ (f name).toList

/-- Each name of the query that is changed makes no difference for the rule, and neither does the
new one. -/
def ChangedHarmlessly (m : Machine) (f : String → String) (args : List Term)
    (entry : Rule × String) : Prop :=
  ∀ name, .var name ∈ args → f name ≠ name →
    m.Harmless args entry name ∧ m.Harmless (args.map (.withNames f)) entry (f name)

theorem Harmless.spared {entry : Rule × String} {name : String}
    (harmless : m.Harmless args entry name) (unmarked : '?' ∉ name.toList ∧ '/' ∉ name.toList) :
    Substitution.Spared (m.Native entry) name (args.zip entry.1.params) := by
  rintro (inside | minted | salted)
  · exact harmless inside
  · exact absurd minted unmarked.1
  · exact absurd salted unmarked.2

/-- Two queries for a rule go on alike. -/
theorem opens_renamed {entry : Rule × String} (apart : ApartOn f args) (unmarked : UnmarkedNames f args)
    (harmless : m.ChangedHarmlessly f args entry) {out : String} (minted : '?' ∈ out.toList) :
    (Pairing.names (m.Native entry)).Opens .empty .empty (alternative args (.var out) entry)
      (alternative (args.map (.withNames f)) (.var out) entry) := by
  have unsalted (terms : List Term) : terms.map (·.salted "") = terms := by
    simp only [Term.salted_empty, List.map_id']
  have opened : Option.Rel (Substitution.Agrees (m.Native entry))
      (Substitution.empty.unifyAll args entry.1.params)
      (Substitution.empty.unifyAll (args.map (.withNames f)) entry.1.params) := by
    apply Substitution.unifyAll_renamed apart fun _ => native_params
    intro name inside changed
    obtain ⟨old, new⟩ := unmarked name inside
    obtain ⟨one, other⟩ := harmless name inside changed
    exact ⟨one.spared old, other.spared new⟩
  refine .cons (.cons (.unifyAll ?_) (Pairing.sameGoal_conditions ?_))
    (.cons (.unify (.var ?_) (.lit entry.2)) .nil)
  · rw [unsalted]
    exact Substitution.unifier_reflects opened
  · intro condition stored term inside
    rw [Term.salted_empty]
    exact Pairing.same_names.mpr ⟨rfl, native_condition stored inside⟩
  · exact ⟨rfl, .inr (.inl minted)⟩

/-- The alternatives go on alike. -/
theorem branches_renamed {entry : Rule × String} (member : entry ∈ action.entries)
    (apart : ApartOn f args) (unmarked : UnmarkedNames f args)
    (harmless : m.ChangedHarmlessly f args entry) {out : String} (minted : '?' ∈ out.toList) :
    Search.Branches m.database (m.Kinds action (.var out))
      (.pending (alternative args (.var out) entry) .empty)
      (.pending (alternative (args.map (.withNames f)) (.var out) entry) .empty) := by
  have opens := opens_renamed apart unmarked harmless minted
  refine ⟨_, ⟨entry, member, rfl⟩, .pending opens, ?_, fun σ means => ?_⟩
  · exact .pending opens.isFinite.1 Substitution.settled_empty
  · cases means with
    | pending _ here => exact (holds_alternative.mp here).2

/-- The alternatives of an action for two queries that go on alike. -/
theorem abreast_renamed (apart : ApartOn f args) (unmarked : UnmarkedNames f args)
    (harmless : ∀ entry ∈ action.entries, m.ChangedHarmlessly f args entry) {out : String}
    (minted : '?' ∈ out.toList) :
    Search.Abreast m.database (m.Kinds action (.var out))
      (.pending (.any (action.entries.map (alternative args (.var out)))) .empty)
      (.pending (.any (action.entries.map (alternative (args.map (.withNames f)) (.var out))))
        .empty) := by
  have opened (args : List Term) :
      (action.entries.map (alternative args (.var out))).all Goal.isSearchable := by
    rw [List.all_map]
    exact List.all_eq_true.mpr fun _ _ => rfl
  refine .choosing (opened _) (opened _) ?_
  rw [List.forall₂_map_left_iff, List.forall₂_map_right_iff, List.forall₂_same]
  exact fun entry member => branches_renamed member apart unmarked (harmless entry member) minted

/-- Searches in step, asked by one machine. -/
theorem corresponds_firstAnswer_still {S : Search → Search → Prop}
    {A : Substitution → Substitution → Prop}
    (inStep : m.database.isLayered → Search.InStep .still m.database 1 S A) {goal other : Goal}
    (related : S (.pending goal .empty) (.pending other .empty)) :
    Corresponds .still (Option.Rel A) Eq ((firstAnswer goal).run m) ((firstAnswer other).run m) := by
  have matched := Search.harvest_matches (p := ⟨[m.nextId], []⟩) inStep related (some 1) rfl
  rw [Progress.rename_still, m.database.rename_still] at matched
  have harvested : Corresponds .still (Harvest.Matches .still S A) Eq
      ((harvest (some 1) (.pending goal .empty)).run m)
      ((harvest (some 1) (.pending other .empty)).run m) := by
    rw [run_harvest, run_harvest]
    generalize (Search.pending goal .empty).harvest m.database (some 1) ⟨[m.nextId], []⟩ = found,
      (Search.pending other .empty).harvest m.database (some 1) ⟨[m.nextId], []⟩ = there at matched
    have stop := matched.stop
    have spent : there.progress = found.progress := by rw [matched.progress, Progress.rename_still]
    rw [spent]
    cases here : found.stop <;> rw [here] at stop <;> rw [stop]
    · exact .ok matched rfl
    · exact .ok matched rfl
    · exact .error rfl
    · exact .refused rfl rfl
  refine harvested.bind fun found other s t matched same => .ok ?_ same
  have given := matched.answers
  generalize found.answers = answers, other.answers = others at given
  cases given with
  | nil => exact .none
  | cons first _ => exact .some first

/-- The two queries choose the same payload, with substitutions that agree on what its rule is
written with. -/
def ChoosesAlike (m : Machine) (action : Action) (one other : String × Substitution) : Prop :=
  other.1 = one.1 ∧ ∃ entry ∈ action.entries, entry.2 = one.1 ∧ one.2.Agrees (m.Native entry) other.2

theorem corresponds_choosePayload_renamed (formed : m.WellFormed) (literal : m.database.Literal)
    (unsalted : ∀ entry ∈ action.entries, entry.1.source = none) (apart : ApartOn f args)
    (unmarked : UnmarkedNames f args)
    (harmless : ∀ entry ∈ action.entries, m.ChangedHarmlessly f args entry) :
    Corresponds .still (Option.Rel (m.ChoosesAlike action)) Eq ((choosePayload action args).run m)
      ((choosePayload action (args.map (.withNames f))).run m) := by
  obtain ⟨name, out, minted, slashless⟩ :=
    Naming.exists_fresh (show '/' ∉ "outcome".toList by decide) m.nextId
  have speaks (kind : Search.Kind) (among : m.Kinds action (.var name) kind) :
      Search.Speaks kind.names m.database := by
    obtain ⟨entry, _, rfl⟩ := among
    exact formed.speaks literal entry
  have first := corresponds_firstAnswer_still (m := { m with nextId := m.nextId + 1 })
    (fun _ => Search.inStep_abreast speaks m.database.rename_still 1)
    (abreast_renamed apart unmarked harmless minted)
  rw [run_choosePayload_alternatives unsalted out, run_choosePayload_alternatives unsalted out]
  generalize (firstAnswer (.any (action.entries.map (alternative args (.var name))))).run
      { m with nextId := m.nextId + 1 } = here,
    (firstAnswer (.any (action.entries.map (alternative (args.map (.withNames f)) (.var name))))).run
      { m with nextId := m.nextId + 1 } = there at first
  cases first with
  | error same =>
    subst same
    exact .error rfl
  | ok answer same =>
    subst same
    cases answer with
    | none => exact .ok .none rfl
    | @some s t chosen =>
      obtain ⟨_, ⟨entry, member, rfl⟩, agrees, forced⟩ := chosen
      have reached : s.walk (.var name) = .lit entry.2 := Substitution.walk_of_forced agrees.left forced
      have same := agrees.walk (.var name) (.inr (.inl minted))
      dsimp only
      rw [← same, reached]
      exact .ok (.some ⟨rfl, entry, member, rfl, agrees⟩) rfl

end Choosing

/-- Substitutions that agree on what the payload is written with run it the same. -/
theorem payloadRun_congr {entry : Rule × String} {s t : Substitution}
    (agrees : s.Agrees (m.Native entry) t) (depth : Nat) :
    payloadRun call depth entry.2 s m = payloadRun call depth entry.2 t m := by
  unfold payloadRun
  rw [forM_congr fun line among => dispatch_congr fun run term inside =>
    agrees.walk term (native_line among run inside)]

theorem performWithin_renamed {action : Action} {args : List Term} {f : String → String}
    (formed : m.WellFormed) (literal : m.database.Literal)
    (unsalted : ∀ entry ∈ action.entries, entry.1.source = none) (apart : ApartOn f args)
    (unmarked : UnmarkedNames f args)
    (harmless : ∀ entry ∈ action.entries, m.ChangedHarmlessly f args entry) (depth : Nat)
    (h : host) :
    (performWithin call (depth + 1) action (args.map (.withNames f))).run (m, h) =
      (performWithin call (depth + 1) action args).run (m, h) := by
  rw [run_performWithin, run_performWithin]
  have chosen := corresponds_choosePayload_renamed formed literal unsalted apart unmarked harmless
  have kept (args : List Term) : ((choosePayload action args).run m).2.payloads = m.payloads := by
    obtain ⟨_, _, _, _, same⟩ := choosePayload_changes action args m
    rw [same]
  have kept := kept args
  generalize (choosePayload action args).run m = here,
    (choosePayload action (args.map (.withNames f))).run m = there at chosen kept
  cases chosen with
  | error same =>
    subst same
    rw [Fault.rename_still]
  | @ok _ _ n _ answer same =>
    subst same
    cases answer with
    | none => rfl
    | @some one other alike =>
      obtain ⟨payload, s⟩ := one
      obtain ⟨payload', t⟩ := other
      obtain ⟨rfl, entry, member, rfl, agrees⟩ := alike
      dsimp only at kept agrees ⊢
      have native : m.Native entry = n.Native entry := by
        funext name
        rw [Native, Native, block, block, kept]
      rw [native] at agrees
      rw [payloadRun_congr agrees]

/-- An action's query is performed the same with other names for its variables, different ones for
different ones, whatever callbacks do: the same is answered, and machine and host are left the same.
Of each name that is changed and of the new one, it takes that a rule of the action has it in its
block only if it has it too where the query has it first. -/
theorem perform_renamed (arises : m.Arises) (literal : m.database.Literal) {phrase : Phrase}
    {f : String → String} (apart : ApartOn f phrase.args) (unmarked : UnmarkedNames f phrase.args)
    (harmless : ∀ entry ∈ (m.actionOf phrase.key).entries, m.ChangedHarmlessly f phrase.args entry)
    (h : host) :
    (∀ depth, (performTo depth call (phrase.withNames f)).run (m, h) =
      (performTo depth call phrase).run (m, h)) ∧
    (perform call (phrase.withNames f)).run (m, h) = (perform call phrase).run (m, h) := by
  have named : (phrase.withNames f).key = phrase.key := rfl
  have same (depth : Nat) : (performTo depth call (phrase.withNames f)).run (m, h) =
      (performTo depth call phrase).run (m, h) := by
    cases declared : m.actions.get? phrase.key with
    | none =>
      rw [run_performTo_undeclared (named ▸ declared), run_performTo_undeclared declared, named]
    | some action =>
      rw [actionOf, declared, Option.getD_some] at harmless
      rw [run_performTo (named ▸ declared), run_performTo declared]
      cases depth with
      | zero => rfl
      | succ depth =>
        have unsalted (entry : Rule × String) (member : entry ∈ action.entries) :=
          ((arises.action_entries declared).2 entry.1 (List.mem_map_of_mem member)).2
        exact performWithin_renamed arises.wellFormed literal unsalted apart unmarked harmless depth h
  refine ⟨same, ?_⟩
  rw [run_perform, run_perform, same]

/-- An action that passes on the two texts of a fact. -/
def passText : String :=
  "+ p \"1\" \"2\"\n:: p (x) (y)\n    * A (x) (y)\n        > say: (x) (y)"

def passing : Machine := ((addCallback "say").run ((load passText).run {}).2).2

def recording (_ : String) (values : List (Option String)) :
    HostM (List (List (Option String))) Unit :=
  modify fun (m, given) => (m, given ++ [values])

theorem passing_reachable : passing.Reachable :=
  ⟨false, false, 0, .trans (.load passText {}) (.addCallback "say" _)⟩

/-- The query may have the names of the rule where the rule has them. -/
theorem perform_renamed_passing :
    (perform recording ⟨"A %s %s", [.var "x", .var "v"]⟩).run (passing, []) =
        (perform recording ⟨"A %s %s", [.var "u", .var "y"]⟩).run (passing, []) ∧
      ((perform recording ⟨"A %s %s", [.var "u", .var "y"]⟩).run (passing, [])).2.2 =
        [[some "1", some "2"]] := by
  let f (name : String) : String := if name = "u" then "x" else "v"
  let query : Phrase := ⟨"A %s %s", [.var "u", .var "y"]⟩
  have among {name : String} (inside : .var name ∈ query.args) : name = "u" ∨ name = "y" := by
    simpa [query] using inside
  have apart : ApartOn f query.args := by
    intro name other first second same
    rcases among first with rfl | rfl <;> rcases among second with rfl | rfl <;>
      first | rfl | exact absurd same (by decide)
  have unmarked : UnmarkedNames f query.args := by
    intro name inside
    rcases among inside with rfl | rfl <;> decide
  have spared : ∀ entry ∈ (passing.actionOf query.key).entries, ∀ name ∈ ["u", "y"],
      passing.Harmless query.args entry name ∧
        passing.Harmless (query.args.map (.withNames f)) entry (f name) := by
    unfold Harmless
    decide +kernel
  have harmless (entry : Rule × String) (member : entry ∈ (passing.actionOf query.key).entries) :
      passing.ChangedHarmlessly f query.args entry := by
    intro name inside _
    exact spared entry member name (by simpa using among inside)
  exact ⟨(perform_renamed passing_reachable.arises (by decide +kernel) apart unmarked harmless []).2,
    by decide +kernel⟩

/-- If it has them elsewhere, it asks something else. -/
theorem captured_query :
    passing.Reachable ∧ passing.database.Literal ∧
      ApartOn (fun name => if name = "u" then "y" else "x") [.var "u", .var "v"] ∧
      (Phrase.ofText "A (u) (v)").args = [.var "u", .var "v"] ∧
      Phrase.ofText "A (y) (x)" =
        (Phrase.ofText "A (u) (v)").withNames (fun name => if name = "u" then "y" else "x") ∧
      ((perform recording (.ofText "A (u) (v)")).run (passing, [])).1 = .ok true ∧
      ((perform recording (.ofText "A (y) (x)")).run (passing, [])).1 = .ok false := by
  refine ⟨passing_reachable, by decide +kernel, ?_, by decide +kernel⟩
  intro name other first second same
  have among {name : String} (inside : .var name ∈ [Term.var "u", .var "v"]) :
      name = "u" ∨ name = "v" := by simpa using inside
  rcases among first with rfl | rfl <;> rcases among second with rfl | rfl <;>
    first | rfl | exact absurd same (by decide)

end Machine
end Rulebook
