import Rulebook.Proofs.Exclusion.Retraction
import Rulebook.Proofs.Program.Requests
import Rulebook.Proofs.Renaming.Machine

/-! The history as an account of the facts. Read from its beginning, the history of a machine whose
facts consist of literals tells what is stored under each key, in this order and as often; and what
it tells to be taken back was stored when it went. -/
namespace Rulebook

def Entry.replay (key : String) (facts : List (List String)) : Entry → List (List String)
  | .claimed other values => if other = key then facts ++ [values] else facts
  | .retracted other values => if other = key then facts.filter (· ≠ values) else facts
  | .performed _ _ => facts

/-- The facts of a key that a history tells. -/
def replay (key : String) (history : List Entry) : List (List String) :=
  history.foldl (Entry.replay key) []

theorem replay_concat (key : String) (history : List Entry) (entry : Entry) :
    replay key (history ++ [entry]) = entry.replay key (replay key history) := by
  simp [replay]

/-- What is performed tells nothing of the facts. -/
theorem replay_append_performed (key : String) (history : List Entry) {more : List Entry}
    (performed : ∀ entry ∈ more, ∃ action payload, entry = .performed action payload) :
    replay key (history ++ more) = replay key history := by
  induction more using List.reverseRecOn with
  | nil => rw [List.append_nil]
  | append_singleton more entry ih =>
    obtain ⟨earlier, last⟩ := List.forall_mem_append.mp performed
    obtain ⟨action, payload, rfl⟩ := last entry (List.mem_singleton_self entry)
    rw [← List.append_assoc, replay_concat, Entry.replay, ih earlier]

/-- An entry of a longer history is an old one or a new one. -/
theorem split_append {history more before after : List Entry} {entry : Entry}
    (split : history ++ more = before ++ entry :: after) :
    (∃ rest, history = before ++ entry :: rest) ∨
      ∃ others, before = history ++ others ∧ more = others ++ entry :: after := by
  rcases List.append_eq_append_iff.mp split with ⟨others, same, rest⟩ | ⟨rest, same, others⟩
  · exact .inr ⟨others, same, rest⟩
  · cases rest with
    | nil =>
      rw [List.append_nil] at same
      exact .inr ⟨[], by rw [same, List.append_nil], by simpa using others.symm⟩
    | cons other rest =>
      obtain ⟨rfl, _⟩ := List.cons.inj others
      exact .inl ⟨rest, same⟩

/-- Literals are made of their texts. -/
theorem map_lit_key {terms : List Term} (literal : ∀ term ∈ terms, term.isLiteral) :
    (terms.map Term.key).map .lit = terms := by
  rw [← map_under_key literal id, map_lit_under literal]

theorem map_lit_inj {values others : List String}
    (same : values.map Term.lit = others.map Term.lit) : values = others :=
  List.map_injective_iff.mpr (fun _ _ same => Term.lit.inj same) same

namespace Machine
variable {m n : Machine} {start : Machine}

def Replays (m : Machine) : Prop :=
  ∀ key, (m.under key).facts = (replay key m.history).map (·.map Term.lit)

/-- On the way from one machine to the other, a stored fact has been taken back when so much had
happened. -/
def TookBack (start m : Machine) (before : List Entry) (key : String) (values : List String) :
    Prop :=
  ∃ k r, Evolves start k ∧ k.Replays ∧ k.history = before ∧ k.relations.get? key = some r ∧
    values.map .lit ∈ (k.database.relation r).facts ∧
    Evolves (k.retracted r (values.map .lit)) m

/-- The machine has come from the first one, and its history tells how. -/
structure Recounts (start m : Machine) : Prop where
  begun : start.Arises
  evolves : Evolves start m
  replays : m.Replays
  tookBack : ∀ before key values after, m.history = before ++ .retracted key values :: after →
    TookBack start m before key values

theorem TookBack.evolves {before : List Entry} {key : String} {values : List String}
    (tookBack : TookBack start m before key values) (evolves : Evolves m n) :
    TookBack start n before key values := by
  obtain ⟨k, r, first, replays, history, declared, stored, then_⟩ := tookBack
  exact ⟨k, r, first, replays, history, declared, stored, then_.trans evolves⟩

theorem recounts_new (verbose strict : Bool) (id : Int) :
    Recounts { verbose, strict, nextId := id } { verbose, strict, nextId := id } where
  begun := ⟨verbose, strict, id, .refl⟩
  evolves := .refl
  replays _ := rfl
  tookBack before key values after split := by
    cases before <;> cases split

namespace Recounts
variable {key : String} {r : RelationId} {fact terms : List Term} {create : Bool}

theorem formed (recounts : Recounts start m) : m.WellFormed :=
  (recounts.begun.evolves recounts.evolves).wellFormed

/-- Texts are all that the history can tell. -/
theorem literal (recounts : Recounts start m) : m.database.Literal := by
  intro r fact stored term inside
  by_cases declared : r < m.database.relations.length
  · have found := recounts.formed.keyed r declared
    rw [← under_of_found found, recounts.replays] at stored
    obtain ⟨values, _, rfl⟩ := List.mem_map.mp stored
    obtain ⟨value, _, rfl⟩ := List.mem_map.mp inside
    rfl
  · rw [Database.relation_eq_empty (Nat.le_of_not_lt declared)] at stored
    cases stored

/-- Changes that leave the facts alone, and tell of nothing but what is performed. -/
theorem quiet (recounts : Recounts start m) (evolves : Evolves m n)
    (facts : ∀ key, (n.under key).facts = (m.under key).facts) {more : List Entry}
    (history : n.history = m.history ++ more)
    (performed : ∀ entry ∈ more, ∃ action payload, entry = .performed action payload) :
    Recounts start n where
  begun := recounts.begun
  evolves := recounts.evolves.trans evolves
  replays key := by rw [facts, history, replay_append_performed key _ performed, recounts.replays]
  tookBack before key values after split := by
    rw [history] at split
    rcases split_append split with ⟨rest, old⟩ | ⟨others, _, new⟩
    · exact (recounts.tookBack _ _ _ _ old).evolves evolves
    · obtain ⟨_, _, other⟩ := performed (.retracted key values) (by simp [new])
      cases other

/-- Changes that leave facts and history alone. -/
theorem still (recounts : Recounts start m) (evolves : Evolves m n)
    (facts : ∀ key, (n.under key).facts = (m.under key).facts) (history : n.history = m.history) :
    Recounts start n :=
  recounts.quiet evolves facts (history.trans (List.append_nil _).symm) nofun

/-- Nothing of the rest matters. -/
theorem congr (recounts : Recounts start m) (evolves : Evolves m n)
    (database : n.database = m.database) (relations : n.relations = m.relations)
    (history : n.history = m.history) : Recounts start n :=
  recounts.still evolves (fun key => by rw [under, under, database, relations]) history

/-- A fact that is taken back goes from the account as well. -/
theorem retract (recounts : Recounts start m) (declared : m.relations.get? key = some r)
    (stored : fact ∈ (m.database.relation r).facts) : Recounts start (m.retracted r fact) := by
  have name : (m.database.removeFact r fact).nameOf r = key := by
    rw [Database.nameOf_removeFact, (recounts.formed.placed key r declared).2]
  have history : (m.retracted r fact).history =
      m.history ++ [.retracted key (fact.map Term.key)] := by
    rw [← name]
    rfl
  have texts : (fact.map Term.key).map .lit = fact := map_lit_key (recounts.literal r fact stored)
  have evolves := (works_retracted declared fact).evolves
  constructor
  case begun => exact recounts.begun
  case evolves => exact recounts.evolves.trans evolves
  case replays =>
    intro other
    have after := under_set (n := m.retracted r fact) recounts.formed declared rfl rfl other
    rw [after, history, replay_concat, Entry.replay]
    split
    · rename_i same
      have before := recounts.replays key
      rw [under_of_found declared] at before
      rw [same, if_pos rfl, Relation.removeFact, before, List.filter_map]
      refine congrArg _ (List.filter_congr fun values _ => ?_)
      rw [Function.comp_apply, Bool.eq_iff_iff, bne_iff_ne, decide_eq_true_iff, not_iff_not]
      constructor
      · intro equal
        exact map_lit_inj (equal.trans texts.symm)
      · rintro rfl
        exact texts
    · rename_i other_key
      rw [if_neg (Ne.symm other_key), recounts.replays]
  case tookBack =>
    intro before other values after split
    rw [history] at split
    rcases split_append split with ⟨rest, old⟩ | ⟨others, same, new⟩
    · exact (recounts.tookBack _ _ _ _ old).evolves evolves
    · cases others with
      | cons _ others => simp at new
      | nil =>
        rw [List.append_nil] at same
        cases new
        rw [same]
        refine ⟨m, r, recounts.evolves, recounts.replays, rfl, declared, ?_, ?_⟩ <;> rw [texts]
        exact stored

/-- A fact of literals that is added comes last in the account as well. -/
theorem add (recounts : Recounts start m) (declared : m.relations.get? key = some r) {db : Database}
    (added : m.database.addFact r fact = .ok db) (literal : ∀ term ∈ fact, term.isLiteral) :
    Recounts start (m.asserted key fact db) := by
  have evolves := (works_asserted declared added).evolves
  constructor
  case begun => exact recounts.begun
  case evolves => exact recounts.evolves.trans evolves
  case replays =>
    intro other
    have after := under_of_addFact (n := m.asserted key fact db) recounts.formed declared added rfl
      rfl other
    have history : (m.asserted key fact db).history =
        m.history ++ [.claimed key (fact.map Term.key)] := rfl
    rw [after, history, replay_concat, Entry.replay]
    split
    · rename_i same
      rw [same, if_pos rfl, recounts.replays, List.map_append, List.map_singleton,
        map_lit_key literal]
    · rename_i other_key
      rw [if_neg (Ne.symm other_key), recounts.replays]
  case tookBack =>
    intro before other values after split
    rcases split_append split with ⟨rest, old⟩ | ⟨others, _, new⟩
    · exact (recounts.tookBack _ _ _ _ old).evolves evolves
    · cases others with
      | cons _ others => simp at new
      | nil => cases new

/-- Different stored facts are taken back one after the other. -/
theorem retracts (recounts : Recounts start m) (declared : m.relations.get? key = some r)
    {gone : List (List Term)} (different : gone.Nodup)
    (stored : ∀ fact ∈ gone, fact ∈ (m.database.relation r).facts) :
    Recounts start (gone.foldl (fun m fact => m.retracted r fact) m) := by
  induction gone generalizing m with
  | nil => exact recounts
  | cons fact gone ih =>
    obtain ⟨first, others⟩ := List.forall_mem_cons.mp stored
    obtain ⟨apart, different⟩ := List.nodup_cons.mp different
    refine ih (recounts.retract declared first) declared different fun other inside => ?_
    have left : ((m.retracted r fact).database.relation r).facts =
        (m.database.relation r).facts.filter (· != fact) := by
      change ((m.database.removeFact r fact).relation r).facts = _
      rw [Database.removeFact, Database.relation_set (recounts.formed.placed key r declared).1,
        if_pos rfl]
      rfl
    rw [left]
    refine List.mem_filter.mpr ⟨others other inside, bne_iff_ne.mpr ?_⟩
    rintro rfl
    exact apart inside

/-- An exclusion takes back what it has found among the stored facts. -/
theorem exclude (recounts : Recounts start m) (declared : m.relations.get? key = some r)
    (terms : List Term) (exclusion : Exclusion) :
    Recounts start ((Machine.exclude r terms exclusion).run m).2 := by
  obtain ⟨found, last, answers, run⟩ :=
    run_exclude recounts.formed.acyclic.layered r terms exclusion
  rw [run]
  have stored (fact : List Term) (inside : fact ∈ (found.map (·.reify
      (masked m.nextId terms exclusion.bound).1)).eraseDups) :
      fact ∈ (m.database.relation r).facts := by
    obtain ⟨s, given, rfl⟩ := List.mem_map.mp (List.mem_eraseDups.mp inside)
    exact (excluded_stored recounts.literal answers given).1
  obtain ⟨live, q, searched, ended⟩ := answers
  have before := (searched.before.trans (Search.before_of_step ended)).2 source
  have spent : m.nextId ≤ last.nextId source :=
    Int.le_trans (le_masked m.nextId terms exclusion.bound) before
  have ready : Recounts start { m with nextId := last.nextId source } :=
    recounts.congr (works_spend m spent).evolves rfl rfl rfl
  exact ready.retracts declared (nodup_eraseDups _) stored

theorem excludes (recounts : Recounts start m) (declared : m.relations.get? key = some r)
    (terms : List Term) (group : List Exclusion) :
    Recounts start ((group.forM (Machine.exclude r terms)).run m).2 := by
  have both : Recounts start ((group.forM (Machine.exclude r terms)).run m).2 ∧
      ((group.forM (Machine.exclude r terms)).run m).2.relations.get? key = some r := by
    refine forM_related (R := fun m n => Recounts start m ∧ m.relations.get? key = some r →
      Recounts start n ∧ n.relations.get? key = some r) (fun _ same => same)
      (fun first second same => second (first same)) (fun exclusion m both => ?_) group m
      ⟨recounts, declared⟩
    refine ⟨both.1.exclude both.2 terms exclusion, ?_⟩
    exact (works_exclude terms exclusion m both.2).evolves.kept both.2
  exact both.1

/-- A claim is told with what it takes back, also where it fails after that. -/
theorem assert (recounts : Recounts start m) (key : String) (terms : List Term) (create : Bool)
    (after : ((Machine.assert key terms create).run m).2.database.Literal) :
    Recounts start ((Machine.assert key terms create).run m).2 := by
  have first : Recounts start ((relationFor key create).run m).2 := by
    have evolves := (works_relationFor key create m).evolves
    rw [run_relationFor] at evolves ⊢
    cases absent : m.relations.get? key with
    | some r => exact recounts
    | none =>
      rw [absent] at evolves
      cases create with
      | false => exact recounts
      | true =>
        exact recounts.still evolves (fun other => (under_declared recounts.formed absent other).1)
          rfl
  rw [run_assert] at after ⊢
  match run : (relationFor key create).run m with
  | (.error fault, n) => rwa [run] at first
  | (.ok r, n) =>
    rw [run] at first after
    obtain ⟨_, declared⟩ := relationFor_ok run
    have second := first.excludes declared terms ((n.exclusions.get? key).getD [])
    have kept := works_forM (fun exclusion m found => works_exclude terms exclusion m found) declared
      ((n.exclusions.get? key).getD [])
    dsimp only at after ⊢
    match more : (((n.exclusions.get? key).getD []).forM (Machine.exclude r terms)).run n with
    | (.error fault, k) => rwa [more] at second
    | (.ok _, k) =>
      rw [more] at second after kept
      have still : k.relations.get? key = some r := kept.evolves.kept declared
      dsimp only at after ⊢
      split
      · exact second
      · rename_i db added
        rw [added] at after
        refine second.add still added fun term inside => ?_
        have inRange := (second.formed.placed key r still).1
        obtain ⟨facts, _, _⟩ := Database.relation_of_addFact inRange added
        exact after r terms (facts ▸ List.mem_append_right _ (List.mem_singleton_self terms)) term
          inside

theorem declares (recounts : Recounts start m) (declares : Declares m n) : Recounts start n := by
  refine recounts.still declares.evolves (fun key => (declares.under recounts.formed key).1) ?_
  rw [declares.same]

theorem loadAction (recounts : Recounts start m) (above : List Line) {line : Line}
    (kind : line.kind = .action) (payload : List Line) :
    Recounts start ((Machine.loadAction above line payload).run m).2 := by
  obtain ⟨action, rule, middle, n, last, first, declares, compiled, more, run, _⟩ :=
    run_loadAction above line payload m
  rw [run]
  obtain ⟨works, found⟩ := actionFor_ok first
  have opened : Recounts start middle := by
    rw [run_actionFor] at first
    split at first
    · cases first
      exact recounts
    · cases first
      exact recounts.congr works.evolves rfl rfl rfl
  have ready := opened.declares declares
  have still : n.actions.get? line.phrase.key = some action := by rwa [declares.same]
  have paid : Evolves n (n.paying line.phrase.key action rule payload) :=
    .single (.payload kind still compiled)
  have told := paid.trans (works_logged _
    ("[action] " ++ line.content ++ " -> " ++ Naming.payload n.nextId)).evolves
  exact (ready.congr told rfl rfl rfl).declares more

theorem loadRule (recounts : Recounts start m) (above : List Line) (line : Line) :
    Recounts start ((Machine.loadRule above line).run m).2 := by
  obtain ⟨r, rule, n, declares, found, compiled, run⟩ := run_loadRule above line m
  have ready := recounts.declares declares
  rw [run]
  split
  · exact ready
  · rename_i db added
    have ruled : Evolves n { n with database := db } :=
      .single (.rule found compiled.source compiled.knows added)
    have facts (key : String) :
        (({ n with database := db } : Machine).under key).facts = (n.under key).facts := by
      rw [under_of_addRule (n := { n with database := db }) ready.formed found added rfl rfl key]
      split
      · rename_i same
        rw [same]
      · rfl
    exact (ready.still ruled facts rfl).congr (works_logged _ _).evolves rfl rfl rfl

theorem loadExclusion (recounts : Recounts start m) (above : List Line) (line : Line) :
    Recounts start ((Machine.loadExclusion above line).run m).2 := by
  obtain ⟨exclusion, n, declares, admits, _, _, run⟩ := run_loadExclusion above line m
  rw [run]
  have excluded : Evolves n (n.excluding exclusion) := .single (.exclusion admits)
  exact (recounts.declares declares).congr (excluded.trans (works_logged _ _).evolves) rfl rfl rfl

/-- What a line of a text does is told. -/
theorem loadSite (recounts : Recounts start m) (site : Site)
    (after : ((Machine.loadSite site).run m).2.database.Literal) :
    Recounts start ((Machine.loadSite site).run m).2 := by
  unfold Machine.loadSite at after ⊢
  split
  · rename_i kind
    exact recounts.loadAction site.above kind site.payload
  · rename_i kind
    rw [kind] at after
    dsimp only at after
    split
    · rename_i top
      rw [if_pos top] at after
      exact recounts.assert _ _ true after
    · exact recounts.loadRule site.above site.line
  · exact recounts.loadExclusion site.above site.line
  · exact recounts

/-- What performing an action does is told, but for the facts that callbacks bring. -/
theorem choosePayload (recounts : Recounts start m) (action : Action) (args : List Term) :
    Recounts start ((Machine.choosePayload action args).run m).2 := by
  have evolves := (works_choosePayload action args m).evolves
  obtain ⟨id, printed, entries, performed, same⟩ := choosePayload_changes action args m
  rw [same] at evolves ⊢
  exact recounts.quiet evolves (fun _ => rfl) rfl performed

end Recounts

variable {host : Type} {call : String → List (Option String) → HostM host Unit}

/-- Everything that requests do is told, as long as the facts consist of literals. -/
theorem upholds_recounts (apart : Apart call) (start : Machine) :
    Upholds call Database.Literal (Recounts start) where
  spend le recounts := recounts.congr (works_spend _ le).evolves rfl rfl rfl
  choose action args _ recounts := recounts.choosePayload action args
  claim key terms _ recounts _ after := recounts.assert key terms _ after
  call name values m h recounts := by rwa [apart]
  enter free recounts := recounts.congr (.single (.enter free)) rfl rfl rfl
  leave recounts := recounts.congr (.single .leave) rfl rfl rfl
  load site _ recounts _ after := recounts.loadSite site after
  register name m recounts := by
    obtain ⟨_, _, run⟩ := run_addCallback name m
    rw [run]
    exact recounts.congr (.single .register) rfl rfl rfl

/-- Whatever is asked of a new machine, whose callbacks leave it alone: if the facts that are stored
on the way consist of literals, then at any time what is stored under each key is what the history
tells, in the same order and as often; and each fact that is taken back was stored when it was. -/
theorem history_recounts (apart : Apart call) (verbose strict : Bool) (id : Int) (h : host)
    (requests : List Request)
    (literal : ∀ m, Passed call requests ({ verbose, strict, nextId := id }, h) m →
      m.database.Literal)
    {m : Machine} (passed : Passed call requests ({ verbose, strict, nextId := id }, h) m) :
    m.Replays ∧ ∀ before key values after, m.history = before ++ .retracted key values :: after →
      TookBack { verbose, strict, nextId := id } m before key values := by
  have recounts := (upholds_recounts apart { verbose, strict, nextId := id }).passed
    (recounts_new verbose strict id) literal passed
  exact ⟨recounts.replays, recounts.tookBack⟩

/-- Whoever may sit takes one seat at a time, also by moving. -/
def movingText : String :=
  "+may \"a\"\n::may (x)\n ?at (x) (y)\n+at \"a\" \"1\"\n* move (p)\n    + at (p) \"2\""

def movingRequests : List Request := [.load movingText, .perform ⟨"move %s", [.lit "a"]⟩]

def settled : Machine := ((load movingText).run {}).2

abbrev silent : String → List (Option String) → HostM Unit Unit := asides fun _ _ => pure ⟨⟩

/-- Where each payload is one line that performs no action, it is dispatched before anything is
stored. -/
theorem dispatches_single {depth : Nat} {action : Action} {args : List Term} {h : host}
    {s : Substitution} {line : Line} {u : Machine × host}
    (single : ∀ lines ∈ m.payloads.values, lines.length ≤ 1 ∧ ∀ line ∈ lines, line.kind ≠ .action)
    (dispatched : Dispatches call depth (.perform action args) (m, h) s line u) :
    u.1.database = m.database := by
  cases dispatched with
  | @inside _ _ _ payload r _ _ n _ _ _ _ chosen inner =>
    obtain ⟨id, printed, entries, _, same⟩ := choosePayload_changes action args m
    rw [chosen] at same
    obtain rfl : n = { m with nextId := id, printed, history := m.history ++ entries } := same
    cases found : m.payloads.get? payload with
    | none =>
      rw [found] at inner
      cases inner
    | some lines =>
      obtain ⟨short, plain⟩ := single lines (Table.mem_values_of_get? found)
      rw [found] at inner
      change Dispatches call _ (.payload r lines) _ s line u at inner
      cases inner with
      | here => rfl
      | @later _ _ _ _ _ lines _ _ _ _ others =>
        have none_left : lines = [] := by simpa using short
        rw [none_left] at others
        cases others
      | nested kind => exact absurd kind (plain _ List.mem_cons_self)

theorem passes_single {phrase : Phrase} {h : host} {k : Machine}
    (single : ∀ lines ∈ m.payloads.values, lines.length ≤ 1 ∧ ∀ line ∈ lines, line.kind ≠ .action)
    (passes : (Request.perform phrase).Passes call (m, h) k) :
    k.database = m.database ∨ k = (((Request.perform phrase).run call).run (m, h)).2.1 := by
  cases passes with
  | performing _ dispatched => exact .inl (dispatches_single single dispatched)
  | after => exact .inr rfl

theorem history_recounts_moved :
    let moved := (runAll silent movingRequests ({}, ())).2.1
    moved.history = [.claimed "may %s" ["a"], .claimed "at %s %s" ["a", "1"],
      .performed "move %s" "payload-1", .retracted "at %s %s" ["a", "1"],
      .claimed "at %s %s" ["a", "2"]] ∧
    moved.Replays ∧ ∀ before key values after,
      moved.history = before ++ .retracted key values :: after →
      TookBack {} moved before key values := by
  have literal : settled.database.Literal := by decide +kernel
  have loaded : (((Request.load movingText).run silent).run ({}, ())).2 = (settled, ()) := by
    rw [Request.run, after_reply, run_machine]
    rfl
  have always (m : Machine) (passed : Passed silent movingRequests ({}, ()) m) :
      m.database.Literal := by
    unfold movingRequests at passed
    cases passed with
    | start => exact (by decide : ({} : Machine).database.Literal)
    | here passes =>
      cases passes with
      | @loading _ before after _ split =>
        have every : ∀ sites ∈ (sitesOfText movingText).inits,
            ((sites.forM loadSite).run {}).2.database.Literal := by decide +kernel
        exact every before ((List.mem_inits _ _).mpr ⟨after, split.symm⟩)
      | after =>
        rw [loaded]
        exact literal
    | later passed =>
      rw [loaded] at passed
      have ended : (((Request.perform ⟨"move %s", [.lit "a"]⟩).run silent).run
          (settled, ())).2.1.database.Literal := by decide +kernel
      cases passed with
      | start => exact literal
      | here passes =>
        have single : ∀ lines ∈ settled.payloads.values,
            lines.length ≤ 1 ∧ ∀ line ∈ lines, line.kind ≠ .action := by decide +kernel
        rcases passes_single single passes with same | same
        · rw [same]
          exact literal
        · rw [same]
          exact ended
      | later passed =>
        cases passed
        exact ended
  refine ⟨by decide +kernel, ?_⟩
  have apart : Apart silent := apart_asides
  exact history_recounts apart false false 0 () movingRequests always
    (passed_ended movingRequests ({}, ()))

end Machine
end Rulebook
