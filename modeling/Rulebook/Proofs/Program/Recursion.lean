import Rulebook.Proofs.Cycle
import Rulebook.Proofs.Exclusion.Group
import Rulebook.Proofs.Program.Contents

/-! Recursive texts. Rules are checked one by one as they are loaded, and a text is refused exactly
if its rules, taken all together and in any order, make some key depend on itself. -/
namespace Rulebook

def Asks (rules : List Position) (key other : String) : Prop :=
  ∃ place ∈ rules, place.line.phrase.key = key ∧
    ∃ condition ∈ place.above, condition.kind = .condition ∧ condition.phrase.key = other

theorem Asks.mono {rules more : List Position} (fewer : rules ⊆ more) {key other : String}
    (asks : Asks rules key other) : Asks more key other := by
  obtain ⟨place, inside, condition⟩ := asks
  exact ⟨place, fewer inside, condition⟩

/-- Lines with the same key have the same number of arguments. -/
def Uniform (places : List Position) : Prop :=
  ∀ one ∈ places, ∀ other ∈ places, one.line.phrase.key = other.line.phrase.key →
    one.line.phrase.args.length = other.line.phrase.args.length

theorem Uniform.mono {places more : List Position} (fewer : places ⊆ more)
    (uniform : Uniform more) : Uniform places :=
  fun one inside other there => uniform one (fewer inside) other (fewer there)

namespace Machine
variable {m n : Machine}

/-- What a rule asks is the relation of a condition above it. -/
theorem Compiled.asks {above : List Line} {params : List Term} {source : Option SourceId}
    {rule : Rule} (compiled : m.Compiled above params source rule) (formed : m.WellFormed)
    {c : RelationId} (asked : c ∈ rule.relations) :
    ∃ line ∈ above, line.kind = .condition ∧ line.phrase.key = m.database.nameOf c := by
  obtain ⟨condition, member, rfl⟩ := List.mem_map.mp asked
  obtain ⟨line, inside, kind, found, _⟩ := compiled.exists_line member
  exact ⟨line, inside, kind, (formed.placed _ _ found).2.symm⟩

namespace Carries
variable {rules : List Position}

/-- Where a relation depends on another, a rule of the text for its key asks for the key of the
other. -/
theorem asks (carries : m.Carries rules) {r c : RelationId} (edge : m.database.Depends r c) :
    Asks rules (m.database.nameOf r) (m.database.nameOf c) := by
  obtain ⟨rule, stored, asked⟩ := List.mem_flatMap.mp edge
  have found := carries.formed.keyed r (Database.declared_of_depends edge)
  rw [← under_of_found found] at stored
  obtain ⟨place, inside, named, compiled⟩ := carries.sound _ rule stored
  exact ⟨place, inside, named, compiled.asks carries.formed asked⟩

theorem depends (carries : m.Carries rules) {key other : String} (asks : Asks rules key other) :
    ∃ r c, m.relations.get? key = some r ∧ m.relations.get? other = some c ∧
      m.database.Depends r c := by
  obtain ⟨place, inside, rfl, line, above, kind, rfl⟩ := asks
  obtain ⟨rule, stored, compiled⟩ := carries.complete place inside
  obtain ⟨condition, member, there, _⟩ := compiled.exists_condition above kind
  cases found : m.relations.get? place.line.phrase.key with
  | none =>
    rw [under_of_absent found] at stored
    cases stored
  | some r =>
    rw [under_of_found found] at stored
    exact ⟨r, condition.1, rfl, there, Derivable.depends stored member⟩

/-- The rules that a machine carries make no key depend on itself. -/
theorem acyclic (carries : m.Carries rules) (key : String) :
    ¬Relation.TransGen (Asks rules) key key := by
  have reaches {key other : String} (path : Relation.TransGen (Asks rules) key other) :
      ∃ r c, m.relations.get? key = some r ∧ m.relations.get? other = some c ∧
        Relation.TransGen m.database.Depends r c := by
    induction path with
    | single asks =>
      obtain ⟨r, c, first, second, edge⟩ := carries.depends asks
      exact ⟨r, c, first, second, .single edge⟩
    | tail _ asks ih =>
      obtain ⟨r, c, first, second, path⟩ := ih
      obtain ⟨s, t, third, fourth, edge⟩ := carries.depends asks
      cases second.symm.trans third
      exact ⟨r, t, first, fourth, path.tail edge⟩
  intro path
  obtain ⟨r, c, first, second, path⟩ := reaches path
  cases first.symm.trans second
  exact carries.formed.acyclic.not_reaches r path

end Carries

/-- What a machine holds after some lines of a text: their rules, and relations that take as many
arguments as lines under their keys have. -/
structure Charts (m : Machine) (places : List Position) : Prop
    extends m.Carries (rulesAmong places) where
  sized : ∀ key count, (m.under key).arity = some count →
    ∃ place ∈ places, place.line.phrase.key = key ∧ place.line.phrase.args.length = count

/-- Loading has charted these lines, or a cycle among their rules has stopped it. -/
def Reads (places : List Position) : Except Fault Unit × Machine → Prop
  | (.ok _, n) => n.Charts places
  | (.error fault, _) =>
    ∃ path, fault = .recursiveRule path ∧ IsCycle (Asks (rulesAmong places)) path

namespace Charts
variable {places : List Position}

theorem of_new (verbose strict : Bool) (id : Int) :
    ({ verbose, strict, nextId := id } : Machine).Charts [] where
  toCarries := (States.of_new verbose strict id).toCarries
  sized key count fixed := by
    rw [under_of_absent rfl] at fixed
    cases fixed

/-- Lines that are no rules may be charted or not. -/
theorem widen (charts : m.Charts places) {more : List Position} (none : rulesAmong more = []) :
    m.Charts (places ++ more) where
  toCarries := by
    rw [rulesAmong_append, none, List.append_nil]
    exact charts.toCarries
  sized key count fixed := by
    obtain ⟨place, inside, named⟩ := charts.sized key count fixed
    exact ⟨place, List.mem_append_left _ inside, named⟩

/-- What is under each key stays the same. -/
theorem of_under (charts : m.Charts places) (formed : n.WellFormed)
    (kept : ∀ key r, m.relations.get? key = some r → n.relations.get? key = some r)
    (same : ∀ key, (n.under key).rules = (m.under key).rules ∧
      (n.under key).arity = (m.under key).arity) : n.Charts places where
  toCarries := charts.toCarries.of_under formed kept fun key => (same key).1
  sized key count fixed := by
    rw [(same key).2] at fixed
    exact charts.sized key count fixed

theorem declares (charts : m.Charts places) (declares : Declares m n) : n.Charts places :=
  charts.of_under (charts.formed.evolves declares.evolves) (fun _ _ found => declares.kept found)
    fun key => (declares.under charts.formed key).2

/-- Nothing but relations and exclusions matters. -/
theorem congr (charts : m.Charts places) (formed : n.WellFormed)
    (database : n.database = m.database) (relations : n.relations = m.relations) :
    n.Charts places := by
  refine charts.of_under formed (fun key r found => relations ▸ found) fun key => ?_
  rw [under, under, database, relations]
  exact ⟨rfl, rfl⟩

/-- A further line under a key has as many arguments as the relation of the key takes. -/
theorem fits (charts : m.Charts places) {place : Position} (uniform : Uniform (places ++ [place]))
    {r : RelationId} (found : m.relations.get? place.line.phrase.key = some r) {fixed : Nat}
    (takes : (m.database.relation r).arity = some fixed) :
    place.line.phrase.args.length = fixed := by
  rw [← under_of_found found] at takes
  obtain ⟨old, inside, named, rfl⟩ := charts.sized _ _ takes
  exact uniform place (by simp) old (by simp [inside]) named.symm

/-- What a new line fixes is what the line has. -/
theorem sized_append (charts : m.Charts places) {place : Position}
    (other : ∀ key ≠ place.line.phrase.key, n.under key = m.under key)
    (here : (n.under place.line.phrase.key).arity = some place.line.phrase.args.length)
    (key : String) (count : Nat) (fixed : (n.under key).arity = some count) :
    ∃ line ∈ places ++ [place], line.line.phrase.key = key ∧
      line.line.phrase.args.length = count := by
  by_cases same : key = place.line.phrase.key
  · subst same
    cases here.symm.trans fixed
    exact ⟨place, by simp, rfl, rfl⟩
  · rw [other key same] at fixed
    obtain ⟨line, inside, named⟩ := charts.sized key count fixed
    exact ⟨line, by simp [inside], named⟩

/-- Exclusions take facts away and leave rules and numbers of arguments as they are. -/
theorem prunes (charts : m.Charts places) (formed : n.WellFormed) {key : String} {r : RelationId}
    (found : m.relations.get? key = some r) {facts : List (List Term)}
    (prunes : Prunes r facts m n) : n.Charts places := by
  have under := under_set charts.formed found prunes.relations prunes.database
  refine charts.of_under formed (fun key s there => prunes.relations ▸ there) fun other => ?_
  rw [under]
  split
  · rename_i same
    rw [same, under_of_found found]
    exact ⟨rfl, rfl⟩
  · exact ⟨rfl, rfl⟩

/-- Asserting a fact succeeds. -/
theorem assert (charts : m.Charts places) {place : Position} (none : rulesAmong [place] = [])
    (uniform : Uniform (places ++ [place])) :
    ∃ n, (Machine.assert place.line.phrase.key place.line.phrase.args true).run m =
      (.ok ⟨⟩, n) ∧ n.Charts (places ++ [place]) := by
  obtain ⟨r, middle, first, declares, found⟩ := Declares.relationFor place.line.phrase.key m
  have ready := charts.declares declares
  obtain ⟨after, facts, second, formed, _, prunes⟩ := excludes_prune ready.formed found
    place.line.phrase.args ((middle.exclusions.get? place.line.phrase.key).getD [])
  have ready := ready.prunes formed found prunes
  have found : after.relations.get? place.line.phrase.key = some r := by
    rwa [prunes.relations]
  obtain ⟨db, added⟩ := Database.addFact_fits fun fixed => ready.fits uniform found
  have run : (Machine.assert place.line.phrase.key place.line.phrase.args true).run m =
      (.ok ⟨⟩, after.asserted place.line.phrase.key place.line.phrase.args db) := by
    rw [run_assert, first]
    dsimp only
    rw [second]
    dsimp only
    rw [added]
  have formed := ready.formed.evolves (works_asserted found added).evolves
  have under := under_of_addFact
    (n := after.asserted place.line.phrase.key place.line.phrase.args db) ready.formed found added
    rfl rfl
  refine ⟨_, run, ?_, ready.sized_append (fun key other => ?_) ?_⟩
  · rw [rulesAmong_append, none, List.append_nil]
    exact ready.toCarries.addFact found added formed rfl rfl
  · rw [under, if_neg other]
  · rw [under, if_pos rfl]

/-- An action is loaded, and none of its lines is a rule. -/
theorem loadAction (charts : m.Charts places) (above : List Line) (line : Line)
    (payload : List Line) {more : List Position} (none : rulesAmong more = []) :
    ∃ n, (Machine.loadAction above line payload).run m = (.ok ⟨⟩, n) ∧
      n.Charts (places ++ more) := by
  obtain ⟨action, rule, middle, ready, last, first, declares, _, later, loaded, _⟩ :=
    run_loadAction above line payload m
  have opened : middle.Charts places := by
    rw [run_actionFor] at first
    split at first
    · cases first
      exact charts
    · cases first
      exact charts.congr (charts.formed.congr rfl rfl rfl) rfl rfl
  have declared := opened.declares declares
  refine ⟨last, loaded, (Charts.declares ?_ later).widen none⟩
  exact declared.congr (declared.formed.congr rfl rfl rfl) rfl rfl

theorem loadExclusion (charts : m.Charts places) (above : List Line) (line : Line)
    {more : List Position} (none : rulesAmong more = []) :
    ∃ n, (Machine.loadExclusion above line).run m = (.ok ⟨⟩, n) ∧ n.Charts (places ++ more) := by
  have formed := charts.formed.evolves (works_loadExclusion above line m).evolves
  obtain ⟨exclusion, middle, declares, _, _, _, loaded⟩ := run_loadExclusion above line m
  rw [loaded] at formed ⊢
  exact ⟨_, rfl, ((charts.declares declares).congr formed rfl rfl).widen none⟩

/-- A rule is loaded unless it closes a cycle among the rules so far and itself. -/
theorem loadRule (charts : m.Charts places) {above : List Line} {line : Line}
    (rule : rulesAmong [⟨above, line⟩] = [⟨above, line⟩])
    (uniform : Uniform (places ++ [⟨above, line⟩])) :
    Reads (places ++ [⟨above, line⟩]) ((Machine.loadRule above line).run m) := by
  have formed := charts.formed.evolves (works_loadRule above line m).evolves
  obtain ⟨r, compiled_rule, middle, declares, found, compiled, loaded⟩ := run_loadRule above line m
  have ready := charts.declares declares
  have rules : rulesAmong (places ++ [⟨above, line⟩]) = rulesAmong places ++ [⟨above, line⟩] := by
    rw [rulesAmong_append, rule]
  cases added : middle.database.addRule r compiled_rule with
  | error fault =>
    rw [added] at loaded
    obtain ⟨path, found_path, rfl⟩ := Database.addRule_refused
      (fun fixed takes => compiled.params ▸ ready.fits uniform found takes) added
    have cycle : IsCycle (fun r c => Asks (rulesAmong (places ++ [⟨above, line⟩]))
        (middle.database.nameOf r) (middle.database.nameOf c)) path := by
      apply Database.isCycle_of_findCycle found_path
      · intro s c edge
        exact (ready.asks edge).mono (by simp [rules])
      · intro c asked
        have named := (ready.formed.placed _ _ found).2
        exact ⟨⟨above, line⟩, by simp [rules], named.symm, compiled.asks ready.formed asked⟩
    rw [loaded]
    exact ⟨_, rfl, cycle.map middle.database.nameOf fun _ _ asks => asks⟩
  | ok db =>
    rw [added] at loaded
    dsimp only at loaded
    rw [loaded] at formed ⊢
    generalize same : logged { middle with database := db } _ = last at formed ⊢
    have relations : last.relations = middle.relations := by rw [← same]; rfl
    have database : last.database = db := by rw [← same]; rfl
    have under := under_of_addRule ready.formed found added relations database
    refine ⟨?_, ready.sized_append (fun key other => ?_) ?_⟩
    · rw [rules]
      exact ready.toCarries.addRule found compiled added formed relations database
    · rw [under, if_neg other]
    · rw [under, if_pos rfl, compiled.params]

end Charts

/-- Loading goes on where nothing has stopped it. -/
theorem reads_bind {first : MachineM Unit} {next : Unit → MachineM Unit}
    {places more : List Position} (start : Reads places (first.run m))
    (rest : ∀ n, n.Charts places → Reads (places ++ more) ((next ⟨⟩).run n)) :
    Reads (places ++ more) ((first >>= next).run m) := by
  rw [run_bind]
  split
  · rename_i _ n same
    rw [same] at start
    exact rest n start
  · rename_i fault n same
    rw [same] at start
    obtain ⟨path, stopped, cycle⟩ := start
    refine ⟨path, stopped, cycle.imp fun key other asks => asks.mono ?_⟩
    rw [rulesAmong_append]
    exact List.subset_append_left _ _

mutual

/-- Loading a block charts its lines, unless their rules and those from before make a cycle. -/
theorem loadBlock_reads {above : List Line} (clear : ∀ line ∈ above, line.kind ≠ .action) :
    (block : Block) → ∀ {m : Machine} {places : List Position}, m.Charts places →
      Uniform (places ++ block.places above) →
      Reads (places ++ block.places above) ((loadBlock above block).run m)
  | ⟨line, children⟩, m, places, charts, uniform => by
    rw [Block.places, List.append_cons] at uniform ⊢
    have here : Uniform (places ++ [⟨above, line⟩]) := uniform.mono (List.subset_append_left _ _)
    have below (passive : line.kind ≠ .action) (n : Machine)
        (charts : n.Charts (places ++ [⟨above, line⟩])) :
        Reads (places ++ [⟨above, line⟩] ++ Block.placesOf (line :: above) children)
          ((loadBlocks (line :: above) children).run n) :=
      loadBlocks_reads (List.forall_mem_cons.mpr ⟨passive, clear⟩) children charts uniform
    rw [loadBlock]
    dsimp only
    split
    · rename_i action
      have other : (⟨above, line⟩ : Position).line.kind ≠ .claim := by simp [action]
      have none : rulesAmong (⟨above, line⟩ :: Block.placesOf (line :: above) children) = [] := by
        rw [rulesAmong_cons, (none_of_other _ other).2,
          (Block.none_under_action above action children).2, List.append_nil]
      obtain ⟨n, run, charts⟩ := charts.loadAction above line (children.map (·.line)) none
      rw [run, ← List.append_cons]
      exact charts
    · rename_i claim
      have passive : line.kind ≠ .action := by simp [claim]
      split
      · rename_i top
        obtain ⟨n, run, charts⟩ := charts.assert (among_top ⟨above, line⟩ claim top).2 here
        apply reads_bind _ (below passive)
        rw [run]
        exact charts
      · rename_i nested
        exact reads_bind (charts.loadRule (among_nested ⟨above, line⟩ claim nested clear).2 here)
          (below passive)
    · rename_i exclusion
      have passive : line.kind ≠ .action := by simp [exclusion]
      have other : (⟨above, line⟩ : Position).line.kind ≠ .claim := by simp [exclusion]
      obtain ⟨n, run, charts⟩ := charts.loadExclusion above line (none_of_other _ other).2
      apply reads_bind _ (below passive)
      rw [run]
      exact charts
    · rename_i action claim exclusion
      exact below action m (charts.widen (none_of_other ⟨above, line⟩ claim).2)

theorem loadBlocks_reads {above : List Line} (clear : ∀ line ∈ above, line.kind ≠ .action) :
    (blocks : List Block) → ∀ {m : Machine} {places : List Position}, m.Charts places →
      Uniform (places ++ Block.placesOf above blocks) →
      Reads (places ++ Block.placesOf above blocks) ((loadBlocks above blocks).run m)
  | [], m, places, charts, _ => by
    rw [Block.placesOf, List.append_nil]
    exact charts
  | block :: blocks, m, places, charts, uniform => by
    rw [Block.placesOf, ← List.append_assoc] at uniform ⊢
    have first := loadBlock_reads clear block charts (uniform.mono (List.subset_append_left _ _))
    exact reads_bind first fun n charts => loadBlocks_reads clear blocks charts uniform

end

/-- A text whose lines agree on the number of arguments under each key is refused by a new machine
exactly if its rules make some key depend on itself, in whatever order they stand. The refusal names
such a cycle of keys. Refused or not, no relation of the machine depends on itself afterwards. -/
theorem load_refused_iff_cyclic {text : String} (uniform : Uniform (placesOfText text))
    (verbose strict : Bool) (id : Int) :
    ((∃ fault, ((load text).run { verbose, strict, nextId := id }).1 = .error fault) ↔
      ∃ key, Relation.TransGen (Asks (rulesAmong (placesOfText text))) key key) ∧
    (∀ fault, ((load text).run { verbose, strict, nextId := id }).1 = .error fault →
      ∃ path, fault = .recursiveRule path ∧
        IsCycle (Asks (rulesAmong (placesOfText text))) path) ∧
    ∀ r, ¬Relation.TransGen
      ((load text).run { verbose, strict, nextId := id }).2.database.Depends r r := by
  have reads : Reads (placesOfText text) ((load text).run { verbose, strict, nextId := id }) :=
    loadBlocks_reads (by simp) (outline text) (.of_new verbose strict id) uniform
  have formed := (wellFormed_new verbose strict id).evolves (works_load text _).evolves
  generalize (load text).run { verbose, strict, nextId := id } = run at reads formed ⊢
  obtain ⟨outcome, n⟩ := run
  refine ⟨?_, ?_, formed.acyclic.not_reaches⟩
  · constructor
    · rintro ⟨fault, rfl⟩
      obtain ⟨path, _, cycle⟩ := reads
      exact cycle.reaches
    · rintro ⟨key, path⟩
      cases outcome with
      | error fault => exact ⟨fault, rfl⟩
      | ok _ => exact absurd path (reads.toCarries.acyclic key)
  · rintro fault rfl
    exact reads

def ringText : String := "::b (x)\n +a (x)\n?a (x)\n::c (x)\n +b (x)\n::a (x)\n +c (x)"

/-- What a refusal of the ring tells of its rules. -/
theorem load_refused_ring : Uniform (placesOfText ringText) ∧
    ∃ key, Relation.TransGen (Asks (rulesAmong (placesOfText ringText))) key key := by
  have uniform : Uniform (placesOfText ringText) := by
    unfold Uniform
    decide +kernel
  have refused : ((load ringText).run {}).1 =
      .error (.recursiveRule ["c %s", "a %s", "b %s", "c %s"]) := by decide +kernel
  exact ⟨uniform, (load_refused_iff_cyclic uniform false false 0).1.mp ⟨_, refused⟩⟩

end Machine
end Rulebook
