import Rulebook.Proofs.Outline.Indentation
import Rulebook.Proofs.Program.Sites
import Rulebook.Proofs.Renaming.Claim

/-! Loading into machines whose counters are at a distance. Rules and exclusions come to the same,
as long as their variables have plain names; an action's payload is kept under its renamed id. -/
namespace Rulebook
variable {π : Renaming}

namespace Block

inductive Every (ok : Line → Prop) : Block → Prop where
  | mk {line : Line} {children : List Block} : ok line → (∀ child ∈ children, Every ok child) →
      Every ok ⟨line, children⟩

section
variable {ok : Line → Prop}

theorem every_ofLines {lines : List Line} (all : ∀ line ∈ lines, ok line) :
    ∀ block ∈ ofLines lines, block.Every ok := by
  induction lines with
  | nil => nofun
  | cons line lines ih =>
    obtain ⟨here, later⟩ := List.forall_mem_cons.mp all
    have forest := ih later
    refine List.forall_mem_cons.mpr ⟨.mk here fun child inside => ?_, fun block inside => ?_⟩
    · exact forest child ((List.takeWhile_prefix _).mem inside)
    · exact forest block ((List.dropWhile_suffix _).mem inside)

end

end Block

structure Site.Every (ok : Line → Prop) (site : Site) : Prop where
  line : ok site.line
  above : ∀ line ∈ site.above, ok line
  payload : ∀ line ∈ site.payload, ok line

namespace Block
variable {ok : Line → Prop}

theorem Every.line {block : Block} (every : block.Every ok) : ok block.line := by
  cases every with
  | mk here _ => exact here

theorem Every.children {block : Block} (every : block.Every ok) :
    ∀ child ∈ block.children, child.Every ok := by
  cases every with
  | mk _ below => exact below

mutual

theorem every_sites {above : List Line} (up : ∀ line ∈ above, ok line) :
    (block : Block) → block.Every ok → ∀ site ∈ block.sites above, site.Every ok
  | ⟨line, children⟩, every, site, inside => by
    have here : ok line := every.line
    rw [sites] at inside
    split at inside
    · rw [List.mem_singleton.mp inside]
      refine ⟨here, up, fun other among => ?_⟩
      obtain ⟨child, member, rfl⟩ := List.mem_map.mp among
      exact (every.children child member).line
    · rcases List.mem_cons.mp inside with rfl | below
      · exact ⟨here, up, nofun⟩
      · exact every_sitesOf (List.forall_mem_cons.mpr ⟨here, up⟩) children every.children site below

theorem every_sitesOf {above : List Line} (up : ∀ line ∈ above, ok line) :
    (blocks : List Block) → (∀ block ∈ blocks, block.Every ok) →
      ∀ site ∈ sitesOf above blocks, site.Every ok
  | [], _, site, inside => by cases inside
  | block :: blocks, every, site, inside => by
    obtain ⟨first, others⟩ := List.forall_mem_cons.mp every
    rw [sitesOf] at inside
    rcases List.mem_append.mp inside with here | later
    · exact every_sites up block first site here
    · exact every_sitesOf up blocks others site later

end

theorem every_at? {path : List Int} {above lines : List Line} {blocks : List Block} {block : Block}
    (up : ∀ line ∈ above, ok line) (every : ∀ block ∈ blocks, block.Every ok)
    (found : at? above blocks path = some (lines, block)) :
    (∀ line ∈ lines, ok line) ∧ block.Every ok := by
  induction path generalizing above blocks with
  | nil => cases found
  | cons n path ih =>
    cases here : nth? blocks n with
    | none => simp [at?, here] at found
    | some next =>
      have next_every := every next (nth?_mem here)
      cases path with
      | nil =>
        simp only [at?, here, Option.some.injEq, Prod.mk.injEq] at found
        obtain ⟨rfl, rfl⟩ := found
        exact ⟨up, next_every⟩
      | cons n path =>
        rw [at?.eq_def] at found
        simp only [here] at found
        exact ih (List.forall_mem_cons.mpr ⟨next_every.line, up⟩) next_every.children found

end Block

/-- Every variable in a line of the text that is neither a comment nor plain text has a plain
name. -/
def PlainText (text : String) : Prop := ∀ line ∈ linesOfText text, line.Plain

instance (text : String) : Decidable (PlainText text) :=
  inferInstanceAs (Decidable (∀ line ∈ linesOfText text, line.Plain))

theorem found_blocksAt {text : String} (plain : PlainText text) (paths : List (List Int)) :
    match paths.mapM (blockAt text) with
    | .ok blocks => ∀ block ∈ blocks, (∀ line ∈ block.1, line.Plain) ∧ block.2.Every Line.Plain
    | .error fault => fault.rename π = fault := by
  induction paths with
  | nil => nofun
  | cons path paths ih =>
    rw [List.mapM_cons]
    cases first : blockAt text path with
    | error fault =>
      unfold blockAt at first
      split at first
      · cases first
      · cases first
        rfl
    | ok block =>
      have here : (∀ line ∈ block.1, line.Plain) ∧ block.2.Every Line.Plain := by
        unfold blockAt at first
        split at first
        · rename_i found
          cases first
          exact Block.every_at? (List.forall_mem_nil _) (Block.every_ofLines plain) found
        · cases first
      cases others : paths.mapM (blockAt text) with
      | error fault =>
        rw [others] at ih
        exact ih
      | ok blocks =>
        rw [others] at ih
        exact List.forall_mem_cons.mpr ⟨here, ih⟩

namespace Machine
variable {past : Int} {m n : Machine}

theorem Twins.excluding (twins : Twins π past m n) {exclusion : Exclusion}
    (plain : exclusion.rule.Plain) : Twins π past (m.excluding exclusion) (n.excluding exclusion) := by
  obtain ⟨⟨happened⟩, tame, bound⟩ := twins
  refine ⟨⟨happened⟩, ⟨tame.rules, tame.facts, fun key other inside => ?_, tame.actions,
    tame.payloads⟩, bound⟩
  rw [Machine.excluding, Table.get?_put] at inside
  split at inside
  · rcases List.mem_append.mp inside with old | new
    · exact tame.exclusions _ other old
    · exact List.mem_singleton.mp new ▸ plain
  · exact tame.exclusions key other inside

theorem rename_paying (m : Machine) (history : List Entry) (printed : List String) (key : String)
    (action : Action) (rule : Rule) (payload : List Line) :
    (m.paying key action rule payload).rename π history printed =
      (m.rename π history printed).paying key (action.rename π) rule payload := by
  have counter : m.nextId + 1 + π.distance = m.nextId + π.distance + 1 := by omega
  have entry : (action.add rule (Naming.payload m.nextId)).rename π =
      (action.rename π).add rule (Naming.payload (m.nextId + π.distance)) := by
    rw [Action.rename, Action.add, List.map_append, ← π.payload]
    rfl
  simp only [paying, rename, counter, Table.mapped_put, entry, π.payload]
  rfl

theorem Twins.paying (twins : Twins π past m n) {key : String} {action : Action}
    (regular : action.Plain) {rule : Rule} (plain : rule.Plain) (unsalted : rule.source = none)
    {payload : List Line} (lines : ∀ line ∈ payload, line.Plain) :
    Twins π past (m.paying key action rule payload)
      (n.paying key (action.rename π) rule payload) := by
  obtain ⟨@⟨history, printed, happened⟩, tame, bound⟩ := twins
  have added : (action.add rule (Naming.payload m.nextId)).Plain := by
    intro entry inside
    rcases List.mem_append.mp inside with old | new
    · exact regular entry old
    · exact List.mem_singleton.mp new ▸ ⟨plain, unsalted⟩
  have later : m.nextId ≤ m.nextId + 1 := by omega
  have spent := tame.spend later
  refine ⟨?_, ⟨spent.rules, spent.facts, spent.exclusions, (spent.put added).actions,
    fun id line inside => ?_⟩, Int.le_trans bound later⟩
  · rw [← rename_paying]
    exact ⟨happened⟩
  · rw [Machine.paying, Table.get?_put] at inside
    split at inside
    · exact lines line inside
    · exact tame.payloads id line inside

section
variable (twins : Twins π past m n)
include twins

theorem corresponds_conditions {lines : List Line}
    (plain : ∀ line ∈ lines, ∀ term ∈ line.phrase.args, term.Plain) :
    Corresponds π (fun conditions others => conditions = others ∧
        ∀ condition ∈ conditions, ∀ term ∈ condition.2, term.Plain) (Twins π past)
      ((lines.mapM fun line => do
        return (← relationFor line.phrase.key true, line.phrase.args) :
          MachineM (List (RelationId × List Term))).run m)
      ((lines.mapM fun line => do
        return (← relationFor line.phrase.key true, line.phrase.args) :
          MachineM (List (RelationId × List Term))).run n) := by
  induction lines generalizing m n with
  | nil => exact .ok ⟨rfl, nofun⟩ twins
  | cons line lines ih =>
    obtain ⟨here, later⟩ := List.forall_mem_cons.mp plain
    rw [List.mapM_cons]
    refine Corresponds.bind (R := fun condition other => condition = other ∧
      ∀ term ∈ condition.2, term.Plain) ?_ fun condition other m n ⟨same, first⟩ twins => ?_
    · exact (corresponds_relationFor twins line.phrase.key true).bind fun r s m n same twins =>
        .ok ⟨by rw [same], here⟩ twins
    · refine (ih twins later).bind fun conditions others m n ⟨list, rest⟩ twins => .ok ⟨?_, ?_⟩ twins
      · rw [same, list]
      · exact List.forall_mem_cons.mpr ⟨first, rest⟩

theorem corresponds_ruleUnder {above : List Line} (up : ∀ line ∈ above, line.Plain)
    {params : List Term} (plain : ∀ term ∈ params, term.Plain) (source : Option SourceId) :
    Corresponds π (fun rule other => rule = other ∧ rule.Plain ∧ rule.source = source)
      (Twins π past) ((ruleUnder above params source).run m)
      ((ruleUnder above params source).run n) := by
  have conditions : ∀ line ∈ conditionsOf above, ∀ term ∈ line.phrase.args, term.Plain := by
    intro line inside
    obtain ⟨among, kind⟩ := List.mem_filter.mp inside
    rw [beq_iff_eq] at kind
    exact up line among (by rw [kind]; decide) (by rw [kind]; decide)
  exact (corresponds_conditions twins conditions).bind fun found other m n ⟨same, fine⟩ twins =>
    .ok ⟨by rw [same], ⟨plain, fine⟩, rfl⟩ twins

theorem corresponds_loadRule {above : List Line} (up : ∀ line ∈ above, line.Plain) {line : Line}
    (plain : ∀ term ∈ line.phrase.args, term.Plain) :
    Corresponds π Eq (Twins π past) ((loadRule above line).run m) ((loadRule above line).run n) := by
  refine (corresponds_relationFor twins line.phrase.key true).bind fun r s m n same twins => ?_
  subst same
  refine (corresponds_ruleUnder twins up plain (some source)).bind
    fun rule other m n ⟨same, fine, salted⟩ twins => ?_
  subst same
  rw [run_bind, run_get, run_bind, run_get]
  dsimp only
  rw [twins.database, Database.addRule_rename]
  cases added : m.database.addRule r rule with
  | error fault => exact .error twins
  | ok db =>
    have regular : rule.Regular 1 := by
      refine ⟨fine, fun source minted => ?_⟩
      rw [salted] at minted
      exact Option.some.inj minted ▸ Nat.one_pos
    have ruled : Twins π past { m with database := db } { n with database := db.rename π } := by
      obtain ⟨_, _, rfl⟩ := Database.addRule_ok added
      rw [Database.set_rename, ← twins.database]
      refine twins.replaced (fun other stored => ?_) (twins.tame.facts r)
      rcases List.mem_append.mp stored with old | new
      · exact twins.tame.rules r other old
      · exact List.mem_singleton.mp new ▸ regular
    dsimp only [Except.map, Except.mapError]
    rw [run_bind, run_modify, run_bind, run_modify]
    exact corresponds_log ruled _ _

theorem corresponds_loadExclusion {above : List Line} (up : ∀ line ∈ above, line.Plain) {line : Line}
    (plain : ∀ term ∈ line.phrase.args, term.Plain) :
    Corresponds π Eq (Twins π past) ((loadExclusion above line).run m)
      ((loadExclusion above line).run n) := by
  refine (corresponds_relationFor twins line.phrase.key true).bind fun r s m n same twins => ?_
  refine (corresponds_ruleUnder twins up plain none).bind
    fun rule other m n ⟨same, fine, _⟩ twins => ?_
  subst same
  dsimp only
  rw [run_bind, run_modify, run_bind, run_modify]
  dsimp only
  let named := (conditionsOf above).flatMap fun condition => condition.phrase.args.map Term.key
  let exclusion : Exclusion :=
    { key := line.phrase.key, rule
      bound := line.phrase.args.map fun term => named.contains term.key }
  have plain : exclusion.rule.Plain := fine
  exact corresponds_log (twins.excluding plain) _ _

theorem corresponds_loadAction {above : List Line} (up : ∀ line ∈ above, line.Plain) {line : Line}
    (plain : ∀ term ∈ line.phrase.args, term.Plain) {payload : List Line}
    (lines : ∀ line ∈ payload, line.Plain) :
    Corresponds π Eq (Twins π past) ((loadAction above line payload).run m)
      ((loadAction above line payload).run n) := by
  refine (corresponds_actionFor twins line.phrase.key true).bind
    fun action other m n ⟨same, fine⟩ twins => ?_
  subst same
  refine (corresponds_ruleUnder twins up plain none).bind
    fun rule other m n ⟨same, regular, unsalted⟩ twins => ?_
  subst same
  rw [run_bind, run_mintId, run_bind, run_mintId]
  dsimp only
  rw [run_bind, run_modify, run_bind, run_modify]
  dsimp only
  refine Corresponds.bind (corresponds_log (twins.paying fine regular unsalted lines) _ _)
    fun _ _ m n _ twins => ?_
  exact Corresponds.forM_same (fun claim _ m n twins =>
    (corresponds_relationFor twins claim.phrase.key true).bind fun r s m n same twins =>
      .ok rfl twins) twins

theorem corresponds_loadSite {site : Site} (every : site.Every Line.Plain) :
    Corresponds π Eq (Twins π past) ((loadSite site).run m) ((loadSite site).run n) := by
  have plain {kind : LineKind} (same : site.line.kind = kind) (text : kind ≠ .comment)
      (blank : kind ≠ .plain) : ∀ term ∈ site.line.phrase.args, term.Plain :=
    every.line (same ▸ text) (same ▸ blank)
  unfold loadSite
  split
  · rename_i kind
    exact corresponds_loadAction twins every.above (plain kind (by decide) (by decide)) every.payload
  · rename_i kind
    have plain := plain kind (by decide) (by decide)
    split
    · have same := corresponds_assert twins site.line.phrase.key
        (fun term inside => (plain term inside).known past) true
      rwa [map_rename_plain π plain] at same
    · exact corresponds_loadRule twins every.above plain
  · rename_i kind
    exact corresponds_loadExclusion twins every.above (plain kind (by decide) (by decide))
  · exact .ok rfl twins

theorem corresponds_loadSites {sites : List Site} (every : ∀ site ∈ sites, site.Every Line.Plain) :
    Corresponds π Eq (Twins π past) ((sites.forM loadSite).run m) ((sites.forM loadSite).run n) :=
  Corresponds.forM_same
    (fun site inside _ _ twins => corresponds_loadSite twins (every site inside)) twins

/-- Loading a text. -/
theorem corresponds_load {text : String} (plain : PlainText text) :
    Corresponds π Eq (Twins π past) ((load text).run m) ((load text).run n) := by
  rw [load_eq]
  exact corresponds_loadSites twins
    (Block.every_sitesOf nofun (outline text) (Block.every_ofLines plain))

/-- Loading some blocks of a text. -/
theorem corresponds_loadAt {text : String} (plain : PlainText text) (paths : List (List Int)) :
    Corresponds π Eq (Twins π past) ((loadAt text paths).run m) ((loadAt text paths).run n) := by
  have found := found_blocksAt (π := π) plain paths
  unfold loadAt
  cases same : paths.mapM (blockAt text) with
  | error fault =>
    rw [same] at found
    exact .refused found twins
  | ok blocks =>
    rw [same] at found
    refine Corresponds.forM_same (fun block inside m n twins => ?_) twins
    obtain ⟨up, every⟩ := found block inside
    dsimp only
    rw [loadBlock_eq]
    exact corresponds_loadSites twins (Block.every_sites up block.2 every)

end

end Machine
end Rulebook
