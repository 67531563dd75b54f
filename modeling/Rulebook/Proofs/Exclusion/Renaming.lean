import Mathlib.Logic.Equiv.Basic
import Rulebook.Proofs.Exclusion.Variant

/-! Texts whose variables are called otherwise. A line is renamed together with the conditions above
it, different variables getting different names. What an exclusion flags must stay, and it does if
no variable is called like a string. Loading such a text in place of the original leaves machines
for which every claim of literals does the same. -/
namespace Rulebook
open Machine (conditionsOf)

theorem Term.withNames_literal {f : String → String} {term : Term} (literal : term.isLiteral) :
    term.withNames f = term := by
  cases term with
  | var name => cases literal
  | lit value => rfl

theorem Phrase.withNames_literal {f : String → String} {phrase : Phrase}
    (literal : ∀ term ∈ phrase.args, term.isLiteral) : phrase.withNames f = phrase := by
  obtain ⟨key, args⟩ := phrase
  have same : args.map (.withNames f) = args := by
    rw [List.map_congr_left fun term inside => Term.withNames_literal (literal term inside)]
    exact List.map_id args
  rw [Phrase.withNames, same]

theorem Rule.terms_withNames (f : String → String) (rule : Rule) :
    (rule.withNames f).terms = rule.terms.map (.withNames f) := by
  simp only [Rule.terms, Rule.withNames, List.map_append, List.flatMap_map, List.map_flatMap]

theorem forall₂_of_map_eq {α β γ : Type} {f : α → γ} {g : β → γ} {items : List α} {others : List β}
    (same : others.map g = items.map f) : List.Forall₂ (fun a b => g b = f a) items others := by
  rw [← List.forall₂_eq_eq_eq, List.forall₂_map_left_iff, List.forall₂_map_right_iff] at same
  exact same.flip

theorem ApartOn.mono {f : String → String} {args more : List Term} (apart : ApartOn f more)
    (among : args ⊆ more) : ApartOn f args :=
  fun name other here there => apart name other (among here) (among there)

section Corresponding
variable {State α : Type} {St : State → State → Prop} {x y : Except Fault α × State}

theorem Corresponds.outcome (same : Corresponds .still Eq St x y) : y.1 = x.1 := by
  cases same with
  | ok result _ => rw [result]
  | error _ => rw [Fault.rename_still]

theorem Corresponds.state {π : Renaming} {R : α → α → Prop} (same : Corresponds π R St x y) :
    St x.2 y.2 := by
  cases same with
  | ok _ state => exact state
  | error state => exact state

end Corresponding

namespace Site

/-- The phrase of the line, and those of the conditions above it. -/
def phrases (site : Site) : List Phrase :=
  site.line.phrase :: (conditionsOf site.above).map (·.phrase)

def tokens (site : Site) : List Term := site.phrases.flatMap (·.args)

def flags (site : Site) : List Bool :=
  let named := (conditionsOf site.above).flatMap fun condition => condition.phrase.args.map Term.key
  site.line.phrase.args.map fun term => named.contains term.key

/-- The keys that the claims in a payload declare. -/
def claimed (site : Site) : List String :=
  (site.payload.filter (·.kind == .claim)).map (·.phrase.key)

/-- No variable is called like a string of the site, whether by its old or by its new name. -/
def NamesApart (f : String → String) (site : Site) : Prop :=
  ∀ term ∈ site.tokens, term.isLiteral ∨
    .lit term.key ∉ site.tokens ∧ .lit (f term.key) ∉ site.tokens

instance (f : String → String) (site : Site) : Decidable (site.NamesApart f) :=
  inferInstanceAs (Decidable (∀ term ∈ site.tokens, _ ∨ _ ∧ _))

/-- A claim or an exclusion gets these names for its variables, and so do the conditions above it.
An action keeps its keys. A fact is literal. An exclusion has plain names and keeps its flags, or no
variable of it is called like a string. -/
structure RenamedBy (f : String → String) (site other : Site) : Prop where
  kind : other.line.kind = site.line.kind
  top : other.above.isEmpty = site.above.isEmpty
  action : site.line.kind = .action →
    other.phrases.map (·.key) = site.phrases.map (·.key) ∧ other.claimed = site.claimed
  names : site.line.kind = .claim ∨ site.line.kind = .exclusion →
    other.phrases = site.phrases.map (.withNames f)
  fact : site.line.kind = .claim → site.above.isEmpty →
    ∀ term ∈ site.line.phrase.args, term.isLiteral
  exclusion : site.line.kind = .exclusion →
    (other.flags = site.flags ∨ site.NamesApart f) ∧
      ∀ term ∈ site.tokens ++ other.tokens, term.Plain

instance (f : String → String) (site other : Site) : Decidable (site.RenamedBy f other) :=
  decidable_of_iff (other.line.kind = site.line.kind ∧ other.above.isEmpty = site.above.isEmpty ∧
      (site.line.kind = .action →
        other.phrases.map (·.key) = site.phrases.map (·.key) ∧ other.claimed = site.claimed) ∧
      (site.line.kind = .claim ∨ site.line.kind = .exclusion →
        other.phrases = site.phrases.map (.withNames f)) ∧
      (site.line.kind = .claim → site.above.isEmpty →
        ∀ term ∈ site.line.phrase.args, term.isLiteral) ∧
      (site.line.kind = .exclusion →
        (other.flags = site.flags ∨ site.NamesApart f) ∧
          ∀ term ∈ site.tokens ++ other.tokens, term.Plain))
    ⟨fun ⟨kind, top, action, names, fact, exclusion⟩ =>
        ⟨kind, top, action, names, fact, exclusion⟩,
      fun same => ⟨same.kind, same.top, same.action, same.names, same.fact, same.exclusion⟩⟩

/-- The line is the other but for the names of variables. -/
def Variant (site other : Site) : Prop :=
  ∃ f, ApartOn f site.tokens ∧ site.RenamedBy f other

theorem tokens_line (site : Site) : site.line.phrase.args ⊆ site.tokens :=
  fun _ inside => List.mem_flatMap.mpr ⟨_, List.mem_cons_self, inside⟩

theorem tokens_above {site : Site} {line : Line} (among : line ∈ conditionsOf site.above) :
    line.phrase.args ⊆ site.tokens :=
  fun _ inside => List.mem_flatMap.mpr
    ⟨line.phrase, List.mem_cons_of_mem _ (List.mem_map_of_mem among), inside⟩

section Names
variable {f : String → String} {site other : Site}
  (names : other.phrases = site.phrases.map (.withNames f))
include names

theorem tokens_of_names : other.tokens = site.tokens.map (.withNames f) := by
  rw [tokens, names, tokens, List.flatMap_map, List.map_flatMap]
  rfl

theorem line_of_names : other.line.phrase = site.line.phrase.withNames f := (List.cons.inj names).1

theorem key_of_names : other.line.phrase.key = site.line.phrase.key := by
  rw [line_of_names names]
  rfl

theorem conditions_of_names :
    List.Forall₂ (fun line twin => twin.phrase = line.phrase.withNames f)
      (conditionsOf site.above) (conditionsOf other.above) := by
  have same := (List.cons.inj names).2
  rw [List.map_map] at same
  exact forall₂_of_map_eq same

/-- Flags stay if different variables get different names and none is called like a string. -/
theorem flags_of_names (apart : ApartOn f site.tokens) (distinct : site.NamesApart f) :
    other.flags = site.flags := by
  have strings (name value : String) (here : .var name ∈ site.tokens)
      (there : .lit value ∈ site.tokens) : f name = value ↔ name = value := by
    rcases distinct _ here with literal | ⟨old, new⟩
    · cases literal
    · constructor
      · rintro rfl
        exact absurd there new
      · rintro rfl
        exact absurd there old
  have called (first second : Term) (here : first ∈ site.tokens) (there : second ∈ site.tokens) :
      (first.withNames f).key = (second.withNames f).key ↔ first.key = second.key := by
    cases first with
    | var name =>
      cases second with
      | var other => exact ⟨apart name other here there, congrArg f⟩
      | lit value => exact strings name value here there
    | lit value =>
      cases second with
      | var name => exact eq_comm.trans ((strings name value there here).trans eq_comm)
      | lit other => exact Iff.rfl
  have named : (conditionsOf other.above).flatMap (·.phrase.args.map Term.key) =
      (conditionsOf site.above).flatMap
        fun line => line.phrase.args.map fun term => (term.withNames f).key := by
    have same := conditions_of_names names
    generalize conditionsOf site.above = lines, conditionsOf other.above = others at same
    induction same with
    | nil => rfl
    | cons first _ ih =>
      rw [List.flatMap_cons, List.flatMap_cons, ih, first, Phrase.withNames, List.map_map]
      rfl
  rw [flags, flags, named, line_of_names names, Phrase.withNames, List.map_map]
  refine List.map_congr_left fun term inside => ?_
  rw [Function.comp_apply, Bool.eq_iff_iff, List.contains_iff_mem, List.contains_iff_mem,
    List.mem_flatMap, List.mem_flatMap]
  refine exists_congr fun line => and_congr_right fun among => ?_
  rw [List.mem_map, List.mem_map]
  refine exists_congr fun other => and_congr_right fun asked => ?_
  exact called other term (tokens_above among asked) (site.tokens_line inside)

end Names
end Site

namespace Machine
variable {m n : Machine}

section Loading
variable (variant : m.Variant n)
include variant

theorem variant_conditions {T : List Term → List Term → Prop} {lines others : List Line}
    (related : List.Forall₂ (fun line twin =>
      twin.phrase.key = line.phrase.key ∧ T line.phrase.args twin.phrase.args) lines others) :
    Corresponds .still (List.Forall₂ fun condition twin =>
        twin.1 = condition.1 ∧ T condition.2 twin.2) Variant
      ((lines.mapM fun line => do
        return (← relationFor line.phrase.key true, line.phrase.args) :
          MachineM (List (RelationId × List Term))).run m)
      ((others.mapM fun line => do
        return (← relationFor line.phrase.key true, line.phrase.args) :
          MachineM (List (RelationId × List Term))).run n) := by
  induction related generalizing m n with
  | nil => exact .ok .nil variant
  | @cons line twin lines others first _ ih =>
    obtain ⟨key, args⟩ := first
    rw [List.mapM_cons, List.mapM_cons, key]
    refine Corresponds.bind (R := fun condition twin =>
      twin.1 = condition.1 ∧ T condition.2 twin.2) ?_ fun condition twin m n here variant => ?_
    · exact (variant_relationFor variant line.phrase.key true).bind fun r s m n same variant =>
        .ok ⟨same.symm, args⟩ variant
    · exact (ih variant).bind fun conditions others m n rest variant =>
        .ok (.cons here rest) variant

theorem variant_ruleUnder {T : List Term → List Term → Prop} {above others : List Line}
    (related : List.Forall₂ (fun line twin =>
        twin.phrase.key = line.phrase.key ∧ T line.phrase.args twin.phrase.args)
      (conditionsOf above) (conditionsOf others))
    (params args : List Term) (source : Option SourceId) :
    Corresponds .still (fun rule twin => rule.params = params ∧ twin.params = args ∧
        rule.source = source ∧ twin.source = source ∧
        List.Forall₂ (fun condition twin => twin.1 = condition.1 ∧ T condition.2 twin.2)
          rule.conditions twin.conditions) Variant
      ((ruleUnder above params source).run m) ((ruleUnder others args source).run n) :=
  (variant_conditions variant related).bind fun _ _ _ _ same variant =>
    .ok ⟨rfl, rfl, rfl, rfl, same⟩ variant

/-- The rule of a line that is renamed is its rule renamed. -/
theorem variant_ruleOf {f : String → String} {site other : Site}
    (names : other.phrases = site.phrases.map (.withNames f)) (source : Option SourceId) :
    Corresponds .still (fun rule twin => twin = rule.withNames f ∧
        rule.params = site.line.phrase.args ∧ rule.terms ⊆ site.tokens) Variant
      ((ruleUnder site.above site.line.phrase.args source).run m)
      ((ruleUnder other.above other.line.phrase.args source).run n) := by
  have related : List.Forall₂ (fun line twin => twin.phrase.key = line.phrase.key ∧
      twin.phrase.args = line.phrase.args.map (.withNames f) ∧ line.phrase.args ⊆ site.tokens)
      (conditionsOf site.above) (conditionsOf other.above) := by
    refine ((List.forall₂_and_left _ _).mpr ⟨fun _ => Site.tokens_above,
      Site.conditions_of_names names⟩).imp ?_
    rintro line twin ⟨inside, same⟩
    rw [same]
    exact ⟨rfl, rfl, inside⟩
  refine (variant_ruleUnder (T := fun args others => others = args.map (.withNames f) ∧
    args ⊆ site.tokens) variant related _ _ source).imp ?_ fun _ _ variant => variant
  rintro ⟨params, conditions, source⟩ ⟨others, asked, _⟩ ⟨rfl, rfl, rfl, rfl, same⟩
  refine ⟨?_, ?_, ?_⟩
  · have renamed : asked = conditions.map fun condition =>
        (condition.1, condition.2.map (.withNames f)) := by
      refine eq_map_of_forall₂ (same.imp ?_)
      rintro condition twin ⟨place, args, _⟩
      exact Prod.ext place args
    rw [renamed, Site.line_of_names names]
    rfl
  · rfl
  · refine List.append_subset.mpr ⟨site.tokens_line, fun term inside => ?_⟩
    obtain ⟨condition, stored, here⟩ := List.mem_flatMap.mp inside
    obtain ⟨twin, _, _, _, among⟩ := Forall₂.exists_right same.flip stored
    exact among here

theorem variant_loadRule {f : String → String} {site other : Site} (apart : ApartOn f site.tokens)
    (names : other.phrases = site.phrases.map (.withNames f)) :
    Corresponds .still Eq Variant ((loadRule site.above site.line).run m)
      ((loadRule other.above other.line).run n) := by
  unfold loadRule
  rw [Site.key_of_names names]
  refine (variant_relationFor variant site.line.phrase.key true).bind
    fun r s m n same variant => ?_
  subst same
  refine (variant_ruleOf variant names (some source)).bind
    fun rule twin m n ⟨renamed, _, among⟩ variant => ?_
  subst renamed
  rw [run_bind, run_get, run_bind, run_get]
  dsimp only
  have added := variant.database.addRule r (Rule.variant_withNames (apart.mono among))
  generalize given : m.database.addRule r rule = here,
    n.database.addRule r (rule.withNames f) = there at added ⊢
  cases added with
  | error fault => exact .refused fault.rename_still variant
  | ok related =>
    dsimp only
    rw [run_bind, run_modify, run_bind, run_modify]
    dsimp only
    rw [run_log, run_log]
    refine .ok rfl (Variant.logged ?_ _ _)
    exact { variant with
      database := related
      literal := (Database.gains_addRule given).literal variant.literal }

theorem variant_loadExclusion {f : String → String} {site other : Site}
    (apart : ApartOn f site.tokens) (names : other.phrases = site.phrases.map (.withNames f))
    (flags : other.flags = site.flags)
    (plain : ∀ term ∈ site.tokens ++ other.tokens, term.Plain) :
    Corresponds .still Eq Variant ((loadExclusion site.above site.line).run m)
      ((loadExclusion other.above other.line).run n) := by
  unfold loadExclusion
  dsimp only
  rw [Site.key_of_names names]
  refine (variant_relationFor variant site.line.phrase.key true).bind
    fun _ _ m n _ variant => ?_
  refine (variant_ruleOf variant names none).bind
    fun rule twin m n ⟨renamed, params, among⟩ variant => ?_
  subst renamed
  have same : Exclusion.Variant ⟨site.line.phrase.key, rule, site.flags⟩
      ⟨site.line.phrase.key, rule.withNames f, other.flags⟩ := by
    refine ⟨Rule.variant_withNames (apart.mono among), flags, ?_, ?_, ?_⟩
    · rw [params, Site.flags, List.length_map]
    · exact Exclusion.plain_of_terms fun term inside =>
        plain term (List.mem_append_left _ (among inside))
    · refine Exclusion.plain_of_terms fun term inside => plain term (List.mem_append_right _ ?_)
      rw [Site.tokens_of_names names]
      rw [Rule.terms_withNames] at inside
      exact List.map_subset _ among inside
  rw [run_bind, run_modify, run_bind, run_modify]
  dsimp only
  rw [run_log, run_log]
  exact .ok rfl ((variant.excluding same rfl).logged _ _)

theorem variant_actionFor (key other : String) :
    Corresponds .still (fun _ _ => True) Variant ((actionFor key true).run m)
      ((actionFor other true).run n) := by
  rw [run_actionFor, run_actionFor]
  cases m.actions.get? key <;> cases n.actions.get? other <;>
    exact .ok trivial { variant with }

theorem variant_loadAction {site other : Site}
    (keys : other.phrases.map (·.key) = site.phrases.map (·.key))
    (claimed : other.claimed = site.claimed) :
    Corresponds .still Eq Variant ((loadAction site.above site.line site.payload).run m)
      ((loadAction other.above other.line other.payload).run n) := by
  have related : List.Forall₂ (fun line twin =>
      twin.phrase.key = line.phrase.key ∧ True) (conditionsOf site.above)
      (conditionsOf other.above) := by
    have same := (List.cons.inj keys).2
    rw [List.map_map, List.map_map] at same
    exact (forall₂_of_map_eq same).imp fun _ _ key => ⟨key, trivial⟩
  unfold loadAction
  refine (variant_actionFor variant _ _).bind fun action twin m n _ variant => ?_
  refine (variant_ruleUnder (T := fun _ _ => True) variant related _ _ none).bind
    fun rule twin m n _ variant => ?_
  rw [run_bind, run_mintId, run_bind, run_mintId]
  dsimp only
  rw [run_bind, run_modify, run_bind, run_modify]
  dsimp only
  rw [run_bind, run_log, run_bind, run_log]
  refine Corresponds.forM (fun claim twin m n key variant => ?_) (forall₂_of_map_eq claimed)
    (Variant.logged ?_ _ _)
  · rw [key]
    exact (variant_relationFor variant claim.phrase.key true).bind fun _ _ _ _ _ variant =>
      .ok rfl variant
  · exact { variant with }

end Loading

/-- Loading a line, and loading it renamed. -/
theorem paired_loadSite (paired : m.Paired n) {site other : Site} (same : site.Variant other) :
    Corresponds .still Eq Paired ((loadSite site).run m) ((loadSite other).run n) := by
  apply paired.of_variant (works_loadSite site) (works_loadSite other)
  obtain ⟨f, apart, renamed⟩ := same
  unfold loadSite
  rw [renamed.kind]
  split
  · rename_i kind
    obtain ⟨keys, claimed⟩ := renamed.action kind
    exact variant_loadAction paired.variant keys claimed
  · rename_i kind
    have names := renamed.names (.inl kind)
    rw [renamed.top]
    split
    · rename_i top
      have literal := renamed.fact kind top
      rw [Site.line_of_names names, Phrase.withNames_literal literal]
      exact (paired_assert paired _ literal true).imp (fun _ _ same => same)
        fun _ _ paired => paired.variant
    · exact variant_loadRule paired.variant apart names
  · rename_i kind
    have names := renamed.names (.inr kind)
    obtain ⟨kept, plain⟩ := renamed.exclusion kind
    have flags : other.flags = site.flags := kept.elim id (Site.flags_of_names names apart)
    exact variant_loadExclusion paired.variant apart names flags plain
  · exact .ok rfl paired.variant

/-- Where facts are literal and exclusions have plain names, a machine is a variant of itself. -/
theorem WellFormed.paired (formed : m.WellFormed) (literal : m.database.Literal)
    (plain : ∀ key, ∀ exclusion ∈ (m.exclusions.get? key).getD [], exclusion.Plain) :
    m.Paired m where
  variant := {
    strict := rfl
    relations := rfl
    database := .refl m.database
    literal
    exclusions key := List.forall₂_same.mpr fun exclusion registered =>
      ⟨.refl exclusion.rule, rfl, (formed.admits registered).2.flags,
        plain key exclusion registered, plain key exclusion registered⟩
    history := .refl _ }
  left := formed
  right := formed

/-- The machine after these claims, whether they succeed or fail. -/
def claiming (m : Machine) (claims : List Phrase) : Machine :=
  claims.foldl (fun m fact => ((claim fact).run m).2) m

theorem Paired.claiming (paired : m.Paired n) {claims : List Phrase}
    (new : ∀ fact ∈ claims, ∀ term ∈ fact.args, term.isLiteral) :
    (m.claiming claims).Paired (n.claiming claims) := by
  induction claims generalizing m n with
  | nil => exact paired
  | cons _ claims ih =>
    obtain ⟨here, later⟩ := List.forall_mem_cons.mp new
    exact ih (paired_claim paired here).state later

/-- The facts are the same, the same has been claimed and retracted, each fact as often, and each
further claim of literals succeeds or fails in the same way. -/
structure Agrees (m n : Machine) : Prop where
  relations : n.relations = m.relations
  facts : ∀ r, (n.database.relation r).facts = (m.database.relation r).facts
  history : m.history.Perm n.history
  outcome : ∀ fact : Phrase, (∀ term ∈ fact.args, term.isLiteral) →
    ((claim fact).run n).1 = ((claim fact).run m).1

theorem Paired.agrees (paired : m.Paired n) : m.Agrees n where
  relations := paired.variant.relations
  facts r := (paired.variant.database.relation r).facts
  history := paired.variant.history
  outcome _ new := (paired_claim paired new).outcome

/-- A text with other names for the variables has the same effect on claims of literals: it is
loaded or refused in the same way, and then every sequence of claims retracts the same. -/
theorem Reachable.renamed_text_agrees (reachable : m.Reachable) (literal : m.database.Literal)
    (plain : ∀ key, ∀ exclusion ∈ (m.exclusions.get? key).getD [], exclusion.Plain)
    {text other : String}
    (renamed : List.Forall₂ Site.Variant (sitesOfText text) (sitesOfText other))
    {claims : List Phrase} (new : ∀ fact ∈ claims, ∀ term ∈ fact.args, term.isLiteral) :
    ((load other).run m).1 = ((load text).run m).1 ∧
      Agrees (((load text).run m).2.claiming claims) (((load other).run m).2.claiming claims) := by
  have start := reachable.wellFormed.paired literal plain
  have loaded : Corresponds .still Eq Paired ((load text).run m) ((load other).run m) := by
    rw [load_eq, load_eq]
    exact Corresponds.forM (fun _ _ _ _ same paired => paired_loadSite paired same) renamed start
  exact ⟨loaded.outcome, (loaded.state.claiming new).agrees⟩

def told (text : String) (claims : List Phrase) : Machine := ((load text).run {}).2.claiming claims

def reseatingText : String := "+may \"a\"\n::may (z)\n ?at (z) (y)\n+at \"a\" \"1\""

theorem renamed_text_agrees_seating :
    ((load reseatingText).run {}).1 = ((load seatingText).run {}).1 ∧
      Agrees (told seatingText [.ofText "at \"a\" \"2\""])
        (told reseatingText [.ofText "at \"a\" \"2\""]) ∧
      .retracted "at %s %s" ["a", "1"] ∈ (told seatingText [.ofText "at \"a\" \"2\""]).history := by
  have reachable : ({} : Machine).Reachable := ⟨false, false, 0, .refl _⟩
  have renamed : List.Forall₂ (Site.RenamedBy (Equiv.swap "x" "z")) (sitesOfText seatingText)
      (sitesOfText reseatingText) := by decide +kernel
  have variant := renamed.imp fun site other same =>
    (⟨_, fun _ _ _ _ => (Equiv.swap "x" "z").injective.eq_iff.mp, same⟩ : site.Variant other)
  have plain : ∀ key, ∀ exclusion ∈ ((({} : Machine).exclusions.get? key).getD []),
      exclusion.Plain := nofun
  have new : ∀ fact ∈ [Phrase.ofText "at \"a\" \"2\""], ∀ term ∈ fact.args, term.isLiteral := by
    decide +kernel
  obtain ⟨loaded, agrees⟩ := reachable.renamed_text_agrees (by decide) plain variant new
  exact ⟨loaded, agrees, by decide +kernel⟩

/-- The phrases of the exclusions in a text, each with those of the conditions above it. -/
def exclusionPhrases (text : String) : List (List Phrase) :=
  ((sitesOfText text).filter (·.line.kind == .exclusion)).map Site.phrases

/-- The exclusions of the other text, with the conditions above them, are those of the text with
these names for their variables. -/
def ExclusionsRenamed (f : String → String) (text other : String) : Prop :=
  exclusionPhrases other = (exclusionPhrases text).map (List.map (.withNames f))

/-- A variable that is called like a string in the condition. -/
def namesakeText : String := ":: may \"x\"\n    ? at (x) (y)\n+ may \"x\""

def namedApartText : String := ":: may \"x\"\n    ? at (z) (y)\n+ may \"x\""

def atClaims : List Phrase := [.ofText "at \"1\" \"a\"", .ofText "at \"2\" \"b\""]

/-- A condition that an exclusion shares with a claim. -/
def sharedText : String :=
  "+ may \"a\"\n:: may (x)\n    + known (x)\n    ? at (x) (y)\n:: known (p)\n    ? seat (p) (q)"

def partedText : String :=
  "+ may \"a\"\n:: may (z)\n    + known (x)\n    ? at (z) (y)\n:: known (p)\n    ? seat (p) (q)"

def seatClaims : List Phrase := [.ofText "seat \"b\" \"1\"", .ofText "seat \"b\" \"2\""]

/-- A position loses its flag where its variable is no longer called like a string in the
conditions; and a claim says something else where only the exclusion goes along with a new name in a
condition that they share. -/
theorem renamed_exclusion_differs :
    ExclusionsRenamed (Equiv.swap "x" "z") namesakeText namedApartText ∧
      ((told namesakeText atClaims).under "at %s %s").facts =
        [[.lit "1", .lit "a"], [.lit "2", .lit "b"]] ∧
      ((told namedApartText atClaims).under "at %s %s").facts = [[.lit "2", .lit "b"]] ∧
    ExclusionsRenamed (Equiv.swap "x" "z") sharedText partedText ∧
      ((told sharedText seatClaims).under "seat %s %s").facts =
        [[.lit "b", .lit "1"], [.lit "b", .lit "2"]] ∧
      ((told partedText seatClaims).under "seat %s %s").facts = [[.lit "b", .lit "2"]] := by
  have namesake : exclusionPhrases namesakeText =
      [[⟨"at %s %s", [.var "x", .var "y"]⟩, ⟨"may %s", [.lit "x"]⟩]] := by decide +kernel
  have apart : exclusionPhrases namedApartText =
      [[⟨"at %s %s", [.var "z", .var "y"]⟩, ⟨"may %s", [.lit "x"]⟩]] := by decide +kernel
  have shared : exclusionPhrases sharedText =
      [[⟨"at %s %s", [.var "x", .var "y"]⟩, ⟨"may %s", [.var "x"]⟩],
        [⟨"seat %s %s", [.var "p", .var "q"]⟩, ⟨"known %s", [.var "p"]⟩]] := by decide +kernel
  have parted : exclusionPhrases partedText =
      [[⟨"at %s %s", [.var "z", .var "y"]⟩, ⟨"may %s", [.var "z"]⟩],
        [⟨"seat %s %s", [.var "p", .var "q"]⟩, ⟨"known %s", [.var "p"]⟩]] := by decide +kernel
  refine ⟨?_, by decide +kernel, by decide +kernel, ?_, by decide +kernel, by decide +kernel⟩
  · rw [ExclusionsRenamed, namesake, apart]
    decide +kernel
  · rw [ExclusionsRenamed, shared, parted]
    decide +kernel

end Machine
end Rulebook
