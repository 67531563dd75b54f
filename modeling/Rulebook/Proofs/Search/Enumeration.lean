import Rulebook.Proofs.Extension
import Rulebook.Proofs.Search.Solving

/-! Queries enumerate derivations. Over relations that do not depend on themselves, a query gives
one answer for each skeleton whose equations can be solved, in the order of the skeletons, and each
answer stands for the solutions along its skeleton. The facts may have variables, which are read as
stored; the variables of rules are renamed apart at each use. -/
namespace Rulebook

def Database.Plain (db : Database) : Prop := db.Named Naming.Plain

theorem Database.Plain.past {db : Database} (plain : db.Plain) (source : SourceId) (p : Progress) :
    db.Named (Search.Past source p) :=
  fun r fact stored term inside => (plain r fact stored term inside).imp fun _ => (·.not_toCome)

theorem Database.Literal.plain {db : Database} (literal : db.Literal) : db.Plain :=
  fun r fact stored term inside => .of_literal (literal r fact stored term inside) _

namespace Skeleton
variable {db : Database} {s : Substitution} {r : RelationId} {args : List Term} {place : Nat}

theorem Solution.agrees {known : String → Prop} {σ τ : Valuation} (agrees : σ.Agrees known τ)
    (facts : db.Named known) (sub : s.Named known) (named : ∀ term ∈ args, term.Named known)
    {k : Skeleton} (solution : k.Solution db s r args σ) : k.Solution db s r args τ :=
  ⟨solution.1.agrees sub agrees, solution.2.agrees agrees facts named⟩

/-- Under a salt that makes no known name, the equations of a use of a rule have the solutions that
the rule has under some valuation of its own variables. -/
theorem alike_use {rule : Rule} (found : (db.relation r).rules[place]? = some rule)
    {known : String → Prop} {salt : String} (past : ∀ name, ¬known (salt ++ name))
    (facts : db.Named known) (sub : s.Named known) (named : ∀ term ∈ args, term.Named known)
    (below : List Skeleton) :
    Alike known
      (fun σ => (s.Holds σ ∧
          args.map (Term.under σ) = (rule.params.map (·.salted salt)).map (Term.under σ)) ∧
        DeriveAll db σ below (conditionsUnder σ (conditionsSalted salt rule.conditions)))
      ((Skeleton.rule place below).Solution db s r args) := by
  intro σ
  simp only [solution_rule found, map_under_salted, conditionsUnder_salted]
  constructor
  · rintro ⟨τ, agrees, ⟨holds, equal⟩, conditions⟩
    exact ⟨τ, agrees, holds, _, equal, conditions⟩
  · rintro ⟨τ, agrees, holds, ρ, equal, conditions⟩
    have grafted : τ.Agrees known (τ.graft salt ρ) := Valuation.agrees_graft past
    refine ⟨τ.graft salt ρ, agrees.trans grafted, ⟨holds.agrees sub grafted, ?_⟩, ?_⟩
    · rwa [Valuation.graft_through, map_under_agrees grafted named]
    · rw [Valuation.graft_through]
      exact DeriveAll.congr
        (fun r fact stored => map_under_agrees grafted (facts r fact stored)) below conditions

end Skeleton

namespace Search
variable {db : Database} {source : SourceId} {known : String → Prop} {r : RelationId}
  {args : List Term} {s : Substitution} {p : Progress} {others : List (Valuation → Prop)}

/-- Unifying solves one equation between two lists of terms. -/
theorem solves_unified {left right : List Term} {A : Valuation → Prop}
    {search rest : Search} {q : Progress} (fresh : FreshSub source q s)
    (first : FreshArgs source q left) (second : FreshArgs source q right)
    (same : ∀ σ, A σ ↔ s.Holds σ ∧ left.map (Term.under σ) = right.map (Term.under σ))
    (stepped : search.step db p = (.ofUnifier (s.unifyAll left right) rest, q))
    (later : ∀ r, q.Before r → Solves db source known others rest r) :
    Solves db source known (A :: others) search p := by
  cases unified : s.unifyAll left right with
  | none =>
    rw [unified] at stepped
    refine .void ?_ (.working stepped (later q (.refl q)))
    rintro ⟨σ, holds⟩
    obtain ⟨base, equal⟩ := (same σ).mp holds
    obtain ⟨t, found⟩ := Substitution.unifyAll_isSome fresh.1 base equal
    rw [unified] at found
    cases found
  | some t =>
    rw [unified] at stepped
    have settled := Substitution.unifyAll_settled fresh.1 unified
    have named := Substitution.unifyAll_named fresh.1 fresh.2 first second unified
    refine .answer stepped ⟨settled, named⟩ (.of_iff fun σ => ?_) later
    rw [same, Substitution.unifyAll_holds fresh.1 unified]

theorem solves_ended (p : Progress) : Solves db source known [] .ended p := .ended rfl

theorem solves_unifyAll (fresh : FreshSub source p s) {left right : List Term}
    (first : FreshArgs source p left) (second : FreshArgs source p right) :
    Solves db source known
      [fun σ => s.Holds σ ∧ left.map (Term.under σ) = right.map (Term.under σ)]
      (.pending (.unifyAll left right) s) p :=
  solves_unified fresh first second (fun _ => Iff.rfl) rfl fun q _ => solves_ended q

/-- The facts from a place on are solved in turn, then the rules. -/
theorem solves_facts (plain : db.Plain) (fresh : FreshSub source p s)
    (named : FreshArgs source p args) {next : Nat}
    (later : ∀ q, p.Before q → Solves db source known others (.rules r args s 0) q) :
    Solves db source known
      ((((db.relation r).facts.drop next).zipIdx next).map
        (fun entry => (Skeleton.fact entry.2).Solution db s r args) ++ others)
      (.facts r args s next) p := by
  generalize left : (db.relation r).facts.drop next = rest
  induction rest generalizing next p with
  | nil =>
    have none := List.getElem?_eq_none (List.drop_eq_nil_iff.mp left)
    refine .working ?_ (later p (.refl p))
    rw [step, none]
  | cons fact rest ih =>
    have found : (db.relation r).facts[next]? = some fact := by
      rw [← List.head?_drop, left, List.head?_cons]
    have beyond : (db.relation r).facts.drop (next + 1) = rest := by
      rw [← List.tail_drop, left, List.tail_cons]
    refine solves_unified fresh named (plain.past source p r fact (List.mem_of_getElem? found))
      (Skeleton.solution_fact found) (by rw [step, found]) fun q before => ?_
    exact ih (fresh.later before) (named.later before)
      (fun r after => later r (before.trans after)) beyond

/-- What is renamed under a salt is fresh once the salt is minted. -/
theorem freshArgs_salted (inside : source < p.nextIds.length) (terms : List Term) :
    FreshArgs source (p.advance source)
      (terms.map (·.salted (Naming.salt (p.nextId source)))) := by
  intro term member
  obtain ⟨plain, _, rfl⟩ := List.mem_map.mp member
  exact plain.named_salted (past_salt inside)

/-- A use of a rule first unifies the arguments with the parameters, then derives the conditions. -/
theorem step_use (rule : Rule) (args : List Term) (salt : String) :
    step db (.pending (rule.goal args salt) s) p =
      (.working (.each (.pending (.unifyAll args (rule.params.map (·.salted salt))) s)
        ((conditionsSalted salt rule.conditions).map fun condition =>
          .query condition.1 condition.2) .ended), p) := by
  simp [step, Rule.goal, enter, start, Goal.isSearchable, conditionsSalted]

/-- A use of a rule is solved by each way to derive its conditions. -/
theorem solves_use (plain : db.Plain) {skeletons : RelationId → List Skeleton} {rule : Rule}
    (solved : ∀ condition ∈ rule.conditions, Enumerates db source skeletons condition.1)
    {place : Nat} (found : (db.relation r).rules[place]? = some rule)
    (knows : Knows source known p) (fresh : FreshSub source p s)
    (named : FreshArgs source p args) :
    Solves db source known
      ((Skeleton.forests skeletons rule.relations).map fun below =>
        (Skeleton.rule place below).Solution db s r args)
      (.pending (rule.goal args (Naming.salt (p.nextId source))) s) (p.advance source) := by
  have before := p.before_advance source
  have asked : ∀ condition ∈ conditionsSalted (Naming.salt (p.nextId source)) rule.conditions,
      FreshArgs source (p.advance source) condition.2 := by
    intro condition inside
    obtain ⟨condition, _, rfl⟩ := List.mem_map.mp inside
    exact freshArgs_salted knows.inside condition.2
  have solved : ∀ condition ∈ conditionsSalted (Naming.salt (p.nextId source)) rule.conditions,
      Enumerates db source skeletons condition.1 := by
    intro condition inside
    obtain ⟨condition, member, rfl⟩ := List.mem_map.mp inside
    exact solved condition member
  have unified : Solves db source (Past source (p.advance source)) [_] (.pending _ s) _ :=
    solves_unifyAll (fresh.later before) (named.later before)
      (freshArgs_salted knows.inside rule.params)
  have through := unified.each solved (plain.past source _) asked
    ⟨fun _ => id, before.1 ▸ knows.inside⟩ fun q _ => solves_ended q
  refine (Solves.working (step_use rule args _) through).alike
    (fun name known => (knows.past name known).later before) ?_
  -- Each way is a skeleton; the texts under the salt are those of the rule's own variables.
  have relations : (conditionsSalted (Naming.salt (p.nextId source)) rule.conditions).map (·.1) =
      rule.relations := by
    simp [conditionsSalted, Rule.relations]
  rw [List.append_nil, ways, List.flatMap_singleton, relations]
  apply Alike.map
  intro below _
  have unknown (name : String) : ¬Past source p (Naming.salt (p.nextId source) ++ name) :=
    fun past => past (Naming.toCome_salt name)
  exact (Skeleton.alike_use found unknown (plain.past source p) fresh.2 named below).imp
    knows.past

/-- The rules from a place on are solved in turn. -/
theorem solves_rules (plain : db.Plain) (salted : db.Salted source)
    {skeletons : RelationId → List Skeleton}
    (solved : ∀ c, db.Depends r c → Enumerates db source skeletons c) (knows : Knows source known p)
    (fresh : FreshSub source p s) (named : FreshArgs source p args) {next : Nat} :
    Solves db source known
      ((((db.relation r).rules.drop next).zipIdx next).flatMap fun entry =>
        (Skeleton.forests skeletons entry.1.relations).map fun below =>
          (Skeleton.rule entry.2 below).Solution db s r args)
      (.rules r args s next) p := by
  generalize left : (db.relation r).rules.drop next = rest
  induction rest generalizing next p with
  | nil =>
    have none := List.getElem?_eq_none (List.drop_eq_nil_iff.mp left)
    refine .ended (q := p) ?_
    rw [step, none]
  | cons rule rest ih =>
    have found : (db.relation r).rules[next]? = some rule := by
      rw [← List.head?_drop, left, List.head?_cons]
    have beyond : (db.relation r).rules.drop (next + 1) = rest := by
      rw [← List.tail_drop, left, List.tail_cons]
    have stored := List.mem_of_getElem? found
    have use := solves_use plain (fun condition inside => solved condition.1
      (Derivable.depends stored inside)) found knows fresh named
    have opened : step db (.rules r args s next) p =
        (.working (.each (.pending (rule.goal args (Naming.salt (p.nextId source))) s) []
          (.rules r args s (next + 1))), p.advance source) := by
      simp only [step, found, Rule.use_salted (salted r rule stored)]
    rw [List.zipIdx_cons, List.flatMap_cons]
    refine .working opened (use.append fun q after => ?_)
    have later := (p.before_advance source).trans after
    exact ih (knows.later later) (fresh.later later) (named.later later) beyond

/-- Whatever a query asks, its skeletons are solved one after the other. -/
theorem enumerates (plain : db.Plain) (salted : db.Salted source) {rank : RelationId → Nat}
    (ranks : db.Ranks rank) {depth : Nat} {r : RelationId} (deep : rank r < depth) :
    Enumerates db source (db.skeletons depth) r := by
  induction depth generalizing r with
  | zero => cases deep
  | succ depth ih =>
    intro known args s p knows fresh named
    have solved (c : RelationId) (edge : db.Depends r c) :
        Enumerates db source (db.skeletons depth) c := by
      have lower := ranks r c edge
      have shallow : rank c < depth := by omega
      exact ih shallow
    have rules (q : Progress) (before : p.Before q) :
        Solves db source known _ (.rules r args s 0) q :=
      solves_rules plain salted solved (knows.later before) (fresh.later before)
        (named.later before)
    have walk : Solves db source known _ (.facts r args s 0) p :=
      solves_facts plain fresh named rules
    have opened : step db (.pending (.query r args) s) p = (.working (.facts r args s 0), p) := rfl
    simpa [Database.skeletons, List.map_flatMap, Function.comp_def] using
      Solves.working opened walk

end Search

/-- A query over relations that do not depend on themselves ends, and gives exactly one answer for
each skeleton whose equations have a solution, in the order of the skeletons. What an answer says of
the names that are made under no salt is what the equations along its skeleton say. -/
theorem Search.query_enumerates {db : Database}
    (acyclic : ∀ r, ¬Relation.TransGen db.Depends r r) {source : SourceId}
    (salted : db.Salted source) (plain : db.Plain) {p : Progress}
    (inside : source < p.nextIds.length) {s : Substitution} (built : s.Built)
    (sub : s.Named Naming.Plain) (r : RelationId) {args : List Term}
    (named : ∀ term ∈ args, term.Named Naming.Plain) :
    ∃ skeletons answers q, (Search.pending (.query r args) s).Gives db p answers q ∧
      skeletons.Pairwise Skeleton.Precedes ∧ skeletons.Nodup ∧
      (∀ k : Skeleton, k ∈ skeletons ↔ ∃ σ, k.Solution db s r args σ) ∧
      List.Forall₂ (fun (k : Skeleton) (t : Substitution) => ∀ σ : Valuation,
        (∃ τ, σ.Agrees Naming.Plain τ ∧ t.Holds τ) ↔ k.Solution db s r args σ)
        skeletons answers := by
  classical
  obtain ⟨rank, ranks⟩ := Database.exists_ranks acyclic
  have past (name : String) (plain : Naming.Plain name) : Past source p name := plain.not_toCome
  have solves := enumerates plain salted ranks (Nat.lt_succ_self (rank r)) ⟨past, inside⟩
    ⟨built.settled, sub.imp past⟩ fun term member => (named term member).imp past
  obtain ⟨answers, q, gives, fits⟩ := solves.gives
  have order := (db.pairwise_skeletons (rank r + 1) r).filter
    fun k => decide (∃ σ, k.Solution db s r args σ)
  refine ⟨_, answers, q, gives, order, order.imp Skeleton.Precedes.ne, fun k => ?_, ?_⟩
  · rw [List.mem_filter, decide_eq_true_eq]
    refine ⟨And.right, fun solution => ⟨?_, solution⟩⟩
    obtain ⟨σ, _, derives⟩ := solution
    exact Database.mem_skeletons ranks (Nat.lt_succ_self (rank r)) derives
  · refine fits.imp fun k t alike σ => (alike σ).trans ⟨?_, ?_⟩
    · rintro ⟨τ, agrees, solution⟩
      exact solution.agrees agrees.symm plain sub named
    · exact fun solution => ⟨σ, .self _ σ, solution⟩

/-- Parents, the last of them of everyone, and grandparents. -/
def kinship : Database :=
  ⟨[{ name := "parent", arity := some 2
      facts := [[.lit "ann", .lit "bob"], [.lit "bob", .lit "cid"], [.lit "cid", .var "who"]] },
    { name := "grandparent", arity := some 2
      rules := [{
        params := [.var "x", .var "z"]
        conditions := [(0, [.var "x", .var "y"]), (0, [.var "y", .var "z"])]
        source := some 0 }] }]⟩

/-- Ann is a grandparent of Cid because she is a parent of Bob and he is one of Cid. -/
theorem query_enumerates_kinship :
    ∃ (skeletons : List Skeleton) (answers : List Substitution) (q : Progress),
      (Search.pending (.query 1 [.var "c", .var "b"]) .renamed).Gives kinship ⟨[7], []⟩ answers q ∧
      skeletons.length = answers.length ∧ Skeleton.rule 0 [.fact 0, .fact 1] ∈ skeletons := by
  have acyclic (r : RelationId) : ¬Relation.TransGen kinship.Depends r r := by
    intro path
    have layered : kinship.isLayered := by decide
    exact Nat.lt_irrefl _ ((Database.ranks_height layered).lt_of_reaches path)
  have salted : kinship.Salted 0 := by
    rintro (_ | _ | r) rule stored <;> simp_all [kinship, Database.relation]
  have plain {name : String} (slashless : '/' ∉ name.toList) : Naming.Plain name :=
    Naming.plain_of_slashless slashless
  have who : (Term.var "who").Named Naming.Plain := plain (by decide)
  have facts : kinship.Plain := by
    rintro (_ | _ | r) fact stored
    · have listed : fact = [.lit "ann", .lit "bob"] ∨ fact = [.lit "bob", .lit "cid"] ∨
          fact = [.lit "cid", .var "who"] := by simpa [kinship, Database.relation] using stored
      rcases listed with rfl | rfl | rfl
      · simp [Term.Named]
      · simp [Term.Named]
      · exact List.forall_mem_cons.mpr ⟨trivial, List.forall_mem_singleton.mpr who⟩
    · cases stored
    · cases stored
  have built : Substitution.renamed.Built := .extend .empty Substitution.extend_renamed
  have sub : Substitution.renamed.Named Naming.Plain := Substitution.binds_renamed.named
    (Substitution.named_empty _) (plain (by decide)) (plain (by decide))
  have args : ∀ term ∈ [Term.var "c", .var "b"], term.Named Naming.Plain := by
    simp only [List.forall_mem_cons]
    exact ⟨plain (by decide), plain (by decide), by simp⟩
  obtain ⟨skeletons, answers, q, gives, _, _, solved, fits⟩ := Search.query_enumerates acyclic
    salted facts (p := ⟨[7], []⟩) (by decide) built sub 1 args
  refine ⟨skeletons, answers, q, gives, fits.length_eq, (solved _).mpr ?_⟩
  refine ⟨fun name => if name = "b" then "cid" else "ann", ?_, ?_⟩
  · exact (Substitution.holds_renamed _).mpr rfl
  · have derive : Skeleton.DeriveAll kinship (fun name => if name = "b" then "cid" else "ann")
        [.fact 0, .fact 1] [(0, ["ann", "bob"]), (0, ["bob", "cid"])] :=
      ⟨⟨_, rfl, rfl⟩, ⟨_, rfl, rfl⟩, trivial⟩
    exact ⟨_, fun name => if name = "x" then "ann" else if name = "y" then "bob" else "cid", rfl,
      rfl, derive⟩

end Rulebook
