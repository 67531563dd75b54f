import Rulebook.Proofs.Generality
import Rulebook.Proofs.Search.Conjunction

/-! Unifying all at once and pair by pair. The one path stages its bindings in a layer, the other
puts a layer on top for each binding; they look up alike at every point, so they bind the same
variables to the same terms in the same order. -/
namespace Rulebook

theorem Table.entries_put {α : Type} (t : Table α) {key : String} (fresh : t.get? key = none)
    (value : α) : (t.put key value).entries = t.entries ++ [(key, value)] := by
  have appended (entries : List (String × α)) (fresh : getIn key entries = none) :
      putIn key value entries = entries ++ [(key, value)] := by
    induction entries with
    | nil => rfl
    | cons entry rest ih =>
      obtain ⟨k, v⟩ := entry
      by_cases same : k = key
      · simp [getIn, same] at fresh
      · simp only [getIn, same, if_false] at fresh
        simp [putIn, same, ih fresh]
  exact appended t.entries fresh

namespace Substitution

structure Mirrors (u v : Substitution) : Prop where
  lookup : ∀ name, u.lookup name = v.lookup name
  size : u.size = v.size
  bindings : u.bindings = v.bindings

namespace Mirrors
variable {u v s : Substitution} {staged : Table Term}

theorem push_empty (s : Substitution) : s.Mirrors (s.push .empty) where
  lookup name := (lookup_push_empty name).symm
  size := (Nat.zero_add s.size).symm
  bindings := rfl

theorem walk (mirrors : u.Mirrors v) (term : Term) : u.walk term = v.walk term := by
  have follows (n : Nat) : u.follow n term = v.follow n term := by
    induction n generalizing term with
    | zero => cases term <;> rfl
    | succ n ih =>
      cases term with
      | lit value => rfl
      | var name =>
        simp only [follow, mirrors.lookup]
        cases v.lookup name with
        | none => rfl
        | some next => exact ih next
  rw [Substitution.walk, Substitution.walk, mirrors.size, follows]

theorem settled (mirrors : u.Mirrors v) (settled : v.Settled) : u.Settled := by
  intro term
  have arrived := settled term
  rw [mirrors.walk]
  cases reached : v.walk term with
  | lit value => trivial
  | var name =>
    rw [reached] at arrived
    exact (mirrors.lookup name).trans arrived

/-- A binding in a layer of its own mirrors one that is staged. -/
theorem put (mirrors : u.Mirrors (s.push staged)) {name : String} {value : Term}
    (binds : Binds (s.push staged) name value (s.push (staged.put name value)))
    (own : Binds u name value (u.push (Table.empty.put name value))) :
    (u.push (Table.empty.put name value)).Mirrors (s.push (staged.put name value)) where
  lookup other := by rw [own.lookup, binds.lookup, mirrors.lookup]
  size := by rw [own.size, binds.size, mirrors.size]
  bindings := by
    have fresh : staged.get? name = none := by
      have unbound := binds.unbound
      rw [lookup_push, Option.or_eq_none_iff] at unbound
      exact unbound.1
    have single : (u.push (Table.empty.put name value)).bindings = u.bindings.put name value := rfl
    have layered (layer : Table Term) :
        (s.push layer).bindings = s.bindings.putAll layer.entries := rfl
    rw [single, mirrors.bindings, layered, layered, Table.entries_put staged fresh]
    simp only [Table.putAll, List.foldl_append, List.foldl_cons, List.foldl_nil]

end Mirrors

section Unifying
variable {s : Substitution} {target value : Term} {name : String}

/-- A variable that one side comes out as gets a layer of its own. -/
theorem binds_layer (settled : s.Settled) (reached : s.walk target = .var name)
    (different : s.walk target ≠ s.walk value) :
    Binds s name (s.walk value) (s.push (Table.empty.put name (s.walk value))) ∧
      s.extend (.var name) (s.walk value) =
        .ok (some (s.push (Table.empty.put name (s.walk value)))) := by
  have unbound : s.lookup name = none := (reached ▸ settled target : s.Final (.var name))
  have apart : s.walk value ≠ .var name := fun same => different (reached.trans same.symm)
  refine ⟨binds_extend unbound (settled value) apart, ?_⟩
  simp [extend, unbound, occursIn, walk_walk settled, apart]

theorem unify_left (settled : s.Settled) (reached : s.walk target = .var name)
    (different : s.walk target ≠ s.walk value) :
    s.unify target value = .ok (some (s.push (Table.empty.put name (s.walk value)))) := by
  rw [← (binds_layer settled reached different).2, unify]
  simp only [if_neg different]
  rw [reached]

theorem unify_right (settled : s.Settled) {text : String} (literal : s.walk value = .lit text)
    (reached : s.walk target = .var name) :
    s.unify value target = .ok (some (s.push (Table.empty.put name (s.walk value)))) := by
  have different : s.walk target ≠ s.walk value := by simp [reached, literal]
  rw [← (binds_layer settled reached different).2, unify]
  simp only [literal, reached, reduceCtorEq, if_false]

end Unifying
end Substitution

namespace Search
open Substitution
variable {db : Database} {s t u : Substitution} {left right : Term} {p : Progress}

theorem Delivers.gives {search : Search} {answers : List Substitution} {q : Progress}
    (delivers : Delivers db search p answers (some q)) : search.Gives db p answers q := by
  obtain ⟨last, r, run, all⟩ := delivers
  exact ⟨last, r, run, all q rfl⟩

/-- A unification that gives a substitution hands it on to the other goals. -/
theorem composes_unified {goals : List Goal} {answers : List Substitution}
    (unified : s.unify left right = .ok (some t))
    (more : Composes db goals t p answers (some p)) :
    Composes db (.unify left right :: goals) s p answers (some p) := by
  have stepped : (pending (.unify left right) s).step db p = (.answer t .ended, p) := by
    rw [step, enter, unified]
    rfl
  rw [← List.append_nil answers]
  exact .beyond stepped more (.ended rfl)

theorem composes_refused {goals : List Goal} (refused : s.unify left right = .ok none) :
    Composes db (.unify left right :: goals) s p [] (some p) := by
  have stepped : (pending (.unify left right) s).step db p = (.working .ended, p) := by
    rw [step, enter, refused]
    rfl
  exact .working stepped (.ended rfl)

end Search

namespace Substitution
open Search
variable {s t u : Substitution} {left right : Term}

/-- What going through pairs one by one comes to: at most one answer, which mirrors what staging
them comes to and is larger than where it started unless nothing was bound. -/
def Pairwise (u : Substitution) (pairs : List (Term × Term)) (staged : Option Substitution) :
    Prop :=
  ∃ apart : Option Substitution,
    (∀ db p, Composes db (pairs.map fun (a, b) => .unify a b) u p apart.toList (some p)) ∧
    Option.Rel Mirrors apart staged ∧ ∀ t ∈ apart, t = u ∨ u.size < t.size

/-- One pair more in front, for which nothing has to be bound. -/
theorem Pairwise.same {pairs : List (Term × Term)} {staged : Option Substitution}
    (same : u.walk left = u.walk right) (rest : Pairwise u pairs staged) :
    Pairwise u ((left, right) :: pairs) staged := by
  obtain ⟨apart, composes, related, grows⟩ := rest
  have unified : u.unify left right = .ok (some u) := by simp only [unify, same, if_true]
  exact ⟨apart, fun db p => composes_unified unified (composes db p), related, grows⟩

/-- One pair more in front, which binds a variable. -/
theorem Pairwise.bound {pairs : List (Term × Term)} {staged : Option Substitution} {name : String}
    {value : Term} (unified : u.unify left right = .ok (some t)) (binds : Binds u name value t)
    (rest : Pairwise t pairs staged) : Pairwise u ((left, right) :: pairs) staged := by
  obtain ⟨apart, composes, related, grows⟩ := rest
  refine ⟨apart, fun db p => composes_unified unified (composes db p), related, fun v given => ?_⟩
  have larger := binds.size
  rcases grows v given with rfl | grown
  · exact .inr (by omega)
  · exact .inr (by omega)

/-- Going through the pairs one by one mirrors staging them. -/
theorem pairwise_stage (staged : Table Term) (pairs : List (Term × Term))
    (settled : (s.push staged).Settled) : ∀ u : Substitution, u.Mirrors (s.push staged) →
    Pairwise u pairs ((s.stage staged pairs).map s.push) := by
  fun_induction stage s staged pairs with
  | case1 staged =>
    intro u mirrors
    refine ⟨some u, fun db p => composes_nil u p, .some mirrors, ?_⟩
    rintro t ⟨⟩
    exact .inl rfl
  | case2 staged left right rest a b same ih =>
    intro u mirrors
    exact .same (by rwa [mirrors.walk, mirrors.walk]) (ih settled u mirrors)
  | case3 staged left right rest a b different name reached ih =>
    intro u mirrors
    have own : u.walk left = .var name := (mirrors.walk left).trans reached
    have unequal : u.walk left ≠ u.walk right := by rwa [mirrors.walk, mirrors.walk]
    have unified := unify_left (mirrors.settled settled) own unequal
    have layer := (binds_layer (mirrors.settled settled) own unequal).1
    rw [mirrors.walk] at unified layer
    have binds := binds_walk settled reached different
    exact .bound unified layer (ih (binds.settled settled) _ (mirrors.put binds layer))
  | case4 staged left right rest a b different value name found reached ih =>
    intro u mirrors
    have own : u.walk right = .var name := (mirrors.walk right).trans found
    have literal : u.walk left = .lit value := (mirrors.walk left).trans reached
    have unequal : u.walk right ≠ u.walk left := by simp [own, literal]
    have unified := unify_right (mirrors.settled settled) literal own
    have layer := (binds_layer (mirrors.settled settled) own unequal).1
    rw [mirrors.walk] at unified layer
    have binds := binds_walk settled found (Ne.symm different)
    exact .bound unified layer (ih (binds.settled settled) _ (mirrors.put binds layer))
  | case5 staged left right rest a b different value other found reached =>
    intro u mirrors
    have one : u.walk left = .lit value := (mirrors.walk left).trans reached
    have two : u.walk right = .lit other := (mirrors.walk right).trans found
    have unequal : Term.lit value ≠ .lit other := by rwa [← reached, ← found]
    have refused : u.unify left right = .ok none := by simp only [unify, one, two, if_neg unequal]
    refine ⟨none, fun db p => composes_refused refused, .none, ?_⟩
    intro t given
    cases given

/-- Two substitutions over `s` with the same bindings in the same order, counted alike; where they
bind nothing more, both are `s` itself. -/
structure Agree (s t u : Substitution) : Prop where
  bindings : t.bindings = u.bindings
  size : t.size = u.size
  untouched : t.size = s.size → t = s ∧ u = s

/-- What is staged in one layer agrees with what mirrors it. -/
theorem Mirrors.agree {layer : Table Term} (mirrors : u.Mirrors (s.push layer))
    (grows : u = s ∨ s.size < u.size) :
    s.Agree (if layer.entries.isEmpty then s else s.push layer) u := by
  have started (same : u.size = s.size) : u = s := grows.resolve_right (by omega)
  split
  · rename_i nothing
    obtain ⟨entries, nodup⟩ := layer
    cases List.isEmpty_iff.mp nothing
    have same : s.size = u.size := ((Mirrors.push_empty s).size).trans mirrors.size.symm
    exact ⟨mirrors.bindings.symm, same, fun _ => ⟨rfl, started same.symm⟩⟩
  · rename_i something
    refine ⟨mirrors.bindings.symm, mirrors.size.symm, fun same => absurd ?_ something⟩
    rw [size_push] at same
    have empty : layer.entries.length = 0 := by
      change layer.size = 0
      omega
    exact List.isEmpty_iff_length_eq_zero.mpr empty

theorem gives_unifyAll (s : Substitution) (left right : List Term) (db : Database) (p : Progress) :
    (Search.pending (.unifyAll left right) s).Gives db p (s.unifyAll left right).toList p := by
  have stepped : (Search.pending (.unifyAll left right) s).step db p =
    (.ofUnifier (s.unifyAll left right) .ended, p) := rfl
  cases unified : s.unifyAll left right with
  | none =>
    rw [unified] at stepped
    exact (Delivers.working stepped (.ended rfl)).gives
  | some t =>
    rw [unified] at stepped
    exact (Delivers.answer stepped (.ended rfl)).gives

/-- Unifying two lists all at once and position by position, over any database, gives nothing both
times, or one substitution each, and these agree. Where nothing has to be bound, both give back
what they started from. -/
theorem unifyAll_agrees_pairwise (built : s.Built) (left right : List Term)
    (lengths : left.length = right.length) (db : Database) (p : Progress) :
    ∃ together apart : Option Substitution,
      (Search.pending (.unifyAll left right) s).Gives db p together.toList p ∧
      (Search.pending (.all ((left.zip right).map fun (a, b) => .unify a b)) s).Gives db p
        apart.toList p ∧
      Option.Rel s.Agree together apart ∧
      (s.reify left = s.reify right → together = some s ∧ apart = some s) := by
  obtain ⟨apart, composes, related, grows⟩ := pairwise_stage .empty (left.zip right)
    (settled_push_empty built.settled) s (.push_empty s)
  have agree : Option.Rel s.Agree (s.unifyAll left right) apart := by
    rw [unifyAll, if_pos lengths]
    cases staged : s.stage .empty (left.zip right) with
    | none =>
      rw [staged] at related
      cases related
      exact .none
    | some layer =>
      rw [staged, Option.map_some] at related
      cases related with
      | some mirrors => exact .some (mirrors.agree (grows _ rfl))
  refine ⟨s.unifyAll left right, apart, gives_unifyAll s left right db p,
    ((delivers_all_iff _ s p _ _).mpr (composes db p)).gives, agree, fun same => ?_⟩
  have whole := unifyAll_of_reify same
  rw [whole] at agree
  cases agree with
  | some alike => exact ⟨whole, congrArg some (alike.untouched rfl).2⟩

/-- A variable repeated and exchanged for others, one of them bound before. -/
theorem unifyAll_agrees_exchanged : ∃ together apart : Option Substitution,
    (Search.pending (.unifyAll [.var "c", .var "b", .var "d"] [.var "b", .var "a", .var "b"])
      renamed).Gives {} {} together.toList {} ∧
    (Search.pending (.all [.unify (.var "c") (.var "b"), .unify (.var "b") (.var "a"),
      .unify (.var "d") (.var "b")]) renamed).Gives {} {} apart.toList {} ∧
    Option.Rel renamed.Agree together apart := by
  have built : renamed.Built := .extend .empty extend_renamed
  obtain ⟨together, apart, one, other, agree, _⟩ :=
    unifyAll_agrees_pairwise built [.var "c", .var "b", .var "d"] [.var "b", .var "a", .var "b"]
      rfl {} {}
  exact ⟨together, apart, one, other, agree⟩

end Substitution
end Rulebook
