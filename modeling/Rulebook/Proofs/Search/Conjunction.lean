import Rulebook.Proofs.Search.Run

/-! Conjunctions as depth-first composition. A conjunction keeps a stack of live searches and asks
the topmost; what it gives is what nested loops over the goals would give, each answer of the first
goal going through the other goals before the next answer of the first. A goal may be a stream, so
this holds of arbitrary functions to finite or endless sequences of answers. -/
namespace Rulebook
namespace Search
variable {db : Database}

/-- The search gives these answers first. With a progress at which it is over they are all, and it
has ended there; without one, there may be more. -/
def Delivers (db : Database) (search : Search) (p : Progress) (answers : List Substitution)
    (stop : Option Progress) : Prop :=
  ∃ last q, Runs db search p answers last q ∧ ∀ r ∈ stop, last.step db q = (.ended, r)

namespace Delivers
variable {search next : Search} {p q : Progress} {s : Substitution} {answers : List Substitution}
  {stop : Option Progress}

theorem sofar (search : Search) (p : Progress) : Delivers db search p [] none :=
  ⟨search, p, .refl search p, nofun⟩

theorem ended (stepped : search.step db p = (.ended, q)) : Delivers db search p [] (some q) :=
  ⟨search, p, .refl search p, fun _ same => Option.some.inj same ▸ stepped⟩

theorem working (stepped : search.step db p = (.working next, q))
    (more : Delivers db next q answers stop) : Delivers db search p answers stop := by
  obtain ⟨last, r, run, all⟩ := more
  exact ⟨last, r, .working stepped run, all⟩

theorem answer (stepped : search.step db p = (.answer s next, q))
    (more : Delivers db next q answers stop) : Delivers db search p (s :: answers) stop := by
  obtain ⟨last, r, run, all⟩ := more
  exact ⟨last, r, .answer stepped run, all⟩

/-- What a search delivers shows in its first step. -/
theorem first_step (delivers : Delivers db search p answers stop) :
    answers = [] ∧ stop = none ∨
      match search.step db p with
      | (.ended, r) => answers = [] ∧ stop = some r
      | (.working next, r) => Delivers db next r answers stop
      | (.answer s next, r) => ∃ more, answers = s :: more ∧ Delivers db next r more stop
      | (.failed _, _) => False := by
  obtain ⟨last, q, run, all⟩ := delivers
  cases run with
  | refl =>
    cases stop with
    | none => exact .inl ⟨rfl, rfl⟩
    | some r =>
      rw [all r rfl]
      exact .inr ⟨rfl, rfl⟩
  | working stepped run =>
    rw [stepped]
    exact .inr ⟨last, q, run, all⟩
  | answer stepped run =>
    rw [stepped]
    exact .inr ⟨_, rfl, last, q, run, all⟩

theorem of_ended (stepped : search.step db p = (.ended, q))
    (delivers : Delivers db search p answers stop) : answers = [] ∧ ∀ r ∈ stop, r = q := by
  have first := delivers.first_step
  rw [stepped] at first
  rcases first with ⟨none_, rfl⟩ | ⟨none_, rfl⟩
  · exact ⟨none_, nofun⟩
  · exact ⟨none_, fun _ same => (Option.some.inj same).symm⟩

theorem of_working (stepped : search.step db p = (.working next, q))
    (delivers : Delivers db search p answers stop) : Delivers db next q answers stop := by
  have first := delivers.first_step
  rw [stepped] at first
  rcases first with ⟨rfl, rfl⟩ | more
  · exact sofar next q
  · exact more

end Delivers

/-- The answers of a search go through a body one after the other: all that the body makes of one
comes before anything that it makes of the next. -/
inductive Through (db : Database)
    (body : Substitution → Progress → List Substitution → Option Progress → Prop) :
    Search → Progress → List Substitution → Option Progress → Prop where
  | sofar (live p) : Through db body live p [] none
  | ended {live : Search} {p q : Progress} : live.step db p = (.ended, q) →
      Through db body live p [] (some q)
  | working {live next : Search} {p q : Progress} {answers : List Substitution}
      {stop : Option Progress} : live.step db p = (.working next, q) →
      Through db body next q answers stop → Through db body live p answers stop
  | within {live next : Search} {p q : Progress} {s : Substitution}
      {answers : List Substitution} : live.step db p = (.answer s next, q) →
      body s q answers none → Through db body live p answers none
  | beyond {live next : Search} {p q r : Progress} {s : Substitution}
      {answers more : List Substitution} {stop : Option Progress} :
      live.step db p = (.answer s next, q) → body s q answers (some r) →
      Through db body next r more stop → Through db body live p (answers ++ more) stop

/-- Depth-first composition: without goals there is the substitution alone; otherwise each answer of
the first goal goes through the others. -/
def Composes (db : Database) : List Goal → Substitution → Progress → List Substitution →
    Option Progress → Prop
  | [], s, p, answers, stop => answers = [s] ∧ (∀ r ∈ stop, r = p) ∨ answers = [] ∧ stop = none
  | goal :: goals, s, p, answers, stop =>
    Through db (Composes db goals) (.pending goal s) p answers stop

theorem composes_nil (s : Substitution) (p : Progress) : Composes db [] s p [s] (some p) :=
  .inl ⟨rfl, fun _ same => (Option.some.inj same).symm⟩

/-- What follows on answers: as long as they may not be all, nothing; then what `gives` has. -/
def Onward (gives : Progress → List Substitution → Option Progress → Prop) :
    Option Progress → List Substitution → Option Progress → Prop
  | none, answers, stop => answers = [] ∧ stop = none
  | some r, answers, stop => gives r answers stop

/-- What a stack of live searches still gives: what comes of the topmost through the goals above it,
and then what the stack below gives. -/
def Unwinds (db : Database) : Search → Progress → List Substitution → Option Progress → Prop
  | .each live rest below, p, answers, stop => ∃ first mid second,
    Through db (Composes db rest) live p first mid ∧ Onward (Unwinds db below) mid second stop ∧
      answers = first ++ second
  | search, p, answers, stop => Delivers db search p answers stop

section Unwinding
variable {live next below : Search} {rest : List Goal} {p q : Progress} {s : Substitution}
  {answers : List Substitution} {stop : Option Progress}

/-- A stack only comes to its end when it is empty. -/
theorem each_ne_ended : (each live rest below).step db p ≠ (.ended, q) := by
  intro stepped
  rw [step] at stepped
  split at stepped
  · cases stepped
  · cases stepped
  · cases stepped
  · split at stepped
    · cases stepped
    · split at stepped <;> cases stepped

/-- What the goals above make of one answer comes before what they make of the others. -/
theorem Unwinds.made {made : List Substitution} {mid : Option Progress}
    (stepped : live.step db p = (.answer s next, q)) (here : Composes db rest s q made mid)
    (more : Onward (Unwinds db (.each next rest below)) mid answers stop) :
    Unwinds db (.each live rest below) p (made ++ answers) stop := by
  cases mid with
  | none => exact ⟨made, none, answers, .within stepped here, more, rfl⟩
  | some r =>
    obtain ⟨first, mid, second, through, later, rfl⟩ := more
    exact ⟨made ++ first, mid, second, .beyond stepped here through, later,
      (List.append_assoc ..).symm⟩

theorem Unwinds.working {search : Search} (stepped : search.step db p = (.working next, q))
    (delivers : Delivers db next q answers stop) (more : Unwinds db next q answers stop) :
    Unwinds db search p answers stop := by
  cases search with
  | each live rest below =>
    rw [step] at stepped
    split at stepped
    · rename_i worked
      cases stepped
      obtain ⟨first, mid, second, through, later, rfl⟩ := more
      exact ⟨first, mid, second, .working worked through, later, rfl⟩
    · rename_i ended
      cases stepped
      exact ⟨[], some _, answers, .ended ended, more, rfl⟩
    · cases stepped
    · rename_i answered
      split at stepped
      · cases stepped
      · split at stepped
        · cases stepped
        · rename_i started
          cases stepped
          rw [start_eq started] at more
          obtain ⟨made, mid, others, through, later, rfl⟩ := more
          exact .made answered through later
  | _ => exact delivers.working stepped

theorem Unwinds.answer {search : Search} (stepped : search.step db p = (.answer s next, q))
    (delivers : Delivers db next q answers stop) (more : Unwinds db next q answers stop) :
    Unwinds db search p (s :: answers) stop := by
  cases search with
  | each live rest below =>
    rw [step] at stepped
    split at stepped
    · cases stepped
    · cases stepped
    · cases stepped
    · rename_i answered
      split at stepped
      · cases stepped
        exact .made answered (composes_nil ..) more
      · split at stepped <;> cases stepped
  | _ => exact delivers.answer stepped

/-- What a search delivers is what its stack gives level by level. -/
theorem Delivers.unwinds {search : Search} (delivers : Delivers db search p answers stop) :
    Unwinds db search p answers stop := by
  obtain ⟨last, q, run, all⟩ := delivers
  induction run with
  | refl search p =>
    cases search with
    | each live rest below =>
      cases stop with
      | none => exact ⟨[], none, [], .sofar live p, ⟨rfl, rfl⟩, rfl⟩
      | some r => exact absurd (all r rfl) each_ne_ended
    | _ => exact ⟨_, _, .refl _ _, all⟩
  | working stepped run ih => exact .working stepped ⟨_, _, run, all⟩ (ih all)
  | answer stepped run ih => exact .answer stepped ⟨_, _, run, all⟩ (ih all)

/-- Nothing comes of a goal that cannot be searched. -/
theorem Through.searchable
    {body : Substitution → Progress → List Substitution → Option Progress → Prop}
    {goal : Goal} (through : Through db body (.pending goal s) p answers stop) :
    goal.isSearchable ∨ answers = [] ∧ stop = none := by
  cases goal with
  | unsearchable =>
    cases through with
    | sofar => exact .inr ⟨rfl, rfl⟩
    | ended stepped | working stepped | within stepped | beyond stepped => cases stepped
  | _ => exact .inl rfl

/-- What comes of the topmost search through the goals above it is delivered if what comes of each
answer is, and after it what the stack below delivers. -/
theorem delivers_through {first second : List Substitution} {mid : Option Progress}
    (one : ∀ {live next p q s made mid answers stop}, live.step db p = (.answer s next, q) →
      Composes db rest s q made mid →
      Onward (Delivers db (.each next rest below)) mid answers stop →
      Delivers db (.each live rest below) p (made ++ answers) stop)
    (through : Through db (Composes db rest) live p first mid)
    (later : Onward (Delivers db below) mid second stop) :
    Delivers db (.each live rest below) p (first ++ second) stop := by
  induction through with
  | sofar live p =>
    obtain ⟨rfl, rfl⟩ := later
    exact .sofar _ p
  | ended stepped => exact .working (by rw [step, stepped]) later
  | working stepped _ ih => exact .working (by rw [step, stepped]) (ih later)
  | within stepped here => exact one stepped here later
  | beyond stepped here _ ih =>
    rw [List.append_assoc]
    exact one stepped here (ih later)

theorem delivers_each {first second : List Substitution} {mid : Option Progress}
    (through : Through db (Composes db rest) live p first mid)
    (later : Onward (Delivers db below) mid second stop) :
    Delivers db (.each live rest below) p (first ++ second) stop := by
  -- On the goals above the topmost search: without any its answers are handed out, otherwise each of
  -- them opens a level with one goal less above it, and what is below that level is this one again.
  induction rest generalizing live below p first mid second stop with
  | nil =>
    refine delivers_through (fun {live next p q s made mid answers stop} stepped here more => ?_)
      through later
    have answered : (each live [] below).step db p = (.answer s (.each next [] below), q) := by
      rw [step, stepped]
    rcases here with ⟨rfl, same⟩ | ⟨rfl, rfl⟩
    · cases mid with
      | none =>
        obtain ⟨rfl, rfl⟩ := more
        exact .answer answered (.sofar _ q)
      | some r =>
        obtain rfl := same r rfl
        exact .answer answered more
    · obtain ⟨rfl, rfl⟩ := more
      exact .sofar _ p
  | cons goal goals deeper =>
    refine delivers_through (fun {live next p q s made mid answers stop} stepped here more => ?_)
      through later
    rcases Through.searchable here with searchable | ⟨rfl, rfl⟩
    · have opened : (each live (goal :: goals) below).step db p =
          (.working (.each (.pending goal s) goals (.each next (goal :: goals) below)), q) := by
        rw [step, stepped]
        simp only [start, searchable, if_true]
      exact .working opened (deeper here more)
    · obtain ⟨rfl, rfl⟩ := more
      exact .sofar _ p

end Unwinding

/-- What is complete has also come so far. -/
theorem Through.open {body : Substitution → Progress → List Substitution → Option Progress → Prop}
    {live : Search} {p r : Progress} {answers : List Substitution}
    (through : Through db body live p answers (some r)) : Through db body live p answers none := by
  generalize whole : some r = stop at through
  induction through with
  | sofar | within => cases whole
  | ended => exact .sofar _ _
  | working stepped _ ih => exact .working stepped (ih whole)
  | beyond stepped here _ ih => exact .beyond stepped here (ih whole)

/-- A single level delivers just what comes through the goals above it. -/
theorem delivers_single_iff {live : Search} {rest : List Goal} {p : Progress}
    {answers : List Substitution} {stop : Option Progress} :
    Delivers db (.each live rest .ended) p answers stop ↔
      Through db (Composes db rest) live p answers stop := by
  constructor
  · intro delivers
    obtain ⟨first, mid, second, through, later, rfl⟩ := delivers.unwinds
    cases mid with
    | none =>
      obtain ⟨rfl, rfl⟩ := later
      rwa [List.append_nil]
    | some r =>
      obtain ⟨rfl, same⟩ := Delivers.of_ended rfl later
      rw [List.append_nil]
      cases stop with
      | none => exact through.open
      | some q => rwa [same q rfl]
  · intro through
    rw [← List.append_nil answers]
    cases stop with
    | none => exact delivers_each through ⟨rfl, rfl⟩
    | some r => exact delivers_each through (.ended rfl)

/-- A conjunction delivers what the depth-first composition of its goals gives. -/
theorem delivers_all_iff (goals : List Goal) (s : Substitution) (p : Progress)
    (answers : List Substitution) (stop : Option Progress) :
    Delivers db (.pending (.all goals) s) p answers stop ↔ Composes db goals s p answers stop := by
  cases goals with
  | nil =>
    constructor
    · intro delivers
      rcases delivers.first_step with nothing | ⟨more, rfl, later⟩
      · exact .inr nothing
      · obtain ⟨rfl, same⟩ := later.of_ended rfl
        exact .inl ⟨rfl, same⟩
    · rintro (⟨rfl, same⟩ | ⟨rfl, rfl⟩)
      · cases stop with
        | none => exact .answer rfl (.sofar _ p)
        | some r =>
          obtain rfl := same r rfl
          exact .answer rfl (.ended rfl)
      · exact .sofar _ p
  | cons goal goals =>
    by_cases searchable : goal.isSearchable
    · have opened : (pending (.all (goal :: goals)) s).step db p =
          (.working (.each (.pending goal s) goals .ended), p) := by
        simp only [step, enter, start, searchable, if_true]
      exact ⟨fun delivers => delivers_single_iff.mp (delivers.of_working opened),
        fun through => .working opened (delivers_single_iff.mpr through)⟩
    · have refused : (pending (.all (goal :: goals)) s).step db p = (.failed .noSearch, p) := by
        simp only [step, enter, start, searchable, if_false, Bool.false_eq_true]
      constructor
      · intro delivers
        have first := delivers.first_step
        rw [refused] at first
        obtain ⟨rfl, rfl⟩ := first.resolve_right id
        exact .sofar _ p
      · intro through
        obtain ⟨rfl, rfl⟩ := (Through.searchable through).resolve_left searchable
        exact .sofar _ p

/-- The search has been taken up again and again, whatever ids others used up in between; so far it
has given these answers, and this is left of it. -/
inductive Continues (db : Database) (search : Search) : List Substitution → Search → Prop where
  | untouched : Continues db search [] search
  | working {p q : Progress} {given : List Substitution} {last next : Search} :
      Continues db search given last → last.step db p = (.working next, q) →
      Continues db search given next
  | answer {p q : Progress} {given : List Substitution} {last next : Search} {s : Substitution} :
      Continues db search given last → last.step db p = (.answer s next, q) →
      Continues db search (given ++ [s]) next

/-- A stack of live searches for the first goals, one for each up to where `rest` begins, of which
the topmost has given `given`. The lowest started from `s`, and each one above it from the answer
that the one below it gave last. -/
inductive Stack (db : Database) (s : Substitution) :
    List Goal → Search → List Goal → List Substitution → Prop where
  | lowest {goal : Goal} {rest : List Goal} {live : Search} {given : List Substitution} :
      Continues db (.pending goal s) given live →
      Stack db s (goal :: rest) (.each live rest .ended) rest given
  | above {goals rest : List Goal} {goal : Goal} {live below : Search} {t : Substitution}
      {given asked : List Substitution} : Stack db s goals below (goal :: rest) (asked ++ [t]) →
      Continues db (.pending goal t) given live →
      Stack db s goals (.each live rest below) rest given

def levels : Search → Nat
  | .each _ _ below => below.levels + 1
  | _ => 0

section Stacks
variable {s : Substitution} {goals rest : List Goal} {search : Search} {given : List Substitution}
  {p : Progress}

/-- There is one level for each goal before the rest. -/
theorem Stack.levels (stack : Stack db s goals search rest given) :
    search.levels + rest.length = goals.length := by
  induction stack with
  | lowest => simp only [Search.levels, List.length_cons, Nat.zero_add, Nat.add_comm]
  | above _ _ ih =>
    rw [List.length_cons] at ih
    simp only [Search.levels]
    omega

/-- The search at some moment: not begun, at its end, or a stack in order. -/
def Stacked (db : Database) (s : Substitution) (goals : List Goal) (search : Search) : Prop :=
  search = .pending (.all goals) s ∨ search = .ended ∨
    ∃ rest given, Stack db s goals search rest given

/-- The topmost search of a stack may go on while what is below it stays. -/
theorem Stack.top (stack : Stack db s goals search rest given) :
    ∃ live below goal t, search = .each live rest below ∧
      Continues db (.pending goal t) given live ∧
      (∀ {next more}, Continues db (.pending goal t) more next →
        Stack db s goals (.each next rest below) rest more) ∧ Stacked db s goals below := by
  cases stack with
  | lowest came => exact ⟨_, _, _, _, rfl, came, .lowest, .inr (.inl rfl)⟩
  | above stack came => exact ⟨_, _, _, _, rfl, came, .above stack, .inr (.inr ⟨_, _, stack⟩)⟩

theorem Stack.step (stack : Stack db s goals search rest given) {next : Search}
    (left : (search.step db p).1.rest? = some next) : Stacked db s goals next := by
  obtain ⟨live, below, goal, t, rfl, came, renewed, under⟩ := stack.top
  rw [Search.step] at left
  split at left
  · rename_i worked
    cases left
    exact .inr (.inr ⟨rest, given, renewed (came.working worked)⟩)
  · cases left
    exact under
  · cases left
  · rename_i answered
    have answering := renewed (came.answer answered)
    split at left
    · cases left
      exact .inr (.inr ⟨_, _, answering⟩)
    · split at left
      · cases left
      · rename_i started
        cases left
        rw [start_eq started]
        exact .inr (.inr ⟨_, _, .above answering .untouched⟩)

theorem Stacked.step (stacked : Stacked db s goals search) {next : Search}
    (left : (search.step db p).1.rest? = some next) : Stacked db s goals next := by
  rcases stacked with rfl | rfl | ⟨rest, given, stack⟩
  · cases goals with
    | nil =>
      cases left
      exact .inr (.inl rfl)
    | cons goal goals =>
      rw [Search.step, enter] at left
      split at left
      · cases left
      · rename_i started
        cases left
        rw [start_eq started]
        exact .inr (.inr ⟨_, _, .lowest .untouched⟩)
  · cases left
  · exact stack.step left

theorem Continues.stacked {last : Search} {answers : List Substitution}
    (came : Continues db (.pending (.all goals) s) answers last) : Stacked db s goals last := by
  induction came with
  | untouched => exact .inl rfl
  | working _ stepped ih | answer _ stepped ih => exact ih.step (by rw [stepped]; rfl)

end Stacks

/-- For any goals, a conjunction gives what their depth-first composition does, so far and to the
end, if it has one. At every moment, also where it was interrupted, it keeps at most one live search
for each goal, begun for an answer that the goal before had already given. -/
theorem all_composes (db : Database) (goals : List Goal) (s : Substitution) (p : Progress) :
    (∀ answers stop, Delivers db (.pending (.all goals) s) p answers stop ↔
      Composes db goals s p answers stop) ∧
    ∀ answers last, Continues db (.pending (.all goals) s) answers last →
      last = .pending (.all goals) s ∨ last = .ended ∨ ∃ rest given,
        Stack db s goals last rest given ∧ last.levels + rest.length = goals.length := by
  refine ⟨delivers_all_iff goals s p, fun answers last came => ?_⟩
  rcases came.stacked with initial | ended | ⟨rest, given, stack⟩
  · exact .inl initial
  · exact .inr (.inl ended)
  · exact .inr (.inr ⟨rest, given, stack, stack.levels⟩)

end Search
end Rulebook
