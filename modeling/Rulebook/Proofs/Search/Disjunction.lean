import Mathlib.Data.List.ReduceOption
import Mathlib.Data.Nat.Nth
import Mathlib.Data.Prod.Lex
import Mathlib.Data.Seq.Basic
import Rulebook.Proofs.Search.Conjunction
import Rulebook.Proofs.Search.Invariant

/-! Disjunctions as fair interleavings. The branches of a disjunction wait in a queue: the first is
asked for one answer and goes to the back, or drops out when it has ended. What comes out are the
answers of all branches, round by round, and in each round by branch. The turns are counted through:
of `n` branches, branch `i` has turn `r * n + i` in round `r`, also when it has dropped out. -/
namespace Rulebook
namespace Search
open Stream' (Seq)
variable {α : Type}

def sequenceOf (elements : Nat → Option α)
    (stops : ∀ k, elements k = none → elements (k + 1) = none) : Seq α :=
  ⟨elements, fun {k} => stops k⟩

theorem get?_sequenceOf {elements : Nat → Option α}
    {stops : ∀ k, elements k = none → elements (k + 1) = none} (k : Nat) :
    (sequenceOf elements stops).get? k = elements k := rfl

/-- What the branch whose turn it is has to give. -/
def due (sequences : List (Seq α)) (turn : Nat) : Option α :=
  sequences[turn % sequences.length]?.bind (·.get? (turn / sequences.length))

/-- How many turns before this one something was due in. -/
def given (sequences : List (Seq α)) (turn : Nat) : Nat :=
  Nat.count (fun turn => (due sequences turn).isSome) turn

section Turns
variable {sequences : List (Seq α)} {b : Seq α} {a : α} {k turn later r i : Nat}

theorem lt_length_of_branch (branch : sequences[i]? = some b) : i < sequences.length :=
  (List.getElem?_eq_some_iff.mp branch).1

/-- The round in which a turn comes. -/
theorem round_of_turn {n : Nat} (inside : i < n) (r : Nat) : (r * n + i) / n = r := by
  rw [Nat.mul_comm, Nat.mul_add_div (Nat.zero_lt_of_lt inside), Nat.div_eq_of_lt inside,
    Nat.add_zero]

theorem due_place (branch : sequences[i]? = some b) (r : Nat) :
    due sequences (r * sequences.length + i) = b.get? r := by
  have inside := lt_length_of_branch branch
  rw [due, Nat.mul_add_mod_of_lt inside, branch, Option.bind_some, round_of_turn inside]

/-- Once a branch has nothing to give, it has nothing a round later. -/
theorem due_next_round (nothing : due sequences turn = none) :
    due sequences (turn + sequences.length) = none := by
  rw [due, Nat.add_mod_right]
  cases branch : sequences[turn % sequences.length]? with
  | none => rfl
  | some b =>
    rw [due, branch] at nothing
    rw [Nat.add_div_right turn (Nat.zero_lt_of_lt (lt_length_of_branch branch))]
    exact b.le_stable (Nat.le_succ _) nothing

theorem given_succ_of_some (element : due sequences turn = some a) :
    given sequences (turn + 1) = given sequences turn + 1 := by
  rw [given, Nat.count_succ, element]
  rfl

theorem given_succ_of_none (nothing : due sequences turn = none) :
    given sequences (turn + 1) = given sequences turn := by
  rw [given, Nat.count_succ, nothing]
  rfl

theorem given_mono (le : turn ≤ later) : given sequences turn ≤ given sequences later :=
  Nat.count_monotone _ le

theorem given_lt (element : due sequences turn = some a) (less : turn < later) :
    given sequences turn < given sequences later := by
  rw [← Nat.succ_le_iff, ← Nat.add_one, ← given_succ_of_some element]
  exact given_mono less

noncomputable def turns (sequences : List (Seq α)) : Seq Nat :=
  open Classical in
  sequenceOf (fun k => if ∃ turn, k < given sequences turn then
      some (Nat.nth (fun turn => (due sequences turn).isSome) k) else none) <| by
    intro k nothing
    simp only [ite_eq_right_iff, reduceCtorEq, imp_false, not_exists, not_lt] at nothing ⊢
    exact fun turn => (nothing turn).trans (Nat.le_succ k)

theorem get?_turns :
    (turns sequences).get? k = some turn ↔
      ∃ a, due sequences turn = some a ∧ given sequences turn = k := by
  rw [exists_and_right, ← Option.isSome_iff_exists, turns, get?_sequenceOf]
  constructor
  · intro found
    split at found
    · rename_i more
      cases found
      obtain ⟨bound, more⟩ := more
      have enough (finite : (Set.ofPred fun turn => (due sequences turn).isSome = true).Finite) :
          k < finite.toFinset.card := more.trans_le (Nat.count_le_card finite bound)
      exact ⟨Nat.nth_mem k enough, Nat.count_nth enough⟩
    · cases found
  · rintro ⟨something, rfl⟩
    obtain ⟨a, element⟩ := Option.isSome_iff_exists.mp something
    rw [if_pos ⟨turn + 1, given_lt element (Nat.lt_succ_self turn)⟩]
    exact congrArg some (Nat.nth_count something)

noncomputable def merged (sequences : List (Seq α)) : Seq α :=
  sequenceOf (fun k => ((turns sequences).get? k).bind (due sequences)) <| by
    intro k nothing
    cases found : (turns sequences).get? k with
    | none => rw [(turns sequences).le_stable (Nat.le_succ k) found, Option.bind_none]
    | some turn =>
      obtain ⟨a, element, -⟩ := get?_turns.mp found
      rw [found, Option.bind_some, element] at nothing
      cases nothing

theorem get?_merged_given (element : due sequences turn = some a) :
    (merged sequences).get? (given sequences turn) = some a := by
  rw [merged, get?_sequenceOf, get?_turns.mpr ⟨a, element, rfl⟩, Option.bind_some, element]

theorem get?_merged_eq_none (nothing : ∀ later ≥ turn, due sequences later = none) :
    (merged sequences).get? (given sequences turn) = none := by
  rw [merged, get?_sequenceOf]
  cases found : (turns sequences).get? (given sequences turn) with
  | none => rfl
  | some last =>
    obtain ⟨a, element, same⟩ := get?_turns.mp found
    rcases Nat.lt_or_ge last turn with earlier | beyond
    · exact absurd same (Nat.ne_of_lt (given_lt element earlier))
    · rw [nothing last beyond] at element
      cases element

end Turns

/-- The merged sequence has the elements of all the sequences, each from its place `(r, i)`, which
is that of element `r` of sequence `i`. -/
structure Interleaves (sequences : List (Seq α)) (places : Seq (Nat × Nat)) (merged : Seq α) :
    Prop where
  /-- Everything comes from some place. -/
  element : ∀ k, merged.get? k = (places.get? k).bind fun place =>
    sequences[place.2]?.bind (·.get? place.1)
  /-- A place is one of some element. -/
  inside : ∀ k r i, places.get? k = some (r, i) → ∃ b a, sequences[i]? = some b ∧ b.get? r = some a
  /-- No element is lost, and what comes before it is bounded. -/
  complete : ∀ i b r a, sequences[i]? = some b → b.get? r = some a →
    ∃ k ≤ r * sequences.length + i, places.get? k = some (r, i)
  /-- Each comes once, in lexicographic order. -/
  ordered : ∀ j k first second, j < k → places.get? j = some first → places.get? k = some second →
    toLex first < toLex second
  ends : merged.Terminates ↔ ∀ b ∈ sequences, b.Terminates

section Merging
variable {sequences : List (Seq α)}

theorem exists_terminated (all : ∀ b ∈ sequences, b.Terminates) :
    ∃ round, ∀ b ∈ sequences, b.get? round = none := by
  induction sequences with
  | nil => exact ⟨0, nofun⟩
  | cons b others ih =>
    obtain ⟨⟨first, closed⟩, later⟩ := List.forall_mem_cons.mp all
    obtain ⟨second, others⟩ := ih later
    refine ⟨max first second, List.forall_mem_cons.mpr ⟨b.le_stable (le_max_left ..) closed, ?_⟩⟩
    exact fun b inside => b.le_stable (le_max_right ..) (others b inside)

/-- An endless sequence has given an element in every round. -/
theorem le_given {b : Seq α} {i : Nat} (branch : sequences[i]? = some b)
    (endless : ¬b.Terminates) (r : Nat) : r ≤ given sequences (r * sequences.length + i) := by
  have inside := lt_length_of_branch branch
  induction r with
  | zero => exact Nat.zero_le _
  | succ r ih =>
    obtain ⟨a, element⟩ := Option.isSome_iff_exists.mp (Seq.not_terminates_iff.mp endless r)
    have later : r * sequences.length + i < (r + 1) * sequences.length + i := by
      rw [Nat.succ_mul]
      omega
    exact ih.trans_lt (given_lt ((due_place branch r).trans element) later)

theorem merged_terminates_iff :
    (merged sequences).Terminates ↔ ∀ b ∈ sequences, b.Terminates := by
  constructor
  · rintro ⟨bound, closed⟩ b member
    by_contra endless
    obtain ⟨i, branch⟩ := List.mem_iff_getElem?.mp member
    -- An endless sequence alone gives more than all the elements that were merged.
    obtain ⟨a, element⟩ := Option.isSome_iff_exists.mp (Seq.not_terminates_iff.mp endless bound)
    have found := get?_merged_given ((due_place branch bound).trans element)
    rw [(merged sequences).le_stable (le_given branch endless bound) closed] at found
    cases found
  · intro all
    obtain ⟨round, closed⟩ := exists_terminated all
    refine ⟨given sequences (round * sequences.length), get?_merged_eq_none fun later beyond => ?_⟩
    rw [due]
    cases branch : sequences[later % sequences.length]? with
    | none => rfl
    | some b =>
      have inside := lt_length_of_branch branch
      have past : round ≤ later / sequences.length :=
        (Nat.le_div_iff_mul_le (Nat.zero_lt_of_lt inside)).mpr beyond
      exact b.le_stable past (closed b (List.mem_of_getElem? branch))

theorem lex_of_lt {n c d : Nat} (less : c < d) :
    toLex (c / n, c % n) < toLex (d / n, d % n) := by
  rw [Prod.Lex.toLex_lt_toLex]
  rcases Nat.lt_or_eq_of_le (Nat.div_le_div_right (c := n) less.le) with earlier | same
  · exact .inl earlier
  · have first := Nat.div_add_mod c n
    have second := Nat.div_add_mod d n
    rw [same] at first
    exact .inr ⟨same, by omega⟩

theorem interleaves_merged (sequences : List (Seq α)) :
    Interleaves sequences
      ((turns sequences).map fun turn => (turn / sequences.length, turn % sequences.length))
      (merged sequences) where
  element k := by
    rw [Seq.map_get?, Option.bind_map]
    rfl
  inside k r i found := by
    rw [Seq.map_get?, Option.map_eq_some_iff] at found
    obtain ⟨turn, found, same⟩ := found
    cases same
    obtain ⟨a, element, -⟩ := get?_turns.mp found
    obtain ⟨b, branch, element⟩ := Option.bind_eq_some_iff.mp element
    exact ⟨b, a, branch, element⟩
  complete i b r a branch element := by
    have inside := lt_length_of_branch branch
    have found := get?_turns.mpr ⟨a, (due_place branch r).trans element, rfl⟩
    refine ⟨given sequences (r * sequences.length + i), Nat.count_le _, ?_⟩
    rw [Seq.map_get?, found, Option.map_some, round_of_turn inside, Nat.mul_add_mod_of_lt inside]
  ordered j k first second less firstFound secondFound := by
    rw [Seq.map_get?, Option.map_eq_some_iff] at firstFound secondFound
    obtain ⟨c, firstFound, rfl⟩ := firstFound
    obtain ⟨d, secondFound, rfl⟩ := secondFound
    obtain ⟨-, -, rfl⟩ := get?_turns.mp firstFound
    obtain ⟨-, -, rfl⟩ := get?_turns.mp secondFound
    exact lex_of_lt (Nat.lt_of_count_lt_count less)
  ends := merged_terminates_iff

end Merging

variable {db : Database} {fits : α → Substitution → Prop}

/-- Asked for its next answer, the search gives it, with what is left, or has no more. -/
inductive Pulls (db : Database) :
    Search → Progress → Option (Substitution × Search) → Progress → Prop where
  | answer {search rest : Search} {p q : Progress} {s : Substitution} :
      search.step db p = (.answer s rest, q) → Pulls db search p (some (s, rest)) q
  | ended {search : Search} {p q : Progress} :
      search.step db p = (.ended, q) → Pulls db search p none q
  | working {search next : Search} {p q r : Progress} {found : Option (Substitution × Search)} :
      search.step db p = (.working next, q) → Pulls db next q found r → Pulls db search p found r

theorem Pulls.before {search : Search} {p q : Progress} {found : Option (Substitution × Search)}
    (pulls : Pulls db search p found q) : p.Before q := by
  induction pulls with
  | answer stepped | ended stepped => exact before_of_step stepped
  | working stepped _ ih => exact (before_of_step stepped).trans ih

/-- The next pull has what the sequence begins with, and leaves what has the rest of it. -/
def Asked (db : Database) (fits : α → Substitution → Prop)
    (left : Seq α → Search → Progress → Prop) (b : Seq α) (search : Search) (p : Progress) : Prop :=
  match b.head with
  | none => ∃ q, Pulls db search p none q
  | some a => ∃ s rest q, Pulls db search p (some (s, rest)) q ∧ fits a s ∧ left b.tail rest q

/-- Pulled again and again, the search gives answers that fit the elements of the sequence, one by
one, and ends when it does. Before each pull others may have used up ids. An answer can fit by being
the element, or by having its values, as the names that a search mints depend on these ids. -/
def Produces (db : Database) (fits : α → Substitution → Prop) (b : Seq α) (search : Search)
    (p : Progress) : Prop :=
  ∃ left : Seq α → Search → Progress → Prop, left b search p ∧
    ∀ b search p, left b search p → ∀ q, p.Before q → Asked db fits left b search q

section Producing
variable {left more : Seq α → Search → Progress → Prop} {b : Seq α} {search : Search}
  {p q : Progress}

theorem Asked.imp (asked : Asked db fits left b search p)
    (implies : ∀ b search p, left b search p → more b search p) :
    Asked db fits more b search p := by
  unfold Asked at asked ⊢
  split at asked
  · exact asked
  · obtain ⟨s, rest, q, pulls, fit, others⟩ := asked
    exact ⟨s, rest, q, pulls, fit, implies _ _ _ others⟩

theorem Produces.asked (produces : Produces db fits b search p) (before : p.Before q) :
    Asked db fits (Produces db fits) b search q := by
  obtain ⟨left, first, closed⟩ := produces
  exact (closed b search p first q before).imp fun b search p others => ⟨left, others, closed⟩

theorem produces_of_asked
    (asked : ∀ q, p.Before q → Asked db fits (Produces db fits) b search q) :
    Produces db fits b search p := by
  refine ⟨fun b search p => ∀ q, p.Before q → Asked db fits (Produces db fits) b search q,
    asked, ?_⟩
  intro b search p asked q before
  exact (asked q before).imp fun b search p produces r after => produces.asked after

theorem Produces.later (produces : Produces db fits b search p) (before : p.Before q) :
    Produces db fits b search q :=
  produces_of_asked fun _ after => produces.asked (before.trans after)

/-- Only what can be searched produces anything. -/
theorem Produces.searchable {goal : Goal} {s : Substitution}
    (produces : Produces db fits b (.pending goal s) p) : goal.isSearchable := by
  have asked := produces.asked (.refl p)
  cases goal with
  | unsearchable =>
    unfold Asked at asked
    split at asked
    · obtain ⟨q, pulls⟩ := asked
      cases pulls with
      | ended stepped | working stepped => cases stepped
    · obtain ⟨s, rest, q, pulls, -⟩ := asked
      cases pulls with
      | answer stepped | working stepped => cases stepped
  | _ => rfl

theorem Asked.working {next : Search} (stepped : search.step db p = (.working next, q))
    (asked : Asked db fits left b next q) : Asked db fits left b search p := by
  unfold Asked at asked ⊢
  split at asked
  · obtain ⟨r, pulls⟩ := asked
    exact ⟨r, .working stepped pulls⟩
  · obtain ⟨s, rest, r, pulls, found⟩ := asked
    exact ⟨s, rest, r, .working stepped pulls, found⟩

theorem Produces.working {next : Search} (stepped : ∀ q, search.step db q = (.working next, q))
    (produces : Produces db fits b next p) : Produces db fits b search p :=
  produces_of_asked fun q before => (produces.asked before).working (stepped q)

/-- A stream produces its sequence. -/
theorem produces_stream {answers : Substitution → Nat → Option Substitution} {s : Substitution}
    {b : Seq Substitution} (same : ∀ k, answers s k = b.get? k) (p : Progress) :
    Produces db Eq b (.pending (.stream answers) s) p := by
  have streaming : Produces db Eq b (.streaming answers s 0) p := by
    refine ⟨fun rest search _ => ∃ k, rest = b.drop k ∧ search = .streaming answers s k,
      ⟨0, rfl, rfl⟩, ?_⟩
    rintro _ _ - ⟨k, rfl, rfl⟩ q -
    unfold Asked
    rw [Seq.head_dropn, ← same]
    cases found : answers s k with
    | none => exact ⟨q, .ended (by simp only [step, found])⟩
    | some t =>
      exact ⟨t, _, q, .answer (by simp only [step, found]), rfl, k + 1, rfl, rfl⟩
  exact streaming.working fun _ => rfl

end Producing

section Rounds
variable {first rest : Search} {others : List Search} {p q r : Progress} {s : Substitution}
  {found : Option (Substitution × Search)}

/-- The branch that gives an answer goes to the back. -/
theorem Pulls.round_answer (pulls : Pulls db first p (some (s, rest)) q) :
    Pulls db (.round (first :: others)) p (some (s, .round (others ++ [rest]))) q := by
  generalize answered : some (s, rest) = found at pulls
  induction pulls with
  | answer stepped =>
    cases answered
    exact .answer (by rw [step, stepped])
  | ended => cases answered
  | working stepped _ ih => exact .working (by rw [step, stepped]) (ih answered)

/-- The branch that has no more drops out, and the others are asked. -/
theorem Pulls.round_ended (pulls : Pulls db first p none q)
    (asked : Pulls db (.round others) q found r) :
    Pulls db (.round (first :: others)) p found r := by
  generalize nothing : none = more at pulls
  induction pulls with
  | answer => cases nothing
  | ended stepped => exact .working (by rw [step, stepped]) asked
  | working stepped _ ih => exact .working (by rw [step, stepped]) (ih asked nothing)

end Rounds

/-- Where a branch stands before its turn: with what is left of its search, or dropped out. -/
def Stands (db : Database) (fits : α → Substitution → Prop) (sequences : List (Seq α))
    (p : Progress) (turn : Nat) : Option Search → Prop
  | none => due sequences turn = none
  | some search => ∃ b, sequences[turn % sequences.length]? = some b ∧
    Produces db fits (b.drop (turn / sequences.length)) search p

def Rotation (db : Database) (fits : α → Substitution → Prop) (sequences : List (Seq α))
    (p : Progress) (turn : Nat) (branches : List (Option Search)) : Prop :=
  List.Forall₂ (Stands db fits sequences p) (List.range' turn sequences.length) branches

section Rotating
variable {sequences : List (Seq α)} {p q : Progress} {turn : Nat} {branch : Option Search}
  {branches : List (Option Search)} {a : α}

theorem Stands.later (stands : Stands db fits sequences p turn branch) (before : p.Before q) :
    Stands db fits sequences q turn branch := by
  cases branch with
  | none => exact stands
  | some search =>
    obtain ⟨b, here, produces⟩ := stands
    exact ⟨b, here, produces.later before⟩

theorem Stands.asked {search : Search} (stands : Stands db fits sequences p turn (some search)) :
    match due sequences turn with
    | none => ∃ q, Pulls db search p none q
    | some a => ∃ s rest q, Pulls db search p (some (s, rest)) q ∧ fits a s ∧
      Stands db fits sequences q (turn + sequences.length) (some rest) := by
  obtain ⟨b, here, produces⟩ := stands
  have positive : 0 < sequences.length := Nat.zero_lt_of_lt (lt_length_of_branch here)
  have asked := produces.asked (.refl p)
  rw [Asked, Seq.head_dropn] at asked
  rw [due, here, Option.bind_some]
  split at asked
  · exact asked
  · obtain ⟨s, rest, q, pulls, fit, others⟩ := asked
    refine ⟨s, rest, q, pulls, fit, b, ?_, ?_⟩
    · rwa [Nat.add_mod_right]
    · rwa [Nat.add_div_right turn positive]

theorem Rotation.later (rotation : Rotation db fits sequences p turn branches)
    (before : p.Before q) : Rotation db fits sequences q turn branches :=
  List.Forall₂.imp (fun _ _ stands => stands.later before) rotation

theorem Rotation.length (rotation : Rotation db fits sequences p turn branches) :
    sequences.length = branches.length := by
  rw [← rotation.length_eq, List.length_range']

/-- After its turn a branch goes to the back. -/
theorem Rotation.turned (rotation : Rotation db fits sequences p turn (branch :: branches))
    (before : p.Before q) {turned : Option Search}
    (stands : Stands db fits sequences q (turn + sequences.length) turned) :
    Rotation db fits sequences q (turn + 1) (branches ++ [turned]) := by
  have later := rotation.later before
  have size : sequences.length = branches.length + 1 := rotation.length
  have last : turn + 1 + branches.length = turn + sequences.length := by omega
  unfold Rotation at later ⊢
  rw [size, List.range'_succ] at later
  rw [size, List.range'_1_concat, last]
  exact List.rel_append (List.forall₂_cons.mp later).2 (.cons stands .nil)

theorem Rotation.first (rotation : Rotation db fits sequences p turn (branch :: branches)) :
    Stands db fits sequences p turn branch := by
  have size : sequences.length = branches.length + 1 := rotation.length
  unfold Rotation at rotation
  rw [size, List.range'_succ] at rotation
  exact (List.forall₂_cons.mp rotation).1

/-- Nothing comes of a turn in which nothing is due. -/
theorem Rotation.pass (rotation : Rotation db fits sequences p turn branches)
    (nothing : due sequences turn = none) :
    ∃ next q, Rotation db fits sequences q (turn + 1) next ∧
      ∀ found r, Pulls db (.round next.reduceOption) q found r →
        Pulls db (.round branches.reduceOption) p found r := by
  cases branches with
  | nil =>
    refine ⟨[], p, ?_, fun _ _ pulls => pulls⟩
    rw [Rotation, rotation.length]
    exact .nil
  | cons branch others =>
    have out : Stands db fits sequences p (turn + sequences.length) none := due_next_round nothing
    cases branch with
    | none =>
      refine ⟨others ++ [none], p, rotation.turned (.refl p) out, fun found r pulls => ?_⟩
      rwa [List.reduceOption_append, List.reduceOption_singleton, Option.toList_none,
        List.append_nil] at pulls
    | some search =>
      have asked := rotation.first.asked
      rw [nothing] at asked
      obtain ⟨q, ended⟩ := asked
      refine ⟨others ++ [none], q, rotation.turned ended.before out, fun found r pulls => ?_⟩
      rw [List.reduceOption_append, List.reduceOption_singleton, Option.toList_none,
        List.append_nil] at pulls
      exact ended.round_ended pulls

/-- What is due in a turn is answered. -/
theorem Rotation.answer (rotation : Rotation db fits sequences p turn branches)
    (element : due sequences turn = some a) :
    ∃ s next q, Pulls db (.round branches.reduceOption) p (some (s, .round next.reduceOption)) q ∧
      fits a s ∧ Rotation db fits sequences q (turn + 1) next := by
  cases branches with
  | nil =>
    rw [List.eq_nil_of_length_eq_zero rotation.length] at element
    cases element
  | cons branch others =>
    cases branch with
    | none => cases element.symm.trans rotation.first
    | some search =>
      have asked := rotation.first.asked
      rw [element] at asked
      obtain ⟨s, rest, q, answered, fit, stands⟩ := asked
      refine ⟨s, others ++ [some rest], q, ?_, fit, rotation.turned answered.before stands⟩
      rw [List.reduceOption_append, List.reduceOption_singleton]
      exact answered.round_answer

/-- What is due next is answered, whoever has to be passed over until then. -/
theorem Rotation.next {d : Nat} (rotation : Rotation db fits sequences p turn branches)
    (nothing : ∀ j < d, due sequences (turn + j) = none)
    (element : due sequences (turn + d) = some a) :
    ∃ s next q, Pulls db (.round branches.reduceOption) p (some (s, .round next.reduceOption)) q ∧
      fits a s ∧ Rotation db fits sequences q (turn + d + 1) next := by
  induction d generalizing turn p branches with
  | zero => exact rotation.answer element
  | succ d ih =>
    obtain ⟨others, q, rotation, passed⟩ := rotation.pass (nothing 0 (Nat.succ_pos d))
    have shifted (j : Nat) : turn + 1 + j = turn + (j + 1) := by omega
    obtain ⟨s, next, r, pulls, fit, rotation⟩ := ih rotation
      (fun j less => by rw [shifted]; exact nothing _ (Nat.succ_lt_succ less))
      (by rw [shifted]; exact element)
    rw [shifted] at rotation
    exact ⟨s, next, r, passed _ _ pulls, fit, rotation⟩

/-- When nothing is due any more, the round ends. -/
theorem pulls_round_over {turns : List Nat} (nothing : ∀ turn ∈ turns, due sequences turn = none)
    (stand : List.Forall₂ (Stands db fits sequences p) turns branches) :
    ∃ q, Pulls db (.round branches.reduceOption) p none q := by
  induction branches generalizing turns p with
  | nil => exact ⟨p, .ended rfl⟩
  | cons branch others ih =>
    obtain ⟨turn, turns, here, behind, rfl⟩ := List.forall₂_cons_right_iff.mp stand
    obtain ⟨now, later⟩ := List.forall_mem_cons.mp nothing
    cases branch with
    | none => exact ih later behind
    | some search =>
      have asked := here.asked
      rw [now] at asked
      obtain ⟨q, ended⟩ := asked
      obtain ⟨r, stop⟩ := ih later (behind.imp fun _ _ stands => stands.later ended.before)
      exact ⟨r, ended.round_ended stop⟩

theorem given_wait {d : Nat} (nothing : ∀ j < d, due sequences (turn + j) = none) :
    given sequences (turn + d) = given sequences turn := by
  induction d with
  | zero => rfl
  | succ d ih =>
    rw [← Nat.add_assoc, given_succ_of_none (nothing d (Nat.lt_succ_self d))]
    exact ih fun j less => nothing j (Nat.lt_succ_of_lt less)

/-- The round goes on with the elements that are due from its turn on. -/
theorem Rotation.produces (rotation : Rotation db fits sequences p turn branches) :
    Produces db fits ((merged sequences).drop (given sequences turn))
      (.round branches.reduceOption) p := by
  -- At any time there is a round of branches that stand before some turn, and the elements due from
  -- that turn on are left. Turns without an answer keep it so and are gone through within one pull.
  refine ⟨fun rest search p => ∃ turn branches, Rotation db fits sequences p turn branches ∧
    rest = (merged sequences).drop (given sequences turn) ∧
    search = .round branches.reduceOption, ⟨turn, branches, rotation, rfl, rfl⟩, ?_⟩
  rintro _ _ p ⟨turn, branches, rotation, rfl, rfl⟩ q before
  replace rotation := rotation.later before
  rw [Asked, Seq.head_dropn]
  by_cases more : ∃ d, (due sequences (turn + d)).isSome
  · obtain ⟨a, element⟩ := Option.isSome_iff_exists.mp (Nat.find_spec more)
    have nothing (j : Nat) (less : j < Nat.find more) : due sequences (turn + j) = none :=
      Option.not_isSome_iff_eq_none.mp (Nat.find_min more less)
    obtain ⟨s, next, r, pulls, fit, rotation⟩ := rotation.next nothing element
    rw [← given_wait nothing, get?_merged_given element]
    refine ⟨s, _, r, pulls, fit, _, next, rotation, ?_, rfl⟩
    rw [given_succ_of_some element]
    rfl
  · have nothing (later : Nat) (beyond : later ≥ turn) : due sequences later = none := by
      obtain ⟨d, rfl⟩ := Nat.exists_eq_add_of_le beyond
      exact Option.not_isSome_iff_eq_none.mp (not_exists.mp more d)
    rw [get?_merged_eq_none nothing]
    exact pulls_round_over (fun later inside => nothing later (List.left_le_of_mem_range' inside))
      rotation

/-- The branches stand in the order of the goals at first. -/
theorem rotation_pending {goals : List Goal} {s : Substitution}
    (branches : List.Forall₂ (fun goal b => Produces db fits b (.pending goal s) p) goals
      sequences) :
    Rotation db fits sequences p 0 (goals.map fun goal => some (.pending goal s)) := by
  obtain ⟨size, produces⟩ := List.forall₂_iff_get.mp branches
  refine List.forall₂_iff_get.mpr ⟨by rw [List.length_range', List.length_map, size], ?_⟩
  intro i first second
  have inside : i < sequences.length := by rwa [List.length_range'] at first
  simp only [List.get_eq_getElem, List.getElem_range', List.getElem_map, Nat.zero_add, Nat.one_mul]
  refine ⟨sequences[i], ?_, ?_⟩
  · rw [Nat.mod_eq_of_lt inside, List.getElem?_eq_getElem inside]
  · rw [Nat.div_eq_of_lt inside]
    exact produces i (size ▸ inside) inside

end Rotating

/-- If the goals' searches produce these sequences, finite or endless, their disjunction produces
the elements of all of them, round by round, and in each round by branch: each once, after a bounded
number of others, and it ends just if they all do. -/
theorem any_interleaves (db : Database) (fits : α → Substitution → Prop) (s : Substitution)
    (p : Progress) {goals : List Goal} {sequences : List (Seq α)}
    (branches : List.Forall₂ (fun goal b => Produces db fits b (.pending goal s) p) goals
      sequences) :
    ∃ places merged, Interleaves sequences places merged ∧
      Produces db fits merged (.pending (.any goals) s) p := by
  have searchable : goals.all Goal.isSearchable := by
    refine List.all_eq_true.mpr fun goal member => ?_
    obtain ⟨size, produces⟩ := List.forall₂_iff_get.mp branches
    obtain ⟨i, inside, rfl⟩ := List.getElem_of_mem member
    exact (produces i inside (size ▸ inside)).searchable
  have entered (q : Progress) : (pending (.any goals) s).step db q =
      (.working (.round (goals.map (.pending · s))), q) := by
    rw [step, enter, if_pos searchable]
  have produces := (rotation_pending branches).produces
  have opened : (goals.map fun goal => some (pending goal s)).reduceOption =
      goals.map (.pending · s) := by
    rw [List.reduceOption, List.filterMap_map]
    exact congrFun List.filterMap_eq_map' goals
  rw [opened, given, Nat.count_zero, Seq.drop_zero] at produces
  exact ⟨_, _, interleaves_merged sequences, produces.working entered⟩

/-- An endless branch takes turns with one that answers once. -/
theorem any_interleaves_forever :
    let found : Substitution := .push .empty (Table.empty.put "a" (.lit "found"))
    ∃ merged, merged.get? 1 = some found ∧ ¬merged.Terminates ∧
      Produces {} Eq merged
        (.pending (.any [.forever, .stream fun _ k => [found][k]?]) .empty) {} := by
  intro found
  have branches : List.Forall₂ (fun goal b => Produces {} Eq b (.pending goal .empty) {})
      [.forever, .stream fun _ k => [found][k]?]
      [sequenceOf (fun _ => some .empty) nofun, Seq.ofList [found]] :=
    .cons (produces_stream (fun _ => rfl) {})
      (.cons (produces_stream (fun k => (Seq.ofList_get? [found] k).symm) {}) .nil)
  obtain ⟨places, merged, interleaves, produces⟩ := any_interleaves {} Eq .empty {} branches
  refine ⟨merged, ?_, fun closed => ?_, produces⟩
  · obtain ⟨first, atMost, firstPlace⟩ := interleaves.complete 0 _ 0 _ rfl rfl
    obtain ⟨second, next, secondPlace⟩ := interleaves.complete 1 _ 0 _ rfl rfl
    have apart : second ≠ first := by
      rintro rfl
      cases firstPlace.symm.trans secondPlace
    obtain rfl : second = 1 := by
      simp only [List.length_cons, List.length_nil] at atMost next
      omega
    rw [interleaves.element, secondPlace]
    rfl
  · obtain ⟨k, nothing⟩ := interleaves.ends.mp closed _ List.mem_cons_self
    cases nothing

end Search
end Rulebook
