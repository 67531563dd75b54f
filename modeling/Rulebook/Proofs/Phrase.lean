import Rulebook.Phrase
import Rulebook.Proofs.Text

/-! Phrases and the tokens in them. A text is cut from the left, and an opener that is never closed
is plain text. A term that its own form does not cut short reads back from that form wherever it
stands, and every token of every text is such a term; so a text may be written anew with its tokens
in their shortest form, and says the same. -/
namespace Rulebook

namespace Term

/-- A term that reads back from its written form: a literal without quotes, or a variable without
closing parentheses and without opening ones at its ends. -/
def Legible : Term → Prop
  | lit value => '"' ∉ value.toList
  | var name => ')' ∉ name.toList ∧ name.toList.head? ≠ some '(' ∧ name.toList.getLast? ≠ some '('

instance : (term : Term) → Decidable term.Legible
  | lit value => inferInstanceAs (Decidable ('"' ∉ value.toList))
  | var name => inferInstanceAs (Decidable (')' ∉ name.toList ∧ _ ∧ _))

end Term

namespace Phrase

section Trimming
variable {chars text inside : List Char}

theorem trim_eq (chars text : List Char) :
    trim chars text = (text.dropWhile (· ∈ chars)).rdropWhile (· ∈ chars) := rfl

theorem trim_inside (chars text : List Char) : trim chars text <:+: text :=
  (List.rdropWhile_prefix _ _).isInfix.trans (List.dropWhile_suffix _).isInfix

/-- What closes a text goes with what opens it. -/
theorem trim_wrapped {first last : Char} (opens : first ∈ chars) (closes : last ∈ chars) :
    trim chars (first :: (inside ++ [last])) = trim chars inside := by
  rw [trim_eq, trim_eq, List.dropWhile_cons_of_pos (by simpa using opens), List.dropWhile_append]
  split
  · rename_i none
    rw [List.isEmpty_iff.mp none, List.dropWhile_cons_of_pos (by simpa using closes)]
    rfl
  · exact List.rdropWhile_concat_pos _ _ _ (by simpa using closes)

/-- A text that begins and ends with other characters is left as it is. -/
theorem trim_eq_self (first : ∀ c ∈ text.head?, c ∉ chars) (last : ∀ c ∈ text.getLast?, c ∉ chars) :
    trim chars text = text := by
  have front : text.dropWhile (· ∈ chars) = text := by
    cases text with
    | nil => rfl
    | cons c rest => exact List.dropWhile_cons_of_neg (by simpa using first c rfl)
  rw [trim_eq, front, List.rdropWhile_eq_self_iff]
  intro some
  simpa using last _ (List.getLast?_eq_getLast_of_ne_nil some)

theorem head_trim : ∀ c ∈ (trim chars text).head?, c ∉ chars := by
  intro c head
  have front := List.head?_dropWhile_not (fun c => decide (c ∈ chars)) text
  obtain ⟨others, kept⟩ := List.rdropWhile_prefix (· ∈ chars) (text.dropWhile (· ∈ chars))
  rw [trim_eq] at head
  rw [← kept, List.head?_append, head] at front
  simpa using front

theorem last_trim : ∀ c ∈ (trim chars text).getLast?, c ∉ chars := by
  intro c last
  rw [trim_eq] at last
  obtain ⟨some, rfl⟩ := List.mem_getLast?_eq_getLast last
  simpa using List.rdropWhile_last_not (· ∈ chars) (text.dropWhile (· ∈ chars)) some

end Trimming

section Cutting
variable {text : List Char} {found : List Piece}

/-- How a text is cut, with no bound on the number of pieces. -/
inductive Cut : List Char → List Piece → Prop where
  | ended : Cut [] []
  | plain {c : Char} {rest : List Char} {found : List Piece} : closer c = none → Cut rest found →
      Cut (c :: rest) (.plain c :: found)
  | unclosed {c close : Char} {rest : List Char} {found : List Piece} : closer c = some close →
      close ∉ rest → Cut rest found → Cut (c :: rest) (.plain c :: found)
  | token {c close : Char} {inside after : List Char} {found : List Piece} :
      closer c = some close → close ∉ inside → Cut after found →
      Cut (c :: (inside ++ close :: after)) (.token (c :: (inside ++ [close])) :: found)

theorem forall_ne_of_not_mem {close : Char} {inside : List Char} (absent : close ∉ inside) :
    ∀ c ∈ inside, (c != close) = true := by
  intro c there
  rw [bne_iff_ne]
  rintro rfl
  exact absent there

theorem Cut.within (cut : Cut text found) {bound : Nat} (room : text.length ≤ bound) :
    piecesWithin bound text = found := by
  induction cut generalizing bound with
  | ended => cases bound <;> rfl
  | plain opens _ ih =>
    obtain ⟨bound, rfl⟩ := Nat.exists_eq_add_of_le' room
    rw [List.length_cons, ← Nat.add_assoc, piecesWithin, opens]
    exact congrArg _ (ih (by omega))
  | unclosed opens absent _ ih =>
    obtain ⟨bound, rfl⟩ := Nat.exists_eq_add_of_le' room
    rw [List.length_cons, ← Nat.add_assoc, piecesWithin, opens]
    dsimp only
    rw [List.dropWhile_eq_nil_iff.mpr (forall_ne_of_not_mem absent)]
    exact congrArg _ (ih (by omega))
  | @token c close inside after found opens absent _ ih =>
    have all := forall_ne_of_not_mem absent
    obtain ⟨bound, rfl⟩ := Nat.exists_eq_add_of_le' room
    rw [List.length_cons, ← Nat.add_assoc, piecesWithin, opens]
    dsimp only
    have stop : ∀ c ∈ (close :: after).head?, (c != close) = false := by simp
    rw [Text.dropWhile_boundary all stop, Text.takeWhile_boundary all stop]
    refine congrArg _ (ih ?_)
    rw [List.length_append, List.length_cons]
    omega

theorem cut_within {bound : Nat} (room : text.length ≤ bound) :
    Cut text (piecesWithin bound text) := by
  induction bound generalizing text with
  | zero =>
    obtain rfl := List.length_eq_zero_iff.mp (Nat.le_zero.mp room)
    exact .ended
  | succ bound ih =>
    cases text with
    | nil => exact .ended
    | cons c rest =>
      have shorter : rest.length ≤ bound := Nat.le_of_succ_le_succ room
      rw [piecesWithin]
      split
      · rename_i opens
        exact .plain opens (ih shorter)
      · rename_i close opens
        dsimp only
        have whole := List.takeWhile_append_dropWhile (p := (· != close)) (l := rest)
        have stop := List.head?_dropWhile_not (· != close) rest
        cases remains : rest.dropWhile (· != close) with
        | nil =>
          refine .unclosed opens (fun there => ?_) (ih shorter)
          simpa using List.dropWhile_eq_nil_iff.mp remains close there
        | cons x after =>
          rw [remains] at whole stop
          obtain rfl : x = close := by simpa using stop
          have absent : x ∉ rest.takeWhile (· != x) :=
            fun there => by simpa using List.mem_takeWhile_imp there
          have size := congrArg List.length whole
          rw [List.length_append, List.length_cons] at size
          have onward : Cut after (piecesWithin bound after) := ih (by omega)
          have cut := Cut.token opens absent onward
          rwa [whole] at cut

theorem cut_pieces (text : List Char) : Cut text (pieces text) := cut_within (Nat.le_refl _)

/-- There is one way to cut a text. -/
theorem Cut.pieces_eq (cut : Cut text found) : pieces text = found := cut.within (Nat.le_refl _)

end Cutting

section Tokens

theorem closer_eq_some {c close : Char} (opens : closer c = some close) :
    c = '(' ∧ close = ')' ∨ c = '"' ∧ close = '"' := by
  unfold closer at opens
  split at opens
  · exact .inl ⟨rfl, (Option.some.inj opens).symm⟩
  · exact .inr ⟨rfl, (Option.some.inj opens).symm⟩
  · cases opens

theorem toList_text_lit (value : String) :
    (Term.lit value).text.toList = '"' :: (value.toList ++ ['"']) := by
  simp [Term.text]

theorem toList_text_var (name : String) :
    (Term.var name).text.toList = '(' :: (name.toList ++ [')']) := by
  simp [Term.text]

/-- A legible term reads back from its written form. -/
theorem token_text {term : Term} (legible : term.Legible) : token term.text.toList = .ok term := by
  cases term with
  | lit value =>
    have apart (c : Char) (there : c ∈ value.toList) : c ∉ ['"'] := by
      rw [List.mem_singleton]
      rintro rfl
      exact legible there
    have kept : trim ['"'] value.toList = value.toList :=
      trim_eq_self (fun c head => apart c (List.mem_of_mem_head? head))
        fun c last => apart c (List.mem_of_getLast? last)
    rw [toList_text_lit, token, trim_wrapped (by simp) (by simp), kept, String.ofList_toList]
  | var name =>
    obtain ⟨unclosed, first, last⟩ := legible
    have apart (c : Char) (there : c ∈ name.toList) (other : c ≠ '(') : c ∉ ['(', ')'] := by
      simp only [List.mem_cons, List.not_mem_nil, or_false, not_or]
      refine ⟨other, ?_⟩
      rintro rfl
      exact unclosed there
    have kept : trim ['(', ')'] name.toList = name.toList := by
      refine trim_eq_self (fun c head => apart c (List.mem_of_mem_head? head) ?_)
        fun c end_ => apart c (List.mem_of_getLast? end_) ?_
      · rintro rfl
        exact first head
      · rintro rfl
        exact last end_
    rw [toList_text_var, token, trim_wrapped (by simp) (by simp), kept, String.ofList_toList]

theorem wrapped_subset {first last : Char} {less more : List Char} (within : less ⊆ more) :
    first :: (less ++ [last]) ⊆ first :: (more ++ [last]) := by
  apply List.cons_subset_cons
  exact List.append_subset.mpr
    ⟨List.subset_append_of_subset_left _ within, List.subset_append_right _ _⟩

/-- Whatever stands between an opener and the first closer is a token of a legible term, and the
written form of the term has no other characters. -/
theorem token_legible {c close : Char} {inside : List Char} (opens : closer c = some close)
    (absent : close ∉ inside) :
    ∃ term, token (c :: (inside ++ [close])) = .ok term ∧ term.Legible ∧
      term.text.toList ⊆ c :: (inside ++ [close]) := by
  rcases closer_eq_some opens with ⟨rfl, rfl⟩ | ⟨rfl, rfl⟩
  · have within := (trim_inside ['(', ')'] inside).subset
    refine ⟨_, rfl, ?_, ?_⟩
    · rw [trim_wrapped (by simp) (by simp)]
      refine ⟨?_, ?_, ?_⟩ <;> rw [String.toList_ofList]
      · exact fun there => absent (within there)
      · exact fun head => head_trim _ head (by simp)
      · exact fun last => last_trim _ last (by simp)
    · rw [toList_text_var, trim_wrapped (by simp) (by simp), String.toList_ofList]
      exact wrapped_subset within
  · have within := (trim_inside ['"'] inside).subset
    refine ⟨_, rfl, ?_, ?_⟩
    · rw [trim_wrapped (by simp) (by simp), Term.Legible, String.toList_ofList]
      exact fun there => absent (within there)
    · rw [toList_text_lit, trim_wrapped (by simp) (by simp), String.toList_ofList]
      exact wrapped_subset within

/-- The written form of a legible term is cut out as it stands, whatever comes after it. -/
theorem Cut.term {term : Term} {after : List Char} {found : List Piece} (legible : term.Legible)
    (cut : Cut after found) :
    Cut (term.text.toList ++ after) (.token term.text.toList :: found) := by
  cases term with
  | lit value =>
    rw [toList_text_lit, List.cons_append, List.append_assoc]
    exact .token rfl legible cut
  | var name =>
    rw [toList_text_var, List.cons_append, List.append_assoc]
    exact .token rfl legible.1 cut

def OpensNothing (text : String) : Prop := '(' ∉ text.toList ∧ '"' ∉ text.toList

instance (text : String) : Decidable (OpensNothing text) :=
  inferInstanceAs (Decidable ('(' ∉ text.toList ∧ '"' ∉ text.toList))

theorem Cut.opensNothing {text : String} {after : List Char} {found : List Piece}
    (opens : OpensNothing text) (cut : Cut after found) :
    Cut (text.toList ++ after) (text.toList.map .plain ++ found) := by
  obtain ⟨bracket, quote⟩ := opens
  generalize text.toList = chars at bracket quote
  induction chars with
  | nil => exact cut
  | cons c rest ih =>
    simp only [List.mem_cons, not_or] at bracket quote
    have none : closer c = none := by
      unfold closer
      split
      · exact absurd rfl bracket.1
      · exact absurd rfl quote.1
      · rfl
    exact .plain none (ih bracket.2 quote.2)

end Tokens

section Rewriting

def Piece.text : Piece → List Char
  | plain c => [c]
  | token text => text

def Piece.tidied : Piece → Piece
  | plain c => plain c
  | token text =>
    match Phrase.token text with
    | .ok term => token term.text.toList
    | .error _ => token text

/-- The text with each token in the written form of its term. -/
def tidied (text : String) : String :=
  String.ofList (((pieces text.toList).map Piece.tidied).flatMap Piece.text)

variable {text : List Char} {found : List Piece}

/-- Nothing of a text is lost. -/
theorem Cut.flatMap_text (cut : Cut text found) : found.flatMap Piece.text = text := by
  induction cut with
  | ended => rfl
  | plain _ _ ih => exact congrArg _ ih
  | unclosed _ _ _ ih => exact congrArg _ ih
  | token _ _ _ ih =>
    rw [List.flatMap_cons, ih, Piece.text]
    simp

theorem tidied_token {inside : List Char} {term : Term} (read : token inside = .ok term) :
    (Piece.token inside).tidied = .token term.text.toList := by
  rw [Piece.tidied, read]

theorem key_tidied (piece : Piece) : piece.tidied.key = piece.key := by
  cases piece with
  | plain c => rfl
  | token inside =>
    rw [Piece.tidied]
    split <;> rfl

/-- Each token that is cut out has a legible term. -/
theorem Cut.legible (cut : Cut text found) {inside : List Char} (there : .token inside ∈ found) :
    ∃ term, Phrase.token inside = .ok term ∧ term.Legible := by
  induction cut with
  | ended => cases there
  | plain _ _ ih => exact ih (by simpa using there)
  | unclosed _ _ _ ih => exact ih (by simpa using there)
  | token opens absent _ ih =>
    rcases List.mem_cons.mp there with here | later
    · cases here
      obtain ⟨term, read, legible, _⟩ := token_legible opens absent
      exact ⟨term, read, legible⟩
    · exact ih later

theorem Cut.arg?_tidied (cut : Cut text found) {piece : Piece} (there : piece ∈ found) :
    piece.tidied.arg? = piece.arg? := by
  cases piece with
  | plain c => rfl
  | token inside =>
    obtain ⟨term, read, legible⟩ := cut.legible there
    rw [tidied_token read, Piece.arg?, Piece.arg?, read, token_text legible]

/-- A text has no fewer characters than with its tokens tidied up. -/
theorem Cut.tidied_subset (cut : Cut text found) :
    (found.map Piece.tidied).flatMap Piece.text ⊆ text := by
  induction cut with
  | ended => exact List.Subset.refl _
  | plain _ _ ih => exact List.cons_subset_cons _ ih
  | unclosed _ _ _ ih => exact List.cons_subset_cons _ ih
  | @token c close inside after found opens absent _ ih =>
    obtain ⟨term, read, _, within⟩ := token_legible opens absent
    rw [List.map_cons, List.flatMap_cons, tidied_token read, Piece.text,
      show c :: (inside ++ close :: after) = c :: (inside ++ [close]) ++ after by simp]
    exact List.append_subset.mpr
      ⟨List.subset_append_of_subset_left _ within, List.subset_append_of_subset_right _ ih⟩

/-- A tidied text is cut at the same places. An opener that is not closed in the text is not closed
in what its tokens become either, as they get no new characters. -/
theorem Cut.tidied (cut : Cut text found) :
    Cut ((found.map Piece.tidied).flatMap Piece.text) (found.map Piece.tidied) := by
  induction cut with
  | ended => exact .ended
  | plain opens _ ih => exact .plain opens ih
  | unclosed opens absent rest ih =>
    exact .unclosed opens (fun there => absent (rest.tidied_subset there)) ih
  | token opens absent _ ih =>
    obtain ⟨term, read, legible, _⟩ := token_legible opens absent
    rw [List.map_cons, tidied_token read]
    exact .term legible ih

theorem ofText_of_cut {text : String} {found : List Piece} (cut : Cut text.toList found) :
    ofText text = ⟨String.ofList (found.flatMap Piece.key), found.filterMap Piece.arg?⟩ := by
  rw [ofText, cut.pieces_eq]

theorem ofText_tidied (text : String) : ofText (tidied text) = ofText text := by
  have cut := cut_pieces text.toList
  have again : Cut (Phrase.tidied text).toList ((pieces text.toList).map Piece.tidied) := by
    rw [Phrase.tidied, String.toList_ofList]
    exact cut.tidied
  have args : (pieces text.toList).filterMap (Piece.arg? ∘ Piece.tidied) =
      (pieces text.toList).filterMap Piece.arg? :=
    List.filterMap_congr fun piece there => cut.arg?_tidied there
  rw [ofText_of_cut again, ofText_of_cut cut, List.flatMap_map, List.filterMap_map, args]
  simp only [key_tidied]

/-- The terms that a text has are legible. -/
theorem legible_args {text : String} {term : Term} (there : term ∈ (ofText text).args) :
    term.Legible := by
  obtain ⟨piece, cut, arg⟩ := List.mem_filterMap.mp there
  cases piece with
  | plain c => cases arg
  | token inside =>
    obtain ⟨other, read, legible⟩ := (cut_pieces text.toList).legible cut
    rw [Piece.arg?, read] at arg
    cases arg
    exact legible

/-- A plain text, and then terms in their written form with a plain text after each. -/
def written (first : String) (rest : List (Term × String)) : String :=
  first ++ String.join (rest.map fun (term, text) => term.text ++ text)

theorem cut_written {first : String} {rest : List (Term × String)} (opens : OpensNothing first)
    (each : ∀ part ∈ rest, part.1.Legible ∧ OpensNothing part.2) :
    Cut (written first rest).toList (first.toList.map .plain ++
      rest.flatMap fun (term, text) => .token term.text.toList :: text.toList.map .plain) := by
  rw [written, String.toList_append, String.toList_join, List.flatMap_map]
  apply Cut.opensNothing opens
  induction rest with
  | nil => exact .ended
  | cons part rest ih =>
    obtain ⟨⟨legible, plain⟩, later⟩ := List.forall_mem_cons.mp each
    rw [List.flatMap_cons, List.flatMap_cons, String.toList_append, List.append_assoc,
      List.cons_append]
    exact .term legible (.opensNothing plain (ih later))

theorem flatMap_key_plain (text : List Char) :
    (text.map Piece.plain).flatMap Piece.key = text := by
  rw [List.flatMap_map]
  exact List.flatMap_singleton' text

theorem filterMap_arg?_plain (text : List Char) :
    (text.map Piece.plain).filterMap Piece.arg? = [] := by
  rw [List.filterMap_map]
  exact List.filterMap_eq_nil_iff.mpr fun _ _ => rfl

theorem ofText_legible {first : String} {rest : List (Term × String)} (opens : OpensNothing first)
    (each : ∀ part ∈ rest, part.1.Legible ∧ OpensNothing part.2) :
    ofText (written first rest) =
      ⟨first ++ String.join (rest.map fun (_, text) => "%s" ++ text), rest.map (·.1)⟩ := by
  rw [ofText_of_cut (cut_written opens each)]
  congr 1
  · rw [← String.toList_inj, String.toList_ofList, List.flatMap_append, flatMap_key_plain,
      String.toList_append, String.toList_join, List.flatMap_map, List.flatMap_assoc]
    congr 2
    funext ⟨term, text⟩
    rw [List.flatMap_cons, flatMap_key_plain, String.toList_append]
    rfl
  · rw [List.filterMap_append, filterMap_arg?_plain, List.nil_append]
    induction rest with
    | nil => rfl
    | cons part rest ih =>
      obtain ⟨⟨legible, _⟩, later⟩ := List.forall_mem_cons.mp each
      rw [List.flatMap_cons, List.cons_append, List.filterMap_cons, Piece.arg?, token_text legible,
        List.filterMap_append, filterMap_arg?_plain, List.nil_append, ih later, List.map_cons]
      rfl

/-- Terms that read back, wherever they stand in a plain text, are the arguments of the text, and
the key has a place for each. What is cut out of any text as a token is an argument, all arguments
read back, and a text may be written anew with them: its pieces make it up, and with each token
written as its term, the phrase is the same. -/
theorem ofText_written :
    (∀ (first : String) (rest : List (Term × String)), OpensNothing first →
      (∀ part ∈ rest, part.1.Legible ∧ OpensNothing part.2) →
      ofText (written first rest) =
        ⟨first ++ String.join (rest.map fun (_, text) => "%s" ++ text), rest.map (·.1)⟩) ∧
    ∀ text : String,
      (∀ inside, .token inside ∈ pieces text.toList →
        ∃ term ∈ (ofText text).args, token inside = .ok term) ∧
      (∀ term ∈ (ofText text).args, term.Legible) ∧
      (pieces text.toList).flatMap Piece.text = text.toList ∧
      ofText (tidied text) = ofText text := by
  constructor
  · exact fun first rest opens each => ofText_legible opens each
  intro text
  have cut := cut_pieces text.toList
  refine ⟨fun inside there => ?_, fun term there => legible_args there, cut.flatMap_text,
    ofText_tidied text⟩
  obtain ⟨term, read, _⟩ := cut.legible there
  refine ⟨term, List.mem_filterMap.mpr ⟨.token inside, there, ?_⟩, read⟩
  rw [Piece.arg?, read]
  rfl

/-- The terms hold each other's delimiters, and the plain texts hold closers and what stands for a
term in a key. -/
theorem ofText_written_crossed :
    let rest : List (Term × String) := [(.lit "(a", ") %s "), (.var "b\"(c", ")")]
    OpensNothing "is ) " ∧ (∀ part ∈ rest, part.1.Legible ∧ OpensNothing part.2) ∧
      ofText "is ) \"(a\") %s (b\"(c))" = ⟨"is ) %s) %s %s)", [.lit "(a", .var "b\"(c"]⟩ := by
  intro rest
  have plain : OpensNothing "is ) " := by decide
  have legible : ∀ part ∈ rest, part.1.Legible ∧ OpensNothing part.2 := by decide
  exact ⟨plain, legible, ofText_written.1 "is ) " rest plain legible⟩

end Rewriting

end Phrase
end Rulebook
