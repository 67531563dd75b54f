import Rulebook.Proofs.Phrase

/-! What a key tells of the text it was made from. The text between the tokens stays in the key and
`%s` stands between any two pieces of it, so a key can be cut at each `%s` again. It cannot tell a
token from a `%s` that stands in the text itself; apart from that, it determines the number of
tokens and the text between them. -/
namespace Rulebook.Phrase

/-- The plain text before, between and after the tokens. -/
def gaps : List Piece → List (List Char)
  | [] => [[]]
  | .plain c :: found => (gaps found).modifyHead (c :: ·)
  | .token _ :: found => [] :: gaps found

def literals (text : String) : List (List Char) := gaps (pieces text.toList)

/-- A text cut at each `%s`. -/
def cutMarks : List Char → List (List Char)
  | '%' :: 's' :: rest => [] :: cutMarks rest
  | c :: rest => (cutMarks rest).modifyHead (c :: ·)
  | [] => [[]]

/-- Nothing in the literal text is written as the place of a token is. -/
def Unmarked (text : String) : Prop := ∀ gap ∈ literals text, ¬['%', 's'] <:+: gap

instance (text : String) : Decidable (Unmarked text) :=
  inferInstanceAs (Decidable (∀ gap ∈ literals text, ¬['%', 's'] <:+: gap))

/-- How often `%s` stands in a key. -/
def marks (key : String) : Nat := (cutMarks key.toList).length - 1

section Marks
variable {gap rest : List Char} {found : List Piece}

theorem gaps_ne_nil (found : List Piece) : gaps found ≠ [] := by
  induction found with
  | nil => exact List.cons_ne_nil _ _
  | cons piece found ih =>
    cases piece with
    | plain c => simpa [gaps] using ih
    | token text => exact List.cons_ne_nil _ _

theorem cutMarks_ne_nil (text : List Char) : cutMarks text ≠ [] := by
  fun_induction cutMarks text with
  | case1 rest _ => exact List.cons_ne_nil _ _
  | case2 c rest _ ih => simpa using ih
  | case3 => exact List.cons_ne_nil _ _

theorem intercalate_modifyHead {mark : List Char} {c : Char} {texts : List (List Char)}
    (some : texts ≠ []) :
    List.intercalate mark (texts.modifyHead (c :: ·)) = c :: List.intercalate mark texts := by
  cases texts with
  | nil => exact absurd rfl some
  | cons text texts =>
    cases texts with
    | nil => simp
    | cons other texts => simp

theorem intercalate_cons {mark : List Char} {text : List Char} {texts : List (List Char)}
    (some : texts ≠ []) :
    List.intercalate mark (text :: texts) = text ++ mark ++ List.intercalate mark texts := by
  cases texts with
  | nil => exact absurd rfl some
  | cons other texts => simp

/-- A key is the literal text with `%s` between its pieces. -/
theorem flatMap_key (found : List Piece) :
    found.flatMap Piece.key = List.intercalate ['%', 's'] (gaps found) := by
  induction found with
  | nil => rfl
  | cons piece found ih =>
    rw [List.flatMap_cons, ih]
    cases piece with
    | plain c => rw [gaps, intercalate_modifyHead (gaps_ne_nil found)]; rfl
    | token text => rw [gaps, intercalate_cons (gaps_ne_nil found)]; rfl

/-- Nothing is lost in cutting. -/
theorem intercalate_cutMarks (text : List Char) :
    List.intercalate ['%', 's'] (cutMarks text) = text := by
  fun_induction cutMarks text with
  | case1 rest ih => rw [intercalate_cons (cutMarks_ne_nil rest), ih]; rfl
  | case2 c rest _ ih => rw [intercalate_modifyHead (cutMarks_ne_nil rest), ih]
  | case3 => rfl

/-- No `%s` lies across an end of another one. -/
theorem cutMarks_append (gap rest : List Char) :
    cutMarks (gap ++ '%' :: 's' :: rest) = cutMarks gap ++ cutMarks rest := by
  fun_induction cutMarks gap with
  | case1 gap ih => rw [List.cons_append, List.cons_append, cutMarks, ih, List.cons_append]
  | case2 c gap apart ih =>
    have apart : ∀ after, c = '%' → gap ++ '%' :: 's' :: rest = 's' :: after → False := by
      intro after percent follows
      cases gap with
      | nil => simp at follows
      | cons x gap =>
        rw [List.cons_append] at follows
        exact apart gap percent (by rw [(List.cons_eq_cons.mp follows).1])
    obtain ⟨first, others, cut⟩ := List.exists_cons_of_ne_nil (cutMarks_ne_nil gap)
    rw [List.cons_append, cutMarks, ih, cut]
    · rfl
    · exact apart
  | case3 => rfl

theorem cutMarks_intercalate {texts : List (List Char)} (some : texts ≠ []) :
    cutMarks (List.intercalate ['%', 's'] texts) = texts.flatMap cutMarks := by
  induction texts with
  | nil => exact absurd rfl some
  | cons text texts ih =>
    by_cases last : texts = []
    · simp [last]
    · rw [intercalate_cons last, List.append_assoc, List.cons_append, List.singleton_append,
        cutMarks_append, ih last, List.flatMap_cons]

/-- A text without `%s` stays in one piece. -/
theorem cutMarks_of_unmarked (unmarked : ¬['%', 's'] <:+: gap) : cutMarks gap = [gap] := by
  fun_induction cutMarks gap with
  | case1 rest _ => exact absurd ⟨[], rest, rfl⟩ unmarked
  | case2 c rest _ ih =>
    rw [ih fun inside => unmarked (inside.trans (List.suffix_cons c rest).isInfix)]
    rfl
  | case3 => rfl

/-- Each token that is cut out is an argument, and there is one gap more. -/
theorem Cut.length_gaps {text : List Char} (cut : Cut text found) :
    (gaps found).length = (found.filterMap Piece.arg?).length + 1 := by
  have plain (c : Char) (found : List Piece) :
      (Piece.plain c :: found).filterMap Piece.arg? = found.filterMap Piece.arg? :=
    List.filterMap_cons_none rfl
  induction cut with
  | ended => rfl
  | plain _ _ ih => rw [gaps, List.length_modifyHead, plain, ih]
  | unclosed _ _ _ ih => rw [gaps, List.length_modifyHead, plain, ih]
  | token opens absent _ ih =>
    obtain ⟨term, read, _⟩ := token_legible opens absent
    rw [gaps, List.length_cons, ih, List.filterMap_cons_some (b := term), List.length_cons]
    rw [Piece.arg?, read]
    rfl

end Marks

section Keys
variable {text other : String}

theorem cutMarks_key (text : String) :
    cutMarks (ofText text).key.toList = (literals text).flatMap cutMarks := by
  rw [ofText, String.toList_ofList, flatMap_key, cutMarks_intercalate (gaps_ne_nil _)]
  rfl

/-- A key and its pieces between each `%s` determine each other. -/
theorem key_eq_iff (text other : String) : (ofText text).key = (ofText other).key ↔
    (literals text).flatMap cutMarks = (literals other).flatMap cutMarks := by
  rw [← cutMarks_key, ← cutMarks_key]
  constructor
  · intro same
    rw [same]
  · intro same
    rw [← String.toList_inj, ← intercalate_cutMarks (ofText text).key.toList, same,
      intercalate_cutMarks]

theorem Unmarked.cutMarks_key (unmarked : Unmarked text) :
    cutMarks (ofText text).key.toList = literals text := by
  have each : ∀ gap ∈ literals text, cutMarks gap = [gap] :=
    fun gap inside => cutMarks_of_unmarked (unmarked gap inside)
  rw [Phrase.cutMarks_key, List.flatMap_congr each]
  exact List.flatMap_singleton' _

/-- Each token is an argument, between two pieces of literal text. -/
theorem length_literals (text : String) :
    (literals text).length = (ofText text).args.length + 1 :=
  (cut_pieces text.toList).length_gaps

/-- The key of an unmarked phrase has a `%s` for each argument and no other. -/
theorem Unmarked.marks_key (unmarked : Unmarked text) :
    marks (ofText text).key = (ofText text).args.length := by
  rw [marks, unmarked.cutMarks_key, length_literals, Nat.add_sub_cancel]

/-- Unmarked phrases under the same key have the same literal text. -/
theorem Unmarked.literals_eq (unmarked : Unmarked text) (too : Unmarked other)
    (same : (ofText text).key = (ofText other).key) : literals text = literals other := by
  rw [← unmarked.cutMarks_key, ← too.cutMarks_key, same]

end Keys

end Rulebook.Phrase
