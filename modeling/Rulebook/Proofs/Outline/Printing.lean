import Rulebook.Proofs.Outline.Indentation

/-! Writing trees of lines. The layout is free, as long as the lines under a line have one
indentation, which is deeper than its own: blank lines may stand anywhere, and a line may end in a
line feed with or without a carriage return. Read back, the tree is the same. -/
namespace Rulebook

/-- What a line says, wherever it stands. -/
structure Wording where
  kind : LineKind
  content : String
  deriving DecidableEq

/-- What a line says, with what the lines under it say. -/
inductive Passage where
  | mk (wording : Wording) (children : List Passage)

namespace Passage

mutual

def wordings : Passage → List Wording
  | ⟨wording, children⟩ => wording :: wordingsOf children

def wordingsOf : List Passage → List Wording
  | [] => []
  | passage :: passages => passage.wordings ++ wordingsOf passages

end

end Passage

namespace Block

mutual

def passage : Block → Passage
  | ⟨line, children⟩ => ⟨⟨line.kind, line.content⟩, passagesOf children⟩

def passagesOf : List Block → List Passage
  | [] => []
  | block :: blocks => block.passage :: passagesOf blocks

end

end Block

namespace LineKind

def marker? (kind : LineKind) : Option (List Char) := (marked.find? (·.2 == kind)).map (·.1)

theorem mem_marked_of_marker? {kind : LineKind} {marker : List Char}
    (found : kind.marker? = some marker) : (marker, kind) ∈ marked := by
  cases kind <;> cases found <;> decide

/-- A marker has no blank in it, and is not empty. -/
theorem marker_visible {kind : LineKind} {marker : List Char} (there : (marker, kind) ∈ marked) :
    marker ≠ [] ∧ ∀ c ∈ marker, Text.isBlank c = false := by
  have all : ∀ entry ∈ marked, entry.1 ≠ [] ∧ entry.1.any Text.isBlank = false := by decide
  obtain ⟨some, visible⟩ := all _ there
  exact ⟨some, fun c inside => by simpa using List.any_eq_false.mp visible c inside⟩

end LineKind

namespace Wording

/-- The line without indentation: the marker, a blank and the content. Plain text has no marker. -/
def text (wording : Wording) : List Char :=
  match wording.kind.marker? with
  | some marker => marker ++ ' ' :: wording.content.toList
  | none => wording.content.toList

/-- What fits on one line, and begins like no other line if it is plain text. -/
structure Writable (wording : Wording) : Prop where
  unbroken : '\n' ∉ wording.content.toList
  ending : wording.content.toList.getLast? ≠ some '\r'
  visible : wording.kind = .plain → Text.isBlankLine wording.content.toList = false
  flush : wording.kind = .plain → wording.content.toList.head? ≠ some ' '
  unmarked : wording.kind = .plain →
    ∀ entry ∈ LineKind.marked, ¬entry.1 <+: wording.content.toList

instance (wording : Wording) : Decidable wording.Writable :=
  decidable_of_iff
    ('\n' ∉ wording.content.toList ∧ wording.content.toList.getLast? ≠ some '\r' ∧
      (wording.kind = .plain → Text.isBlankLine wording.content.toList = false) ∧
      (wording.kind = .plain → wording.content.toList.head? ≠ some ' ') ∧
      (wording.kind = .plain →
        ∀ entry ∈ LineKind.marked, ¬entry.1 <+: wording.content.toList))
    ⟨fun ⟨unbroken, ending, visible, flush, unmarked⟩ =>
      ⟨unbroken, ending, visible, flush, unmarked⟩,
      fun writable => ⟨writable.unbroken, writable.ending, writable.visible, writable.flush,
        writable.unmarked⟩⟩

theorem classify_marked {kind : LineKind} {marker : List Char}
    (there : (marker, kind) ∈ LineKind.marked) (content : List Char) :
    Line.classify (marker ++ ' ' :: content) = (kind, content) := by
  have each : ∀ entry ∈ LineKind.marked,
      Line.classify (entry.1 ++ ' ' :: content) = (entry.2, content) := by
    simp [LineKind.marked, Line.classify, Line.behind?, Line.dropBlank]
  exact each _ there

theorem classify_unmarked {content : List Char}
    (unmarked : ∀ entry ∈ LineKind.marked, ¬entry.1 <+: content) :
    Line.classify content = (.plain, content) := by
  rw [Line.classify]
  split
  · rename_i found
    obtain ⟨entry, there, read⟩ := List.exists_of_findSome?_eq_some found
    have other := unmarked entry there
    rw [← List.isPrefixOf_iff_prefix] at other
    simp [Line.behind?, other] at read
  · rfl

/-- A line has a marker, or it is plain text. -/
theorem text_cases (wording : Wording) :
    (∃ marker, (marker, wording.kind) ∈ LineKind.marked ∧
      wording.text = marker ++ ' ' :: wording.content.toList) ∨
      wording.kind = .plain ∧ wording.text = wording.content.toList := by
  rw [text]
  cases found : wording.kind.marker? with
  | some marker => exact .inl ⟨marker, LineKind.mem_marked_of_marker? found, rfl⟩
  | none =>
    right
    cases kind : wording.kind <;> rw [kind] at found <;> cases found
    exact ⟨rfl, rfl⟩

section Reading
variable {wording : Wording}

theorem Writable.classify_text (writable : wording.Writable) :
    Line.classify wording.text = (wording.kind, wording.content.toList) := by
  rcases wording.text_cases with ⟨marker, there, text⟩ | ⟨kind, text⟩
  · rw [text, classify_marked there]
  · rw [text, classify_unmarked (writable.unmarked kind), kind]

theorem Writable.unbroken_text (writable : wording.Writable) : '\n' ∉ wording.text := by
  rcases wording.text_cases with ⟨marker, there, text⟩ | ⟨_, text⟩
  · rw [text, List.mem_append, List.mem_cons, not_or, not_or]
    refine ⟨fun inside => ?_, by decide, writable.unbroken⟩
    cases (LineKind.marker_visible there).2 _ inside
  · rw [text]
    exact writable.unbroken

theorem Writable.flush_text (writable : wording.Writable) : wording.text.head? ≠ some ' ' := by
  rcases wording.text_cases with ⟨marker, there, text⟩ | ⟨kind, text⟩
  · obtain ⟨some, visible⟩ := LineKind.marker_visible there
    rw [text]
    cases marker with
    | nil => exact absurd rfl some
    | cons c rest =>
      rintro ⟨⟩
      cases visible ' ' List.mem_cons_self
  · rw [text]
    exact writable.flush kind

theorem Writable.ending_text (writable : wording.Writable) : wording.text.getLast? ≠ some '\r' := by
  rcases wording.text_cases with ⟨marker, _, text⟩ | ⟨_, text⟩
  · rw [text, List.getLast?_append, List.getLast?_cons]
    cases last : wording.content.toList.getLast? with
    | none =>
      rintro ⟨⟩
    | some c =>
      rintro ⟨⟩
      exact writable.ending last
  · rw [text]
    exact writable.ending

theorem Writable.visible_text (writable : wording.Writable) :
    Text.isBlankLine wording.text = false := by
  rcases wording.text_cases with ⟨marker, there, text⟩ | ⟨kind, text⟩
  · obtain ⟨some, visible⟩ := LineKind.marker_visible there
    obtain ⟨c, inside⟩ := List.exists_mem_of_ne_nil marker some
    rw [text, Text.isBlankLine, List.all_append,
      List.all_eq_false.mpr ⟨c, inside, by simp [visible c inside]⟩, Bool.false_and]
  · rw [text]
    exact writable.visible kind

theorem Writable.text_ne_nil (writable : wording.Writable) : wording.text ≠ [] := by
  intro empty
  have visible := writable.visible_text
  rw [empty] at visible
  cases visible

/-- The line as it is read, when it stands at some indentation. -/
theorem Writable.ofChars (writable : wording.Writable) (indent : Nat) :
    let line := Line.ofChars (List.replicate indent ' ' ++ wording.text)
    line.kind = wording.kind ∧ line.content = wording.content ∧ line.indent = indent := by
  have blanks : ∀ c ∈ List.replicate indent ' ', (c == ' ') = true := by
    intro c there
    rw [List.eq_of_mem_replicate there]
    rfl
  have stop : ∀ c ∈ wording.text.head?, (c == ' ') = false := by
    intro c first
    rw [beq_eq_false_iff_ne]
    rintro rfl
    exact writable.flush_text first
  have read : Line.classify ((List.replicate indent ' ' ++ wording.text).dropWhile (· == ' ')) =
      (wording.kind, wording.content.toList) := by
    rw [Text.dropWhile_boundary blanks stop, writable.classify_text]
  rw [Line.ofChars, read]
  refine ⟨rfl, String.ofList_toList, ?_⟩
  change Line.indentOf _ = indent
  rw [Line.indentOf, Text.takeWhile_boundary blanks stop, List.length_replicate]

end Reading

end Wording

def lineEnds : List (List Char) := [['\n'], ['\r', '\n']]

/-- The lines of some characters that are not blank. -/
def linesOfChars (text : List Char) : List Line :=
  ((Text.splitLines text).filter (!Text.isBlankLine ·)).map fun line =>
    .ofChars (Text.dropReturns line)

section Lines
variable {raw ending : List Char}

theorem linesOfText_eq (text : String) : linesOfText text = linesOfChars text.toList := rfl

theorem linesOfChars_nil : linesOfChars [] = [] := rfl

theorem linesOfChars_append (unbroken : '\n' ∉ raw) (rest : List Char) :
    linesOfChars (raw ++ '\n' :: rest) =
      if Text.isBlankLine raw then linesOfChars rest
      else .ofChars (Text.dropReturns raw) :: linesOfChars rest := by
  rw [linesOfChars, Text.splitLines, Text.pieces_append_cons unbroken, List.filter_cons]
  cases Text.isBlankLine raw <;> rfl

/-- A line ends in a line feed, with at most one carriage return before it. -/
theorem exists_returns (ends : ending ∈ lineEnds) :
    ∃ returns, ending = returns ++ ['\n'] ∧ (returns = [] ∨ returns = ['\r']) := by
  simp only [lineEnds, List.mem_cons, List.not_mem_nil, or_false] at ends
  rcases ends with rfl | rfl
  · exact ⟨[], rfl, .inl rfl⟩
  · exact ⟨['\r'], rfl, .inr rfl⟩

theorem linesOfChars_line (unbroken : '\n' ∉ raw) (ends : ending ∈ lineEnds) (rest : List Char) :
    linesOfChars (raw ++ (ending ++ rest)) =
      if Text.isBlankLine raw then linesOfChars rest
      else .ofChars (Text.dropReturns raw) :: linesOfChars rest := by
  obtain ⟨returns, rfl, found⟩ := exists_returns ends
  rcases found with rfl | rfl
  · exact linesOfChars_append unbroken rest
  · have blank : Text.isBlankLine (raw ++ ['\r']) = Text.isBlankLine raw := by
      rw [Text.isBlankLine, List.all_append]
      exact Bool.and_true _
    have dropped : Text.dropReturns (raw ++ ['\r']) = Text.dropReturns raw :=
      List.rdropWhile_concat_pos _ _ _ rfl
    have whole : raw ++ ('\r' :: '\n' :: rest) = (raw ++ ['\r']) ++ '\n' :: rest := by simp
    rw [List.append_assoc, List.singleton_append, List.singleton_append, whole,
      linesOfChars_append (by simpa using unbroken), blank, dropped]

theorem dropReturns_of_last (last : raw.getLast? ≠ some '\r') : Text.dropReturns raw = raw := by
  rw [Text.dropReturns_eq, List.rdropWhile_eq_self_iff]
  intro some returns
  rw [List.getLast?_eq_getLast_of_ne_nil some] at last
  exact last (congrArg _ (by simpa using returns))

/-- A line of a print, with what ends it, is read as one line. -/
theorem Wording.Writable.linesOfChars {wording : Wording} (writable : wording.Writable)
    (ends : ending ∈ lineEnds) (indent : Nat) (rest : List Char) :
    linesOfChars (List.replicate indent ' ' ++ wording.text ++ (ending ++ rest)) =
      .ofChars (List.replicate indent ' ' ++ wording.text) :: linesOfChars rest := by
  have unbroken : '\n' ∉ List.replicate indent ' ' ++ wording.text := by
    rw [List.mem_append, not_or]
    exact ⟨fun inside => absurd (List.eq_of_mem_replicate inside) (by decide),
      writable.unbroken_text⟩
  have visible : Text.isBlankLine (List.replicate indent ' ' ++ wording.text) = false := by
    rw [Text.isBlankLine, List.all_append]
    exact Bool.and_eq_false_imp.mpr fun _ => writable.visible_text
  have last : (List.replicate indent ' ' ++ wording.text).getLast? ≠ some '\r' := by
    rw [List.getLast?_append_of_ne_nil _ writable.text_ne_nil]
    exact writable.ending_text
  rw [linesOfChars_line unbroken ends, visible, dropReturns_of_last last]
  rfl

end Lines

/-- A text is a print of a forest at an indentation. The lines under a line have an indentation of
their own, which is deeper. -/
inductive Written : Nat → List Passage → List Char → Prop where
  | ended {indent : Nat} : Written indent [] []
  | blank {indent : Nat} {forest : List Passage} {raw ending rest : List Char} :
      Text.isBlankLine raw = true → '\n' ∉ raw → ending ∈ lineEnds → Written indent forest rest →
      Written indent forest (raw ++ (ending ++ rest))
  | passage {indent deeper : Nat} {wording : Wording} {children others : List Passage}
      {ending below after : List Char} :
      indent < deeper → ending ∈ lineEnds → Written deeper children below →
      Written indent others after →
      Written indent (⟨wording, children⟩ :: others)
        (List.replicate indent ' ' ++ wording.text ++ (ending ++ (below ++ after)))

namespace Block

/-- Blocks at one indentation, each with deeper ones under it, again at one indentation. -/
inductive Laid : Nat → List Block → Prop where
  | nil {indent : Nat} : Laid indent []
  | cons {indent deeper : Nat} {line : Line} {children others : List Block} :
      line.indent = indent → indent < deeper → Laid deeper children → Laid indent others →
      Laid indent (⟨line, children⟩ :: others)

def Shallow (indent : Nat) (blocks : List Block) : Prop :=
  ∀ block ∈ blocks.head?, block.line.indent ≤ indent

section Laying
variable {indent : Nat} {blocks outer : List Block}

theorem Laid.indented (laid : Laid indent blocks) :
    ∀ block ∈ blocks, block.line.indent = indent := by
  induction laid with
  | nil => nofun
  | cons here _ _ _ _ others => exact List.forall_mem_cons.mpr ⟨here, others⟩

theorem shallow_nil (indent : Nat) : Shallow indent [] := by
  rintro block ⟨⟩

theorem Laid.shallow (laid : Laid indent blocks) (shallow : Shallow indent outer) :
    Shallow indent (blocks ++ outer) := by
  cases laid with
  | nil => exact shallow
  | cons here =>
    rintro block ⟨⟩
    exact here.le

theorem Shallow.mono {deeper : Nat} (shallow : Shallow indent outer) (le : indent ≤ deeper) :
    Shallow deeper outer :=
  fun block first => Nat.le_trans (shallow block first) le

/-- A line takes the blocks that are indented deeper, up to the first that is not. -/
theorem nest_append {line : Line} (deep : ∀ block ∈ blocks, line.indent < block.line.indent)
    (shallow : Shallow line.indent outer) :
    nest line (blocks ++ outer) = ⟨line, blocks⟩ :: outer := by
  have all : ∀ block ∈ blocks, decide (line.indent < block.line.indent) = true :=
    fun block there => decide_eq_true (deep block there)
  have stop : ∀ block ∈ outer.head?, decide (line.indent < block.line.indent) = false :=
    fun block first => decide_eq_false (Nat.not_lt.mpr (shallow block first))
  rw [nest_eq, Text.takeWhile_boundary all stop, Text.dropWhile_boundary all stop]

/-- The lines of a forest, each before those under it, nest as they do in the forest. -/
theorem Laid.nest_lines (laid : Laid indent blocks) (shallow : Shallow indent outer) :
    (linesOf blocks).foldr nest outer = blocks ++ outer := by
  induction laid generalizing outer with
  | nil => rfl
  | cons here lt children others inner after =>
    have follows := others.shallow shallow
    rw [linesOf, lines, List.cons_append, List.foldr_cons, List.foldr_append, after shallow,
      inner (follows.mono lt.le)]
    refine nest_append (fun block there => ?_) (follows.mono here.ge)
    rwa [here, children.indented block there]

theorem Laid.ofLines_linesOf (laid : Laid indent blocks) : ofLines (linesOf blocks) = blocks := by
  rw [ofLines, laid.nest_lines (shallow_nil indent), List.append_nil]

end Laying

end Block

/-- The lines of a print are those of blocks that say what the forest says. -/
theorem Written.laid {indent : Nat} {forest : List Passage} {text : List Char}
    (written : Written indent forest text)
    (writable : ∀ wording ∈ Passage.wordingsOf forest, wording.Writable) :
    ∃ blocks, Block.passagesOf blocks = forest ∧ Block.Laid indent blocks ∧
      ∀ rest, linesOfChars (text ++ rest) = Block.linesOf blocks ++ linesOfChars rest := by
  induction written with
  | ended => exact ⟨[], rfl, .nil, fun rest => rfl⟩
  | blank blank unbroken ends _ ih =>
    obtain ⟨blocks, same, laid, lines⟩ := ih writable
    refine ⟨blocks, same, laid, fun rest => ?_⟩
    rw [List.append_assoc, List.append_assoc, linesOfChars_line unbroken ends, if_pos blank, lines]
  | @passage indent deeper wording children others ending below after lt ends _ _ inner outer =>
    rw [Passage.wordingsOf, Passage.wordings, List.cons_append] at writable
    obtain ⟨here, writable⟩ := List.forall_mem_cons.mp writable
    obtain ⟨writableBelow, writableAfter⟩ := List.forall_mem_append.mp writable
    obtain ⟨childBlocks, childSame, childLaid, childLines⟩ := inner writableBelow
    obtain ⟨blocks, same, laid, lines⟩ := outer writableAfter
    obtain ⟨kind, content, indented⟩ := here.ofChars indent
    refine ⟨⟨_, childBlocks⟩ :: blocks, ?_, .cons indented lt childLaid laid, fun rest => ?_⟩
    · rw [Block.passagesOf, Block.passage, kind, content, childSame, same]
    · rw [List.append_assoc (_ ++ _), List.append_assoc ending, List.append_assoc below,
        here.linesOfChars ends,
        childLines, lines, Block.linesOf, Block.lines, List.cons_append, List.cons_append,
        List.append_assoc]

/-- A print of a forest, read back, has the same shape and says the same. -/
theorem outline_written {forest : List Passage} {indent : Nat} {text : String}
    (writable : ∀ wording ∈ Passage.wordingsOf forest, wording.Writable)
    (written : Written indent forest text.toList) :
    Block.passagesOf (outline text) = forest ∧
      ∀ line ∈ Block.linesOf (outline text), line.phrase = .ofText line.content := by
  constructor
  · obtain ⟨blocks, same, laid, lines⟩ := written.laid writable
    have whole : linesOfChars text.toList = Block.linesOf blocks := by
      simpa [linesOfChars_nil] using lines []
    rw [outline, linesOfText_eq, whole, laid.ofLines_linesOf, same]
  · rw [outline, Block.linesOf_ofLines]
    intro line there
    obtain ⟨raw, _, rfl⟩ := List.mem_map.mp there
    rfl

/-- Contents that begin with a blank or look like another line, blank lines and both line ends. -/
theorem outline_written_mixed :
    let forest : List Passage := [⟨⟨.comment, " :: a "⟩, []⟩,
      ⟨⟨.plain, "(b): c"⟩, [⟨⟨.exclusion, "+ \"d\""⟩, []⟩, ⟨⟨.action, ""⟩, []⟩]⟩]
    let text := "  //  :: a \r\n \t\r\n  (b): c\n     ? + \"d\"\n\n     * \r\n"
    (∀ wording ∈ Passage.wordingsOf forest, wording.Writable) ∧ Written 2 forest text.toList ∧
      Block.passagesOf (outline text) = forest ∧
      ∀ line ∈ Block.linesOf (outline text), line.phrase = .ofText line.content := by
  intro forest text
  have writable : ∀ wording ∈ Passage.wordingsOf forest, wording.Writable := by decide +kernel
  have action : Written 5 [⟨⟨.action, ""⟩, []⟩] _ :=
    .passage (Nat.lt_succ_self 5) (show ['\r', '\n'] ∈ lineEnds by decide) .ended .ended
  have exclusion : Written 5 [⟨⟨.exclusion, "+ \"d\""⟩, []⟩, ⟨⟨.action, ""⟩, []⟩] _ :=
    .passage (Nat.lt_succ_self 5) (show ['\n'] ∈ lineEnds by decide)
      (.blank (show Text.isBlankLine [] = true by decide) (by decide)
        (show ['\n'] ∈ lineEnds by decide) .ended) action
  have plain : Written 2 [⟨⟨.plain, "(b): c"⟩, _⟩] _ :=
    .passage (show 2 < 5 by decide) (show ['\n'] ∈ lineEnds by decide) exclusion .ended
  have comment : Written 2 forest _ :=
    .passage (Nat.lt_succ_self 2) (show ['\r', '\n'] ∈ lineEnds by decide) .ended
      (.blank (show Text.isBlankLine [' ', '\t'] = true by decide) (by decide)
        (show ['\r', '\n'] ∈ lineEnds by decide) plain)
  have written : Written 2 forest text.toList := Eq.subst (by decide +kernel) comment
  exact ⟨writable, written, outline_written writable written⟩

end Rulebook
