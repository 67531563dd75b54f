import Rulebook.Graph

/-! Reading the DOT language, as far as rule graphs use it. A quoted identifier ends at the next
quote that no backslash precedes, and inside it a backslash with a quote stands for the quote.
Writing escapes quotes only, so a name reads back as itself unless it ends in a backslash, which
then takes the closing quote along. -/
namespace Rulebook.Dot

inductive Token where
  /-- A quoted identifier. -/
  | name (text : String)
  /-- A bare identifier. -/
  | word (text : String)
  | mark (c : Char)
  /-- A quote that nothing closes. -/
  | unclosed
  deriving DecidableEq

/-- What a character adds to: the characters read so far, the last one first. -/
inductive Place where
  | bare (back : List Char)
  | quoted (back : List Char)

def isWordChar (c : Char) : Bool := c.isAlphanum || c == '_'

/-- The word that ends here, if there is one. -/
def wordOf : List Char → List Token
  | [] => []
  | back => [.word (String.ofList back.reverse)]

def scan : Place → List Char → List Token
  | .bare back, [] => wordOf back
  | .quoted _, [] => [.unclosed]
  | .bare back, c :: rest =>
    if isWordChar c then scan (.bare (c :: back)) rest
    else wordOf back ++
      if c = '"' then scan (.quoted []) rest
      else if c.isWhitespace then scan (.bare []) rest
      else .mark c :: scan (.bare []) rest
  | .quoted back, c :: rest =>
    if c = '"' then
      if back.head? = some '\\' then scan (.quoted ('"' :: back.tail)) rest
      else .name (String.ofList back.reverse) :: scan (.bare []) rest
    else scan (.quoted (c :: back)) rest

abbrev Attributes := List (String × String)

inductive Statement where
  | setting (name value : String)
  /-- Attributes of all nodes that come later. -/
  | nodes (attributes : Attributes)
  | node (name : String) (attributes : Attributes)
  | edge (source target : String) (attributes : Attributes)
  deriving DecidableEq

/-- Attributes up to the bracket that closes them. -/
def attributesIn : List Token → Option Attributes
  | [.word name, .mark '=', .word value, .mark ']'] => some [(name, value)]
  | .word name :: .mark '=' :: .word value :: .mark ',' :: rest =>
    (attributesIn rest).map ((name, value) :: ·)
  | _ => none

def attributes : List Token → Option Attributes
  | [] => some []
  | .mark '[' :: rest => attributesIn rest
  | _ => none

def statement : List Token → Option Statement
  | [.word name, .mark '=', .word value] => some (.setting name value)
  | .word "node" :: rest => (attributes rest).map .nodes
  | .name source :: .mark '-' :: .mark '>' :: .name target :: rest =>
    (attributes rest).map (.edge source target)
  | .name name :: rest => (attributes rest).map (.node name)
  | _ => none

/-- The statements, each up to its semicolon, as far as the brace that closes them. What has been
read of the first one is kept with its last token first. -/
def statements : List Token → List Token → Option (List Statement)
  | [], [.mark '\x7d'] => some []
  | back, .mark ';' :: rest =>
    match statement back.reverse with
    | some first => (statements [] rest).map (first :: ·)
    | none => none
  | back, token :: rest => statements (token :: back) rest
  | _, [] => none

/-- The statements of a graph; nothing if the text is not that of one. -/
def read (text : String) : Option (List Statement) :=
  match scan (.bare []) text.toList with
  | .word "digraph" :: .word _ :: .mark '\x7b' :: rest => statements [] rest
  | _ => none

def Statement.node? (ellipse : Bool) : Statement → Option String
  | .node name attributes =>
    if attributes.contains ("shape", "ellipse") = ellipse then some name else none
  | _ => none

def Statement.edge? (dashed : Bool) : Statement → Option (String × String)
  | .edge source target attributes =>
    if attributes.contains ("style", "dashed") = dashed then some (source, target) else none
  | _ => none

/-- The name ends in a backslash. -/
def Spills (name : String) : Prop := name.toList.getLast? = some '\\'

instance (name : String) : Decidable (Spills name) := inferInstanceAs (Decidable (_ = _))

section Names
variable {name : String}

/-- Escaped characters are read back, whatever comes before and after them. -/
theorem scan_escaped (chars back rest : List Char) :
    scan (.quoted back) ((chars.flatMap fun c => if c = '"' then ['\\', '"'] else [c]) ++ rest) =
      scan (.quoted (chars.reverse ++ back)) rest := by
  induction chars generalizing back with
  | nil => rfl
  | cons c chars ih =>
    rw [List.flatMap_cons, List.append_assoc, List.reverse_cons, List.append_assoc,
      List.singleton_append, ← ih]
    by_cases quote : c = '"'
    · subst quote
      rfl
    · simp [scan, quote]

/-- A written name is read up to the quote that closes it. -/
theorem scan_name (name : String) (rest : List Char) :
    scan (.bare []) ((Graph.node name).toList ++ rest) =
      scan (.quoted name.toList.reverse) ('"' :: rest) := by
  have quote : "\"".toList = ['"'] := rfl
  rw [Graph.node, Graph.escape, String.toList_append, String.toList_append, quote,
    String.toList_ofList, List.append_assoc, List.append_assoc]
  exact (scan_escaped name.toList [] ('"' :: rest)).trans (by rw [List.append_nil])

theorem scan_indent (rest : List Char) :
    scan (.bare []) ("  ".toList ++ rest) = scan (.bare []) rest := rfl

/-- A quote that has been read stays in the name that is being read. -/
theorem scan_keeps (more : List Char) {before rest : List Char} {text : String}
    {tokens : List Token}
    (scanned : scan (.quoted (more ++ '"' :: before)) rest = .name text :: tokens) :
    ∃ tail, text.toList = before.reverse ++ '"' :: tail := by
  induction rest generalizing more with
  | nil => cases scanned
  | cons c rest ih =>
    rw [scan] at scanned
    split at scanned
    · split at scanned
      · rename_i escaped
        cases more with
        | nil => cases escaped
        | cons d more => exact ih ('"' :: more) scanned
      · cases scanned
        exact ⟨more.reverse, by simp⟩
    · exact ih (c :: more) scanned

/-- A name that does not end in a backslash is read back, and the reading goes on behind it. -/
theorem scan_node (closed : ¬Spills name) (rest : List Char) :
    scan (.bare []) ((Graph.node name).toList ++ rest) = .name name :: scan (.bare []) rest := by
  rw [Spills, ← List.head?_reverse] at closed
  rw [scan_name, scan, if_pos rfl, if_neg closed, List.reverse_reverse, String.ofList_toList]

/-- No other name is read back. -/
theorem not_spills_of_head {rest : List Char}
    (head : (scan (.bare []) ((Graph.node name).toList ++ rest)).head? = some (.name name)) :
    ¬Spills name := by
  intro last
  rw [Spills, ← List.head?_reverse] at last
  obtain ⟨tokens, scanned⟩ := List.head?_eq_some_iff.mp head
  obtain ⟨before, reversed⟩ := List.head?_eq_some_iff.mp last
  rw [scan_name, scan, if_pos rfl, if_pos last, reversed] at scanned
  obtain ⟨tail, same⟩ := scan_keeps [] scanned
  rw [← List.reverse_reverse name.toList, reversed, List.reverse_cons] at same
  have ends := List.append_cancel_left same
  simp at ends

/-- The text begins as a line that is about the name does. -/
def Opens (text name : String) : Prop :=
  ∃ rest, text.toList = "  ".toList ++ ((Graph.node name).toList ++ rest)

theorem opens_indented (name : String) : Opens ("  " ++ Graph.node name) name :=
  ⟨[], by rw [String.toList_append, List.append_nil]⟩

theorem Opens.append {text : String} (opens : Opens text name) (more : String) :
    Opens (text ++ more) name := by
  obtain ⟨rest, begins⟩ := opens
  exact ⟨rest ++ more.toList, by rw [String.toList_append, begins, List.append_assoc,
    List.append_assoc]⟩

end Names

def Statement.subject? : Statement → Option String
  | .node name _ => some name
  | .edge source _ _ => some source
  | _ => none

section Subject
variable {first : Statement} {name : String} {tokens : List Token}

theorem head_of_statement (read : statement tokens = some first)
    (subject : first.subject? = some name) : tokens.head? = some (.name name) := by
  unfold statement at read
  split at read
  · cases read
    cases subject
  · obtain ⟨_, _, rfl⟩ := Option.map_eq_some_iff.mp read
    cases subject
  · obtain ⟨_, _, rfl⟩ := Option.map_eq_some_iff.mp read
    cases subject
    rfl
  · obtain ⟨_, _, rfl⟩ := Option.map_eq_some_iff.mp read
    cases subject
    rfl
  · cases read

theorem head_of_statements {back : List Token} {tail : List Statement}
    (read : statements back tokens = some (first :: tail))
    (subject : first.subject? = some name) :
    (back.reverse ++ tokens).head? = some (.name name) := by
  fun_induction statements back tokens with
  | case1 => cases read
  | case2 back rest one known =>
    obtain ⟨_, _, same⟩ := Option.map_eq_some_iff.mp read
    obtain ⟨rfl, _⟩ := List.cons.inj same
    have head := head_of_statement known subject
    rw [List.head?_append, head, Option.some_or]
  | case3 => cases read
  | case4 back token rest _ _ ih =>
    have head := ih read
    rwa [List.reverse_cons, List.append_assoc] at head
  | case5 => cases read

end Subject

/-- Whatever comes after it, the text is read as these statements. -/
def Reads (text : String) (found : List Statement) : Prop :=
  ∀ rest, statements [] (scan (.bare []) (text.toList ++ rest)) =
    (statements [] (scan (.bare []) rest)).map (found ++ ·)

/-- The text is read as these statements in this case and in no other. -/
structure Faithful (text : String) (found : List Statement) (fits : Prop) : Prop where
  reads : fits → Reads text found
  only : ∀ rest tail, statements [] (scan (.bare []) (text.toList ++ rest)) = some (found ++ tail) →
    fits

section Faithful
variable {text more : String} {found others : List Statement} {fits also : Prop}

theorem Reads.append (first : Reads text found) (second : Reads more others) :
    Reads (text ++ more) (found ++ others) := by
  intro rest
  rw [String.toList_append, List.append_assoc, first, second, Option.map_map]
  simp [Function.comp_def]

theorem Faithful.append (first : Faithful text found fits)
    (second : fits → Faithful more others also) :
    Faithful (text ++ more) (found ++ others) (fits ∧ also) where
  reads both := (first.reads both.1).append ((second both.1).reads both.2)
  only rest tail read := by
    rw [String.toList_append, List.append_assoc, List.append_assoc] at read
    -- The first text is read in full, so what is left over is read from the second.
    have here := first.only _ _ read
    refine ⟨here, (second here).only rest tail ?_⟩
    obtain ⟨later, read, same⟩ := Option.map_eq_some_iff.mp ((first.reads here _).symm.trans read)
    rw [read, List.append_cancel_left same]

theorem Faithful.congr (faithful : Faithful text found fits) (same : fits ↔ also) :
    Faithful text found also :=
  propext same ▸ faithful

theorem Faithful.join {α : Type} {text : α → String} {found : α → List Statement}
    {fits : α → Prop} {items : List α}
    (each : ∀ item ∈ items, Faithful (text item) (found item) (fits item)) :
    Faithful (String.join (items.map text)) (items.flatMap found) (∀ item ∈ items, fits item) := by
  induction items with
  | nil =>
    refine ⟨fun _ rest => ?_, fun _ _ _ => List.forall_mem_nil _⟩
    simp
  | cons item items ih =>
    obtain ⟨first, others⟩ := List.forall_mem_cons.mp each
    have joined : String.join ((item :: items).map text) =
        text item ++ String.join (items.map text) :=
      String.toList_inj.mp (by simp [String.toList_join])
    rw [joined, List.flatMap_cons]
    exact (first.append fun _ => ih others).congr List.forall_mem_cons.symm

/-- A line about a node or an edge is read as what it is only if the name that it opens with is. -/
theorem faithful_line {name : String} {line : Statement} (opens : Opens text name)
    (subject : line.subject? = some name) (reads : ¬Spills name → Reads text [line]) :
    Faithful text [line] (¬Spills name) where
  reads := reads
  only after tail read := by
    obtain ⟨rest, begins⟩ := opens
    have head := head_of_statements read subject
    rw [List.reverse_nil, List.nil_append, begins, List.append_assoc, List.append_assoc,
      scan_indent] at head
    exact not_spills_of_head head

/-- The settings of a graph stand before its statements, and a brace comes after them. -/
theorem read_text (text more : String) :
    read ("digraph syllogisms \x7b\n  rankdir=LR;\n  node [shape=box, style=rounded];\n" ++ text ++
        more ++ "\x7d\n") =
      (statements [] (scan (.bare []) ((text ++ more).toList ++ "\x7d\n".toList))).map
        ([.setting "rankdir" "LR", .nodes [("shape", "box"), ("style", "rounded")]] ++ ·) := by
  have setting : Reads "\n  rankdir=LR;" [.setting "rankdir" "LR"] := fun _ => rfl
  have nodes : Reads "\n  node [shape=box, style=rounded];\n"
      [.nodes [("shape", "box"), ("style", "rounded")]] := fun _ => rfl
  refine Eq.trans ?_ (setting.append nodes _)
  simp only [read, String.toList_append, List.append_assoc]
  rfl

theorem Faithful.read_iff (faithful : Faithful (text ++ more) found fits) :
    read ("digraph syllogisms \x7b\n  rankdir=LR;\n  node [shape=box, style=rounded];\n" ++ text ++
        more ++ "\x7d\n") =
      some (.setting "rankdir" "LR" :: .nodes [("shape", "box"), ("style", "rounded")] :: found) ↔
      fits := by
  have closing : statements [] (scan (.bare []) "\x7d\n".toList) = some [] := rfl
  rw [read_text]
  constructor
  · intro read
    obtain ⟨later, read, same⟩ := Option.map_eq_some_iff.mp read
    have same : later = found := by simpa using same
    have whole : statements [] (scan (.bare []) ((text ++ more).toList ++ "\x7d\n".toList)) =
        some (found ++ []) := by rw [read, same, List.append_nil]
    exact faithful.only _ _ whole
  · intro here
    rw [faithful.reads here, closing]
    simp

end Faithful
end Rulebook.Dot
