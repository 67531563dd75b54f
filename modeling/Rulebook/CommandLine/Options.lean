import Rulebook.Samples
import Rulebook.Text.Digit

/-! The options of the command line. A long option may be cut short as long as only one option
begins that way, and may take its value after an equals sign. A word that looks like an option is
no value, unless it is a number or has a blank in it. After `--` nothing looks like an option; it
stands next to the file, or where the file would be. As a value behind an equals sign `--` is no
text at all, and the option counts as given. -/
namespace Rulebook.CommandLine

structure Options where
  file : Option String := none
  sample : Option Sample := none
  /-- The option for a sample was there, if only without a text. -/
  sampleGiven : Bool := false
  claims : List (Option String) := []
  actions : List (Option String) := []
  queries : List (Option String) := []
  dot : Option String := none
  strict : Bool := false
  quiet : Bool := false

/-- What the words ask for. -/
inductive Request where
  | run (options : Options)
  | help
  | misuse

inductive Switch where
  | help
  | sample
  | claim
  | action
  | query
  | dot
  | strict
  | quiet
  deriving DecidableEq

namespace Switch

def all : List (String × Switch) :=
  [("--help", help), ("--sample", sample), ("--claim", claim), ("--action", action),
    ("--query", query), ("--dot", dot), ("--strict", strict), ("--quiet", quiet)]

def named? (word : String) : Option Switch := if word = "-h" then some help else all.lookup word

/-- Is the switch followed by a value? -/
def takesValue : Switch → Bool
  | help | strict | quiet => false
  | _ => true

end Switch

/-- What a word is, read by itself. -/
inductive Word where
  | plain (text : String)
  /-- A switch, with the value after its equals sign if there is one. -/
  | switch (name : Switch) (value : Option String)
  /-- The end of the options. -/
  | stop
  /-- An option that there is not. -/
  | unknown
  /-- The beginning of more than one option. -/
  | unclear
  deriving DecidableEq

namespace Word

/-- Decimal digits, at least one, and perhaps a line feed. -/
def areDigits (chars : List Char) : Bool :=
  !(chars.takeWhile Text.isDecimalDigit).isEmpty &&
    (chars.dropWhile Text.isDecimalDigit == [] || chars.dropWhile Text.isDecimalDigit == ['\n'])

/-- A minus sign and a decimal number, whole or with a point and places. -/
def isNegativeNumber : List Char → Bool
  | '-' :: number =>
    areDigits number ||
      match number.dropWhile Text.isDecimalDigit with
      | '.' :: places => areDigits places
      | _ => false
  | _ => false

/-- The text before the first equals sign, and the text after it if there is one. -/
def splitValue (chars : List Char) : String × Option String :=
  match chars.dropWhile (· != '=') with
  | [] => (String.ofList chars, none)
  | _ :: value => (String.ofList (chars.takeWhile (· != '=')), some (String.ofList value))

/-- A word that begins with a dash and names no option. -/
def ofUnnamed (chars : List Char) : Word :=
  if isNegativeNumber chars ∨ ' ' ∈ chars then .plain (String.ofList chars) else .unknown

/-- The switches that a long option may be short for. -/
def candidates (name : String) : List Switch :=
  (Switch.all.filter fun (full, _) => name.toList.isPrefixOf full.toList).map (·.2)

/-- A word of two dashes and more that is not an option by itself. -/
def ofLong (chars : List Char) : Word :=
  let (name, value) := splitValue chars
  match Switch.named? name with
  | some full => .switch full value
  | none =>
    match candidates name with
    | [] => ofUnnamed chars
    | [full] => .switch full value
    | _ => .unclear

/-- Reads a word. -/
def ofText (text : String) : Word :=
  match text.toList with
  | ['-', '-'] => .stop
  | '-' :: '-' :: rest => ofLong ('-' :: '-' :: rest)
  | ['-'] => .plain "-"
  | '-' :: 'h' :: rest =>
    .switch .help (if rest.all (· == 'h') then none else some (String.ofList rest))
  | '-' :: rest => ofUnnamed ('-' :: rest)
  | _ => .plain text

/-- Reads the words up to the end of the options; those behind it are plain. -/
def ofTexts : List String → List Word
  | [] => []
  | text :: texts =>
    match ofText text with
    | .stop => .stop :: texts.map .plain
    | word => word :: ofTexts texts

end Word

namespace Options

/-- Takes in a switch with its value; a sample that there is not is refused. -/
def take (options : Options) (value : Option String) : Switch → Option Options
  | .sample =>
    match value with
    | none => some { options with sample := none, sampleGiven := true }
    | some name => (Sample.find? name).map fun sample =>
      { options with sample := some sample, sampleGiven := true }
  | .claim => some { options with claims := options.claims ++ [value] }
  | .action => some { options with actions := options.actions ++ [value] }
  | .query => some { options with queries := options.queries ++ [value] }
  | .dot => some { options with dot := value }
  | .strict => some { options with strict := true }
  | .quiet => some { options with quiet := true }
  | .help => none

/-- The text that a value behind an equals sign gives. -/
def textOf (value : String) : Option String := if value = "--" then none else some value

end Options

/-- Reads words into options; `odd` says that there was a word with no place among them, which is
found out in the end. -/
def readWords (options : Options) (odd : Bool) : List Word → Request
  | [] =>
    if odd || (options.file.isNone && !options.sampleGiven) then .misuse else .run options
  | .stop :: words => readWords options (odd || options.file.isSome) words
  | .unknown :: words => readWords options true words
  | .unclear :: _ => .misuse
  | .plain text :: .stop :: words =>
    if options.file.isNone then readWords { options with file := some text } odd words
    else readWords options true words
  | .plain text :: words =>
    if options.file.isNone then readWords { options with file := some text } odd words
    else readWords options true words
  | .switch name (some value) :: words =>
    match if name.takesValue then options.take (Options.textOf value) name else none with
    | some options => readWords options odd words
    | none => .misuse
  | .switch .help none :: _ => .help
  | .switch name none :: words =>
    if name.takesValue then
      match words with
      | .plain value :: words =>
        match options.take (some value) name with
        | some options => readWords options odd words
        | none => .misuse
      | _ => .misuse
    else
      match options.take none name with
      | some options => readWords options odd words
      | none => .misuse

/-- Reads the words of a command line. -/
def Request.ofWords (texts : List String) : Request :=
  let words := Word.ofTexts texts
  if .unclear ∈ words then .misuse else readWords {} false words

end Rulebook.CommandLine
