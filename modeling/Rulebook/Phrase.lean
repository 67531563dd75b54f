import Rulebook.Fault

/-! Phrases. A phrase is a text with tokens in it: `(name)` stands for a variable, `"text"` for a
literal. Its key is the text with `%s` in place of each token, so phrases that differ in their
tokens only share a key, and the tokens are the arguments. An opener that is never closed is plain
text. -/
namespace Rulebook

/-- A key that names a relation or an action, and the arguments in order. A phrase made by hand
need not have as many arguments as its key has places. -/
structure Phrase where
  key : String
  args : List Term := []
  deriving DecidableEq

namespace Phrase

/-- Drops the characters from both ends. -/
def trim (chars text : List Char) : List Char :=
  ((text.dropWhile (· ∈ chars)).reverse.dropWhile (· ∈ chars)).reverse

/-- The term a token text stands for, without all the quotes or parentheses around it. -/
def token (text : List Char) : Except Fault Term :=
  match text with
  | '"' :: _ => .ok (.lit (String.ofList (trim ['"'] text)))
  | '(' :: _ => .ok (.var (String.ofList (trim ['(', ')'] text)))
  | _ => .error (.notToken (String.ofList text))

/-- The character that closes a token opened by this one. -/
def closer : Char → Option Char
  | '(' => some ')'
  | '"' => some '"'
  | _ => none

/-- A phrase in pieces: plain characters and token texts. -/
inductive Piece where
  | plain (c : Char)
  | token (text : List Char)
  deriving DecidableEq

/-- Cuts a text into pieces from the left: a token goes from its opener to the first closer. The
number bounds the pieces; there are no more than characters. -/
def piecesWithin : Nat → List Char → List Piece
  | 0, _ => []
  | _, [] => []
  | bound + 1, c :: rest =>
    match closer c with
    | none => .plain c :: piecesWithin bound rest
    | some close =>
      let inside := rest.takeWhile (· != close)
      match rest.dropWhile (· != close) with
      | [] => .plain c :: piecesWithin bound rest
      | _ :: after => .token (c :: inside ++ [close]) :: piecesWithin bound after

def pieces (text : List Char) : List Piece := piecesWithin text.length text

/-- What a piece contributes to the key. -/
def Piece.key : Piece → List Char
  | plain c => [c]
  | token _ => ['%', 's']

/-- The argument that a piece contributes, if any. -/
def Piece.arg? : Piece → Option Term
  | plain _ => none
  | token text => (Phrase.token text).toOption

/-- Reads a phrase; any text is one. -/
def ofText (text : String) : Phrase :=
  let found := pieces text.toList
  ⟨String.ofList (found.flatMap Piece.key), found.filterMap Piece.arg?⟩

end Phrase
end Rulebook
