import Rulebook.Fault
import Rulebook.Table

/-! Substitutions. One is a stack of layers, newest first: extending puts a layer on top and leaves
what is below shared. A name is looked up from the newest layer down, so a newer layer shadows an
older one. Following variables never takes more steps than there are bindings, as long as they do
not run in a circle, and extending keeps them from doing so. -/
namespace Rulebook

structure Substitution where
  layers : List (Table Term) := []

namespace Substitution

/-- No variable is bound. -/
def empty : Substitution := {}

/-- Puts a layer on top. -/
def push (s : Substitution) (layer : Table Term) : Substitution := ⟨layer :: s.layers⟩

/-- The term a name is bound to, itself not followed further. -/
def lookup (s : Substitution) (name : String) : Option Term := s.layers.findSome? (·.get? name)

/-- The number of bindings, shadowed ones counted too. -/
def size (s : Substitution) : Nat := s.layers.foldr (fun layer count => layer.size + count) 0

/-- Follows variables for at most so many steps. -/
def follow (s : Substitution) : Nat → Term → Term
  | _, .lit value => .lit value
  | 0, .var name => .var name
  | n + 1, .var name =>
    match s.lookup name with
    | none => .var name
    | some term => s.follow n term

/-- Follows variables to a literal or an unbound variable. -/
def walk (s : Substitution) (term : Term) : Term := s.follow s.size term

def reify (s : Substitution) (terms : List Term) : List Term := terms.map s.walk

/-- What the substitution says of each term: a literal, or nothing if it is still open. -/
def valuesOf (s : Substitution) (terms : List Term) : List (Option String) :=
  (s.reify terms).map Term.value?

/-- Does the term, once followed, come out as the variable of this name? -/
def occursIn (s : Substitution) (name : String) (term : Term) : Bool := s.walk term == .var name

/-- Binds one unbound variable, in a layer of its own, to what the value stands for. Gives nothing
if the variable would come to stand for itself. -/
def extend (s : Substitution) (target value : Term) : Except Fault (Option Substitution) :=
  match target with
  | .lit _ => .error (.bindsLiteral target)
  | .var name =>
    if (s.lookup name).isSome then .error (.alreadyBound target)
    else if s.occursIn name value then .ok none
    else .ok (some (s.push (Table.empty.put name (s.walk value))))

/-- Makes two terms equal, by binding at most one variable; the left one first. -/
def unify (s : Substitution) (left right : Term) : Except Fault (Option Substitution) :=
  let a := s.walk left
  let b := s.walk right
  if a = b then .ok (some s)
  else match a, b with
    | .var _, _ => s.extend a b
    | .lit _, .var _ => s.extend b a
    | .lit _, .lit _ => .ok none

/-- Unifies pairs in turn, with the new bindings staged in one layer that later pairs see. -/
def stage (s : Substitution) : Table Term → List (Term × Term) → Option (Table Term)
  | staged, [] => some staged
  | staged, (left, right) :: rest =>
    let a := (s.push staged).walk left
    let b := (s.push staged).walk right
    if a = b then s.stage staged rest
    else match a, b with
      | .var name, _ => s.stage (staged.put name b) rest
      | .lit _, .var name => s.stage (staged.put name a) rest
      | .lit _, .lit _ => none

/-- Unifies two lists position by position, all or nothing. When nothing had to be bound the
substitution is left as it is; otherwise it gets one layer. -/
def unifyAll (s : Substitution) (left right : List Term) : Option Substitution :=
  if left.length = right.length then
    (s.stage .empty (left.zip right)).map fun staged =>
      if staged.entries.isEmpty then s else s.push staged
  else none

/-- The bindings that count, in the order in which their names were first bound. -/
def bindings (s : Substitution) : Table Term :=
  s.layers.foldr (fun layer older => older.putAll layer.entries) .empty

/-- A layer of given bindings over a substitution; of two for one name the later counts. -/
def ofBindings (bindings : List (String × Term)) (below : Substitution) : Substitution :=
  below.push (.ofList bindings)

/-- The bindings by name. -/
def text (s : Substitution) : String :=
  "Substitution(" ++
    ", ".intercalate (s.bindings.sorted.map fun (name, term) => name ++ "=" ++ term.text) ++ ")"

end Substitution
end Rulebook
