/-! Small rule programs to run as they are: a rule text, the claims and actions to make after
loading it, and the questions to ask in the end. -/
namespace Rulebook

structure Sample where
  name : String
  description : String
  text : String
  claims : List String := []
  actions : List String := []
  queries : List String := []

namespace Sample

/-- Whatever is a monster is scary, and chases the player while it is awake. -/
def monsters : Sample where
  name := "monsters"
  description := "Nested conditions: claims that hold while their conditions do"
  text :=
    "// Anything that is a monster is scary; scary things chase the player.\n" ++
    ":: (thing) is a monster\n" ++
    "    + (thing) is scary\n" ++
    "    :: (thing) is awake\n" ++
    "        + (thing) chases the player\n" ++
    "+ \"goblin\" is a monster\n" ++
    "+ \"troll\" is a monster\n" ++
    "+ \"troll\" is awake\n" ++
    "+ \"rabbit\" is awake\n"
  queries := [
    "\"goblin\" is scary",
    "\"troll\" chases the player",
    "\"goblin\" chases the player",
    "\"rabbit\" is scary"]

/-- A tracked thing is in one place at a time. -/
def locations : Sample where
  name := "locations"
  description := "Exclusions: a new location retracts the old one"
  text :=
    "// A tracked thing can only be in one place at a time.\n" ++
    ":: (thing) is tracked\n" ++
    "    ? (thing) is in (place)\n" ++
    "+ \"key\" is tracked\n" ++
    "+ \"lamp\" is tracked\n"
  claims := [
    "\"key\" is in \"kitchen\"",
    "\"lamp\" is in \"kitchen\"",
    "\"key\" is in \"garden\""]
  queries := [
    "\"key\" is in \"kitchen\"",
    "\"key\" is in \"garden\"",
    "\"lamp\" is in \"kitchen\""]

/-- Two actions with callbacks, one of them with a claim. -/
def greetings : Sample where
  name := "greetings"
  description := "Actions: callbacks and claims fired by the first rule that holds"
  text :=
    ":: (person) is in the room\n" ++
    "    :: (person) is friendly\n" ++
    "        * Greet\n" ++
    "            > say: \"hello\" (person)\n" ++
    "            + (person) was greeted\n" ++
    "    * Wave at (person)\n" ++
    "        > say: \"waves at\" (person)\n" ++
    "+ \"ada\" is in the room\n" ++
    "+ \"ada\" is friendly\n" ++
    "+ \"bob\" is in the room\n"
  actions := ["Greet", "Wave at \"bob\""]
  queries := ["\"ada\" was greeted"]

def registry : List Sample := [monsters, locations, greetings]

def find? (name : String) : Option Sample := registry.find? (·.name == name)

end Sample
end Rulebook
