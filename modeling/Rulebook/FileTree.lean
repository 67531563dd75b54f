import Rulebook.Fault
import Rulebook.Table
import Rulebook.Text.Pieces

/-! Text files in folders, and the paths that lead to them. A path is followed name by name from
the present folder, or from the top of the tree if it begins with a slash; a slash has to have a
folder before it. An empty name and `.` stay where they are and `..` goes one folder up. Lengths
are counted in bytes. -/
namespace Rulebook

/-- A place in the tree: the names that lead to it, the last one first. A place that is not within
the present folder begins with steps up, or with an empty name for the top of the tree. -/
abbrev Place := List String

namespace Place

/-- The place that a name leads to from here. -/
def step (here : Place) (name : String) : Place :=
  if name = "" ∨ name = "." then here
  else if name = ".." then
    match here with
    | [] => [".."]
    | last :: outer => if last = ".." then ".." :: here else if last = "" then here else outer
  else name :: here

/-- The place as a path without detours. -/
def text (here : Place) : String := "/".intercalate here.reverse

/-- The folders that are always there: the present one and those around it, the top, the one of
the devices and the one for passing files. -/
def isStanding (here : Place) : Bool :=
  here.all (· == "..") || here ∈ [[""], ["dev", ""], ["tmp", ""]]

/-- The device that reads as an empty file and loses what is written to it. -/
def null : Place := ["null", "dev", ""]

/-- The most bytes that a path may have. -/
def longestPath : Nat := 4095

/-- The most bytes that a name on a path may have. -/
def longestName : Nat := 255

/-- The names between the slashes of a path. -/
def split (path : String) : List String := (Text.pieces '/' path.toList).map String.ofList

/-- The names along a path; an empty path leads nowhere. -/
def names (path : String) : Except Fault (List String) :=
  if '\x00' ∈ path.toList then .error (.badPath path)
  else if path = "" then .error (.missingFile path)
  else if path.utf8ByteSize > longestPath then .error (.pathTooLong path)
  else .ok (split path)

/-- Where a path with these names begins. -/
def start : List String → Place
  | "" :: _ :: _ => [""]
  | _ => []

end Place

structure FileTree where
  /-- The contents of the files, by place. A folder is there if a file is in it. -/
  files : Table String := {}

namespace FileTree

def ofList (files : List (String × String)) : FileTree where
  files := .ofList <| files.map fun (path, text) =>
    (((Place.split path).foldl Place.step []).text, text)

def file? (tree : FileTree) (here : Place) : Option String :=
  if here = .null then some "" else tree.files.get? here.text

def hasFolder (tree : FileTree) (here : Place) : Bool :=
  here.isStanding ||
    tree.files.keys.any fun file => (here.text ++ "/").toList.isPrefixOf file.toList

/-- Follows the names of a path. There has to be a folder wherever another name follows. -/
def follow (tree : FileTree) (path : String) : Place → List String → Except Fault Place
  | here, [] => .ok here
  | here, name :: names =>
    if tree.hasFolder here then
      if name.utf8ByteSize > Place.longestName then .error (.pathTooLong path)
      else tree.follow path (here.step name) names
    else if (tree.file? here).isSome then .error (.notFolder path)
    else .error (.missingFile path)

/-- The contents of the file that a path leads to. -/
def read (tree : FileTree) (path : String) : Except Fault String := do
  let names ← Place.names path
  let place ← tree.follow path (.start names) names
  match tree.file? place with
  | some text => .ok text
  | none => .error (if tree.hasFolder place then .isFolder path else .missingFile path)

/-- Puts a file where a path leads, in place of one that is there. The folder has to be there, and
a path that ends in a slash is not one of a file. -/
def write (tree : FileTree) (path text : String) : Except Fault FileTree := do
  let names ← Place.names path
  match names.reverse.dropWhile (· == "") with
  | [] => .error (.isFolder path)
  | last :: outer =>
    let folder ← tree.follow path (.start names) (outer.reverse ++ [""])
    if names.getLast? = some "" then .error (.isFolder path)
    let place ← tree.follow path folder [last]
    if tree.hasFolder place then .error (.isFolder path)
    else .ok { files := tree.files.put place.text text }

end FileTree
end Rulebook
