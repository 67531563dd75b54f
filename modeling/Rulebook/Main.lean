import Rulebook.CommandLine

/-! The program: reads the rule file that the words name, runs the command line, and writes the
graph if one was asked for. -/
namespace Rulebook

/-- The file that the words ask to load, if it can be read. Whether a file can be written is found
out by writing it. -/
def diskFor (words : List String) : IO CommandLine.Disk := do
  let disk : CommandLine.Disk :=
    { read := fun path => do let _ ← Place.names path; .error (.missingFile path)
      admits := fun path => do let _ ← Place.names path }
  match CommandLine.Request.ofWords words with
  | .run { file := some path, sample := none, .. } =>
    if let .error _ := Place.names path then return disk
    try
      let contents ← IO.FS.readFile path
      return { disk with read := fun _ => .ok contents }
    catch _ => return disk
  | _ => return disk

end Rulebook

open Rulebook in
def main (words : List String) : IO UInt32 := do
  let result := CommandLine.run words (← diskFor words)
  IO.print result.stdout
  IO.eprint result.stderr
  if let some (name, text) := result.written then IO.FS.writeFile name text
  match result.ending with
  | .exited status => return status.toUInt32
  | .escaped fault =>
    IO.eprintln fault.message
    return 1
