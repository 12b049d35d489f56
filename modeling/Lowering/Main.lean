/-
  Main — the command line.

  Reads the files that the words name and prints what the run answers.
-/

import Lowering.CommandLine.Run

namespace Lowering.CommandLine

def readFile? (path : String) : IO (Option String) := do
  try
    let text ← IO.FS.readFile path
    pure (some text)
  catch _ => pure none

def readFiles (paths : List String) : IO (List (String × String)) :=
  paths.filterMapM fun path => do
    let text ← readFile? path
    pure (text.map (path, ·))

def execute (words : List String) : IO UInt32 := do
  let paths := match parse words with
    | .ok invocation => invocation.paths
    | .error _ => []
  let texts ← readFiles paths
  let outcome := run words fun path => texts.lookup path
  IO.print outcome.out
  IO.eprint outcome.err
  pure outcome.exit.toUInt32

end Lowering.CommandLine

def main (words : List String) : IO UInt32 := Lowering.CommandLine.execute words
