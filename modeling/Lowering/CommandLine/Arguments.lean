/-
  CommandLine.Arguments — what the words of a command line ask for.

  `lower INPUT` and `check INPUT` take catalogs (`-m`) and the source text to name in errors (`--source`); `lower`
  also takes `--render`. An option that takes a value has it after `=`, joined to its letter, or as the next word.
-/

namespace Lowering.CommandLine

inductive Command where
  | lower
  | check
  | prelude
  deriving DecidableEq

def Command.ofWord? : String → Option Command
  | "lower" => some .lower
  | "check" => some .check
  | "prelude" => some .prelude
  | _ => none

inductive Switch where
  | settings
  | verbose
  | quiet
  | catalog
  | render
  | source
  deriving DecidableEq

namespace Switch

def ofName? : String → Option Switch
  | "config" => some .settings
  | "verbose" => some .verbose
  | "quiet" => some .quiet
  | "metadata" => some .catalog
  | "render" => some .render
  | "source" => some .source
  | _ => none

def ofLetter? : Char → Option Switch
  | 'v' => some .verbose
  | 'q' => some .quiet
  | 'm' => some .catalog
  | _ => none

def takesValue : Switch → Bool
  | .settings | .catalog | .source => true
  | .verbose | .quiet | .render => false

/-- May be given more than once. -/
def repeats : Switch → Bool
  | .catalog | .verbose => true
  | _ => false

/-- Allowed where the command, if any, has been read. -/
def fits (s : Switch) (command : Option Command) : Bool :=
  match s with
  | .settings | .verbose | .quiet => true
  | .catalog | .source => command == some .lower || command == some .check
  | .render => command == some .lower

end Switch

inductive UsageFault where
  | noCommand
  | unknownCommand (word : String)
  | unexpected (word : String)
  | missingValue
  | repeated
  | missingInput

def UsageFault.message : UsageFault → String
  | .noCommand => "a command is needed: lower, check or prelude"
  | .unknownCommand word => "unknown command " ++ word
  | .unexpected word => "unexpected argument " ++ word
  | .missingValue => "an option lacks its value"
  | .repeated => "an option is given twice"
  | .missingInput => "an input file is needed"

/-- What has been read so far. -/
structure Draft where
  command : Option Command
  input : Option String
  /-- Options with their values, latest first. -/
  given : List (Switch × String)
  /-- The option whose value is the next word. -/
  awaiting : Option Switch
  /-- After `--` every word is an operand. -/
  operandsOnly : Bool

namespace Draft

def start : Draft := ⟨none, none, [], none, false⟩

/-- Takes an option with its value, empty for one that has none. -/
def take (d : Draft) (s : Switch) (value : String) : Except UsageFault Draft :=
  if !s.repeats && d.given.any (·.1 == s) then .error .repeated
  else .ok { d with given := (s, value) :: d.given, awaiting := none }

def operand (d : Draft) (word : String) : Except UsageFault Draft :=
  match d.command, d.input with
  | none, _ =>
    match Command.ofWord? word with
    | some command => .ok { d with command := some command }
    | none => .error (.unknownCommand word)
  | some .prelude, _ => .error (.unexpected word)
  | some _, none => .ok { d with input := some word }
  | some _, some _ => .error (.unexpected word)

/-- `--name` or `--name=value` -/
def long (d : Draft) (word : String) (name : String) (value : Option String) : Except UsageFault Draft :=
  match (Switch.ofName? name).filter (·.fits d.command), value with
  | none, _ => .error (.unexpected word)
  | some s, some value => if s.takesValue then d.take s value else .error (.unexpected word)
  | some s, none => if s.takesValue then .ok { d with awaiting := some s } else d.take s ""

/-- Letters after a dash. An option with a value takes the letters that follow it. -/
def short (d : Draft) (word : String) : List Char → Except UsageFault Draft
  | [] => .ok d
  | c :: cs =>
    match (Switch.ofLetter? c).filter (·.fits d.command) with
    | none => .error (.unexpected word)
    | some s =>
      if s.takesValue then
        match cs with
        | [] => .ok { d with awaiting := some s }
        | '=' :: value => d.take s (String.ofList value)
        | value => d.take s (String.ofList value)
      else do
        let d ← d.take s ""
        d.short word cs

def word (d : Draft) (w : String) : Except UsageFault Draft :=
  match d.awaiting, d.operandsOnly, w.toList with
  | some _, _, '-' :: _ :: _ => .error .missingValue
  | some s, _, _ => d.take s w
  | none, false, ['-', '-'] => .ok { d with operandsOnly := true }
  | none, false, '-' :: '-' :: cs =>
    let name := cs.takeWhile (· != '=')
    let value := match cs.dropWhile (· != '=') with
      | '=' :: value => some (String.ofList value)
      | _ => none
    d.long w (String.ofList name) value
  | none, false, '-' :: c :: cs => d.short w (c :: cs)
  | none, _, _ => d.operand w

def values (d : Draft) (s : Switch) : List String := (d.given.filter (·.1 == s)).reverse.map (·.2)

end Draft

/-- A program to lower and the files that go with it, by their paths. -/
structure Inputs where
  program : String
  catalogs : List String
  source : Option String

inductive Task where
  | lower (inputs : Inputs) (render : Bool)
  | check (inputs : Inputs)
  | prelude

structure Invocation where
  settings : Option String
  task : Task

def Draft.finish (d : Draft) : Except UsageFault Invocation := do
  if d.awaiting.isSome then throw .missingValue
  let settings := (d.values .settings).head?
  let inputs : Except UsageFault Inputs :=
    match d.input with
    | some program => pure ⟨program, d.values .catalog, (d.values .source).head?⟩
    | none => throw .missingInput
  match d.command with
  | none => throw .noCommand
  | some .prelude => pure ⟨settings, .prelude⟩
  | some .lower => return ⟨settings, .lower (← inputs) (d.given.any (·.1 == .render))⟩
  | some .check => return ⟨settings, .check (← inputs)⟩

def parse (words : List String) : Except UsageFault Invocation := do
  let draft ← words.foldlM Draft.word Draft.start
  draft.finish

/-! ## Files -/

def Inputs.paths (i : Inputs) : List String := i.program :: i.catalogs ++ i.source.toList

def Invocation.paths (i : Invocation) : List String :=
  let files := match i.task with
    | .lower inputs _ => inputs.paths
    | .check inputs => inputs.paths
    | .prelude => []
  i.settings.toList ++ files

end Lowering.CommandLine
