import TapeMachine.Quantity

/-!
# Command lines

A command line names a command and gives it a file, switches and settings. A
setting's value follows an equals sign or is the next word.
-/

namespace TapeMachine.Command

/-- What the words of a command line say. -/
structure Arguments where
  command : String
  file : Option String := none
  switches : List String := []
  settings : List (String × String) := []
  deriving DecidableEq, Repr

namespace Arguments

/-- The switches that the commands know. -/
def knownSwitches : List String :=
  ["--unoptimized", "--odd-deltas", "--stats"]

/-- The settings that the commands know. -/
def knownSettings : List String :=
  ["--max-steps", "--timeout", "--stage", "--input"]

/-- Takes the words after the command. None if one is not understood. -/
def takeWords (arguments : Arguments) : List String → Option Arguments
  | [] => some arguments
  | [word] =>
    if knownSwitches.contains word then
      some { arguments with switches := word :: arguments.switches }
    else takeValue arguments word
  | word :: next :: rest =>
    if knownSwitches.contains word then
      takeWords { arguments with switches := word :: arguments.switches } (next :: rest)
    else if knownSettings.contains word then
      takeWords { arguments with settings := (word, next) :: arguments.settings } rest
    else do
      let taken ← takeValue arguments word
      takeWords taken (next :: rest)
where
  /-- Takes a word that stands on its own: a setting with its value, or the file. -/
  takeValue (arguments : Arguments) (word : String) : Option Arguments :=
    match word.splitOn "=" with
    | name :: value :: rest =>
      if knownSettings.contains name then
        some { arguments with
          settings := (name, "=".intercalate (value :: rest)) :: arguments.settings }
      else takeFile arguments word
    | _ => takeFile arguments word
  /-- Takes a word as the file, unless there is one already. -/
  takeFile (arguments : Arguments) (word : String) : Option Arguments :=
    if word.startsWith "--" || arguments.file.isSome then none
    else some { arguments with file := some word }

/-- Reads a command line. -/
def ofWords? : List String → Option Arguments
  | [] => none
  | command :: rest => takeWords { command } rest

/-- Whether a switch is on. -/
def switch (arguments : Arguments) (name : String) : Bool :=
  arguments.switches.contains name

/-- The value of a setting. -/
def setting? (arguments : Arguments) (name : String) : Option String :=
  arguments.settings.lookup name

/-- The value of a setting that is a number. -/
def quantity? (arguments : Arguments) (name : String) : Option Quantity :=
  (arguments.setting? name).map Quantity.ofText

end Arguments

end TapeMachine.Command
