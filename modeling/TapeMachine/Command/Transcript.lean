import TapeMachine.StructureError

/-!
# Transcripts

What a command does, as the sequence of its visible effects: bytes on the
standard output and lines handed to the log, and the exit code. A command that
does not deal with a fault breaks off with it.
-/

namespace TapeMachine.Command

/-- One visible effect. -/
inductive Event where
  | stdout (bytes : List UInt8)
  | log (line : String)
  | info (line : String)
  | error (line : String)
  /-- The command breaks off with a fault that it does not report. -/
  | raised (fault : StructureError)
  deriving DecidableEq, Repr

/-- A sequence of effects in which writes that follow each other are one. -/
def Event.merged : List Event → List Event
  | [] => []
  | .stdout [] :: rest => merged rest
  | .stdout bytes :: rest =>
    match merged rest with
    | .stdout more :: others => .stdout (bytes ++ more) :: others
    | others => .stdout bytes :: others
  | event :: rest => event :: merged rest

/-- The visible effects of a command. -/
structure Transcript where
  exitCode : Nat := 0
  events : List Event := []
  deriving DecidableEq, Repr

/-- A command that stops with an error after some effects. -/
def Transcript.failed (line : String) (before : List Event := []) : Transcript :=
  ⟨1, before ++ [.error line]⟩

/-- A command that breaks off after some effects. -/
def Transcript.broken (fault : StructureError) (before : List Event := []) : Transcript :=
  ⟨1, before ++ [.raised fault]⟩

end TapeMachine.Command
