import Ippcode.Command.Process

/-!
# The program

Reads the command line, the input if it is asked for, and the setting of the log; all else is
`Ippcode.process`.  A text that cannot be written makes the process one whose output takes nothing.
-/

namespace Ippcode

/-- the variable of the environment that sets the verbosity of the log -/
def logVariable : String := "IPPCODE_LOG"

/-- all bytes of a stream, after those already read -/
partial def readToEnd (stream : IO.FS.Stream) (done : ByteArray) : IO ByteArray := do
  let block ← stream.read 65536
  if block.isEmpty then return done
  readToEnd stream (done ++ block)

/-- the input, if a command reads it -/
def readInput (words : List Bytes) : IO Bytes := do
  match Command.ofArguments words with
  | .ok .analyze => return (← readToEnd (← IO.getStdin) .empty).toList
  | _ => return []

/-- a process whose output goes to a stream -/
def processOn (output : IO.FS.Stream) (setting : Option Text) (words : List Bytes)
    (input : Bytes) : IO Report := do
  let report := process setting words input .unbounded
  try
    output.putStr (String.ofList report.stdout)
    output.flush
    return report
  catch e => return process setting words input (.refusing e.toString.toList)

/-- exit code, output and log of a run -/
def execute (arguments : List String) : IO UInt32 := do
  let words := ("ippcode-parse" :: arguments).map fun a => Utf8.encode a.toList
  let setting := (← IO.getEnv logVariable).map String.toList
  let report ← processOn (← IO.getStdout) setting words (← readInput words)
  (← IO.getStderr).putStr (String.ofList report.stderr)
  return UInt32.ofNat report.code

end Ippcode

def main (arguments : List String) : IO UInt32 := Ippcode.execute arguments
