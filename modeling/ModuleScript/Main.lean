import ModuleScript.CommandLine
import Std.Time.DateTime.Timestamp

/-!
The program. It sets up a session as the command line asks, runs it step by step, and hands the
clock and standard input to the console when a step is about to need them.
-/

namespace ModuleScript

def now : IO Float := do
  let t ← Std.Time.Timestamp.now
  return Float.ofInt t.toNanosecondsSinceUnixEpoch.val / 1000000000.0

def readPath (path : String) : IO (Option (List UInt8)) := do
  try
    return some (← IO.FS.readBinFile path).toList
  catch _ =>
    return none

def readAll (input : IO.FS.Stream) : IO (List UInt8) := do
  let mut bytes : Array UInt8 := #[]
  repeat
    let chunk ← input.read 65536
    if chunk.isEmpty then break
    bytes := bytes ++ chunk.data
  return bytes.toList

def readLineBytes (input : IO.FS.Stream) : IO (List UInt8) := do
  let mut bytes : Array UInt8 := #[]
  repeat
    let chunk ← input.read 1
    if chunk.isEmpty then break
    bytes := bytes ++ chunk.data
    if chunk.data.contains 10 then break
  return bytes.toList

/-- The native function that the next step calls without arguments. -/
def Config.calling? : Config → Option Name
  | ⟨.value (.native x), .callee [] _ :: _, _⟩ => some x
  | _ => none

def Config.onConsole (c : Config) (g : Console → Console) : Config :=
  { c with state.host.console := g c.state.host.console }

/-- Fills the console with what the next step needs of the outside world. -/
def supply (input : IO.FS.Stream) (readsInput : Bool) (c : Config) : IO Config := do
  match c.calling? with
  | some "clock" =>
    let t ← now
    return c.onConsole fun console => { console with clock := fun _ => t }
  | some "readString" =>
    if readsInput then
      let line ← readLineBytes input
      return c.onConsole fun console => { console with input := line }
    else return c
  | _ => return c

def flushPrinted (output : IO.FS.Stream) (c : Config) : IO Config := do
  if c.state.host.console.printed.isEmpty then return c
  output.putStr c.state.host.console.printed
  output.flush
  return c.onConsole fun console => { console with printed := "" }

partial def drive (program : Program) (input output : IO.FS.Stream) (readsInput : Bool)
    (c : Config) : IO Outcome := do
  match Machine.step program (← supply input readsInput c) with
  | .next c => drive program input output readsInput (← flushPrinted output c)
  | .done outcome => return outcome

def emit (report : Report) : IO UInt32 := do
  (← IO.getStdout).putStr report.out
  (← IO.getStderr).putStr report.err
  return report.exit.toUInt32

def perform (session : Session) (console : Console) (readsInput : Bool) : IO Report := do
  let program := session.program
  let host : Host := ⟨.empty, console⟩
  match program.start host with
  | .error e => return Command.report ⟨.error e, .initial host⟩
  | .ok start =>
    return Command.report (← drive program (← IO.getStdin) (← IO.getStdout) readsInput start)

end ModuleScript

open ModuleScript in
def main (args : List String) : IO UInt32 := do
  let options := CommandLine.options args
  let readsInput := options.files ≠ []
  let files ← options.files.mapM fun path => return (path, ← readPath path)
  let input ← if readsInput then pure [] else readAll (← IO.getStdin)
  let around : Surroundings := ⟨fun path => (files.lookup path).join, input, fun _ => 0.0⟩
  match Command.prepare options around with
  | .error e => emit (Command.failure "" e)
  | .ok session => emit (← perform session (Command.console options around) readsInput)
