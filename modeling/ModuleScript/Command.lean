import ModuleScript.Session

/-!
Commands. A command has files with one module each; without files, standard input is the text of the
only module. Nothing runs before everything is loaded, and the first thing that goes wrong is the
only one reported.
-/

namespace ModuleScript

/-- What a command is asked for: its files, and whether programs get the native functions. -/
structure Options where
  files : List String
  withNatives : Bool

/-- What a command finds around it: files, standard input and a clock. -/
structure Surroundings where
  file? : String → Option (List UInt8)
  input : List UInt8
  clock : Nat → Float

inductive CommandError where
  | missing (path : String)
  | notText (path : String)
  | inFile (path : String) (error : LoadError)
  | inInput (error : LoadError)
  | fault (e : Fault)

def CommandError.message : CommandError → String
  | missing path => "could not read " ++ path ++ ": No such file or directory (os error 2)"
  | notText path => "could not read " ++ path ++ ": stream did not contain valid UTF-8"
  | inFile path error => "in " ++ path ++ ": " ++ error.message
  | inInput error => error.message
  | fault e => e.message

structure Report where
  exit : Nat
  out : String
  err : String

namespace Command

def loadFile (around : Surroundings) (session : Session) (path : String) :
    Except CommandError Session :=
  match around.file? path with
  | none => .error (.missing path)
  | some bytes =>
    match Console.decode? bytes with
    | none => .error (.notText path)
    | some source =>
      match session.load source with
      | .error e => .error (.inFile path e)
      | .ok (_, session) => .ok session

/-- The first file that cannot be loaded stops the loading. -/
def loadFiles (around : Surroundings) : List String → Session → Except CommandError Session
  | [], session => .ok session
  | path :: rest, session =>
    match loadFile around session path with
    | .error e => .error e
    | .ok session => loadFiles around rest session

def loadInput (around : Surroundings) (session : Session) : Except CommandError Session :=
  match Console.decode? around.input with
  | none => .error (.notText "stdin")
  | some source =>
    match session.load source with
    | .error e => .error (.inInput e)
    | .ok (_, session) => .ok session

def prepare (options : Options) (around : Surroundings) : Except CommandError Session :=
  let session : Session := ⟨if options.withNatives then Native.standard else ∅, []⟩
  if options.files = [] then loadInput around session
  else loadFiles around options.files session

/-- Standard input is left to the program only if it is not the text of the module. -/
def console (options : Options) (around : Surroundings) : Console :=
  ⟨"", if options.files = [] then [] else around.input, around.clock, 0⟩

def failure (out : String) (e : CommandError) : Report :=
  ⟨1, out, "error: " ++ e.message ++ "\n"⟩

def report (outcome : Outcome) : Report :=
  let host := outcome.state.host
  match outcome.result with
  | .ok v => ⟨0, host.console.printed ++ host.heap.display v ++ "\n", ""⟩
  | .error e => failure host.console.printed (.fault e)

def run (options : Options) (around : Surroundings) (limit : Nat)
    (order : FieldOrder := .insertion) : Option Report :=
  match prepare options around with
  | .error e => some (failure "" e)
  | .ok session => (session.run (console options around) limit order).map report

end Command

end ModuleScript
