import ModuleScript.Machine.Run
import ModuleScript.Native
import ModuleScript.Parser.Stmt
import ModuleScript.Source.Scan

/-!
Sessions: modules are loaded from their text and stay until they are unloaded or replaced by a
module of the same name. Every run starts afresh from the modules that are there.
-/

namespace ModuleScript

inductive LoadError where
  | scan (errors : List ScanError)
  | parse (error : ParseError)

def LoadError.message : LoadError → String
  | scan errors => "\n".intercalate (errors.map ScanError.message)
  | parse error => error.message

def readModule (source : String) : Except LoadError Module :=
  match scan source with
  | .error errors => .error (.scan errors)
  | .ok tokens =>
    match parseModule tokens with
    | .error e => .error (.parse e)
    | .ok m => .ok m

structure Session where
  natives : Table Native
  modules : List Module

namespace Session

def others (s : Session) (x : Name) : List Module := s.modules.filter fun m => m.name ≠ x

/-- Takes a module in as the last one, in place of any of the same name. -/
def add (s : Session) (m : Module) : Session := { s with modules := s.others m.name ++ [m] }

def load (s : Session) (source : String) : Except LoadError (Name × Session) :=
  match readModule source with
  | .error e => .error e
  | .ok m => .ok (m.name, s.add m)

def unload (s : Session) (x : Name) : Bool × Session :=
  (s.modules.any fun m => m.name = x, { s with modules := s.others x })

def program (s : Session) : Program := ⟨s.modules, s.natives⟩

def run (s : Session) (console : Console) (limit : Nat) (order : FieldOrder := .insertion) :
    Option Outcome :=
  s.program.run ⟨.empty order, console⟩ limit

end Session

end ModuleScript
