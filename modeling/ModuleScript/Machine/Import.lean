import ModuleScript.Host
import ModuleScript.Scopes

/-!
Imports. Importing a name from a module lets the importing frame share the cell that the top frame
of the module holds; importing a native function makes a new cell. Names are taken in order, and
those before the first that fails stay bound.
-/

namespace ModuleScript

def nativeModule : Name := "Native"

namespace Scopes

/-- The cell of an exported name. A module exports what its own top frame holds. -/
def exported (s : Scopes Value) (source : FrameId) (exports : List Name) (x : Name) :
    Except Fault CellId :=
  if x ∈ exports then
    match s.here? source x with
    | none => .error (.notInScope x)
    | some c => if (s.read? c).isSome then .ok c else .error (.unassigned x)
  else .error (.noSuchExport x)

/-- Binds exported names one after the other, up to the first that fails. -/
def importNames (source : FrameId) (exports : List Name) (f : FrameId) :
    List Name → Scopes Value → Option Fault × Scopes Value
  | [], s => (none, s)
  | x :: rest, s =>
    match s.exported source exports x with
    | .ok c => importNames source exports f rest (s.bind f x c)
    | .error e => (some e, s)

def importNatives (natives : Table Native) (f : FrameId) :
    List Name → Scopes Value → Option Fault × Scopes Value
  | [], s => (none, s)
  | x :: rest, s =>
    match natives.find? x with
    | some _ => importNatives natives f rest (s.define f x (.native x))
    | none => (some (.noSuchExport x), s)

end Scopes

end ModuleScript
