import ModuleScript.Table

/-!
Values, their kinds, and the faults that stop a program. Objects and closures are known by numbers
that say where they are kept; a native function is known by its name.
-/

namespace ModuleScript

abbrev ObjectId := Nat

abbrev ClosureId := Nat

inductive Value where
  | number (x : Float)
  | boolean (b : Bool)
  | string (s : String)
  | null
  | object (o : ObjectId)
  | closure (k : ClosureId)
  | native (x : Name)
deriving DecidableEq, Inhabited

inductive Kind where
  | number
  | boolean
  | string
  | null
  | object
  | closure
  | native
deriving DecidableEq, Repr

def Kind.text : Kind → String
  | number => "number"
  | boolean => "boolean"
  | string => "string"
  | null => "null"
  | object => "object"
  | closure => "closure"
  | native => "nativeFunc"

namespace Value

def kind : Value → Kind
  | number _ => .number
  | boolean _ => .boolean
  | string _ => .string
  | null => .null
  | object _ => .object
  | closure _ => .closure
  | native _ => .native

def isCallable : Value → Bool
  | closure _ | native _ => true
  | _ => false

end Value

inductive Fault where
  | notInScope (x : Name)
  | notFunction (actual : Kind)
  | typeMismatch (expected : List Kind) (actual : Kind)
  | arityMismatch (expected actual : Nat)
  | unassigned (x : Name)
  | notObject (actual : Kind)
  | noSuchModule (x : Name)
  | noSuchExport (x : Name)
  | noMain
  | multipleMains
deriving DecidableEq, Repr

def Fault.message : Fault → String
  | notInScope x => "'" ++ x ++ "' is not in scope"
  | notFunction actual => "Expected a function, got " ++ actual.text
  | typeMismatch expected actual =>
    "Type mismatch: expected " ++ " or ".intercalate (expected.map Kind.text) ++
      ", got " ++ actual.text
  | arityMismatch expected actual =>
    "Expected " ++ toString expected ++ " arguments, got " ++ toString actual
  | unassigned x => "'" ++ x ++ "' was used before being assigned a value"
  | notObject actual => "Expected an object, got " ++ actual.text
  | noSuchModule x => "No module named '" ++ x ++ "'"
  | noSuchExport x => "Nothing named '" ++ x ++ "' is exported"
  | noMain => "No module named Main"
  | multipleMains => "More than one module named Main"

end ModuleScript
