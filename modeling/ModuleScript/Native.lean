import ModuleScript.Heap.Display
import ModuleScript.Host
import ModuleScript.Number.Reading

/-!
The standard native functions: `clock`, `print`, `parseNum` and `readString`.
-/

namespace ModuleScript

/-- The number that a value spells, blanks around it apart. Only strings spell numbers. -/
def spelledNumber? : Value → Option Float
  | .string s => readNumber? (trimBlanks s.toList)
  | _ => none

def parseNum (v : Value) (host : Host) : Value × Host :=
  match spelledNumber? v with
  | some x => host.newObject [("success", .boolean true), ("value", .number x)]
  | none => host.newObject [("success", .boolean false)]

namespace Native

def clock : Native where
  arity := 0
  run _ host :=
    (.number host.console.reading, { host with console := host.console.tick })

def print : Native where
  arity := 1
  run args host :=
    let text := host.heap.display (args.headD .null) ++ "\n"
    (.null, { host with console := host.console.print text })

def parseNum : Native where
  arity := 1
  run args host := ModuleScript.parseNum (args.headD .null) host

def readString : Native where
  arity := 0
  run _ host :=
    (.string host.console.line, { host with console := host.console.dropLine })

def standard : Table Native :=
  .ofList [("clock", clock), ("print", print), ("parseNum", parseNum), ("readString", readString)]

end Native

end ModuleScript
