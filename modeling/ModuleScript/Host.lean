import ModuleScript.Heap.Basic

/-!
The host of a program: what it has printed, what it can still read, its clock, and the objects
that it shares with the program. Native functions work on the host alone.
-/

namespace ModuleScript

/-- The clock gives its `n`th reading; input is what is left of the bytes to be read. -/
structure Console where
  printed : String
  input : List UInt8
  clock : Nat → Float
  readings : Nat

namespace Console

def print (c : Console) (s : String) : Console := { c with printed := c.printed ++ s }

def reading (c : Console) : Float := c.clock c.readings

def tick (c : Console) : Console := { c with readings := c.readings + 1 }

def firstLine (bytes : List UInt8) : List UInt8 :=
  let line := bytes.takeWhile (· ≠ 10)
  line ++ (bytes.drop line.length).take 1

/-- Text without the line feeds and carriage returns at its end. -/
def chomp (s : String) : String :=
  String.ofList ((s.toList.reverse.dropWhile fun c => c = '\n' || c = '\r').reverse)

def decode? (bytes : List UInt8) : Option String := String.fromUTF8? ⟨bytes.toArray⟩

/-- The next line. A line that is not text in UTF-8 is read as the empty one. -/
def line (c : Console) : String := chomp ((decode? (firstLine c.input)).getD "")

def dropLine (c : Console) : Console :=
  { c with input := c.input.drop (firstLine c.input).length }

end Console

structure Host where
  heap : Heap
  console : Console

def Host.newObject (host : Host) (fields : List (Name × Value)) : Value × Host :=
  (.object host.heap.next, { host with heap := host.heap.alloc (.ofList fields) })

/--
A native function is *isolated*: it turns values and a host into a value and a host, so it reads and
changes no frame and no cell, starts no module, looks into no closure, and neither declares nor
calls functions of the program. Whatever is proved of runs takes native functions to be isolated.
What they may answer with is assumed apart, where it matters: see `Native.InventsNoClosures`,
`Native.PassesOn` and `Native.KeepsFields`.
-/
structure Native where
  arity : Nat
  run : List Value → Host → Value × Host

end ModuleScript
