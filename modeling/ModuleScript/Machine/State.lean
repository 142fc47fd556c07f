import ModuleScript.Host
import ModuleScript.Scopes
import ModuleScript.Stmt

/-!
Programs and the state of a run: variables, closures, started modules and the host. Frames, closures
and objects are numbered in the order in which they are made, and none is ever given up.
-/

namespace ModuleScript

structure Program where
  modules : List Module
  natives : Table Native

/-- Of several modules of one name the first counts. -/
def Program.module? (p : Program) (x : Name) : Option Module :=
  p.modules.find? fun m => m.name = x

structure Closure where
  routine : Routine Stmt
  frame : FrameId

/-- The table `loaded` holds the top frame of every module that has been started. -/
structure State where
  scopes : Scopes Value
  closures : Array Closure
  loaded : Table FrameId
  host : Host

def State.initial (host : Host) : State := ⟨.empty, #[], ∅, host⟩

namespace State

def onScopes (s : State) (g : Scopes Value → Scopes Value) : State :=
  { s with scopes := g s.scopes }

def onHeap (s : State) (g : Heap → Heap) : State :=
  { s with host := { s.host with heap := g s.host.heap } }

def nextFrame (s : State) : FrameId := s.scopes.nextFrame

/-- The top frame of a module that is being started is registered before its body runs. -/
def startModule (s : State) (x : Name) : State :=
  { s with scopes := s.scopes.newRoot, loaded := s.loaded.insert x s.nextFrame }

def nextClosure (s : State) : ClosureId := s.closures.size

def newClosure (s : State) (routine : Routine Stmt) (f : FrameId) : State :=
  { s with closures := s.closures.push ⟨routine, f⟩ }

def defineFunction (s : State) (f : FrameId) (x : Name) (routine : Routine Stmt) : State :=
  let k := s.nextClosure
  (s.newClosure routine f).onScopes (·.define f x (.closure k))

def nextObject (s : State) : ObjectId := s.host.heap.next

def newObject (s : State) (fields : List (Name × Value)) : State :=
  s.onHeap (·.alloc (.ofList fields))

end State

end ModuleScript
