import ModuleScript.Machine.Run

/-!
Erasing dead code. In every block, at whatever depth, the declarations of classes go, and so does
what follows a `return`. Programs and states are erased with the blocks that they contain; all else
in them stays, the numbers of closures included.
-/

namespace ModuleScript

namespace Erasing

mutual

def stmt : Stmt → Stmt
  | .function x r => .function x (routine r)
  | .ite condition yes no => .ite condition (block yes) (block no)
  | .loop condition body => .loop condition (block body)
  | s => s

def block : List Stmt → List Stmt
  | [] => []
  | .classDecl _ _ _ :: rest => block rest
  | .ret e :: _ => [.ret e]
  | s :: rest => stmt s :: block rest

def routine : Routine Stmt → Routine Stmt
  | ⟨params, body⟩ => ⟨params, block body⟩

end

def module (m : Module) : Module := { m with body := block m.body }

def closure (k : Closure) : Closure := { k with routine := routine k.routine }

def state (s : State) : State := { s with closures := s.closures.map closure }

def outcome (o : Outcome) : Outcome := { o with state := state o.state }

def pending : Pending → Pending
  | .branch yes no f => .branch (block yes) (block no) f
  | .test condition body f => .test condition (block body) f
  | .again condition body f => .again condition (block body) f
  | .next rest f => .next (block rest) f
  | w => w

def control : Control → Control
  | .exec body f => .exec (block body) f
  | c => c

end Erasing

def Program.erase (p : Program) : Program := { p with modules := p.modules.map Erasing.module }

namespace Erasing

theorem module?_erase (p : Program) (x : Name) :
    p.erase.module? x = (p.module? x).map module := by
  simp only [Program.module?, Program.erase, List.find?_map]
  rfl

theorem nextClosure_state (s : State) : (state s).nextClosure = s.nextClosure :=
  Array.size_map

theorem state_newClosure (s : State) (r : Routine Stmt) (f : FrameId) :
    state (s.newClosure r f) = (state s).newClosure (routine r) f := by
  simp only [state, State.newClosure, Array.map_push, closure]

theorem state_defineFunction (s : State) (f : FrameId) (x : Name) (r : Routine Stmt) :
    state (s.defineFunction f x r) = (state s).defineFunction f x (routine r) := by
  have honScopes (t : State) (g : Scopes Value → Scopes Value) :
      state (t.onScopes g) = (state t).onScopes g := rfl
  simp only [State.defineFunction, honScopes, state_newClosure, nextClosure_state]

theorem closures_state (s : State) (k : ClosureId) :
    (state s).closures[k]? = s.closures[k]?.map closure :=
  Array.getElem?_map

theorem params_routine (r : Routine Stmt) : (routine r).params = r.params := by
  obtain ⟨params, body⟩ := r
  rw [routine]

theorem body_routine (r : Routine Stmt) : (routine r).body = block r.body := by
  obtain ⟨params, body⟩ := r
  rw [routine]

theorem state_initial (host : Host) : state (.initial host) = .initial host := by
  simp [state, State.initial]

end Erasing

end ModuleScript
