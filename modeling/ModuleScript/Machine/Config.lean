import ModuleScript.Machine.State

/-!
Configurations of the machine that runs programs: what is being worked on, the work that waits for
it, and the state. An expression delivers its value and a block that runs to its end delivers
null; a `return` drops the waiting work up to the call or the module that it belongs to.
-/

namespace ModuleScript

inductive Control where
  | eval (e : Expr) (f : FrameId)
  | exec (body : List Stmt) (f : FrameId)
  | value (v : Value)
  | returned (v : Value)
  | fault (e : Fault)

/-- Work that waits for a value, or for the end of a block. -/
inductive Pending where
  | unary (op : UnaryOp)
  | rightOperand (op : BinaryOp) (right : Expr) (f : FrameId)
  | binary (op : BinaryOp) (left : Value)
  | callee (args : List Expr) (f : FrameId)
  | argument (fn : Value) (done : List Value) (rest : List Expr) (f : FrameId)
  | field (done : List (Name × Value)) (x : Name) (rest : List (Name × Expr)) (f : FrameId)
  | get (x : Name)
  | assign (x : Name) (f : FrameId)
  | ret
  | branch (yes no : List Stmt) (f : FrameId)
  | test (condition : Expr) (body : List Stmt) (f : FrameId)
  | again (condition : Expr) (body : List Stmt) (f : FrameId)
  | target (x : Name) (e : Expr) (f : FrameId)
  | set (o : ObjectId) (x : Name)
  | next (rest : List Stmt) (f : FrameId)
  | result
  | imports (source : FrameId) (exports names : List Name) (f : FrameId)

structure Config where
  control : Control
  stack : List Pending
  state : State

structure Outcome where
  result : Except Fault Value
  state : State

inductive Progress where
  | next (c : Config)
  | done (outcome : Outcome)

end ModuleScript
