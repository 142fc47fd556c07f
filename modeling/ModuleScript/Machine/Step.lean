import ModuleScript.Machine.Config
import ModuleScript.Machine.Import
import ModuleScript.Machine.Operators

/-!
Steps of the machine. Operands, arguments and fields are worked off from left to right. A function
body runs in a new frame inside that of its declaration, the bodies of `if` and `while` in one
inside the current frame, and the body of a module when it is first imported.
-/

namespace ModuleScript

namespace Machine

def deliver (result : Except Fault Value) (stack : List Pending) (s : State) : Config :=
  match result with
  | .ok v => ⟨.value v, stack, s⟩
  | .error e => ⟨.fault e, stack, s⟩

def finishImport (result : Option Fault × Scopes Value) (stack : List Pending) (s : State) :
    Config :=
  match result with
  | (none, scopes) => ⟨.value .null, stack, { s with scopes }⟩
  | (some e, scopes) => ⟨.fault e, stack, { s with scopes }⟩

def readVariable (x : Name) (f : FrameId) (s : State) : Except Fault Value :=
  match s.scopes.lookup? f x with
  | none => .error (.notInScope x)
  | some c =>
    match s.scopes.read? c with
    | none => .error (.unassigned x)
    | some v => .ok v

def evaluate (e : Expr) (f : FrameId) (stack : List Pending) (s : State) : Config :=
  match e with
  | .number x => ⟨.value (.number x), stack, s⟩
  | .string t => ⟨.value (.string t), stack, s⟩
  | .boolean b => ⟨.value (.boolean b), stack, s⟩
  | .null => ⟨.value .null, stack, s⟩
  | .var x => deliver (readVariable x f s) stack s
  | .unary op e => ⟨.eval e f, .unary op :: stack, s⟩
  | .binary op l r => ⟨.eval l f, .rightOperand op r f :: stack, s⟩
  | .call fn args => ⟨.eval fn f, .callee args f :: stack, s⟩
  | .object [] => ⟨.value (.object s.nextObject), stack, s.newObject []⟩
  | .object ((x, e) :: rest) => ⟨.eval e f, .field [] x rest f :: stack, s⟩
  | .get e x => ⟨.eval e f, .get x :: stack, s⟩

/-- Names are bound when the module that exports them has been started. -/
def importFrom (p : Program) (m : Name) (names : List Name) (f : FrameId) (stack : List Pending)
    (s : State) : Config :=
  if m = nativeModule then
    finishImport (s.scopes.importNatives p.natives f names) stack s
  else match p.module? m with
    | none => ⟨.fault (.noSuchModule m), stack, s⟩
    | some source =>
      match s.loaded.find? m with
      | some g => finishImport (s.scopes.importNames g source.exports f names) stack s
      | none =>
        ⟨.exec source.body s.nextFrame, .imports s.nextFrame source.exports names f :: stack,
          s.startModule m⟩

def execute (p : Program) (stmt : Stmt) (f : FrameId) (stack : List Pending) (s : State) : Config :=
  match stmt with
  | .declare x => ⟨.value .null, stack, s.onScopes (·.declare f x)⟩
  | .assign x e => ⟨.eval e f, .assign x f :: stack, s⟩
  | .ret none => ⟨.returned .null, stack, s⟩
  | .ret (some e) => ⟨.eval e f, .ret :: stack, s⟩
  | .eval e => ⟨.eval e f, stack, s⟩
  | .function x routine => ⟨.value .null, stack, s.defineFunction f x routine⟩
  | .classDecl _ _ _ => ⟨.value .null, stack, s⟩
  | .ite condition yes no => ⟨.eval condition f, .branch yes no f :: stack, s⟩
  | .loop condition body => ⟨.eval condition f, .test condition body f :: stack, s⟩
  | .set object x e => ⟨.eval object f, .target x e f :: stack, s⟩
  | .importFrom m names => importFrom p m names f stack s

def callClosure (closure : Closure) (args : List Value) (stack : List Pending) (s : State) :
    Config :=
  if args.length = closure.routine.params.length then
    ⟨.exec closure.routine.body s.nextFrame, .result :: stack,
      s.onScopes (·.enter closure.frame (closure.routine.params.zip args))⟩
  else ⟨.fault (.arityMismatch closure.routine.params.length args.length), stack, s⟩

def callNative (native : Native) (args : List Value) (stack : List Pending) (s : State) : Config :=
  if args.length = native.arity then
    let answer := native.run args s.host
    ⟨.value answer.1, stack, { s with host := answer.2 }⟩
  else ⟨.fault (.arityMismatch native.arity args.length), stack, s⟩

def call (p : Program) (fn : Value) (args : List Value) (stack : List Pending) (s : State) :
    Config :=
  match fn with
  | .closure k =>
    match s.closures[k]? with
    | some closure => callClosure closure args stack s
    | none => ⟨.fault (.notFunction .closure), stack, s⟩
  | .native x =>
    match p.natives.find? x with
    | some native => callNative native args stack s
    | none => ⟨.fault (.notFunction .native), stack, s⟩
  | v => ⟨.fault (.notFunction v.kind), stack, s⟩

def callWith (p : Program) (fn : Value) (done : List Value) (rest : List Expr) (f : FrameId)
    (stack : List Pending) (s : State) : Config :=
  match rest with
  | [] => call p fn done stack s
  | e :: rest => ⟨.eval e f, .argument fn done rest f :: stack, s⟩

/-- The value `v` has arrived for `work`. -/
def resume (p : Program) (v : Value) (work : Pending) (stack : List Pending) (s : State) : Config :=
  match work with
  | .unary op => deliver (op.apply v) stack s
  | .rightOperand op right f => ⟨.eval right f, .binary op v :: stack, s⟩
  | .binary op left => deliver (op.apply s.host.heap left v) stack s
  | .callee args f =>
    if v.isCallable then callWith p v [] args f stack s
    else ⟨.fault (.notFunction v.kind), stack, s⟩
  | .argument fn done rest f => callWith p fn (done ++ [v]) rest f stack s
  | .field done x [] _ =>
    ⟨.value (.object s.nextObject), stack, s.newObject (done ++ [(x, v)])⟩
  | .field done x ((y, e) :: rest) f => ⟨.eval e f, .field (done ++ [(x, v)]) y rest f :: stack, s⟩
  | .get x =>
    match v with
    | .object o => ⟨.value (s.host.heap.get o x), stack, s⟩
    | v => ⟨.fault (.notObject v.kind), stack, s⟩
  | .assign x f =>
    match s.scopes.lookup? f x with
    | some c => ⟨.value .null, stack, s.onScopes (·.write c v)⟩
    | none => ⟨.fault (.notInScope x), stack, s⟩
  | .ret => ⟨.returned v, stack, s⟩
  | .branch yes no f =>
    match v with
    | .boolean b => ⟨.exec (if b then yes else no) s.nextFrame, stack, s.onScopes (·.newChild f)⟩
    | v => ⟨.fault (.typeMismatch [.boolean] v.kind), stack, s⟩
  | .test condition body f =>
    match v with
    | .boolean true =>
      ⟨.exec body s.nextFrame, .again condition body f :: stack, s.onScopes (·.newChild f)⟩
    | .boolean false => ⟨.value .null, stack, s⟩
    | v => ⟨.fault (.typeMismatch [.boolean] v.kind), stack, s⟩
  | .again condition body f => ⟨.eval condition f, .test condition body f :: stack, s⟩
  | .target x e f =>
    match v with
    | .object o => ⟨.eval e f, .set o x :: stack, s⟩
    | v => ⟨.fault (.notObject v.kind), stack, s⟩
  | .set o x => ⟨.value .null, stack, s.onHeap (·.set o x v)⟩
  | .next rest f => ⟨.exec rest f, stack, s⟩
  | .result => ⟨.value v, stack, s⟩
  | .imports source exports names f =>
    finishImport (s.scopes.importNames source exports f names) stack s

/-- A `return` of `v` has reached `work`. Calls and modules end there; other work is dropped. -/
def unwind (v : Value) (work : Pending) (stack : List Pending) (s : State) : Config :=
  match work with
  | .result => ⟨.value v, stack, s⟩
  | .imports source exports names f =>
    finishImport (s.scopes.importNames source exports f names) stack s
  | _ => ⟨.returned v, stack, s⟩

/-- A run ends with a value that nothing waits for, or with a fault. -/
def step (p : Program) : Config → Progress
  | ⟨.eval e f, stack, s⟩ => .next (evaluate e f stack s)
  | ⟨.exec [] _, stack, s⟩ => .next ⟨.value .null, stack, s⟩
  | ⟨.exec (stmt :: rest) f, stack, s⟩ => .next (execute p stmt f (.next rest f :: stack) s)
  | ⟨.value v, work :: stack, s⟩ => .next (resume p v work stack s)
  | ⟨.returned v, work :: stack, s⟩ => .next (unwind v work stack s)
  | ⟨.value v, [], s⟩ => .done ⟨.ok v, s⟩
  | ⟨.returned v, [], s⟩ => .done ⟨.ok v, s⟩
  | ⟨.fault e, _, s⟩ => .done ⟨.error e, s⟩

end Machine

end ModuleScript
