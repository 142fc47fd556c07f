import ModuleScript.Proofs.Machine.Changes

/-!
What a step does to the work that waits. Only the rest of a block and the end of an import bring
names into a frame later on; the other work that a step adds stays inside a statement.
-/

namespace ModuleScript

/-- The work that the next step leaves where it is. -/
def Config.waiting (c : Config) : List Pending :=
  if c.control.delivers then c.stack.tail else c.stack

theorem Config.mem_stack_of_mem_waiting {c : Config} {w : Pending} (hw : w ∈ c.waiting) :
    w ∈ c.stack := by
  rw [Config.waiting] at hw
  split at hw
  · exact List.mem_of_mem_tail hw
  · exact hw

/-- Work inside a statement, which brings no names into a frame. -/
def Pending.isInner : Pending → Bool
  | .next _ _ => false
  | .imports _ _ _ _ => false
  | _ => true

namespace Machine

variable {p : Program} {c d : Config} {waiting : List Pending} {s : State}

inductive NewWork (p : Program) (c d : Config) : Pending → Prop
  | inner {w : Pending} : w.isInner = true → NewWork p c d w
  | next {stmt : Stmt} {rest : List Stmt} {f : FrameId} :
      c.control = .exec (stmt :: rest) f → NewWork p c d (.next rest f)
  | imports {x : Name} {m : Module} {names : List Name} {rest : List Stmt} {f source : FrameId} :
      c.control = .exec (.importFrom x names :: rest) f → p.module? x = some m →
      d.state.loaded.find? x = some source → NewWork p c d (.imports source m.exports names f)

inductive NewBlock (c : Config) : List Stmt → FrameId → Prop
  | opened (body : List Stmt) : NewBlock c body c.state.nextFrame
  | rest {body : List Stmt} {f : FrameId} {stack : List Pending} : c.control.delivers = true →
      c.stack = .next body f :: stack → NewBlock c body f

/-- A step from `c` to `d` that leaves `waiting` where it is. -/
structure Moves (p : Program) (c : Config) (waiting : List Pending) (d : Config) : Prop where
  stack : ∃ new, d.stack = new ++ waiting ∧ ∀ w ∈ new, NewWork p c d w
  control : ∀ body f, d.control = .exec body f → NewBlock c body f

theorem moves_of_stack (hstack : d.stack = waiting)
    (hcontrol : ∀ body f, d.control ≠ .exec body f) : Moves p c waiting d where
  stack := ⟨[], hstack, List.forall_mem_nil _⟩
  control body f hd := absurd hd (hcontrol body f)

theorem moves_eval {w : Pending} (e : Expr) (f : FrameId) (hw : w.isInner = true) :
    Moves p c waiting ⟨.eval e f, w :: waiting, s⟩ where
  stack := ⟨[w], rfl, List.forall_mem_singleton.mpr (.inner hw)⟩
  control body g h := by cases h

theorem moves_fault (e : Fault) : Moves p c waiting ⟨.fault e, waiting, s⟩ := by
  refine moves_of_stack rfl ?_
  intro body f h
  cases h

theorem moves_value (v : Value) : Moves p c waiting ⟨.value v, waiting, s⟩ := by
  refine moves_of_stack rfl ?_
  intro body f h
  cases h

theorem moves_returned (v : Value) : Moves p c waiting ⟨.returned v, waiting, s⟩ := by
  refine moves_of_stack rfl ?_
  intro body f h
  cases h

theorem deliver_moves (result : Except Fault Value) :
    Moves p c waiting (deliver result waiting s) := by
  cases result with
  | ok v => exact moves_value v
  | error e => exact moves_fault e

theorem finishImport_moves (result : Option Fault × Scopes Value) :
    Moves p c waiting (finishImport result waiting s) := by
  obtain ⟨fault, scopes⟩ := result
  cases fault with
  | none => exact moves_value .null
  | some e => exact moves_fault e

theorem evaluate_moves (e : Expr) (f : FrameId) : Moves p c waiting (evaluate e f waiting s) := by
  cases e with
  | var x => exact deliver_moves _
  | unary op e => exact moves_eval e f rfl
  | binary op left right => exact moves_eval left f rfl
  | call fn args => exact moves_eval fn f rfl
  | object fields =>
    cases fields with
    | nil => exact moves_value _
    | cons entry rest => exact moves_eval entry.2 f rfl
  | get e x => exact moves_eval e f rfl
  | _ => exact moves_value _

theorem importFrom_moves {x : Name} {names : List Name} {rest : List Stmt} {f : FrameId}
    (hc : c.control = .exec (.importFrom x names :: rest) f) :
    Moves p c waiting (importFrom p x names f waiting c.state) := by
  rw [importFrom]
  split
  · exact finishImport_moves _
  · cases hm : p.module? x with
    | none => exact moves_fault _
    | some m =>
      cases c.state.loaded.find? x with
      | some source => exact finishImport_moves _
      | none =>
        have hfound : (c.state.startModule x).loaded.find? x = some c.state.nextFrame := by
          rw [State.startModule, Table.find?_insert, if_pos rfl]
        have hnew := NewWork.imports (d := ⟨.exec m.body c.state.nextFrame,
          .imports c.state.nextFrame m.exports names f :: waiting, c.state.startModule x⟩)
          hc hm hfound
        refine ⟨⟨_, rfl, List.forall_mem_singleton.mpr hnew⟩, fun body g hd => ?_⟩
        cases hd
        exact .opened _

theorem execute_moves {stmt : Stmt} {rest : List Stmt} {f : FrameId}
    (hc : c.control = .exec (stmt :: rest) f) :
    Moves p c waiting (execute p stmt f waiting c.state) := by
  cases stmt with
  | declare x => exact moves_value .null
  | assign x e => exact moves_eval e f rfl
  | ret result =>
    cases result with
    | none => exact moves_returned .null
    | some e => exact moves_eval e f rfl
  | eval e =>
    refine moves_of_stack rfl ?_
    intro body g h
    cases h
  | function x routine => exact moves_value .null
  | classDecl x construct methods => exact moves_value .null
  | ite condition yes no => exact moves_eval condition f rfl
  | loop condition body => exact moves_eval condition f rfl
  | set object x e => exact moves_eval object f rfl
  | importFrom x names => exact importFrom_moves hc

theorem moves_opened {new : List Pending} (body : List Stmt) (hnew : ∀ w ∈ new, w.isInner = true) :
    Moves p c waiting ⟨.exec body c.state.nextFrame, new ++ waiting, s⟩ where
  stack := ⟨new, rfl, fun w hw => .inner (hnew w hw)⟩
  control body' f hd := by
    cases hd
    exact .opened _

theorem call_moves (fn : Value) (args : List Value) :
    Moves p c waiting (call p fn args waiting c.state) := by
  cases fn with
  | closure k =>
    rw [call]
    split
    · rw [callClosure]
      split
      · exact moves_opened _ (List.forall_mem_singleton.mpr rfl)
      · exact moves_fault _
    · exact moves_fault _
  | native x =>
    rw [call]
    split
    · rw [callNative]
      split
      · exact moves_value _
      · exact moves_fault _
    · exact moves_fault _
  | _ => exact moves_fault _

theorem callWith_moves (fn : Value) (done : List Value) (rest : List Expr) (f : FrameId) :
    Moves p c waiting (callWith p fn done rest f waiting c.state) := by
  cases rest with
  | nil => exact call_moves fn done
  | cons e rest => exact moves_eval e f rfl

theorem resume_moves {v : Value} {w : Pending} (hc : c.control = .value v)
    (hstack : c.stack = w :: waiting) : Moves p c waiting (resume p v w waiting c.state) := by
  cases w with
  | unary op => exact deliver_moves _
  | rightOperand op right f => exact moves_eval right f rfl
  | binary op left => exact deliver_moves _
  | callee args f =>
    rw [resume]
    split
    · exact callWith_moves v [] args f
    · exact moves_fault _
  | argument fn done rest f => exact callWith_moves fn (done ++ [v]) rest f
  | field done x rest f =>
    cases rest with
    | nil => exact moves_value _
    | cons entry rest => exact moves_eval entry.2 f rfl
  | get x =>
    cases v with
    | object o => exact moves_value _
    | _ => exact moves_fault _
  | assign x f =>
    rw [resume]
    split
    · exact moves_value .null
    · exact moves_fault _
  | ret => exact moves_returned v
  | branch yes no f =>
    cases v with
    | boolean b => exact moves_opened (if b then yes else no) (List.forall_mem_nil _)
    | _ => exact moves_fault _
  | test condition body f =>
    cases v with
    | boolean b =>
      cases b with
      | true => exact moves_opened body (List.forall_mem_singleton.mpr rfl)
      | false => exact moves_value .null
    | _ => exact moves_fault _
  | again condition body f => exact moves_eval condition f rfl
  | target x e f =>
    cases v with
    | object o => exact moves_eval e f rfl
    | _ => exact moves_fault _
  | set o x => exact moves_value .null
  | next rest f =>
    refine ⟨⟨[], rfl, List.forall_mem_nil _⟩, fun body g hd => ?_⟩
    cases hd
    exact .rest (hc ▸ rfl) hstack
  | result => exact moves_value v
  | imports source exports names f => exact finishImport_moves _

theorem unwind_moves (v : Value) (w : Pending) : Moves p c waiting (unwind v w waiting s) := by
  cases w with
  | result => exact moves_value v
  | imports source exports names f => exact finishImport_moves _
  | _ => exact moves_returned v

theorem step_moves (h : step p c = .next d) : Moves p c c.waiting d := by
  obtain ⟨control, stack, s⟩ := c
  cases control with
  | eval e f =>
    obtain rfl := Progress.next.inj h
    exact evaluate_moves e f
  | exec body f =>
    cases body with
    | nil =>
      obtain rfl := Progress.next.inj h
      exact moves_value .null
    | cons stmt rest =>
      obtain rfl := Progress.next.inj h
      -- the rest of the block waits for the statement
      have hmoves : Moves p ⟨.exec (stmt :: rest) f, stack, s⟩ (.next rest f :: stack)
          (execute p stmt f (.next rest f :: stack) s) :=
        execute_moves rfl
      obtain ⟨new, hstack, hnew⟩ := hmoves.stack
      refine ⟨⟨_, hstack.trans (List.append_cons new _ stack), ?_⟩, hmoves.control⟩
      exact List.forall_mem_append.mpr ⟨hnew, List.forall_mem_singleton.mpr (.next rfl)⟩
  | value v =>
    cases stack with
    | nil => cases h
    | cons w stack =>
      obtain rfl := Progress.next.inj h
      exact resume_moves rfl rfl
  | returned v =>
    cases stack with
    | nil => cases h
    | cons w stack =>
      obtain rfl := Progress.next.inj h
      exact unwind_moves v w
  | fault e => cases h

/-- A run goes on unless it has failed or there is nothing left that waits. -/
theorem exists_step (hfault : ∀ e, c.control ≠ .fault e)
    (hstack : c.control.delivers = true → c.stack ≠ []) : ∃ d, step p c = .next d := by
  obtain ⟨control, stack, s⟩ := c
  cases control with
  | eval e f => exact ⟨_, rfl⟩
  | exec body f => cases body <;> exact ⟨_, rfl⟩
  | value v =>
    cases stack with
    | nil => exact absurd rfl (hstack rfl)
    | cons w stack => exact ⟨_, rfl⟩
  | returned v =>
    cases stack with
    | nil => exact absurd rfl (hstack rfl)
    | cons w stack => exact ⟨_, rfl⟩
  | fault e => exact absurd rfl (hfault e)

end Machine

end ModuleScript
