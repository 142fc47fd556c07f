import ModuleScript.Proofs.Erasing.Erase

/-!
Steps of a program and of the same program without its dead code. Main statement:
`InStep.stepsAlike`, two configurations that are in step stay so, when both go on or when the first
one passes over a class.
-/

namespace ModuleScript

namespace Erasing

open Machine

/-- Work on the stack on both sides. What comes after a `return` in its block may be anything. -/
inductive ErasedStack : List Pending → List Pending → Prop
  | nil : ErasedStack [] []
  | cons (w : Pending) {stack stack' : List Pending} : ErasedStack stack stack' →
      ErasedStack (w :: stack) (pending w :: stack')
  | returning {rest rest' : List Stmt} {f : FrameId} {stack stack' : List Pending} :
      ErasedStack stack stack' →
      ErasedStack (.ret :: .next rest f :: stack) (.ret :: .next rest' f :: stack')

/--
Configurations of a program and of the program without its dead code: both do the same, or both are
about to drop the rest of a block, or the first one has just passed over a class.
-/
inductive InStep : Config → Config → Prop
  | same {c : Control} {stack stack' : List Pending} {s : State} : ErasedStack stack stack' →
      InStep ⟨c, stack, s⟩ ⟨control c, stack', state s⟩
  | returned {v : Value} {rest rest' : List Stmt} {f : FrameId} {stack stack' : List Pending}
      {s : State} : ErasedStack stack stack' →
      InStep ⟨.returned v, .next rest f :: stack, s⟩ ⟨.returned v, .next rest' f :: stack', state s⟩
  | passing {rest : List Stmt} {f : FrameId} {stack stack' : List Pending} {s : State} :
      ErasedStack stack stack' →
      InStep ⟨.value .null, .next rest f :: stack, s⟩ ⟨.exec (block rest) f, stack', state s⟩

inductive ProgressAlike : Progress → Progress → Prop
  | next {c c' : Config} : InStep c c' → ProgressAlike (.next c) (.next c')
  | done (o : Outcome) : ProgressAlike (.done o) (.done (outcome o))

/-- How many steps a program can be from the end of the classes that it passes over. -/
def lag : Config → Nat
  | ⟨.exec body _, _, _⟩ => 2 * body.length
  | ⟨.value _, .next rest _ :: _, _⟩ => 2 * rest.length + 1
  | _ => 0

section Functions

variable {p : Program} {stack stack' : List Pending} {s : State}

theorem deliver_inStep (h : ErasedStack stack stack') (result : Except Fault Value) :
    InStep (deliver result stack s) (deliver result stack' (state s)) := by
  cases result <;> exact .same h

theorem finishImport_inStep (h : ErasedStack stack stack')
    (result : Option Fault × Scopes Value) :
    InStep (finishImport result stack s) (finishImport result stack' (state s)) := by
  obtain ⟨fault, scopes⟩ := result
  cases fault <;> exact .same h

theorem evaluate_inStep (h : ErasedStack stack stack') (e : Expr) (f : FrameId) :
    InStep (evaluate e f stack s) (evaluate e f stack' (state s)) := by
  cases e with
  | var x => exact deliver_inStep h _
  | unary op e => exact .same (.cons (.unary op) h)
  | binary op left right => exact .same (.cons (.rightOperand op right f) h)
  | call fn args => exact .same (.cons (.callee args f) h)
  | object fields =>
    cases fields with
    | nil => exact .same h
    | cons entry rest => exact .same (.cons (.field [] entry.1 rest f) h)
  | get e x => exact .same (.cons (.get x) h)
  | _ => exact .same h

theorem importFrom_inStep (h : ErasedStack stack stack') (x : Name) (names : List Name)
    (f : FrameId) :
    InStep (importFrom p x names f stack s) (importFrom p.erase x names f stack' (state s)) := by
  rw [importFrom, importFrom, module?_erase]
  split
  · exact finishImport_inStep h _
  · cases p.module? x with
    | none => exact .same h
    | some m =>
      have hloaded : (state s).loaded.find? x = s.loaded.find? x := rfl
      simp only [Option.map_some, hloaded]
      cases s.loaded.find? x with
      | some source => exact finishImport_inStep h _
      | none => exact .same (.cons (.imports s.nextFrame m.exports names f) h)

theorem execute_inStep (h : ErasedStack stack stack') (f : FrameId) {st : Stmt}
    (hret : ∀ e, st ≠ .ret e) :
    InStep (execute p st f stack s) (execute p.erase (stmt st) f stack' (state s)) := by
  cases st with
  | declare x => exact .same h
  | assign x e => exact .same (.cons (.assign x f) h)
  | ret e => exact absurd rfl (hret e)
  | eval e => exact .same h
  | function x r =>
    have hstep : InStep ⟨.value .null, stack, s.defineFunction f x r⟩
        ⟨.value .null, stack', state (s.defineFunction f x r)⟩ :=
      .same h
    rw [state_defineFunction] at hstep
    rw [stmt]
    exact hstep
  | classDecl x construct methods => exact .same h
  | ite condition yes no =>
    rw [stmt]
    exact .same (.cons (.branch yes no f) h)
  | loop condition body =>
    rw [stmt]
    exact .same (.cons (.test condition body f) h)
  | set object x e => exact .same (.cons (.target x e f) h)
  | importFrom x names => exact importFrom_inStep h x names f

/-- After a `return` the rest of the block waits in vain, on both sides. -/
theorem execute_ret_inStep (h : ErasedStack stack stack') (e : Option Expr)
    (rest rest' : List Stmt) (f : FrameId) :
    InStep (execute p (.ret e) f (.next rest f :: stack) s)
      (execute p.erase (.ret e) f (.next rest' f :: stack') (state s)) := by
  cases e with
  | none => exact .returned h
  | some e => exact .same (.returning h)

theorem callClosure_inStep (h : ErasedStack stack stack') (k : Closure) (args : List Value) :
    InStep (callClosure k args stack s) (callClosure (closure k) args stack' (state s)) := by
  have hparams : (closure k).routine.params = k.routine.params := params_routine k.routine
  have hbody : (closure k).routine.body = block k.routine.body := body_routine k.routine
  rw [callClosure, callClosure, hparams, hbody]
  split
  · exact .same (.cons .result h)
  · exact .same h

theorem call_inStep (h : ErasedStack stack stack') (fn : Value) (args : List Value) :
    InStep (call p fn args stack s) (call p.erase fn args stack' (state s)) := by
  cases fn with
  | closure k =>
    rw [call, call, closures_state]
    cases s.closures[k]? with
    | none => exact .same h
    | some closure => exact callClosure_inStep h closure args
  | native x =>
    have hnatives : p.erase.natives = p.natives := rfl
    rw [call, call, hnatives]
    cases p.natives.find? x with
    | none => exact .same h
    | some native =>
      simp only [callNative]
      split <;> exact .same h
  | _ => exact .same h

theorem callWith_inStep (h : ErasedStack stack stack') (fn : Value) (done : List Value)
    (rest : List Expr) (f : FrameId) :
    InStep (callWith p fn done rest f stack s)
      (callWith p.erase fn done rest f stack' (state s)) := by
  cases rest with
  | nil => exact call_inStep h fn done
  | cons e rest => exact .same (.cons (.argument fn done rest f) h)

theorem resume_inStep (h : ErasedStack stack stack') (v : Value) (w : Pending) :
    InStep (resume p v w stack s) (resume p.erase v (pending w) stack' (state s)) := by
  cases w with
  | unary op => exact deliver_inStep h _
  | rightOperand op right f => exact .same (.cons (.binary op v) h)
  | binary op left => exact deliver_inStep h _
  | callee args f =>
    simp only [pending, resume]
    split
    · exact callWith_inStep h v [] args f
    · exact .same h
  | argument fn done rest f => exact callWith_inStep h fn (done ++ [v]) rest f
  | field done x rest f =>
    cases rest with
    | nil => exact .same h
    | cons entry rest => exact .same (.cons (.field (done ++ [(x, v)]) entry.1 rest f) h)
  | get x => cases v <;> exact .same h
  | assign x f =>
    have hscopes : (state s).scopes = s.scopes := rfl
    simp only [pending, resume, hscopes]
    split <;> exact .same h
  | ret => exact .same h
  | branch yes no f =>
    cases v with
    | boolean b => cases b <;> exact .same h
    | _ => exact .same h
  | test condition body f =>
    cases v with
    | boolean b =>
      cases b with
      | true => exact .same (.cons (.again condition body f) h)
      | false => exact .same h
    | _ => exact .same h
  | again condition body f => exact .same (.cons (.test condition body f) h)
  | target x e f =>
    cases v with
    | object o => exact .same (.cons (.set o x) h)
    | _ => exact .same h
  | imports source exports names f => exact finishImport_inStep h _
  | _ => exact .same h

theorem unwind_inStep (h : ErasedStack stack stack') (v : Value) (w : Pending) :
    InStep (unwind v w stack s) (unwind v (pending w) stack' (state s)) := by
  cases w with
  | imports source exports names f => exact finishImport_inStep h _
  | _ => exact .same h

end Functions

section Steps

variable {p : Program} {c c' : Config}

def StepsAlike (p : Program) (c c' : Config) : Prop :=
  (∃ d, step p c = .next d ∧ InStep d c' ∧ lag d < lag c) ∨
    ProgressAlike (step p c) (step p.erase c')

theorem exec_stepsAlike {stack stack' : List Pending} (h : ErasedStack stack stack')
    (body : List Stmt) (f : FrameId) (s : State) :
    StepsAlike p ⟨.exec body f, stack, s⟩ ⟨.exec (block body) f, stack', state s⟩ := by
  match body with
  | [] =>
    rw [block]
    exact .inr (.next (.same h))
  | .classDecl x construct methods :: rest =>
    rw [block]
    have hlag : 2 * rest.length + 1 < 2 * (rest.length + 1) := by omega
    exact .inl ⟨_, rfl, .passing h, hlag⟩
  | .ret e :: rest =>
    rw [block]
    exact .inr (.next (execute_ret_inStep h e rest [] f))
  | .declare _ :: rest | .assign _ _ :: rest | .eval _ :: rest | .function _ _ :: rest
  | .ite _ _ _ :: rest | .loop _ _ :: rest | .set _ _ _ :: rest | .importFrom _ _ :: rest =>
    rw [block]
    · exact .inr (.next (execute_inStep (.cons (.next rest f) h) f nofun))
    · nofun
    · nofun

theorem InStep.stepsAlike (h : InStep c c') : StepsAlike p c c' := by
  cases h with
  | @same control stack stack' s h =>
    cases control with
    | eval e f => exact .inr (.next (evaluate_inStep h e f))
    | exec body f => exact exec_stepsAlike h body f s
    | value v =>
      cases h with
      | nil => exact .inr (.done ⟨.ok v, s⟩)
      | cons w h => exact .inr (.next (resume_inStep h v w))
      | returning h => exact .inr (.next (.returned h))
    | returned v =>
      cases h with
      | nil => exact .inr (.done ⟨.ok v, s⟩)
      | cons w h => exact .inr (.next (unwind_inStep h v w))
      | returning h => exact .inr (.next (.returned h))
    | fault e => exact .inr (.done ⟨.error e, s⟩)
  | returned h => exact .inr (.next (.same h))
  | passing h => exact .inl ⟨_, rfl, .same h, Nat.lt_succ_self _⟩

end Steps

end Erasing

end ModuleScript
