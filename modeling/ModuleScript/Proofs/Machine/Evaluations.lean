import ModuleScript.Proofs.Machine.Changes

/-!
Evaluations on their own. What a configuration comes to does not depend on the work that waits
below (`step_over`), to which a run that ends on its own hands its value over, unless it fails
(`Ends.exists_after`).
-/

namespace ModuleScript

def Config.over (c : Config) (below : List Pending) : Config :=
  { c with stack := c.stack ++ below }

namespace Machine

def Ends (p : Program) (c : Config) (o : Outcome) : Prop := ∃ n, run p n c = some o

/-- Over the work `below` an evaluation with the given outcome comes to `d`. -/
inductive Lands (below : List Pending) : Outcome → Config → Prop
  | value {v : Value} {s : State} : Lands below ⟨.ok v, s⟩ ⟨.value v, below, s⟩
  | returned {v : Value} {s : State} : Lands below ⟨.ok v, s⟩ ⟨.returned v, below, s⟩
  | fault {e : Fault} {stack : List Pending} {s : State} :
      Lands below ⟨.error e, s⟩ ⟨.fault e, stack, s⟩

theorem Lands.state {below : List Pending} {o : Outcome} {d : Config} (h : Lands below o d) :
    d.state = o.state := by
  cases h <;> rfl

section Steps

variable {p : Program} {c d : Config} (stack below : List Pending) (s : State)

theorem deliver_over (result : Except Fault Value) :
    deliver result (stack ++ below) s = (deliver result stack s).over below := by
  cases result <;> rfl

theorem finishImport_over (result : Option Fault × Scopes Value) :
    finishImport result (stack ++ below) s = (finishImport result stack s).over below := by
  obtain ⟨fault, scopes⟩ := result
  cases fault <;> rfl

theorem evaluate_over (e : Expr) (f : FrameId) :
    evaluate e f (stack ++ below) s = (evaluate e f stack s).over below := by
  cases e with
  | var x => exact deliver_over stack below s _
  | object fields => cases fields <;> rfl
  | _ => rfl

theorem importFrom_over (x : Name) (names : List Name) (f : FrameId) :
    importFrom p x names f (stack ++ below) s = (importFrom p x names f stack s).over below := by
  rw [importFrom, importFrom]
  split
  · exact finishImport_over stack below s _
  · cases p.module? x with
    | none => rfl
    | some m =>
      cases s.loaded.find? x with
      | none => rfl
      | some source => exact finishImport_over stack below s _

theorem execute_over (stmt : Stmt) (f : FrameId) :
    execute p stmt f (stack ++ below) s = (execute p stmt f stack s).over below := by
  cases stmt with
  | ret result => cases result <;> rfl
  | importFrom x names => exact importFrom_over stack below s x names f
  | _ => rfl

theorem call_over (fn : Value) (args : List Value) :
    call p fn args (stack ++ below) s = (call p fn args stack s).over below := by
  cases fn with
  | closure k =>
    rw [call, call]
    cases s.closures[k]? with
    | none => rfl
    | some closure =>
      simp only [callClosure]
      split <;> rfl
  | native x =>
    rw [call, call]
    cases p.natives.find? x with
    | none => rfl
    | some native =>
      simp only [callNative]
      split <;> rfl
  | _ => rfl

theorem callWith_over (fn : Value) (done : List Value) (rest : List Expr) (f : FrameId) :
    callWith p fn done rest f (stack ++ below) s =
      (callWith p fn done rest f stack s).over below := by
  cases rest with
  | nil => exact call_over stack below s fn done
  | cons e rest => rfl

theorem resume_over (v : Value) (w : Pending) :
    resume p v w (stack ++ below) s = (resume p v w stack s).over below := by
  cases w with
  | unary op => exact deliver_over stack below s _
  | binary op left => exact deliver_over stack below s _
  | callee args f =>
    rw [resume, resume]
    split
    · exact callWith_over stack below s v [] args f
    · rfl
  | argument fn done rest f => exact callWith_over stack below s fn (done ++ [v]) rest f
  | field done x rest f => cases rest <;> rfl
  | get x => cases v <;> rfl
  | assign x f =>
    rw [resume, resume]
    split <;> rfl
  | branch yes no f => cases v <;> rfl
  | test condition body f =>
    cases v with
    | boolean b => cases b <;> rfl
    | _ => rfl
  | target x e f => cases v <;> rfl
  | imports source exports names f => exact finishImport_over stack below s _
  | _ => rfl

theorem unwind_over (v : Value) (w : Pending) :
    unwind v w (stack ++ below) s = (unwind v w stack s).over below := by
  cases w with
  | imports source exports names f => exact finishImport_over stack below s _
  | _ => rfl

variable {stack below s}

/-- More work below is left alone by a step. -/
theorem step_over (h : step p c = .next d) (below : List Pending) :
    step p (c.over below) = .next (d.over below) := by
  obtain ⟨control, stack, s⟩ := c
  cases control with
  | eval e f =>
    obtain rfl := Progress.next.inj h
    exact congrArg Progress.next (evaluate_over stack below s e f)
  | exec body f =>
    cases body with
    | nil =>
      obtain rfl := Progress.next.inj h
      rfl
    | cons stmt rest =>
      obtain rfl := Progress.next.inj h
      exact congrArg Progress.next (execute_over (.next rest f :: stack) below s stmt f)
  | value v =>
    cases stack with
    | nil => cases h
    | cons w stack =>
      obtain rfl := Progress.next.inj h
      exact congrArg Progress.next (resume_over stack below s v w)
  | returned v =>
    cases stack with
    | nil => cases h
    | cons w stack =>
      obtain rfl := Progress.next.inj h
      exact congrArg Progress.next (unwind_over stack below s v w)
  | fault e => cases h

theorem lands_of_done {o : Outcome} (h : step p c = .done o) (below : List Pending) :
    Lands below o (c.over below) := by
  obtain ⟨control, stack, s⟩ := c
  cases control with
  | eval e f => cases h
  | exec body f => cases body <;> cases h
  | value v =>
    cases stack with
    | nil => exact Progress.done.inj h ▸ .value
    | cons w stack => cases h
  | returned v =>
    cases stack with
    | nil => exact Progress.done.inj h ▸ .returned
    | cons w stack => cases h
  | fault e => exact Progress.done.inj h ▸ .fault

end Steps

section Ends

variable {p : Program} {c d : Config} {o o' : Outcome}

theorem ends_iff_of_next (h : step p c = .next d) : Ends p c o ↔ Ends p d o := by
  constructor
  · rintro ⟨n, hn⟩
    cases n with
    | zero => cases hn
    | succ n =>
      rw [run, h] at hn
      exact ⟨n, hn⟩
  · rintro ⟨n, hn⟩
    refine ⟨n + 1, ?_⟩
    rw [run, h]
    exact hn

theorem ends_iff_of_done (h : step p c = .done o) : Ends p c o' ↔ o' = o := by
  constructor
  · rintro ⟨n, hn⟩
    cases n with
    | zero => cases hn
    | succ n =>
      rw [run, h] at hn
      exact (Option.some.inj hn).symm
  · rintro rfl
    refine ⟨1, ?_⟩
    rw [run, h]

theorem ends_iff_of_after {k : Nat} (h : after p k c = some d) : Ends p c o ↔ Ends p d o := by
  induction k generalizing c with
  | zero => exact Option.some.inj h ▸ Iff.rfl
  | succ k ih =>
    rw [after] at h
    cases hstep : step p c with
    | next b =>
      rw [hstep] at h
      exact (ends_iff_of_next hstep).trans (ih h)
    | done outcome =>
      rw [hstep] at h
      cases h

theorem Ends.induction {P : Config → Prop} (h : Ends p c o)
    (done : ∀ b, step p b = .done o → P b)
    (next : ∀ b d, step p b = .next d → P d → P b) : P c := by
  obtain ⟨n, hn⟩ := h
  induction n generalizing c with
  | zero => cases hn
  | succ n ih =>
    rw [run] at hn
    cases hstep : step p c with
    | next d =>
      rw [hstep] at hn
      exact next c d hstep (ih hn)
    | done outcome =>
      rw [hstep] at hn
      exact done c (Option.some.inj hn ▸ hstep)

theorem Ends.unique (h : Ends p c o) (h' : Ends p c o') : o = o' := by
  obtain ⟨n, hn⟩ := h
  obtain ⟨m, hm⟩ := h'
  have hlater := run_mono hn m
  rw [Nat.add_comm] at hlater
  exact Option.some.inj (hlater.symm.trans (run_mono hm n))

/-- A run that ends on its own hands its value over to the work below, or fails. -/
theorem Ends.exists_after (h : Ends p c o) (below : List Pending) :
    ∃ k d, after p k (c.over below) = some d ∧ Lands below o d := by
  refine h.induction (P := fun c => ∃ k d, after p k (c.over below) = some d ∧ Lands below o d)
    ?_ ?_
  · intro b hdone
    exact ⟨0, _, rfl, lands_of_done hdone below⟩
  · rintro b d hstep ⟨k, e, he, hlands⟩
    refine ⟨k + 1, e, ?_, hlands⟩
    rw [after, step_over hstep below]
    exact he

theorem Ends.of_over {below : List Pending} (h : Ends p (c.over below) o) : ∃ o', Ends p c o' := by
  obtain ⟨n, hn⟩ := h
  induction n generalizing c with
  | zero => cases hn
  | succ n ih =>
    cases hstep : step p c with
    | next d =>
      rw [run, step_over hstep below] at hn
      obtain ⟨o', ho'⟩ := ih hn
      exact ⟨o', (ends_iff_of_next hstep).mpr ho'⟩
    | done o' => exact ⟨o', (ends_iff_of_done hstep).mpr rfl⟩

theorem Ends.nextFrame_le (h : Ends p c o) : c.state.nextFrame ≤ o.state.nextFrame := by
  refine h.induction (P := fun c => c.state.nextFrame ≤ o.state.nextFrame) ?_ ?_
  · intro b hdone
    rw [← (lands_of_done hdone []).state]
    exact Nat.le_refl _
  · intro b d hstep ih
    exact Nat.le_trans (step_change hstep).nextFrame_le ih

end Ends

end Machine

end ModuleScript
