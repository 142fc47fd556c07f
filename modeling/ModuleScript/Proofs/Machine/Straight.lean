import Mathlib.Algebra.GroupWithZero.Nat
import Mathlib.Algebra.Order.BigOperators.Group.List
import Mathlib.Algebra.Order.Group.Nat
import ModuleScript.Proofs.Machine.Runs

/-!
Code without loops and calls. Main statement: `run_straight`, a program of such code comes to an
end, whatever its modules import from each other, and it takes no more steps than it takes to run
each of its modules once.
-/

namespace ModuleScript

mutual

def Expr.isStraight : Expr → Bool
  | .unary _ e => Expr.isStraight e
  | .binary _ left right => Expr.isStraight left && Expr.isStraight right
  | .call _ _ => false
  | .object fields => Expr.fieldsStraight fields
  | .get e _ => Expr.isStraight e
  | _ => true

def Expr.fieldsStraight : List (Name × Expr) → Bool
  | [] => true
  | (_, e) :: rest => Expr.isStraight e && Expr.fieldsStraight rest

/--
The steps that it takes to evaluate an expression without calls. A part takes a step more than its
own when work has to wait for it.
-/
def Expr.steps : Expr → Nat
  | .unary _ e => Expr.steps e + 2
  | .binary _ left right => Expr.steps left + Expr.steps right + 3
  | .object fields => Expr.fieldsSteps fields + 1
  | .get e _ => Expr.steps e + 2
  | _ => 1

def Expr.fieldsSteps : List (Name × Expr) → Nat
  | [] => 0
  | (_, e) :: rest => Expr.steps e + Expr.fieldsSteps rest + 1

end

mutual

/--
No loop is executed and no call evaluated. Declaring a function or a class does not run what is
inside, which may be anything.
-/
def Stmt.isStraight : Stmt → Bool
  | .assign _ e => e.isStraight
  | .ret (some e) => e.isStraight
  | .eval e => e.isStraight
  | .ite condition yes no =>
    condition.isStraight && Stmt.bodyStraight yes && Stmt.bodyStraight no
  | .loop _ _ => false
  | .set object _ e => object.isStraight && e.isStraight
  | _ => true

def Stmt.bodyStraight : List Stmt → Bool
  | [] => true
  | stmt :: rest => Stmt.isStraight stmt && Stmt.bodyStraight rest

/-- The most steps that it takes to execute a statement, apart from the modules that it starts. -/
def Stmt.steps : Stmt → Nat
  | .assign _ e => e.steps + 2
  | .ret (some e) => e.steps + 2
  | .eval e => e.steps + 1
  | .ite condition yes no => condition.steps + Stmt.bodySteps yes + Stmt.bodySteps no + 2
  | .set object _ e => object.steps + e.steps + 3
  | _ => 1

def Stmt.bodySteps : List Stmt → Nat
  | [] => 1
  | stmt :: rest => Stmt.steps stmt + Stmt.bodySteps rest + 1

end

namespace Module

variable {loaded : Table FrameId}

def isStraight (m : Module) : Bool := Stmt.bodyStraight m.body

def steps (m : Module) : Nat := Stmt.bodySteps m.body + 1

def unstarted (loaded : Table FrameId) (m : Module) : Nat :=
  if (loaded.find? m.name).isSome then 0 else m.steps

theorem unstarted_insert_le (m : Module) (x : Name) (f : FrameId) :
    m.unstarted (loaded.insert x f) ≤ m.unstarted loaded := by
  rw [unstarted, unstarted, Table.find?_insert]
  by_cases hx : m.name = x
  · simp [hx]
  · rw [if_neg hx]

end Module

namespace Program

variable {p : Program} {m : Module} {x : Name} {loaded : Table FrameId}

def unstarted (p : Program) (loaded : Table FrameId) : Nat :=
  (p.modules.map (Module.unstarted loaded)).sum

def steps (p : Program) : Nat := (p.modules.map Module.steps).sum

theorem unstarted_empty (p : Program) : p.unstarted ∅ = p.steps := by
  have h : Module.unstarted ∅ = Module.steps := by
    funext m
    simp [Module.unstarted]
  rw [unstarted, steps, h]

theorem unstarted_insert (hm : p.module? x = some m) (hx : loaded.find? x = none) (f : FrameId) :
    p.unstarted (loaded.insert x f) + m.steps ≤ p.unstarted loaded := by
  obtain ⟨before, after, hmodules⟩ := List.append_of_mem (List.mem_of_find?_eq_some hm)
  obtain rfl : m.name = x := by simpa using List.find?_some hm
  have hleft (ms : List Module) : (ms.map (Module.unstarted (loaded.insert m.name f))).sum ≤
      (ms.map (Module.unstarted loaded)).sum :=
    List.sum_le_sum fun m' _ => m'.unstarted_insert_le m.name f
  have hstarted : m.unstarted (loaded.insert m.name f) = 0 := by
    simp [Module.unstarted, Table.find?_insert]
  have hnew : m.unstarted loaded = m.steps := by simp [Module.unstarted, hx]
  have hbefore := hleft before
  have hafter := hleft after
  simp only [unstarted, hmodules, List.map_append, List.map_cons, List.sum_append, List.sum_cons,
    hstarted, hnew]
  omega

end Program

namespace Control

def isStraight : Control → Bool
  | .eval e _ => e.isStraight
  | .exec body _ => Stmt.bodyStraight body
  | _ => true

def steps : Control → Nat
  | .eval e _ => e.steps
  | .exec body _ => Stmt.bodySteps body
  | _ => 0

end Control

namespace Pending

def isStraight : Pending → Bool
  | .rightOperand _ right _ => right.isStraight
  | .callee _ _ => false
  | .argument _ _ _ _ => false
  | .field _ _ rest _ => Expr.fieldsStraight rest
  | .branch yes no _ => Stmt.bodyStraight yes && Stmt.bodyStraight no
  | .test _ _ _ => false
  | .again _ _ _ => false
  | .target _ e _ => e.isStraight
  | .next rest _ => Stmt.bodyStraight rest
  | _ => true

def steps : Pending → Nat
  | .rightOperand _ right _ => right.steps + 2
  | .field _ _ rest _ => Expr.fieldsSteps rest + 1
  | .branch yes no _ => Stmt.bodySteps yes + Stmt.bodySteps no + 1
  | .target _ e _ => e.steps + 2
  | .next rest _ => Stmt.bodySteps rest + 1
  | _ => 1

theorem steps_pos (w : Pending) : 0 < w.steps := by
  cases w <;> exact Nat.succ_pos _

end Pending

namespace Config

structure IsStraight (c : Config) : Prop where
  control : c.control.isStraight = true
  stack : ∀ w ∈ c.stack, w.isStraight = true

def steps (c : Config) : Nat := c.control.steps + (c.stack.map Pending.steps).sum

def stepsLeft (p : Program) (c : Config) : Nat := c.steps + p.unstarted c.state.loaded

structure Precedes (c : Config) (n : Nat) (stack : List Pending) : Prop where
  straight : ∀ w ∈ stack, w.isStraight = true
  steps : c.steps = n + (stack.map Pending.steps).sum

end Config

namespace Machine

variable {p : Program} {c d : Config} {n : Nat} {stack : List Pending} {s : State}

structure Lowers (p : Program) (c d : Config) : Prop where
  straight : d.IsStraight
  stepsLeft : d.stepsLeft p < c.stepsLeft p

theorem lowers_of_steps (hd : d.IsStraight) (hloaded : d.state.loaded = c.state.loaded)
    (hsteps : d.steps < c.steps) : Lowers p c d where
  straight := hd
  stepsLeft := by
    rw [Config.stepsLeft, Config.stepsLeft, hloaded]
    exact Nat.add_lt_add_right hsteps _

theorem lowers_eval {e : Expr} {w : Pending} (f : FrameId) (hc : c.Precedes n stack)
    (he : e.isStraight = true) (hw : w.isStraight = true) (hn : e.steps + w.steps < n) :
    Lowers p c ⟨.eval e f, w :: stack, c.state⟩ := by
  refine lowers_of_steps ⟨he, List.forall_mem_cons.mpr ⟨hw, hc.straight⟩⟩ rfl ?_
  rw [hc.steps, Config.steps, List.map_cons, List.sum_cons, ← Nat.add_assoc]
  exact Nat.add_lt_add_right hn _

theorem lowers_of_stack {control : Control} (hc : c.Precedes n stack)
    (hloaded : s.loaded = c.state.loaded) (hcontrol : control.isStraight = true)
    (hn : control.steps < n) : Lowers p c ⟨control, stack, s⟩ := by
  refine lowers_of_steps ⟨hcontrol, hc.straight⟩ hloaded ?_
  rw [hc.steps]
  exact Nat.add_lt_add_right hn _

theorem deliver_lowers (result : Except Fault Value) (hc : c.Precedes n stack) (hn : 0 < n) :
    Lowers p c (deliver result stack c.state) := by
  cases result <;> exact lowers_of_stack hc rfl rfl hn

theorem finishImport_lowers (result : Option Fault × Scopes Value) (hc : c.Precedes n stack)
    (hn : 0 < n) : Lowers p c (finishImport result stack c.state) := by
  obtain ⟨fault, scopes⟩ := result
  cases fault <;> exact lowers_of_stack hc rfl rfl hn

theorem evaluate_lowers {e : Expr} {f : FrameId} (hc : c.Precedes e.steps stack)
    (he : e.isStraight = true) : Lowers p c (evaluate e f stack c.state) := by
  cases e with
  | var x => exact deliver_lowers _ hc Nat.one_pos
  | unary op e => exact lowers_eval f hc he rfl (Nat.lt_succ_self _)
  | binary op left right =>
    obtain ⟨hleft, hright⟩ := Bool.and_eq_true_iff.mp he
    exact lowers_eval f hc hleft hright (Nat.lt_succ_self _)
  | call fn args => cases he
  | object fields =>
    cases fields with
    | nil => exact lowers_of_stack hc rfl rfl Nat.one_pos
    | cons field rest =>
      obtain ⟨hfield, hrest⟩ := Bool.and_eq_true_iff.mp he
      exact lowers_eval f hc hfield hrest (Nat.lt_succ_self _)
  | get e x => exact lowers_eval f hc he rfl (Nat.lt_succ_self _)
  | _ => exact lowers_of_stack hc rfl rfl Nat.one_pos

/-- The steps of a module that is started are no longer among those of the unstarted ones. -/
theorem importFrom_lowers {x : Name} {names : List Name} {f : FrameId}
    (hp : ∀ m ∈ p.modules, m.isStraight = true) (hc : c.Precedes 1 stack) :
    Lowers p c (importFrom p x names f stack c.state) := by
  rw [importFrom]
  split
  · exact finishImport_lowers _ hc Nat.one_pos
  · cases hm : p.module? x with
    | none => exact lowers_of_stack hc rfl rfl Nat.one_pos
    | some m =>
      cases hx : c.state.loaded.find? x with
      | some source => exact finishImport_lowers _ hc Nat.one_pos
      | none =>
        have hbody : m.isStraight = true := hp m (List.mem_of_find?_eq_some hm)
        have hunstarted := Program.unstarted_insert hm hx c.state.nextFrame
        refine ⟨⟨hbody, List.forall_mem_cons.mpr ⟨rfl, hc.straight⟩⟩, ?_⟩
        simp only [Config.stepsLeft, hc.steps]
        simp only [Config.steps, Control.steps, Pending.steps, List.map_cons, List.sum_cons,
          State.startModule]
        rw [Module.steps] at hunstarted
        omega

theorem execute_lowers {stmt : Stmt} {f : FrameId} (hp : ∀ m ∈ p.modules, m.isStraight = true)
    (hc : c.Precedes stmt.steps stack) (hstmt : stmt.isStraight = true) :
    Lowers p c (execute p stmt f stack c.state) := by
  cases stmt with
  | assign x e => exact lowers_eval f hc hstmt rfl (Nat.lt_succ_self _)
  | ret result =>
    cases result with
    | none => exact lowers_of_stack hc rfl rfl Nat.one_pos
    | some e => exact lowers_eval f hc hstmt rfl (Nat.lt_succ_self _)
  | eval e => exact lowers_of_stack hc rfl hstmt (Nat.lt_succ_self _)
  | ite condition yes no =>
    simp only [Stmt.isStraight, Bool.and_eq_true] at hstmt
    obtain ⟨⟨hcondition, hyes⟩, hno⟩ := hstmt
    refine lowers_eval f hc hcondition (Bool.and_eq_true_iff.mpr ⟨hyes, hno⟩) ?_
    simp only [Stmt.steps, Pending.steps]
    omega
  | loop condition body => cases hstmt
  | set object x e =>
    obtain ⟨hobject, he⟩ := Bool.and_eq_true_iff.mp hstmt
    exact lowers_eval f hc hobject he (Nat.lt_succ_self _)
  | importFrom x names => exact importFrom_lowers hp hc
  | _ => exact lowers_of_stack hc rfl rfl Nat.one_pos

theorem resume_lowers {v : Value} {w : Pending} (hc : c.Precedes w.steps stack)
    (hw : w.isStraight = true) : Lowers p c (resume p v w stack c.state) := by
  cases w with
  | unary op => exact deliver_lowers _ hc Nat.one_pos
  | rightOperand op right f => exact lowers_eval f hc hw rfl (Nat.lt_succ_self _)
  | binary op left => exact deliver_lowers _ hc Nat.one_pos
  | callee args f => cases hw
  | argument fn done rest f => cases hw
  | field done x rest f =>
    cases rest with
    | nil => exact lowers_of_stack hc rfl rfl Nat.one_pos
    | cons field rest =>
      obtain ⟨hfield, hrest⟩ := Bool.and_eq_true_iff.mp hw
      exact lowers_eval f hc hfield hrest (Nat.lt_succ_self _)
  | get x => cases v <;> exact lowers_of_stack hc rfl rfl Nat.one_pos
  | assign x f =>
    rw [resume]
    split <;> exact lowers_of_stack hc rfl rfl Nat.one_pos
  | branch yes no f =>
    obtain ⟨hyes, hno⟩ := Bool.and_eq_true_iff.mp hw
    cases v with
    | boolean b =>
      cases b with
      | true => exact lowers_of_stack hc rfl hyes (Nat.lt_succ_of_le (Nat.le_add_right _ _))
      | false => exact lowers_of_stack hc rfl hno (Nat.lt_succ_of_le (Nat.le_add_left _ _))
    | _ => exact lowers_of_stack hc rfl rfl (Nat.succ_pos _)
  | test condition body f => cases hw
  | again condition body f => cases hw
  | target x e f =>
    cases v with
    | object o => exact lowers_eval f hc hw rfl (Nat.lt_succ_self _)
    | _ => exact lowers_of_stack hc rfl rfl (Nat.succ_pos _)
  | next rest f => exact lowers_of_stack hc rfl hw (Nat.lt_succ_self _)
  | imports source exports names f => exact finishImport_lowers _ hc Nat.one_pos
  | _ => exact lowers_of_stack hc rfl rfl Nat.one_pos

theorem unwind_lowers {v : Value} {w : Pending} (hc : c.Precedes w.steps stack) :
    Lowers p c (unwind v w stack c.state) := by
  cases w with
  | imports source exports names f => exact finishImport_lowers _ hc Nat.one_pos
  | _ => exact lowers_of_stack hc rfl rfl (Pending.steps_pos _)

theorem step_lowers (hp : ∀ m ∈ p.modules, m.isStraight = true) (hc : c.IsStraight)
    (h : step p c = .next d) : Lowers p c d := by
  obtain ⟨control, stack, s⟩ := c
  cases control with
  | eval e f =>
    obtain rfl := Progress.next.inj h
    exact evaluate_lowers ⟨hc.stack, rfl⟩ hc.control
  | exec body f =>
    cases body with
    | nil =>
      obtain rfl := Progress.next.inj h
      exact lowers_of_stack ⟨hc.stack, rfl⟩ rfl rfl Nat.one_pos
    | cons stmt rest =>
      obtain rfl := Progress.next.inj h
      obtain ⟨hstmt, hrest⟩ := Bool.and_eq_true_iff.mp hc.control
      refine execute_lowers hp ⟨List.forall_mem_cons.mpr ⟨hrest, hc.stack⟩, ?_⟩ hstmt
      simp only [Config.steps, Control.steps, Stmt.bodySteps, List.map_cons, List.sum_cons,
        Pending.steps]
      omega
  | value v =>
    cases stack with
    | nil => cases h
    | cons w stack =>
      obtain rfl := Progress.next.inj h
      obtain ⟨hw, hstack⟩ := List.forall_mem_cons.mp hc.stack
      exact resume_lowers ⟨hstack, Nat.zero_add _⟩ hw
  | returned v =>
    cases stack with
    | nil => cases h
    | cons w stack =>
      obtain rfl := Progress.next.inj h
      obtain ⟨hw, hstack⟩ := List.forall_mem_cons.mp hc.stack
      exact unwind_lowers ⟨hstack, Nat.zero_add _⟩
  | fault e => cases h

theorem run_of_straight (hp : ∀ m ∈ p.modules, m.isStraight = true) (hc : c.IsStraight)
    (hn : c.stepsLeft p < n) : ∃ outcome, run p n c = some outcome := by
  induction n generalizing c with
  | zero => exact absurd hn (Nat.not_lt_zero _)
  | succ n ih =>
    rw [run]
    cases h : step p c with
    | done outcome => exact ⟨outcome, rfl⟩
    | next d =>
      have hd : Lowers p c d := step_lowers hp hc h
      exact ih hd.straight (Nat.lt_of_lt_of_le hd.stepsLeft (Nat.le_of_lt_succ hn))

end Machine

theorem Program.stepsLeft_start {p : Program} {host : Host} {c : Config}
    (h : p.start host = .ok c) : c.stepsLeft p < p.steps := by
  obtain ⟨main, hmain, rfl⟩ := Program.start_eq_ok_iff.mp h
  have hunstarted := Program.unstarted_insert (Program.module?_main hmain)
    (Table.find?_empty mainModule) (State.initial host).nextFrame
  rw [Program.unstarted_empty, Module.steps, Nat.add_comm, Nat.add_right_comm] at hunstarted
  exact hunstarted

theorem Program.isStraight_start {p : Program} {host : Host} {c : Config}
    (hp : ∀ m ∈ p.modules, m.isStraight = true) (h : p.start host = .ok c) : c.IsStraight := by
  obtain ⟨main, hmain, rfl⟩ := Program.start_eq_ok_iff.mp h
  have hmem : main ∈ p.modules := List.mem_of_find?_eq_some (Program.module?_main hmain)
  exact ⟨hp main hmem, List.forall_mem_nil _⟩

/--
A program without loops and calls has an outcome, a value or a fault, whatever its modules import
from each other and from itself.
-/
theorem run_straight (p : Program) (host : Host) (hp : ∀ m ∈ p.modules, m.isStraight = true) :
    ∃ outcome, ∀ limit, p.steps ≤ limit → p.run host limit = some outcome := by
  cases hstart : p.start host with
  | error e =>
    refine ⟨⟨.error e, .initial host⟩, fun limit _ => ?_⟩
    rw [Program.run, hstart]
  | ok c =>
    obtain ⟨outcome, hrun⟩ := Machine.run_of_straight hp (Program.isStraight_start hp hstart)
      (Program.stepsLeft_start hstart)
    refine ⟨outcome, fun limit hlimit => ?_⟩
    obtain ⟨k, rfl⟩ := Nat.exists_eq_add_of_le hlimit
    rw [Program.run, hstart]
    exact Machine.run_mono hrun k

/--
Three modules that import from each other in a ring: the second also from itself and from the main
module, under conditions, and the third a name that is not exported.
-/
def importRing : Program where
  modules :=
    [⟨"Main", [.importFrom "A" ["a"], .ret (some (.var "a"))], []⟩,
      ⟨"A", [.declare "a", .assign "a" (.object [("me", .null)]), .set (.var "a") "me" (.var "a"),
        .ite (.binary .equal (.var "a") (.var "a")) [.importFrom "A" ["a"]] [],
        .ite (.boolean true) [.ite (.boolean true) [.importFrom "Main" []] []] [],
        .importFrom "B" ["b"]], ["a"]⟩,
      ⟨"B", [.function "b" ⟨[], [.loop (.boolean true) []]⟩, .importFrom "Main" [],
        .importFrom "A" ["a", "none"]], ["b"]⟩]
  natives := ∅

theorem run_straight_importRing :
    (∀ m ∈ importRing.modules, m.isStraight = true) ∧
      ∃ outcome, ∀ limit, importRing.steps ≤ limit →
        importRing.run ⟨.empty, ⟨"", [], fun _ => 0, 0⟩⟩ limit = some outcome := by
  have hstraight : ∀ m ∈ importRing.modules, m.isStraight = true := by decide
  exact ⟨hstraight, run_straight importRing _ hstraight⟩

example : (importRing.run ⟨.empty, ⟨"", [], fun _ => 0, 0⟩⟩ importRing.steps).map (·.result) =
    some (.error (.noSuchExport "none")) := rfl

end ModuleScript
