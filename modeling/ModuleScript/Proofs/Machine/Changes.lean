import ModuleScript.Proofs.Machine.Runs
import ModuleScript.Proofs.Scopes

/-!
What a step does to the state. Most steps only move work about. The others do one of a few things:
they change the host, write a cell, put names into a frame, make a closure, make a frame inside
another one, or start a module.
-/

namespace ModuleScript

def Control.delivers : Control → Bool
  | .value _ => true
  | .returned _ => true
  | _ => false

inductive Config.Calls : Config → Value → List Value → Prop
  | noArguments {fn : Value} {f : FrameId} {stack : List Pending} {s : State} :
      fn.isCallable = true → Calls ⟨.value fn, .callee [] f :: stack, s⟩ fn []
  | lastArgument {fn v : Value} {done : List Value} {f : FrameId} {stack : List Pending}
      {s : State} : Calls ⟨.value v, .argument fn done [] f :: stack, s⟩ fn (done ++ [v])

/-- The next step runs a branch or the body of a loop in a new frame inside `f`. -/
inductive Config.Branches (c : Config) : FrameId → Prop
  | branch {b : Bool} {yes no : List Stmt} {f : FrameId} {stack : List Pending} :
      c.control = .value (.boolean b) → c.stack = .branch yes no f :: stack → Branches c f
  | iteration {condition : Expr} {body : List Stmt} {f : FrameId} {stack : List Pending} :
      c.control = .value (.boolean true) → c.stack = .test condition body f :: stack → Branches c f

namespace Machine

/--
What a step can make of the host: a new object, a field that is set, or a native call. Native
functions are isolated (`Native`), so a call of one changes nothing but the host.
-/
inductive HostChange (p : Program) (host : Host) : Host → Prop
  | alloc (fields : Table Value) : HostChange p host { host with heap := host.heap.alloc fields }
  | set (o : ObjectId) (x : Name) (v : Value) :
      HostChange p host { host with heap := host.heap.set o x v }
  | native {x : Name} {native : Native} (args : List Value) : p.natives.find? x = some native →
      HostChange p host (native.run args host).2

/-- The states to which a step can lead from a configuration. -/
inductive Change (p : Program) (c : Config) : State → Prop
  | keep : Change p c c.state
  | host {host : Host} : HostChange p c.state.host host → Change p c { c.state with host }
  | write {x : Name} {f : FrameId} {v : Value} {stack : List Pending} {cell : CellId} :
      c.control = .value v → c.stack = .assign x f :: stack →
      c.state.scopes.lookup? f x = some cell → Change p c (c.state.onScopes (·.write cell v))
  | declare {x : Name} {rest : List Stmt} {f : FrameId} :
      c.control = .exec (.declare x :: rest) f → Change p c (c.state.onScopes (·.declare f x))
  | function {x : Name} {routine : Routine Stmt} {rest : List Stmt} {f : FrameId} :
      c.control = .exec (.function x routine :: rest) f →
      Change p c (c.state.defineFunction f x routine)
  | natives {names : List Name} {rest : List Stmt} {f : FrameId} :
      c.control = .exec (.importFrom nativeModule names :: rest) f →
      Change p c (c.state.onScopes fun s => (s.importNatives p.natives f names).2)
  | importLoaded {x : Name} {m : Module} {names : List Name} {rest : List Stmt}
      {f source : FrameId} :
      c.control = .exec (.importFrom x names :: rest) f → x ≠ nativeModule →
      p.module? x = some m → c.state.loaded.find? x = some source →
      Change p c (c.state.onScopes fun s => (s.importNames source m.exports f names).2)
  | importEnded {source f : FrameId} {exports names : List Name} {stack : List Pending} :
      c.control.delivers = true → c.stack = .imports source exports names f :: stack →
      Change p c (c.state.onScopes fun s => (s.importNames source exports f names).2)
  | child {f : FrameId} : c.Branches f → Change p c (c.state.onScopes (·.newChild f))
  | enter {k : ClosureId} {closure : Closure} {args : List Value} : c.Calls (.closure k) args →
      c.state.closures[k]? = some closure → args.length = closure.routine.params.length →
      Change p c (c.state.onScopes (·.enter closure.frame (closure.routine.params.zip args)))
  | start {x : Name} {m : Module} {names : List Name} {rest : List Stmt} {f : FrameId} :
      c.control = .exec (.importFrom x names :: rest) f → x ≠ nativeModule →
      p.module? x = some m → c.state.loaded.find? x = none → Change p c (c.state.startModule x)

variable {p : Program} {c d : Config}

theorem Change.size_closures_le {s : State} (h : Change p c s) :
    c.state.closures.size ≤ s.closures.size := by
  cases h with
  | function hc =>
    rw [State.defineFunction, State.onScopes, State.newClosure, Array.size_push]
    exact Nat.le_succ _
  | _ => exact Nat.le_refl _

theorem Change.nextFrame_le {s : State} (h : Change p c s) : c.state.nextFrame ≤ s.nextFrame := by
  have hnew (enclosing : List FrameId) :
      c.state.nextFrame ≤ (c.state.scopes.newFrame enclosing).nextFrame := by
    rw [Scopes.nextFrame_newFrame]
    exact Nat.le_succ _
  cases h with
  | keep => exact Nat.le_refl _
  | host hhost => exact Nat.le_refl _
  | write hc hstack hcell => exact Nat.le_refl _
  | declare hc => exact Nat.le_of_eq (Scopes.bindNew_fills _ _ _ _).frames.symm
  | function hc => exact Nat.le_of_eq (Scopes.bindNew_fills _ _ _ _).frames.symm
  | natives hc => exact Nat.le_of_eq (Scopes.importNatives_fills _ _ _ _).frames.symm
  | importLoaded hc hx hm hl => exact Nat.le_of_eq (Scopes.importNames_fills _ _ _ _ _).frames.symm
  | importEnded hc hstack => exact Nat.le_of_eq (Scopes.importNames_fills _ _ _ _ _).frames.symm
  | child hbranches => exact hnew _
  | enter hcall hk hargs =>
    exact Nat.le_trans (hnew _) (Nat.le_of_eq (Scopes.defineAll_fills _ _ _).frames.symm)
  | start hc hx hm hl => exact hnew []

theorem Change.find?_loaded {s : State} {x : Name} {f : FrameId} (h : Change p c s)
    (hx : c.state.loaded.find? x = some f) : s.loaded.find? x = some f := by
  cases h with
  | @start y m names rest g hc hnative hm hy =>
    have hne : x ≠ y := by
      rintro rfl
      cases hy.symm.trans hx
    rw [State.startModule, Table.find?_insert, if_neg hne]
    exact hx
  | _ => exact hx

theorem Change.loaded_cases {s : State} {x : Name} {f : FrameId} (h : Change p c s)
    (hx : s.loaded.find? x = some f) :
    c.state.loaded.find? x = some f ∨
      ∃ m names rest g, c.control = .exec (.importFrom x names :: rest) g ∧ x ≠ nativeModule ∧
        p.module? x = some m ∧ c.state.loaded.find? x = none ∧ f = c.state.nextFrame := by
  cases h with
  | @start y m names rest g hc hnative hm hy =>
    rw [State.startModule, Table.find?_insert] at hx
    split at hx
    · rename_i hxy
      subst hxy
      obtain rfl := Option.some.inj hx
      exact .inr ⟨m, names, rest, g, hc, hnative, hm, hy, rfl⟩
    · exact .inl hx
  | _ => exact .inl hx

theorem Change.loaded_lt {s : State} (h : Change p c s)
    (hc : ∀ x f, c.state.loaded.find? x = some f → f < c.state.nextFrame) {x : Name} {f : FrameId}
    (hx : s.loaded.find? x = some f) : f < s.nextFrame := by
  have hle := h.nextFrame_le
  cases h with
  | @start y m names rest g hcontrol hnative hm hy =>
    have hsize : (c.state.startModule y).nextFrame = c.state.nextFrame + 1 :=
      Scopes.nextFrame_newFrame _ _
    rw [State.startModule, Table.find?_insert] at hx
    rw [hsize]
    split at hx
    · exact Option.some.inj hx ▸ Nat.lt_succ_self _
    · exact Nat.lt_succ_of_lt (hc x f hx)
  | _ => exact Nat.lt_of_lt_of_le (hc x f hx) hle

/--
A frame of the new state is an old one with the same frames around it, or a new one inside an old
one, or the top frame of the module that is started.
-/
theorem Change.chain_cases {s : State} {f : FrameId} (h : Change p c s)
    (hf : f < s.scopes.nextFrame) :
    f < c.state.scopes.nextFrame ∧ s.scopes.chain f = c.state.scopes.chain f ∨
      (∃ g, s.scopes.chain f = f :: c.state.scopes.chain g) ∨
      ∃ x m names rest g, c.control = .exec (.importFrom x names :: rest) g ∧
        x ≠ nativeModule ∧ p.module? x = some m ∧ c.state.loaded.find? x = none ∧
        f = c.state.nextFrame := by
  have hfills {g : FrameId} {names : List Name} {t : Scopes Value}
      (ht : Scopes.Fills g names c.state.scopes t) (hf : f < t.nextFrame) :
      f < c.state.scopes.nextFrame ∧ t.chain f = c.state.scopes.chain f :=
    ⟨ht.frames ▸ hf, ht.chain f⟩
  have hchild {g : FrameId} {names : List Name} {t : Scopes Value}
      (ht : Scopes.Fills c.state.nextFrame names (c.state.scopes.newChild g) t)
      (hf : f < t.nextFrame) :
      f < c.state.scopes.nextFrame ∧ t.chain f = c.state.scopes.chain f ∨
        ∃ g, t.chain f = f :: c.state.scopes.chain g := by
    have hlt : f < c.state.scopes.nextFrame + 1 := by
      rw [ht.frames, Scopes.newChild, Scopes.nextFrame_newFrame] at hf
      exact hf
    rw [ht.chain, Scopes.newChild, Scopes.chain_newFrame]
    rcases Nat.lt_succ_iff_lt_or_eq.mp hlt with hold | rfl
    · exact .inl ⟨hold, if_neg (Nat.ne_of_lt hold)⟩
    · exact .inr ⟨g, if_pos rfl⟩
  cases h with
  | keep => exact .inl ⟨hf, rfl⟩
  | host hhost => exact .inl ⟨hf, rfl⟩
  | write hc hstack hcell => exact .inl (hfills (Scopes.write_fills _ _ _ f) hf)
  | declare hc => exact .inl (hfills (Scopes.bindNew_fills _ _ _ _) hf)
  | function hc => exact .inl (hfills (Scopes.bindNew_fills _ _ _ _) hf)
  | natives hc => exact .inl (hfills (Scopes.importNatives_fills _ _ _ _) hf)
  | importLoaded hc hx hm hl => exact .inl (hfills (Scopes.importNames_fills _ _ _ _ _) hf)
  | importEnded hc hstack => exact .inl (hfills (Scopes.importNames_fills _ _ _ _ _) hf)
  | child hbranches => exact (hchild (Scopes.fills_refl _ [] _) hf).imp id .inl
  | enter hcall hk hargs => exact (hchild (Scopes.defineAll_fills _ _ _) hf).imp id .inl
  | @start x m names rest g hc hnative hm hx =>
    have hlt : f < c.state.scopes.nextFrame + 1 :=
      Nat.lt_of_lt_of_eq hf (Scopes.nextFrame_newFrame _ _)
    rcases Nat.lt_succ_iff_lt_or_eq.mp hlt with hold | hnew
    · refine .inl ⟨hold, ?_⟩
      have hne : f ≠ c.state.scopes.nextFrame := Nat.ne_of_lt hold
      exact (Scopes.chain_newFrame _ _ f).trans (if_neg hne)
    · exact .inr (.inr ⟨x, m, names, rest, g, hc, hnative, hm, hx, hnew⟩)

theorem state_deliver (result : Except Fault Value) (stack : List Pending) (s : State) :
    (deliver result stack s).state = s := by
  cases result <;> rfl

theorem state_finishImport (result : Option Fault × Scopes Value) (stack : List Pending)
    (s : State) : (finishImport result stack s).state = { s with scopes := result.2 } := by
  obtain ⟨fault, scopes⟩ := result
  cases fault <;> rfl

theorem evaluate_change (e : Expr) (f : FrameId) :
    Change p c (evaluate e f c.stack c.state).state := by
  cases e with
  | var x => exact state_deliver _ _ _ ▸ .keep
  | object fields =>
    cases fields with
    | nil => exact .host (.alloc _)
    | cons entry rest => exact .keep
  | _ => exact .keep

theorem execute_change {stmt : Stmt} {rest : List Stmt} {f : FrameId} (stack : List Pending)
    (hc : c.control = .exec (stmt :: rest) f) :
    Change p c (execute p stmt f stack c.state).state := by
  cases stmt with
  | declare x => exact .declare hc
  | function x routine => exact .function hc
  | ret result => cases result <;> exact .keep
  | importFrom x names =>
    rw [execute, importFrom]
    split
    · rename_i hx
      subst hx
      rw [state_finishImport]
      exact .natives hc
    · rename_i hx
      cases hm : p.module? x with
      | none => exact .keep
      | some m =>
        cases hl : c.state.loaded.find? x with
        | none => exact .start hc hx hm hl
        | some source =>
          rw [state_finishImport]
          exact .importLoaded hc hx hm hl
  | _ => exact .keep

theorem call_change {fn : Value} {args : List Value} (hcall : c.Calls fn args)
    (stack : List Pending) : Change p c (call p fn args stack c.state).state := by
  cases fn with
  | closure k =>
    rw [call]
    split
    · rename_i closure hk
      rw [callClosure]
      split
      · rename_i hargs
        exact .enter hcall hk hargs
      · exact .keep
    · exact .keep
  | native x =>
    rw [call]
    split
    · rename_i native hx
      rw [callNative]
      split
      · exact .host (.native args hx)
      · exact .keep
    · exact .keep
  | _ => exact .keep

theorem callWith_change {fn : Value} {done : List Value} {rest : List Expr} (f : FrameId)
    (stack : List Pending) (hcall : rest = [] → c.Calls fn done) :
    Change p c (callWith p fn done rest f stack c.state).state := by
  cases rest with
  | nil => exact call_change (hcall rfl) stack
  | cons e rest => exact .keep

theorem resume_change {v : Value} {w : Pending} {stack : List Pending}
    (hc : c.control = .value v) (hstack : c.stack = w :: stack) :
    Change p c (resume p v w stack c.state).state := by
  cases w with
  | unary op => exact state_deliver _ _ _ ▸ .keep
  | binary op left => exact state_deliver _ _ _ ▸ .keep
  | callee args f =>
    rw [resume]
    split
    · rename_i hv
      refine callWith_change f stack fun hargs => ?_
      subst hargs
      obtain ⟨control, waiting, s⟩ := c
      obtain rfl : control = _ := hc
      obtain rfl : waiting = _ := hstack
      exact .noArguments hv
    · exact .keep
  | argument fn done rest f =>
    refine callWith_change f stack fun hrest => ?_
    subst hrest
    obtain ⟨control, waiting, s⟩ := c
    obtain rfl : control = _ := hc
    obtain rfl : waiting = _ := hstack
    exact .lastArgument
  | field done x rest f =>
    cases rest with
    | nil => exact .host (.alloc _)
    | cons entry rest => exact .keep
  | get x => cases v <;> exact .keep
  | assign x f =>
    rw [resume]
    split
    · rename_i cell hcell
      exact .write hc hstack hcell
    · exact .keep
  | branch yes no f =>
    cases v with
    | boolean b => exact .child (.branch hc hstack)
    | _ => exact .keep
  | test condition body f =>
    cases v with
    | boolean b =>
      cases b with
      | true => exact .child (.iteration hc hstack)
      | false => exact .keep
    | _ => exact .keep
  | target x e f => cases v <;> exact .keep
  | set o x => exact .host (.set o x v)
  | imports source exports names f =>
    rw [resume, state_finishImport]
    exact .importEnded (hc ▸ rfl) hstack
  | _ => exact .keep

theorem unwind_change {v : Value} {w : Pending} {stack : List Pending}
    (hc : c.control = .returned v) (hstack : c.stack = w :: stack) :
    Change p c (unwind v w stack c.state).state := by
  cases w with
  | imports source exports names f =>
    rw [unwind, state_finishImport]
    exact .importEnded (hc ▸ rfl) hstack
  | _ => exact .keep

theorem step_change (h : step p c = .next d) : Change p c d.state := by
  obtain ⟨control, stack, s⟩ := c
  cases control with
  | eval e f =>
    obtain rfl := Progress.next.inj h
    exact evaluate_change e f
  | exec body f =>
    cases body with
    | nil =>
      obtain rfl := Progress.next.inj h
      exact .keep
    | cons stmt rest =>
      obtain rfl := Progress.next.inj h
      exact execute_change _ rfl
  | value v =>
    cases stack with
    | nil => cases h
    | cons w stack =>
      obtain rfl := Progress.next.inj h
      exact resume_change rfl rfl
  | returned v =>
    cases stack with
    | nil => cases h
    | cons w stack =>
      obtain rfl := Progress.next.inj h
      exact unwind_change rfl rfl
  | fault e => cases h

end Machine

end ModuleScript
