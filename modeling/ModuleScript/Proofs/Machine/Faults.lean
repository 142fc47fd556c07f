import ModuleScript.Proofs.Machine.Changes
import ModuleScript.Proofs.Sharing.Slots

/-!
Why steps fail. Main statement: `step_raises`, a step raises a fault about a name only when it asks
what the name means, one about a module or an export only when it imports, and any other one only
about values that have arrived.
-/

namespace ModuleScript

/-- The fault is about the kinds of values, or about how many there are. -/
def Fault.concernsValues : Fault → Bool
  | notFunction _ => true
  | typeMismatch _ _ => true
  | arityMismatch _ _ => true
  | notObject _ => true
  | _ => false

/-- The next step imports `names` from a module with the top frame `source` and these exports. -/
inductive Config.Binds (p : Program) (c : Config) : FrameId → List Name → List Name → Prop
  | loaded {x : Name} {m : Module} {names : List Name} {rest : List Stmt} {f source : FrameId} :
      c.control = .exec (.importFrom x names :: rest) f → x ≠ nativeModule →
      p.module? x = some m → c.state.loaded.find? x = some source →
      Binds p c source m.exports names
  | ended {source f : FrameId} {exports names : List Name} {stack : List Pending} :
      c.control.delivers = true → c.stack = .imports source exports names f :: stack →
      Binds p c source exports names

inductive Config.LooksUp (p : Program) (c : Config) : FrameId → Name → Prop
  | read {x : Name} {f : FrameId} : c.control = .eval (.var x) f → LooksUp p c f x
  | assign {x : Name} {f : FrameId} {v : Value} {stack : List Pending} :
      c.control = .value v → c.stack = .assign x f :: stack → LooksUp p c f x
  | imported {x : Name} {source : FrameId} {exports names : List Name} :
      c.Binds p source exports names → x ∈ names → LooksUp p c source x

section Operations

variable {e : Fault}

theorem exists_of_entriesEqual {eq : Value → Value → Except Fault Bool} {right : Table Value}
    {left : List (Name × Value)} (h : entriesEqual eq right left = .error e) :
    ∃ u v, eq u v = .error e := by
  induction left with
  | nil => cases h
  | cons entry rest ih =>
    rw [entriesEqual] at h
    split at h
    · cases h
    · split at h
      · exact ih h
      · exact ⟨_, _, h⟩

theorem concernsValues_of_equalUnder {heap : Heap} {n : Nat}
    {underway : List (ObjectId × ObjectId)} {u v : Value}
    (h : heap.equalUnder n underway u v = .error e) : e.concernsValues = true := by
  induction n generalizing underway u v with
  | zero =>
    unfold Heap.equalUnder at h
    cases u <;> cases v <;> simp [Value.isCallable] at h <;> subst h <;> rfl
  | succ n ih =>
    by_cases hobjects : u.kind = .object ∧ v.kind = .object
    · cases u <;> cases hobjects.1
      cases v <;> cases hobjects.2
      rename_i a b
      -- the fault comes from a pair of fields
      have hentries : entriesEqual (heap.equalUnder n ((a, b) :: underway)) (heap.fields b)
          (heap.visited a) = .error e := by
        unfold Heap.equalUnder fieldsEqual at h
        simp only [Value.isCallable] at h
        grind
      obtain ⟨u, v, huv⟩ := exists_of_entriesEqual hentries
      exact ih huv
    · unfold Heap.equalUnder at h
      cases u <;> cases v <;> simp [Value.isCallable, Value.kind] at h hobjects <;> subst h <;> rfl

theorem concernsValues_of_unary {op : UnaryOp} {v : Value} (h : op.apply v = .error e) :
    e.concernsValues = true := by
  cases op <;> cases v <;> cases h <;> rfl

theorem concernsValues_of_onNumbers {f : Float → Float → Value} {u v : Value}
    (h : onNumbers f u v = .error e) : e.concernsValues = true := by
  cases u <;> cases v <;> cases h <;> rfl

theorem concernsValues_of_onBooleans {f : Bool → Bool → Bool} {u v : Value}
    (h : onBooleans f u v = .error e) : e.concernsValues = true := by
  cases u <;> cases v <;> cases h <;> rfl

theorem concernsValues_of_equal? {heap : Heap} {u v : Value} {f : Bool → Value}
    (h : (heap.equal? u v).map f = .error e) : e.concernsValues = true := by
  cases hequal : heap.equal? u v with
  | ok b =>
    rw [hequal] at h
    cases h
  | error fault =>
    rw [hequal] at h
    cases h
    exact concernsValues_of_equalUnder hequal

theorem concernsValues_of_binary {heap : Heap} {op : BinaryOp} {u v : Value}
    (h : op.apply heap u v = .error e) : e.concernsValues = true := by
  cases op with
  | and => exact concernsValues_of_onBooleans h
  | or => exact concernsValues_of_onBooleans h
  | equal => exact concernsValues_of_equal? h
  | notEqual => exact concernsValues_of_equal? h
  | _ => exact concernsValues_of_onNumbers h

theorem Scopes.exists_of_importNames {source f : FrameId} {exports names : List Name}
    {s : Scopes Value} (h : (importNames source exports f names s).1 = some e) :
    ∃ x ∈ names, s.exported source exports x = .error e := by
  induction names generalizing s with
  | nil => cases h
  | cons x rest ih =>
    rw [importNames] at h
    cases hx : s.exported source exports x with
    | error fault =>
      rw [hx] at h
      exact ⟨x, List.mem_cons_self, Option.some.inj h ▸ hx⟩
    | ok cell =>
      rw [hx] at h
      obtain ⟨y, hy, hfails⟩ := ih h
      refine ⟨y, List.mem_cons_of_mem x hy, ?_⟩
      by_cases hf : f < s.nextFrame
      · rw [exported_bind hf (here?_of_exported hx)] at hfails
        exact hfails
      · rw [bind_of_le (Nat.le_of_not_lt hf)] at hfails
        exact hfails

theorem Scopes.exists_of_importNatives {natives : Table Native} {f : FrameId} {names : List Name}
    {s : Scopes Value} (h : (importNatives natives f names s).1 = some e) :
    ∃ x ∈ names, natives.find? x = none ∧ e = .noSuchExport x := by
  induction names generalizing s with
  | nil => cases h
  | cons x rest ih =>
    rw [importNatives] at h
    cases hx : natives.find? x with
    | none =>
      rw [hx] at h
      exact ⟨x, List.mem_cons_self, hx, (Option.some.inj h).symm⟩
    | some native =>
      rw [hx] at h
      obtain ⟨y, hy, hfails⟩ := ih h
      exact ⟨y, List.mem_cons_of_mem x hy, hfails⟩

end Operations

namespace Machine

inductive Raises (p : Program) (c : Config) : Fault → Prop
  | values {e : Fault} {v : Value} : c.control = .value v → e.concernsValues = true → Raises p c e
  | undefined {x : Name} {f : FrameId} : c.LooksUp p f x →
      c.state.scopes.lookup? f x = none → Raises p c (.notInScope x)
  | unassigned {x : Name} {f : FrameId} {cell : CellId} : c.LooksUp p f x →
      c.state.scopes.lookup? f x = some cell → c.state.scopes.read? cell = none →
      Raises p c (.unassigned x)
  | notExported {x : Name} {source : FrameId} {exports names : List Name} :
      c.Binds p source exports names → x ∈ names → x ∉ exports → Raises p c (.noSuchExport x)
  | notHeld {x : Name} {source : FrameId} {exports names : List Name} :
      c.Binds p source exports names → x ∈ names → x ∈ exports →
      c.state.scopes.here? source x = none → Raises p c (.notInScope x)
  | noSuchNative {x : Name} {names : List Name} {rest : List Stmt} {f : FrameId} :
      c.control = .exec (.importFrom nativeModule names :: rest) f → x ∈ names →
      p.natives.find? x = none → Raises p c (.noSuchExport x)
  | noSuchModule {x : Name} {names : List Name} {rest : List Stmt} {f : FrameId} :
      c.control = .exec (.importFrom x names :: rest) f → x ≠ nativeModule →
      p.module? x = none → Raises p c (.noSuchModule x)

variable {p : Program} {c d : Config} {e : Fault}

theorem eq_error_of_deliver {result : Except Fault Value} {stack : List Pending} {s : State}
    (h : (deliver result stack s).control = .fault e) : result = .error e := by
  cases result <;> cases h
  rfl

theorem eq_some_of_finishImport {result : Option Fault × Scopes Value} {stack : List Pending}
    {s : State} (h : (finishImport result stack s).control = .fault e) : result.1 = some e := by
  obtain ⟨fault, scopes⟩ := result
  cases fault <;> cases h
  rfl

theorem importNames_raises {source f : FrameId} {exports names : List Name}
    {stack : List Pending} (hbinds : c.Binds p source exports names)
    (h : (finishImport (c.state.scopes.importNames source exports f names) stack c.state).control =
      .fault e) : Raises p c e := by
  obtain ⟨x, hx, hfails⟩ := Scopes.exists_of_importNames (eq_some_of_finishImport h)
  rw [Scopes.exported] at hfails
  split at hfails
  · rename_i hexported
    split at hfails
    · rename_i hnone
      cases hfails
      exact .notHeld hbinds hx hexported hnone
    · rename_i cell hcell
      split at hfails
      · cases hfails
      · rename_i hempty
        cases hfails
        have hlookup : c.state.scopes.lookup? source x = some cell := by
          simp [Scopes.lookup?, Scopes.chain, hcell]
        exact .unassigned (.imported hbinds hx) hlookup (Option.not_isSome_iff_eq_none.mp hempty)
  · rename_i hexported
    cases hfails
    exact .notExported hbinds hx hexported

theorem evaluate_raises {expr : Expr} {f : FrameId} (hc : c.control = .eval expr f)
    (h : (evaluate expr f c.stack c.state).control = .fault e) : Raises p c e := by
  cases expr with
  | var x =>
    have hread := eq_error_of_deliver h
    rw [readVariable] at hread
    split at hread
    · rename_i hnone
      cases hread
      exact .undefined (.read hc) hnone
    · rename_i cell hcell
      split at hread
      · rename_i hempty
        cases hread
        exact .unassigned (.read hc) hcell hempty
      · cases hread
  | object fields => cases fields <;> cases h
  | _ => cases h

theorem importFrom_raises {x : Name} {names : List Name} {rest : List Stmt} {f : FrameId}
    {stack : List Pending} (hc : c.control = .exec (.importFrom x names :: rest) f)
    (h : (importFrom p x names f stack c.state).control = .fault e) : Raises p c e := by
  rw [importFrom] at h
  split at h
  · rename_i hx
    subst hx
    obtain ⟨y, hy, hnone, rfl⟩ := Scopes.exists_of_importNatives (eq_some_of_finishImport h)
    exact .noSuchNative hc hy hnone
  · rename_i hx
    cases hm : p.module? x with
    | none =>
      rw [hm] at h
      cases h
      exact .noSuchModule hc hx hm
    | some m =>
      cases hl : c.state.loaded.find? x with
      | none =>
        simp only [hm, hl] at h
        cases h
      | some source =>
        simp only [hm, hl] at h
        exact importNames_raises (.loaded hc hx hm hl) h

theorem execute_raises {stmt : Stmt} {rest : List Stmt} {f : FrameId} {stack : List Pending}
    (hc : c.control = .exec (stmt :: rest) f)
    (h : (execute p stmt f stack c.state).control = .fault e) : Raises p c e := by
  cases stmt with
  | importFrom x names => exact importFrom_raises hc h
  | ret result => cases result <;> cases h
  | _ => cases h

theorem call_raises {fn : Value} {args : List Value} {stack : List Pending} {s : State}
    (h : (call p fn args stack s).control = .fault e) : e.concernsValues = true := by
  cases fn with
  | closure k =>
    rw [call] at h
    split at h
    · rw [callClosure] at h
      split at h <;> cases h
      rfl
    · cases h
      rfl
  | native x =>
    rw [call] at h
    split at h
    · rw [callNative] at h
      split at h <;> cases h
      rfl
    · cases h
      rfl
  | _ =>
    cases h
    rfl

theorem callWith_raises {fn : Value} {done : List Value} {rest : List Expr} {f : FrameId}
    {stack : List Pending} {s : State}
    (h : (callWith p fn done rest f stack s).control = .fault e) : e.concernsValues = true := by
  cases rest with
  | nil => exact call_raises h
  | cons expr rest => cases h

theorem resume_raises {v : Value} {w : Pending} {stack : List Pending} (hc : c.control = .value v)
    (hstack : c.stack = w :: stack) (h : (resume p v w stack c.state).control = .fault e) :
    Raises p c e := by
  cases w with
  | unary op => exact .values hc (concernsValues_of_unary (eq_error_of_deliver h))
  | binary op left => exact .values hc (concernsValues_of_binary (eq_error_of_deliver h))
  | callee args f =>
    rw [resume] at h
    split at h
    · exact .values hc (callWith_raises h)
    · cases h
      exact .values hc rfl
  | argument fn done rest f => exact .values hc (callWith_raises h)
  | field done x rest f => cases rest <;> cases h
  | assign x f =>
    rw [resume] at h
    split at h
    · cases h
    · rename_i hnone
      cases h
      exact .undefined (.assign hc hstack) hnone
  | get x => cases v <;> cases h <;> exact .values hc rfl
  | branch yes no f => cases v <;> cases h <;> exact .values hc rfl
  | test condition body f =>
    cases v with
    | boolean b => cases b <;> cases h
    | _ =>
      cases h
      exact .values hc rfl
  | target x expr f => cases v <;> cases h <;> exact .values hc rfl
  | imports source exports names f =>
    exact importNames_raises (.ended (hc ▸ rfl) hstack) h
  | _ => cases h

theorem unwind_raises {v : Value} {w : Pending} {stack : List Pending}
    (hc : c.control = .returned v) (hstack : c.stack = w :: stack)
    (h : (unwind v w stack c.state).control = .fault e) : Raises p c e := by
  cases w with
  | imports source exports names f =>
    exact importNames_raises (.ended (hc ▸ rfl) hstack) h
  | _ => cases h

theorem step_raises (hstep : step p c = .next d) (h : d.control = .fault e) : Raises p c e := by
  obtain ⟨control, stack, s⟩ := c
  cases control with
  | eval expr f =>
    obtain rfl := Progress.next.inj hstep
    exact evaluate_raises rfl h
  | exec body f =>
    cases body with
    | nil =>
      obtain rfl := Progress.next.inj hstep
      cases h
    | cons stmt rest =>
      obtain rfl := Progress.next.inj hstep
      exact execute_raises rfl h
  | value v =>
    cases stack with
    | nil => cases hstep
    | cons w stack =>
      obtain rfl := Progress.next.inj hstep
      exact resume_raises rfl rfl h
  | returned v =>
    cases stack with
    | nil => cases hstep
    | cons w stack =>
      obtain rfl := Progress.next.inj hstep
      exact unwind_raises rfl rfl h
  | fault fault => cases hstep

theorem control_of_done {o : Outcome} (h : step p c = .done o) (he : o.result = .error e) :
    c.control = .fault e := by
  obtain ⟨control, stack, s⟩ := c
  cases control with
  | eval expr f => cases h
  | exec body f => cases body <;> cases h
  | value v =>
    cases stack with
    | nil =>
      obtain rfl := Progress.done.inj h
      cases he
    | cons w stack => cases h
  | returned v =>
    cases stack with
    | nil =>
      obtain rfl := Progress.done.inj h
      cases he
    | cons w stack => cases h
  | fault fault =>
    obtain rfl := Progress.done.inj h
    rw [Except.error.inj he]

/-- A run that fails has failed in one of its steps, unless it has failed before. -/
theorem raises_of_run {n : Nat} {o : Outcome} (h : run p n c = some o)
    (he : o.result = .error e) :
    c.control = .fault e ∨ ∃ k d, after p k c = some d ∧ Raises p d e := by
  induction n generalizing c with
  | zero => cases h
  | succ n ih =>
    rw [run] at h
    cases hstep : step p c with
    | done outcome =>
      rw [hstep] at h
      exact .inl (control_of_done hstep (Option.some.inj h ▸ he))
    | next d =>
      rw [hstep] at h
      rcases ih h with hfault | ⟨k, b, hb, hraises⟩
      · exact .inr ⟨0, c, rfl, step_raises hstep hfault⟩
      · refine .inr ⟨k + 1, b, ?_, hraises⟩
        rw [after, hstep]
        exact hb

end Machine

end ModuleScript
