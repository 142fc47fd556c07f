import ModuleScript.Proofs.Machine.Changes

/-!
What a step reads of the program: the module that is imported, the native functions that are
imported, and the native function that is called. Two programs that agree on these in all
configurations of a run go through the same configurations and end alike (`runAlike_of_agree`).
-/

namespace ModuleScript

/-- The programs go through the same configurations, and end alike if they end at all. -/
structure RunAlike (p q : Program) (host : Host) : Prop where
  outcomes : ∀ limit, p.run host limit = q.run host limit
  reaches : ∀ n c, p.Reaches host n c ↔ q.Reaches host n c

structure Config.Agrees (p q : Program) (c : Config) : Prop where
  modules : ∀ x names rest f, c.control = .exec (.importFrom x names :: rest) f →
    x ≠ nativeModule → p.module? x = q.module? x
  natives : ∀ names rest f, c.control = .exec (.importFrom nativeModule names :: rest) f →
    ∀ x ∈ names, p.natives.find? x = q.natives.find? x
  calls : ∀ x args, c.Calls (.native x) args → p.natives.find? x = q.natives.find? x

namespace Machine

variable {p q : Program} {c d : Config} {stack : List Pending} {s : State}

theorem importNatives_congr {natives natives' : Table Native} {names : List Name} (f : FrameId)
    (scopes : Scopes Value) (h : ∀ x ∈ names, natives.find? x = natives'.find? x) :
    scopes.importNatives natives f names = scopes.importNatives natives' f names := by
  induction names generalizing scopes with
  | nil => rfl
  | cons x rest ih =>
    obtain ⟨hx, hrest⟩ := List.forall_mem_cons.mp h
    rw [Scopes.importNatives, Scopes.importNatives, hx]
    cases natives'.find? x with
    | none => rfl
    | some native => exact ih _ hrest

theorem importFrom_congr {x : Name} {names : List Name} (f : FrameId)
    (hmodules : x ≠ nativeModule → p.module? x = q.module? x)
    (hnatives : x = nativeModule → ∀ y ∈ names, p.natives.find? y = q.natives.find? y) :
    importFrom p x names f stack s = importFrom q x names f stack s := by
  by_cases hx : x = nativeModule
  · rw [importFrom, importFrom, if_pos hx, if_pos hx, importNatives_congr f _ (hnatives hx)]
  · rw [importFrom, importFrom, if_neg hx, if_neg hx, hmodules hx]

theorem call_congr {fn : Value} (args : List Value)
    (h : ∀ x, fn = .native x → p.natives.find? x = q.natives.find? x) :
    call p fn args stack s = call q fn args stack s := by
  cases fn with
  | native x => rw [call, call, h x rfl]
  | _ => rfl

theorem callWith_congr {fn : Value} (done : List Value) {rest : List Expr} (f : FrameId)
    (h : rest = [] → ∀ x, fn = .native x → p.natives.find? x = q.natives.find? x) :
    callWith p fn done rest f stack s = callWith q fn done rest f stack s := by
  cases rest with
  | nil => exact call_congr done (h rfl)
  | cons e rest => rfl

theorem resume_congr {v : Value} {w : Pending}
    (h : ∀ x args, Config.Calls ⟨.value v, w :: stack, s⟩ (.native x) args →
      p.natives.find? x = q.natives.find? x) :
    resume p v w stack s = resume q v w stack s := by
  cases w with
  | callee args f =>
    by_cases hv : v.isCallable = true
    · rw [resume, resume, if_pos hv, if_pos hv]
      apply callWith_congr
      intro hargs x hx
      subst hargs hx
      exact h x [] (.noArguments hv)
    · rw [resume, resume, if_neg hv, if_neg hv]
  | argument fn done rest f =>
    apply callWith_congr
    intro hrest x hx
    subst hrest hx
    exact h x (done ++ [v]) .lastArgument
  | field done x rest f => cases rest <;> rfl
  | _ => rfl

theorem step_congr (h : c.Agrees p q) : step p c = step q c := by
  obtain ⟨control, stack, s⟩ := c
  cases control with
  | exec body f =>
    cases body with
    | nil => rfl
    | cons stmt rest =>
      apply congrArg Progress.next
      cases stmt with
      | importFrom x names =>
        apply importFrom_congr
        · intro hx
          exact h.modules x names rest f rfl hx
        · intro hx
          subst hx
          exact h.natives names rest f rfl
      | ret result => cases result <;> rfl
      | _ => rfl
  | value v =>
    cases stack with
    | nil => rfl
    | cons w stack => exact congrArg Progress.next (resume_congr h.calls)
  | returned v => cases stack <;> rfl
  | _ => rfl

/-- The configurations to which the first program goes on decide how both of them run. -/
theorem run_congr (h : ∀ n d, after p n c = some d → step p d = step q d) (n : Nat) :
    run p n c = run q n c ∧ after p n c = after q n c := by
  induction n generalizing c with
  | zero => exact ⟨rfl, rfl⟩
  | succ n ih =>
    have hstep : step p c = step q c := h 0 c rfl
    rw [run, run, after, after, ← hstep]
    cases hnext : step p c with
    | done outcome => exact ⟨rfl, rfl⟩
    | next d =>
      apply ih
      intro k e he
      apply h (k + 1)
      rw [after, hnext]
      exact he

end Machine

theorem runAlike_of_agree {p q : Program} {host : Host} (hstart : p.start host = q.start host)
    (h : ∀ n c, p.Reaches host n c → c.Agrees p q) : RunAlike p q host := by
  have hrun (c : Config) (hc : p.start host = .ok c) (n : Nat) :
      Machine.run p n c = Machine.run q n c ∧ Machine.after p n c = Machine.after q n c := by
    apply Machine.run_congr
    intro k d hd
    exact Machine.step_congr (h k d ((Program.reaches_iff_of_start hc).mpr hd))
  constructor
  · intro limit
    rw [Program.run, Program.run, ← hstart]
    cases hc : p.start host with
    | error e => rfl
    | ok c => exact (hrun c hc limit).1
  · intro n c
    cases hc : p.start host with
    | error e => simp [Program.Reaches, ← hstart, hc]
    | ok b =>
      rw [Program.reaches_iff_of_start hc, Program.reaches_iff_of_start (hstart ▸ hc),
        (hrun b hc n).2]

end ModuleScript
