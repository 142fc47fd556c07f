import ModuleScript.Proofs.Renaming.Configs

/-!
Every step keeps the two runs in lockstep. There is one statement for each function of the machine.
Main statement: `step_agrees`, two configurations in lockstep go on in lockstep, or both runs end
and their outcomes agree.
-/

namespace ModuleScript

namespace Renaming

open Machine

variable {a b : Name} {region : List Bool} {inside : Bool} {p p' : Program} {s s' : State}
variable {stack stack' : List Pending} {f : FrameId}

theorem deliver_inStep {result result' : Except Fault Value} (h : ResultsAgree a b result result')
    (hstack : TwinStack a b region stack stack') (hs : TwinState a b region s s') :
    InStep a b (deliver result stack s) (deliver result' stack' s') := by
  cases h with
  | ok v => exact ⟨region, .value v, hstack, hs⟩
  | error he => exact ⟨region, .fault he, hstack, hs⟩

theorem resultsAgree_refl (result : Except Fault Value) : ResultsAgree a b result result := by
  cases result with
  | ok v => exact .ok v
  | error e => exact .error (.inl rfl)

theorem fault_inStep (e : Fault) (hstack : TwinStack a b region stack stack')
    (hs : TwinState a b region s s') :
    InStep a b ⟨.fault e, stack, s⟩ ⟨.fault e, stack', s'⟩ :=
  ⟨region, .fault (.inl rfl), hstack, hs⟩

theorem finishImport_inStep {result result' : Option Fault × Scopes Value}
    (h : result'.1 = result.1 ∧ Lockstep a b region result.2 result'.2)
    (hstack : TwinStack a b region stack stack') (hs : TwinState a b region s s') :
    InStep a b (finishImport result stack s) (finishImport result' stack' s') := by
  obtain ⟨fault, scopes⟩ := result
  obtain ⟨fault', scopes'⟩ := result'
  obtain ⟨rfl, hscopes⟩ := h
  cases fault' with
  | none => exact ⟨region, .value .null, hstack, hs.withScopes hscopes⟩
  | some e => exact fault_inStep e hstack (hs.withScopes hscopes)

theorem readVariable_agrees (hs : TwinState a b region s s') (hf : region[f]? = some inside)
    {x : Name} (hx : Old b inside x) :
    ResultsAgree a b (readVariable x f s) (readVariable (twinName a b inside x) f s') := by
  have hread (c : CellId) : s'.scopes.read? c = s.scopes.read? c := by
    unfold Scopes.read?
    rw [hs.scopes.twin.cells]
  unfold readVariable
  rw [hs.scopes.lookup? hf hx]
  cases s.scopes.lookup? f x with
  | none => exact .error (agrees_twinName .notInScope (by simp [Fault.exchange]) inside x)
  | some c =>
    simp only [hread]
    cases s.scopes.read? c with
    | none => exact .error (agrees_twinName .unassigned (by simp [Fault.exchange]) inside x)
    | some v => exact .ok v

theorem newObject_inStep (fields : List (Name × Value))
    (hstack : TwinStack a b region stack stack') (hs : TwinState a b region s s') :
    InStep a b ⟨.value (.object s.nextObject), stack, s.newObject fields⟩
      ⟨.value (.object s'.nextObject), stack', s'.newObject fields⟩ := by
  unfold State.nextObject State.newObject State.onHeap
  rw [hs.host]
  exact ⟨region, .value _, hstack, hs.withHost _⟩

theorem evaluate_inStep {e e' : Expr} (he : TwinExpr a b inside e e')
    (hf : region[f]? = some inside) (hstack : TwinStack a b region stack stack')
    (hs : TwinState a b region s s') :
    InStep a b (evaluate e f stack s) (evaluate e' f stack' s') := by
  cases he with
  | number x => exact ⟨region, .value _, hstack, hs⟩
  | string t => exact ⟨region, .value _, hstack, hs⟩
  | boolean c => exact ⟨region, .value _, hstack, hs⟩
  | null => exact ⟨region, .value _, hstack, hs⟩
  | var hx => exact deliver_inStep (readVariable_agrees hs hf hx) hstack hs
  | unary he => exact ⟨region, .eval hf he, .cons (.unary _) hstack, hs⟩
  | binary hleft hright =>
    exact ⟨region, .eval hf hleft, .cons (.rightOperand hf hright) hstack, hs⟩
  | call hcallee hargs => exact ⟨region, .eval hf hcallee, .cons (.callee hf hargs) hstack, hs⟩
  | object hfields =>
    cases hfields with
    | nil => exact newObject_inStep [] hstack hs
    | cons hfield hrest =>
      obtain ⟨hfirst⟩ := hfield
      exact ⟨region, .eval hf hfirst, .cons (.field hf hrest) hstack, hs⟩
  | get he => exact ⟨region, .eval hf he, .cons (.get _) hstack, hs⟩

theorem importFrom_inStep (hp : TwinProgram a b p p') (x : Name) {names : List Name}
    (hnames : inside = true → a ∉ names ∧ b ∉ names) (hf : region[f]? = some inside)
    (hstack : TwinStack a b region stack stack') (hs : TwinState a b region s s') :
    InStep a b (importFrom p x names f stack s) (importFrom p' x names f stack' s') := by
  unfold importFrom
  by_cases hx : x = nativeModule
  · rw [if_pos hx, if_pos hx, hp.natives]
    exact finishImport_inStep (hs.scopes.importNatives hf p.natives hnames) hstack hs
  · rw [if_neg hx, if_neg hx, hs.loaded]
    have hsource := hp.module? x
    generalize p.module? x = source at hsource ⊢
    generalize p'.module? x = source' at hsource ⊢
    cases hsource with
    | none => exact fault_inStep _ hstack hs
    | @some m m' hm =>
      simp only [hm.exports]
      cases hloaded : s.loaded.find? x with
      | some g =>
        have hg := hs.tops x g hloaded
        exact finishImport_inStep (hs.scopes.importNames hf hg m.exports hnames) hstack hs
      | none =>
        -- the module is started on both sides, in a new frame outside
        simp only [hs.nextFrame.1, hs.nextFrame.2]
        have htop := region_last region false
        exact ⟨region ++ [false], .exec htop hm.body,
          .cons (.imports htop (region_mono hf) hnames) (twinStack_mono hstack false),
          hs.startModule x⟩

theorem execute_inStep (hp : TwinProgram a b p p') {stmt stmt' : Stmt} {rest rest' : List Stmt}
    (hbody : TwinBody a b inside (stmt :: rest) (stmt' :: rest')) (hf : region[f]? = some inside)
    (hstack : TwinStack a b region stack stack') (hs : TwinState a b region s s') :
    InStep a b (execute p stmt f stack s) (execute p' stmt' f stack' s') := by
  cases hbody with
  | declare hx _ =>
    exact ⟨region, .value .null, hstack, hs.withScopes (hs.scopes.bindNew hf hx none)⟩
  | assign hx he _ => exact ⟨region, .eval hf he, .cons (.assign hf hx) hstack, hs⟩
  | ret _ => exact ⟨region, .returned .null, hstack, hs⟩
  | retValue he _ => exact ⟨region, .eval hf he, .cons .ret hstack, hs⟩
  | eval he _ => exact ⟨region, .eval hf he, hstack, hs⟩
  | function hx hparams hroutine _ =>
    exact ⟨region, .value .null, hstack,
      hs.defineFunction hf hx (.same hf ⟨rfl, hparams, hroutine⟩)⟩
  | renamed ha hparams hroutine _ =>
    exact ⟨region, .value .null, hstack,
      hs.defineFunction hf (old_false b _) (.renamed hf ha ⟨rfl, hparams, hroutine⟩)⟩
  | classDecl _ => exact ⟨region, .value .null, hstack, hs⟩
  | ite hcondition hyes hno _ =>
    exact ⟨region, .eval hf hcondition, .cons (.branch hf hyes hno) hstack, hs⟩
  | loop hcondition hloop _ =>
    exact ⟨region, .eval hf hcondition, .cons (.test hf hcondition hloop) hstack, hs⟩
  | set hobject he _ => exact ⟨region, .eval hf hobject, .cons (.target hf he) hstack, hs⟩
  | importFrom hnames _ => exact importFrom_inStep hp _ hnames hf hstack hs

/-! Calls -/

theorem callRoutine_inStep {r r' : Routine Stmt} (hr : TwinRoutine a b inside r r')
    {args : List Value}
    (hframe : args.length = r.params.length →
      Lockstep a b (region ++ [inside]) (s.scopes.enter f (r.params.zip args))
        (s'.scopes.enter f (twinBindings a b inside (r.params.zip args))))
    (hstack : TwinStack a b region stack stack') (hs : TwinState a b region s s') :
    InStep a b (callClosure ⟨r, f⟩ args stack s) (callClosure ⟨r', f⟩ args stack' s') := by
  have hlength : r'.params.length = r.params.length := by rw [hr.params, List.length_map]
  have hzip : r'.params.zip args = twinBindings a b inside (r.params.zip args) := by
    rw [hr.params]
    exact List.zip_map_left ..
  unfold callClosure
  simp only [hlength, hzip]
  split
  · rename_i harity
    rw [hs.nextFrame.1, hs.nextFrame.2]
    exact ⟨region ++ [inside], .exec (region_last region inside) hr.body,
      .cons .result (twinStack_mono hstack inside), hs.withFrame (hframe harity)⟩
  · exact fault_inStep _ hstack hs

theorem callClosure_inStep {c c' : Closure} (hc : TwinClosure a b region c c')
    (args : List Value) (hstack : TwinStack a b region stack stack')
    (hs : TwinState a b region s s') :
    InStep a b (callClosure c args stack s) (callClosure c' args stack' s') := by
  have hold {i : Bool} {params : List Name} (h : ∀ x ∈ params, Old b i x) :
      ∀ q ∈ params.zip args, Old b i q.1 :=
    fun q hq => h q.1 (List.of_mem_zip hq).1
  cases hc with
  | same hf hr => exact callRoutine_inStep hr (fun _ => hs.scopes.enter hf (hold hr.old)) hstack hs
  | renamed hf ha hr =>
    -- with as many arguments as parameters, the parameter is among the names defined
    refine callRoutine_inStep hr (fun harity => ?_) hstack hs
    apply hs.scopes.enterRenamed hf (hold hr.old)
    rw [List.map_fst_zip (Nat.le_of_eq harity.symm)]
    exact ha

theorem callNative_inStep (native : Native) (args : List Value)
    (hstack : TwinStack a b region stack stack') (hs : TwinState a b region s s') :
    InStep a b (callNative native args stack s) (callNative native args stack' s') := by
  unfold callNative
  rw [hs.host]
  split
  · exact ⟨region, .value _, hstack, hs.withHost _⟩
  · exact fault_inStep _ hstack hs

theorem call_inStep (hp : TwinProgram a b p p') (fn : Value) (args : List Value)
    (hstack : TwinStack a b region stack stack') (hs : TwinState a b region s s') :
    InStep a b (call p fn args stack s) (call p' fn args stack' s') := by
  cases fn with
  | closure k =>
    simp only [call]
    have hclosure := hs.closure? k
    generalize s.closures[k]? = c at hclosure ⊢
    generalize s'.closures[k]? = c' at hclosure ⊢
    cases hclosure with
    | none => exact fault_inStep _ hstack hs
    | some hc => exact callClosure_inStep hc args hstack hs
  | native x =>
    simp only [call, hp.natives]
    cases p.natives.find? x with
    | none => exact fault_inStep _ hstack hs
    | some native => exact callNative_inStep native args hstack hs
  | _ => exact fault_inStep _ hstack hs

theorem callWith_inStep (hp : TwinProgram a b p p') (fn : Value) (done : List Value)
    {rest rest' : List Expr} (hrest : List.Forall₂ (TwinExpr a b inside) rest rest')
    (hf : region[f]? = some inside) (hstack : TwinStack a b region stack stack')
    (hs : TwinState a b region s s') :
    InStep a b (callWith p fn done rest f stack s) (callWith p' fn done rest' f stack' s') := by
  cases hrest with
  | nil => exact call_inStep hp fn done hstack hs
  | cons he hrest => exact ⟨region, .eval hf he, .cons (.argument hf hrest) hstack, hs⟩

/-! Values and returns that arrive -/

theorem newChild_inStep {body body' : List Stmt} (hbody : TwinBody a b inside body body')
    (hf : region[f]? = some inside) (hstack : TwinStack a b region stack stack')
    (hs : TwinState a b region s s') :
    InStep a b ⟨.exec body s.nextFrame, stack, s.onScopes (·.newChild f)⟩
      ⟨.exec body' s'.nextFrame, stack', s'.onScopes (·.newChild f)⟩ := by
  rw [hs.nextFrame.1, hs.nextFrame.2]
  exact ⟨region ++ [inside], .exec (region_last region inside) hbody,
    twinStack_mono hstack inside, hs.withFrame (hs.scopes.newChild hf)⟩

theorem assign_inStep (v : Value) {x : Name} (hf : region[f]? = some inside)
    (hx : Old b inside x) (hstack : TwinStack a b region stack stack')
    (hs : TwinState a b region s s') :
    InStep a b (resume p v (.assign x f) stack s)
      (resume p' v (.assign (twinName a b inside x) f) stack' s') := by
  simp only [resume, hs.scopes.lookup? hf hx]
  cases s.scopes.lookup? f x with
  | some c => exact ⟨region, .value .null, hstack, hs.withScopes (hs.scopes.write c v)⟩
  | none =>
    have he : (Fault.notInScope x).Agrees a b (.notInScope (twinName a b inside x)) :=
      agrees_twinName .notInScope (by simp [Fault.exchange]) inside x
    exact ⟨region, .fault he, hstack, hs⟩

theorem branch_inStep (v : Value) {yes yes' no no' : List Stmt} (hf : region[f]? = some inside)
    (hyes : TwinBody a b inside yes yes') (hno : TwinBody a b inside no no')
    (hstack : TwinStack a b region stack stack') (hs : TwinState a b region s s') :
    InStep a b (resume p v (.branch yes no f) stack s)
      (resume p' v (.branch yes' no' f) stack' s') := by
  cases v with
  | boolean c =>
    cases c with
    | true => exact newChild_inStep hyes hf hstack hs
    | false => exact newChild_inStep hno hf hstack hs
  | _ => exact fault_inStep _ hstack hs

theorem test_inStep (v : Value) {condition condition' : Expr} {body body' : List Stmt}
    (hf : region[f]? = some inside) (hcondition : TwinExpr a b inside condition condition')
    (hbody : TwinBody a b inside body body') (hstack : TwinStack a b region stack stack')
    (hs : TwinState a b region s s') :
    InStep a b (resume p v (.test condition body f) stack s)
      (resume p' v (.test condition' body' f) stack' s') := by
  cases v with
  | boolean c =>
    cases c with
    | true => exact newChild_inStep hbody hf (.cons (.again hf hcondition hbody) hstack) hs
    | false => exact ⟨region, .value .null, hstack, hs⟩
  | _ => exact fault_inStep _ hstack hs

theorem resume_inStep (hp : TwinProgram a b p p') (v : Value) {w w' : Pending}
    (hw : TwinPending a b region w w') (hstack : TwinStack a b region stack stack')
    (hs : TwinState a b region s s') :
    InStep a b (resume p v w stack s) (resume p' v w' stack' s') := by
  cases hw with
  | unary op => exact deliver_inStep (resultsAgree_refl _) hstack hs
  | rightOperand hf he => exact ⟨region, .eval hf he, .cons (.binary _ v) hstack, hs⟩
  | binary op left =>
    simp only [resume, hs.host]
    exact deliver_inStep (resultsAgree_refl _) hstack hs
  | callee hf hargs =>
    simp only [resume]
    split
    · exact callWith_inStep hp v [] hargs hf hstack hs
    · exact fault_inStep _ hstack hs
  | argument hf hrest => exact callWith_inStep hp _ _ hrest hf hstack hs
  | field hf hrest =>
    cases hrest with
    | nil => exact newObject_inStep _ hstack hs
    | cons hfield hrest =>
      obtain ⟨hfirst⟩ := hfield
      exact ⟨region, .eval hf hfirst, .cons (.field hf hrest) hstack, hs⟩
  | get x =>
    simp only [resume, hs.host]
    cases v with
    | object o => exact ⟨region, .value _, hstack, hs⟩
    | _ => exact fault_inStep _ hstack hs
  | assign hf hx => exact assign_inStep v hf hx hstack hs
  | ret => exact ⟨region, .returned v, hstack, hs⟩
  | branch hf hyes hno => exact branch_inStep v hf hyes hno hstack hs
  | test hf hcondition hbody => exact test_inStep v hf hcondition hbody hstack hs
  | again hf hcondition hbody =>
    exact ⟨region, .eval hf hcondition, .cons (.test hf hcondition hbody) hstack, hs⟩
  | target hf he =>
    cases v with
    | object o => exact ⟨region, .eval hf he, .cons (.set o _) hstack, hs⟩
    | _ => exact fault_inStep _ hstack hs
  | set o x =>
    simp only [resume, State.onHeap, hs.host]
    exact ⟨region, .value .null, hstack, hs.withHost _⟩
  | next hf hrest => exact ⟨region, .exec hf hrest, hstack, hs⟩
  | result => exact ⟨region, .value v, hstack, hs⟩
  | imports hsource hf hnames =>
    exact finishImport_inStep (hs.scopes.importNames hf hsource _ hnames) hstack hs

theorem unwind_inStep (v : Value) {w w' : Pending} (hw : TwinPending a b region w w')
    (hstack : TwinStack a b region stack stack') (hs : TwinState a b region s s') :
    InStep a b (unwind v w stack s) (unwind v w' stack' s') := by
  cases hw with
  | result => exact ⟨region, .value v, hstack, hs⟩
  | imports hsource hf hnames =>
    exact finishImport_inStep (hs.scopes.importNames hf hsource _ hnames) hstack hs
  | _ => exact ⟨region, .returned v, hstack, hs⟩

/-! Steps -/

inductive ProgressAgrees (a b : Name) : Progress → Progress → Prop
  | next {c c' : Config} : InStep a b c c' → ProgressAgrees a b (.next c) (.next c')
  | done {o o' : Outcome} : o.Agrees a b o' → ProgressAgrees a b (.done o) (.done o')

theorem TwinClosure.arity {c c' : Closure} (h : TwinClosure a b region c c') :
    (c.routine.params.length, c.frame) = (c'.routine.params.length, c'.frame) := by
  cases h with
  | same _ hr => rw [hr.params, List.length_map]
  | renamed _ _ hr => rw [hr.params, List.length_map]

theorem TwinState.outcome (hs : TwinState a b region s s') {result result' : Except Fault Value}
    (h : ResultsAgree a b result result') : Outcome.Agrees a b ⟨result, s⟩ ⟨result', s'⟩ where
  result := h
  host := hs.host
  cells := hs.scopes.twin.cells
  chain := hs.scopes.twin.chain
  closures := by
    have hmap := List.rel_map (fun c c' hc => TwinClosure.arity hc) hs.closures
    rw [List.forall₂_eq_eq_eq] at hmap
    apply Array.toList_inj.mp
    rw [Array.toList_map, Array.toList_map]
    exact hmap.symm

theorem step_agrees (hp : TwinProgram a b p p') {c c' : Config} (h : InStep a b c c') :
    ProgressAgrees a b (step p c) (step p' c') := by
  obtain ⟨region, hcontrol, hstack, hs⟩ := h
  obtain ⟨control, stack, s⟩ := c
  obtain ⟨control', stack', s'⟩ := c'
  cases hcontrol with
  | eval hf he => exact .next (evaluate_inStep he hf hstack hs)
  | @exec body body' f inside hf hbody =>
    cases body with
    | nil =>
      cases hbody
      exact .next ⟨region, .value .null, hstack, hs⟩
    | cons stmt rest =>
      obtain ⟨stmt', rest', rfl, hrest⟩ := hbody.exists_of_cons
      exact .next (execute_inStep hp hbody hf (.cons (.next hf hrest) hstack) hs)
  | value v =>
    cases hstack with
    | nil => exact .done (hs.outcome (.ok v))
    | cons hw hstack => exact .next (resume_inStep hp v hw hstack hs)
  | returned v =>
    cases hstack with
    | nil => exact .done (hs.outcome (.ok v))
    | cons hw hstack => exact .next (unwind_inStep v hw hstack hs)
  | fault he => exact .done (hs.outcome (.error he))

end Renaming

end ModuleScript
