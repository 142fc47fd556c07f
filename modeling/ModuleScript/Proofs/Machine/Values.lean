import ModuleScript.Proofs.Machine.Runs
import ModuleScript.Proofs.Table

/-!
Where values come from: a value that a configuration holds was held one step before, or it is no
function, a closure or native function just made or imported, or something that a native function
has answered. What these sources grant is kept by every step (`step_all`).
-/

namespace ModuleScript

variable {P : Value → Prop}

def Heap.All (P : Value → Prop) (h : Heap) : Prop :=
  ∀ o x v, (h.fields o).find? x = some v → P v

def Scopes.All (P : Value → Prop) (s : Scopes Value) : Prop := ∀ c v, s.read? c = some v → P v

def Native.Keeps (P : Value → Prop) (native : Native) : Prop :=
  ∀ args host, (∀ v ∈ args, P v) → host.heap.All P →
    P (native.run args host).1 ∧ (native.run args host).2.heap.All P

def Control.values : Control → List Value
  | .value v => [v]
  | .returned v => [v]
  | _ => []

def Pending.values : Pending → List Value
  | .binary _ left => [left]
  | .argument fn done _ _ => fn :: done
  | .field done _ _ _ => done.map Prod.snd
  | _ => []

structure State.All (P : Value → Prop) (s : State) : Prop where
  cells : s.scopes.All P
  fields : s.host.heap.All P

structure Config.All (P : Value → Prop) (c : Config) : Prop where
  control : ∀ v ∈ c.control.values, P v
  stack : ∀ w ∈ c.stack, ∀ v ∈ w.values, P v
  state : c.state.All P

namespace Heap

theorem all_empty (order : FieldOrder) : (Heap.empty order).All P := by
  intro o x v h
  simp [Heap.empty, fields] at h

theorem all_alloc {h : Heap} {entries : List (Name × Value)} (hall : h.All P)
    (hentries : ∀ v ∈ entries.map Prod.snd, P v) : (h.alloc (.ofList entries)).All P := by
  intro o x v hv
  rw [fields_alloc] at hv
  split at hv
  · exact hentries v (List.mem_map_of_mem (Table.mem_of_find?_ofList hv))
  · exact hall o x v hv

theorem all_set {h : Heap} {o : ObjectId} {y : Name} {u : Value} (hall : h.All P) (hu : P u) :
    (h.set o y u).All P := by
  intro o' x v hv
  by_cases ho : o < h.size
  · rw [fields_set ho] at hv
    split at hv
    · rw [Table.find?_insert] at hv
      split at hv
      · exact Option.some.inj hv ▸ hu
      · exact hall o x v hv
    · exact hall o' x v hv
  · rw [set_of_le (Nat.le_of_not_lt ho)] at hv
    exact hall o' x v hv

theorem all_get {h : Heap} {o : ObjectId} {x : Name} (hall : h.All P) (hnull : P .null) :
    P (h.get o x) := by
  rw [get]
  cases hx : (h.fields o).find? x with
  | none => exact hnull
  | some v => exact hall o x v hx

end Heap

namespace Scopes

variable {s : Scopes Value}

theorem all_write {c : CellId} {u : Value} (hall : s.All P) (hu : P u) : (s.write c u).All P := by
  intro d v hv
  by_cases hc : c < s.cells.size
  · rw [read?_write hc] at hv
    split at hv
    · exact Option.some.inj hv ▸ hu
    · exact hall d v hv
  · rw [write_of_le (Nat.le_of_not_lt hc)] at hv
    exact hall d v hv

theorem all_bindNew {f : FrameId} {x : Name} {content : Option Value} (hall : s.All P)
    (hcontent : ∀ v, content = some v → P v) : (s.bindNew f x content).All P := by
  intro d v hv
  have hread : (s.cells.push content)[d]?.join = some v := hv
  rw [Array.getElem?_push] at hread
  split at hread
  · exact hcontent v hread
  · exact hall d v hread

theorem all_defineAll {f : FrameId} {bindings : List (Name × Value)} (hall : s.All P)
    (hb : ∀ v ∈ bindings.map Prod.snd, P v) : (s.defineAll f bindings).All P := by
  induction bindings generalizing s with
  | nil => exact hall
  | cons entry rest ih =>
    obtain ⟨hfirst, hrest⟩ := List.forall_mem_cons.mp hb
    exact ih (all_bindNew hall fun v hv => Option.some.inj hv ▸ hfirst) hrest

theorem all_importNames {source f : FrameId} {exports names : List Name} (hall : s.All P) :
    (importNames source exports f names s).2.All P := by
  induction names generalizing s with
  | nil => exact hall
  | cons x rest ih =>
    rw [importNames]
    -- a name gets a cell that is there already
    cases s.exported source exports x with
    | error e => exact hall
    | ok c => exact ih hall

theorem all_importNatives {natives : Table Native} {f : FrameId} {names : List Name}
    (hall : s.All P) (hnames : ∀ x ∈ names, (natives.find? x).isSome → P (.native x)) :
    (importNatives natives f names s).2.All P := by
  induction names generalizing s with
  | nil => exact hall
  | cons x rest ih =>
    obtain ⟨hfirst, hrest⟩ := List.forall_mem_cons.mp hnames
    rw [importNatives]
    cases hx : natives.find? x with
    | none => exact hall
    | some native =>
      have hx' : P (.native x) := hfirst (hx ▸ rfl)
      exact ih (all_bindNew hall fun v hv => Option.some.inj hv ▸ hx') hrest

end Scopes

theorem not_isCallable_of_unary {op : UnaryOp} {u v : Value} (h : op.apply u = .ok v) :
    v.isCallable = false := by
  cases op <;> cases u <;> cases h <;> rfl

theorem not_isCallable_of_onNumbers {f : Float → Float → Value} {u v w : Value}
    (hf : ∀ a b, (f a b).isCallable = false) (h : onNumbers f u v = .ok w) :
    w.isCallable = false := by
  cases u <;> cases v <;> cases h
  exact hf _ _

theorem not_isCallable_of_onBooleans {f : Bool → Bool → Bool} {u v w : Value}
    (h : onBooleans f u v = .ok w) : w.isCallable = false := by
  cases u <;> cases v <;> cases h
  rfl

theorem not_isCallable_of_map_boolean {result : Except Fault Bool} {f : Bool → Bool} {w : Value}
    (h : (result.map fun b => .boolean (f b)) = .ok w) : w.isCallable = false := by
  cases result <;> cases h
  rfl

theorem not_isCallable_of_binary {h : Heap} {op : BinaryOp} {u v w : Value}
    (hw : op.apply h u v = .ok w) : w.isCallable = false := by
  cases op with
  | and => exact not_isCallable_of_onBooleans hw
  | or => exact not_isCallable_of_onBooleans hw
  | equal => exact not_isCallable_of_map_boolean (f := id) hw
  | notEqual => exact not_isCallable_of_map_boolean hw
  | _ => exact not_isCallable_of_onNumbers (fun _ _ => rfl) hw

namespace Machine

variable {p : Program} {s : State} {stack : List Pending} {f : FrameId}

theorem deliver_all {result : Except Fault Value} (hv : ∀ v, result = .ok v → P v)
    (hstack : ∀ w ∈ stack, ∀ v ∈ w.values, P v) (hs : s.All P) :
    (deliver result stack s).All P := by
  cases result with
  | ok v => exact ⟨fun u hu => List.mem_singleton.mp hu ▸ hv v rfl, hstack, hs⟩
  | error e => exact ⟨by simp [deliver, Control.values], hstack, hs⟩

theorem finishImport_all {result : Option Fault × Scopes Value} (hnull : P .null)
    (hstack : ∀ w ∈ stack, ∀ v ∈ w.values, P v) (hr : result.2.All P) (hs : s.All P) :
    (finishImport result stack s).All P := by
  obtain ⟨fault, scopes⟩ := result
  cases fault with
  | none => exact ⟨fun u hu => List.mem_singleton.mp hu ▸ hnull, hstack, hr, hs.fields⟩
  | some e => exact ⟨by simp [finishImport, Control.values], hstack, hr, hs.fields⟩

theorem readVariable_all {x : Name} {v : Value} (hs : s.All P)
    (hv : readVariable x f s = .ok v) : P v := by
  rw [readVariable] at hv
  split at hv
  · cases hv
  · split at hv
    · cases hv
    · rename_i c _ _ _ hread
      exact Except.ok.inj hv ▸ hs.cells c _ hread

theorem value_all {v : Value} (hv : P v) (hstack : ∀ w ∈ stack, ∀ v ∈ w.values, P v)
    (hs : s.All P) : Config.All P ⟨.value v, stack, s⟩ :=
  ⟨fun _ hu => List.mem_singleton.mp hu ▸ hv, hstack, hs⟩

theorem fault_all (e : Fault) (hstack : ∀ w ∈ stack, ∀ v ∈ w.values, P v) (hs : s.All P) :
    Config.All P ⟨.fault e, stack, s⟩ :=
  ⟨List.forall_mem_nil P, hstack, hs⟩

theorem eval_all {w : Pending} (e : Expr) (f : FrameId) (hw : ∀ v ∈ w.values, P v)
    (hstack : ∀ w ∈ stack, ∀ v ∈ w.values, P v) (hs : s.All P) :
    Config.All P ⟨.eval e f, w :: stack, s⟩ :=
  ⟨List.forall_mem_nil P, List.forall_mem_cons.mpr ⟨hw, hstack⟩, hs⟩

theorem newObject_all {fields : List (Name × Value)} (hdata : ∀ v, v.isCallable = false → P v)
    (hfields : ∀ v ∈ fields.map Prod.snd, P v) (hstack : ∀ w ∈ stack, ∀ v ∈ w.values, P v)
    (hs : s.All P) : Config.All P ⟨.value (.object s.nextObject), stack, s.newObject fields⟩ :=
  value_all (hdata _ rfl) hstack ⟨hs.cells, Heap.all_alloc hs.fields hfields⟩

theorem evaluate_all {e : Expr} (hdata : ∀ v, v.isCallable = false → P v)
    (hstack : ∀ w ∈ stack, ∀ v ∈ w.values, P v) (hs : s.All P) :
    (evaluate e f stack s).All P := by
  cases e with
  | var x => exact deliver_all (fun v hv => readVariable_all hs hv) hstack hs
  | unary op e => exact eval_all _ _ (List.forall_mem_nil P) hstack hs
  | binary op left right => exact eval_all _ _ (List.forall_mem_nil P) hstack hs
  | call fn args => exact eval_all _ _ (List.forall_mem_nil P) hstack hs
  | object fields =>
    cases fields with
    | nil => exact newObject_all hdata (List.forall_mem_nil P) hstack hs
    | cons entry rest => exact eval_all _ _ (List.forall_mem_nil P) hstack hs
  | get e x => exact eval_all _ _ (List.forall_mem_nil P) hstack hs
  | _ => exact value_all (hdata _ rfl) hstack hs

theorem importFrom_all {x : Name} {names : List Name} (hnull : P .null)
    (hnative : x = nativeModule → ∀ y ∈ names, (p.natives.find? y).isSome → P (.native y))
    (hstack : ∀ w ∈ stack, ∀ v ∈ w.values, P v) (hs : s.All P) :
    (importFrom p x names f stack s).All P := by
  rw [importFrom]
  split
  · rename_i hx
    exact finishImport_all hnull hstack (Scopes.all_importNatives hs.cells (hnative hx)) hs
  · cases p.module? x with
    | none => exact fault_all _ hstack hs
    | some m =>
      cases s.loaded.find? x with
      | some g => exact finishImport_all hnull hstack (Scopes.all_importNames hs.cells) hs
      | none =>
        exact ⟨List.forall_mem_nil P, List.forall_mem_cons.mpr ⟨List.forall_mem_nil P, hstack⟩,
          hs.cells, hs.fields⟩

theorem execute_all {stmt : Stmt} (hdata : ∀ v, v.isCallable = false → P v)
    (hclosure : ∀ x routine, stmt = .function x routine → P (.closure s.nextClosure))
    (hnative : ∀ names, stmt = .importFrom nativeModule names →
      ∀ y ∈ names, (p.natives.find? y).isSome → P (.native y))
    (hstack : ∀ w ∈ stack, ∀ v ∈ w.values, P v) (hs : s.All P) :
    (execute p stmt f stack s).All P := by
  have hnull : P .null := hdata _ rfl
  cases stmt with
  | declare x =>
    have hcells : (s.scopes.declare f x).All P :=
      Scopes.all_bindNew hs.cells fun v hv => (nomatch hv)
    exact value_all hnull hstack ⟨hcells, hs.fields⟩
  | assign x e => exact eval_all _ _ (List.forall_mem_nil P) hstack hs
  | ret result =>
    cases result with
    | none => exact ⟨fun u hu => List.mem_singleton.mp hu ▸ hnull, hstack, hs⟩
    | some e => exact eval_all _ _ (List.forall_mem_nil P) hstack hs
  | eval e => exact ⟨List.forall_mem_nil P, hstack, hs⟩
  | function x routine =>
    have hk : P (.closure s.nextClosure) := hclosure x routine rfl
    have hcells : (s.scopes.define f x (.closure s.nextClosure)).All P :=
      Scopes.all_bindNew hs.cells fun v hv => Option.some.inj hv ▸ hk
    exact value_all hnull hstack ⟨hcells, hs.fields⟩
  | classDecl x construct methods => exact value_all hnull hstack hs
  | ite condition yes no => exact eval_all _ _ (List.forall_mem_nil P) hstack hs
  | loop condition body => exact eval_all _ _ (List.forall_mem_nil P) hstack hs
  | set object x e => exact eval_all _ _ (List.forall_mem_nil P) hstack hs
  | importFrom x names =>
    exact importFrom_all hnull (fun hx => hnative names (hx ▸ rfl)) hstack hs

theorem call_all {fn : Value} {args : List Value} (hfn : P fn) (hargs : ∀ v ∈ args, P v)
    (hnatives : ∀ x native, P (.native x) → p.natives.find? x = some native → native.Keeps P)
    (hstack : ∀ w ∈ stack, ∀ v ∈ w.values, P v) (hs : s.All P) :
    (call p fn args stack s).All P := by
  cases fn with
  | closure k =>
    rw [call]
    split
    · rw [callClosure]
      split
      · -- the arguments go into the cells of the parameters
        refine ⟨List.forall_mem_nil P, List.forall_mem_cons.mpr ⟨List.forall_mem_nil P, hstack⟩,
          Scopes.all_defineAll hs.cells ?_, hs.fields⟩
        intro v hv
        obtain ⟨entry, hentry, rfl⟩ := List.mem_map.mp hv
        exact hargs entry.2 (List.of_mem_zip hentry).2
      · exact fault_all _ hstack hs
    · exact fault_all _ hstack hs
  | native x =>
    rw [call]
    split
    · rename_i native hx
      rw [callNative]
      split
      · obtain ⟨hanswer, hheap⟩ := hnatives x native hfn hx args s.host hargs hs.fields
        exact value_all hanswer hstack ⟨hs.cells, hheap⟩
      · exact fault_all _ hstack hs
    · exact fault_all _ hstack hs
  | _ => exact fault_all _ hstack hs

theorem callWith_all {fn : Value} {done : List Value} {rest : List Expr} (hfn : P fn)
    (hdone : ∀ v ∈ done, P v)
    (hnatives : ∀ x native, P (.native x) → p.natives.find? x = some native → native.Keeps P)
    (hstack : ∀ w ∈ stack, ∀ v ∈ w.values, P v) (hs : s.All P) :
    (callWith p fn done rest f stack s).All P := by
  cases rest with
  | nil => exact call_all hfn hdone hnatives hstack hs
  | cons e rest => exact eval_all _ _ (List.forall_mem_cons.mpr ⟨hfn, hdone⟩) hstack hs

theorem newChild_all {waiting : List Pending} (body : List Stmt) (f g : FrameId)
    (hstack : ∀ w ∈ waiting, ∀ v ∈ w.values, P v) (hs : s.All P) :
    Config.All P ⟨.exec body g, waiting, s.onScopes (·.newChild f)⟩ :=
  ⟨List.forall_mem_nil P, hstack, hs.cells, hs.fields⟩

theorem resume_all {v : Value} {w : Pending} (hdata : ∀ v, v.isCallable = false → P v)
    (hnatives : ∀ x native, P (.native x) → p.natives.find? x = some native → native.Keeps P)
    (hv : P v) (hw : ∀ v ∈ w.values, P v) (hstack : ∀ w ∈ stack, ∀ v ∈ w.values, P v)
    (hs : s.All P) : (resume p v w stack s).All P := by
  have hnull : P .null := hdata _ rfl
  cases w with
  | unary op => exact deliver_all (fun u hu => hdata u (not_isCallable_of_unary hu)) hstack hs
  | rightOperand op right f =>
    exact eval_all _ _ (List.forall_mem_singleton.mpr hv) hstack hs
  | binary op left =>
    exact deliver_all (fun u hu => hdata u (not_isCallable_of_binary hu)) hstack hs
  | callee args f =>
    rw [resume]
    split
    · exact callWith_all hv (List.forall_mem_nil P) hnatives hstack hs
    · exact fault_all _ hstack hs
  | argument fn done rest f =>
    obtain ⟨hfn, hdone⟩ := List.forall_mem_cons.mp hw
    have hdone' : ∀ u ∈ done ++ [v], P u :=
      List.forall_mem_append.mpr ⟨hdone, List.forall_mem_singleton.mpr hv⟩
    exact callWith_all hfn hdone' hnatives hstack hs
  | field done x rest f =>
    have hdone : ∀ u ∈ (done ++ [(x, v)]).map Prod.snd, P u := by
      rw [List.map_append]
      exact List.forall_mem_append.mpr ⟨hw, List.forall_mem_singleton.mpr hv⟩
    cases rest with
    | nil => exact newObject_all hdata hdone hstack hs
    | cons entry rest => exact eval_all _ _ hdone hstack hs
  | get x =>
    cases v with
    | object o => exact value_all (Heap.all_get hs.fields hnull) hstack hs
    | _ => exact fault_all _ hstack hs
  | assign x f =>
    rw [resume]
    split
    · exact value_all hnull hstack ⟨Scopes.all_write hs.cells hv, hs.fields⟩
    · exact fault_all _ hstack hs
  | ret => exact ⟨List.forall_mem_singleton.mpr hv, hstack, hs⟩
  | branch yes no f =>
    cases v with
    | boolean b => exact newChild_all _ _ _ hstack hs
    | _ => exact fault_all _ hstack hs
  | test condition body f =>
    cases v with
    | boolean b =>
      cases b with
      | true =>
        exact newChild_all _ _ _ (List.forall_mem_cons.mpr ⟨List.forall_mem_nil P, hstack⟩) hs
      | false => exact value_all hnull hstack hs
    | _ => exact fault_all _ hstack hs
  | again condition body f => exact eval_all _ _ (List.forall_mem_nil P) hstack hs
  | target x e f =>
    cases v with
    | object o => exact eval_all _ _ (List.forall_mem_nil P) hstack hs
    | _ => exact fault_all _ hstack hs
  | set o x => exact value_all hnull hstack ⟨hs.cells, Heap.all_set hs.fields hv⟩
  | next rest f => exact ⟨List.forall_mem_nil P, hstack, hs⟩
  | result => exact value_all hv hstack hs
  | imports source exports names f =>
    exact finishImport_all hnull hstack (Scopes.all_importNames hs.cells) hs

theorem unwind_all {v : Value} {w : Pending} (hnull : P .null) (hv : P v)
    (hstack : ∀ w ∈ stack, ∀ v ∈ w.values, P v) (hs : s.All P) : (unwind v w stack s).All P := by
  cases w with
  | result => exact value_all hv hstack hs
  | imports source exports names f =>
    exact finishImport_all hnull hstack (Scopes.all_importNames hs.cells) hs
  | _ => exact ⟨List.forall_mem_singleton.mpr hv, hstack, hs⟩

/-- What the sources of values grant, a step keeps. -/
theorem step_all {c d : Config} (hdata : ∀ v, v.isCallable = false → P v)
    (hnatives : ∀ x native, P (.native x) → p.natives.find? x = some native → native.Keeps P)
    (hclosure : ∀ x routine rest f, c.control = .exec (.function x routine :: rest) f →
      P (.closure c.state.nextClosure))
    (himport : ∀ names rest f, c.control = .exec (.importFrom nativeModule names :: rest) f →
      ∀ y ∈ names, (p.natives.find? y).isSome → P (.native y))
    (h : c.All P) (hstep : step p c = .next d) : d.All P := by
  obtain ⟨control, stack, s⟩ := c
  obtain ⟨hc, hstack, hs⟩ := h
  have hnull : P .null := hdata _ rfl
  cases control with
  | eval e f =>
    obtain rfl := Progress.next.inj hstep
    exact evaluate_all hdata hstack hs
  | exec body f =>
    cases body with
    | nil =>
      obtain rfl := Progress.next.inj hstep
      exact value_all hnull hstack hs
    | cons stmt rest =>
      obtain rfl := Progress.next.inj hstep
      refine execute_all hdata (fun x routine hx => hclosure x routine rest f (hx ▸ rfl))
        (fun names hx => himport names rest f (hx ▸ rfl)) ?_ hs
      exact List.forall_mem_cons.mpr ⟨List.forall_mem_nil P, hstack⟩
  | value v =>
    cases stack with
    | nil => cases hstep
    | cons w stack =>
      obtain rfl := Progress.next.inj hstep
      obtain ⟨hw, hrest⟩ := List.forall_mem_cons.mp hstack
      exact resume_all hdata hnatives (hc v List.mem_cons_self) hw hrest hs
  | returned v =>
    cases stack with
    | nil => cases hstep
    | cons w stack =>
      obtain rfl := Progress.next.inj hstep
      exact unwind_all hnull (hc v List.mem_cons_self) (List.forall_mem_cons.mp hstack).2 hs
  | fault e => cases hstep

end Machine

end ModuleScript
