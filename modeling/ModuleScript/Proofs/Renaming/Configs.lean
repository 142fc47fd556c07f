import ModuleScript.Machine.Run
import ModuleScript.Proofs.Renaming.Scopes

/-!
Configurations of two runs in lockstep. Work in a frame of the region is inside or outside as the
frame is, and a closure of the renamed function itself stands outside while its body is inside.
-/

namespace ModuleScript

namespace Renaming

variable {a b : Name} {region : List Bool} {inside : Bool} {s s' : State} {f : FrameId}

structure TwinRoutine (a b : Name) (inside : Bool) (r r' : Routine Stmt) : Prop where
  params : r'.params = r.params.map (twinName a b inside)
  old : ∀ x ∈ r.params, Old b inside x
  body : TwinBody a b inside r.body r'.body

inductive TwinClosure (a b : Name) (region : List Bool) : Closure → Closure → Prop
  | same {r r' : Routine Stmt} {f : FrameId} {inside : Bool} : region[f]? = some inside →
      TwinRoutine a b inside r r' → TwinClosure a b region ⟨r, f⟩ ⟨r', f⟩
  | renamed {r r' : Routine Stmt} {f : FrameId} : region[f]? = some false → a ∈ r.params →
      TwinRoutine a b true r r' → TwinClosure a b region ⟨r, f⟩ ⟨r', f⟩

/-- The states of the two runs. Top frames of modules are outside. -/
structure TwinState (a b : Name) (region : List Bool) (s s' : State) : Prop where
  scopes : Lockstep a b region s.scopes s'.scopes
  closures : List.Forall₂ (TwinClosure a b region) s.closures.toList s'.closures.toList
  loaded : s'.loaded = s.loaded
  tops : ∀ x g, s.loaded.find? x = some g → region[g]? = some false
  host : s'.host = s.host

inductive TwinControl (a b : Name) (region : List Bool) : Control → Control → Prop
  | eval {e e' : Expr} {f : FrameId} {inside : Bool} : region[f]? = some inside →
      TwinExpr a b inside e e' → TwinControl a b region (.eval e f) (.eval e' f)
  | exec {body body' : List Stmt} {f : FrameId} {inside : Bool} : region[f]? = some inside →
      TwinBody a b inside body body' → TwinControl a b region (.exec body f) (.exec body' f)
  | value (v : Value) : TwinControl a b region (.value v) (.value v)
  | returned (v : Value) : TwinControl a b region (.returned v) (.returned v)
  | fault {e e' : Fault} : e.Agrees a b e' → TwinControl a b region (.fault e) (.fault e')

inductive TwinPending (a b : Name) (region : List Bool) : Pending → Pending → Prop
  | unary (op : UnaryOp) : TwinPending a b region (.unary op) (.unary op)
  | rightOperand {op : BinaryOp} {right right' : Expr} {f : FrameId} {inside : Bool} :
      region[f]? = some inside → TwinExpr a b inside right right' →
        TwinPending a b region (.rightOperand op right f) (.rightOperand op right' f)
  | binary (op : BinaryOp) (left : Value) :
      TwinPending a b region (.binary op left) (.binary op left)
  | callee {args args' : List Expr} {f : FrameId} {inside : Bool} : region[f]? = some inside →
      List.Forall₂ (TwinExpr a b inside) args args' →
        TwinPending a b region (.callee args f) (.callee args' f)
  | argument {fn : Value} {done : List Value} {rest rest' : List Expr} {f : FrameId}
      {inside : Bool} : region[f]? = some inside →
      List.Forall₂ (TwinExpr a b inside) rest rest' →
        TwinPending a b region (.argument fn done rest f) (.argument fn done rest' f)
  | field {done : List (Name × Value)} {x : Name} {rest rest' : List (Name × Expr)} {f : FrameId}
      {inside : Bool} : region[f]? = some inside →
      List.Forall₂ (TwinField (TwinExpr a b inside)) rest rest' →
        TwinPending a b region (.field done x rest f) (.field done x rest' f)
  | get (x : Name) : TwinPending a b region (.get x) (.get x)
  | assign {x : Name} {f : FrameId} {inside : Bool} : region[f]? = some inside → Old b inside x →
      TwinPending a b region (.assign x f) (.assign (twinName a b inside x) f)
  | ret : TwinPending a b region .ret .ret
  | branch {yes yes' no no' : List Stmt} {f : FrameId} {inside : Bool} : region[f]? = some inside →
      TwinBody a b inside yes yes' → TwinBody a b inside no no' →
        TwinPending a b region (.branch yes no f) (.branch yes' no' f)
  | test {condition condition' : Expr} {body body' : List Stmt} {f : FrameId} {inside : Bool} :
      region[f]? = some inside → TwinExpr a b inside condition condition' →
        TwinBody a b inside body body' →
          TwinPending a b region (.test condition body f) (.test condition' body' f)
  | again {condition condition' : Expr} {body body' : List Stmt} {f : FrameId} {inside : Bool} :
      region[f]? = some inside → TwinExpr a b inside condition condition' →
        TwinBody a b inside body body' →
          TwinPending a b region (.again condition body f) (.again condition' body' f)
  | target {x : Name} {e e' : Expr} {f : FrameId} {inside : Bool} : region[f]? = some inside →
      TwinExpr a b inside e e' → TwinPending a b region (.target x e f) (.target x e' f)
  | set (o : ObjectId) (x : Name) : TwinPending a b region (.set o x) (.set o x)
  | next {rest rest' : List Stmt} {f : FrameId} {inside : Bool} : region[f]? = some inside →
      TwinBody a b inside rest rest' → TwinPending a b region (.next rest f) (.next rest' f)
  | result : TwinPending a b region .result .result
  | imports {source : FrameId} {exports names : List Name} {f : FrameId} {inside : Bool} :
      region[source]? = some false → region[f]? = some inside →
        (inside = true → a ∉ names ∧ b ∉ names) →
          TwinPending a b region (.imports source exports names f)
            (.imports source exports names f)

abbrev TwinStack (a b : Name) (region : List Bool) : List Pending → List Pending → Prop :=
  List.Forall₂ (TwinPending a b region)

structure TwinConfig (a b : Name) (region : List Bool) (c c' : Config) : Prop where
  control : TwinControl a b region c.control c'.control
  stack : TwinStack a b region c.stack c'.stack
  state : TwinState a b region c.state c'.state

def InStep (a b : Name) (c c' : Config) : Prop := ∃ region, TwinConfig a b region c c'

structure TwinModule (a b : Name) (m m' : Module) : Prop where
  name : m'.name = m.name
  exports : m'.exports = m.exports
  body : TwinBody a b false m.body m'.body

structure TwinProgram (a b : Name) (p p' : Program) : Prop where
  natives : p'.natives = p.natives
  modules : List.Forall₂ (TwinModule a b) p.modules p'.modules

/-! Faults -/

theorem agrees_twinName (fault : Name → Fault) (h : (fault a).exchange a b = fault b)
    (inside : Bool) (x : Name) : (fault x).Agrees a b (fault (twinName a b inside x)) := by
  by_cases hx : x = a
  · subst hx
    cases inside with
    | false => exact .inl rfl
    | true =>
      have hname : twinName x b true x = b := by simp [twinName, name]
      rw [hname]
      exact .inr h.symm
  · rw [twinName_of_ne hx]
    exact .inl rfl

/-! More frames -/

theorem TwinClosure.mono {c c' : Closure} (h : TwinClosure a b region c c') (last : Bool) :
    TwinClosure a b (region ++ [last]) c c' := by
  cases h with
  | same hf hr => exact .same (region_mono hf) hr
  | renamed hf ha hr => exact .renamed (region_mono hf) ha hr

theorem TwinPending.mono {w w' : Pending} (h : TwinPending a b region w w') (last : Bool) :
    TwinPending a b (region ++ [last]) w w' := by
  cases h with
  | unary op => exact .unary op
  | rightOperand hf he => exact .rightOperand (region_mono hf) he
  | binary op left => exact .binary op left
  | callee hf hargs => exact .callee (region_mono hf) hargs
  | argument hf hrest => exact .argument (region_mono hf) hrest
  | field hf hrest => exact .field (region_mono hf) hrest
  | get x => exact .get x
  | assign hf hx => exact .assign (region_mono hf) hx
  | ret => exact .ret
  | branch hf hyes hno => exact .branch (region_mono hf) hyes hno
  | test hf hcondition hbody => exact .test (region_mono hf) hcondition hbody
  | again hf hcondition hbody => exact .again (region_mono hf) hcondition hbody
  | target hf he => exact .target (region_mono hf) he
  | set o x => exact .set o x
  | next hf hrest => exact .next (region_mono hf) hrest
  | result => exact .result
  | imports hsource hf hnames => exact .imports (region_mono hsource) (region_mono hf) hnames

theorem twinStack_mono {stack stack' : List Pending} (h : TwinStack a b region stack stack')
    (last : Bool) : TwinStack a b (region ++ [last]) stack stack' :=
  h.imp fun _ _ hw => hw.mono last

/-! States -/

theorem TwinState.withScopes (h : TwinState a b region s s') {t t' : Scopes Value}
    (ht : Lockstep a b region t t') :
    TwinState a b region { s with scopes := t } { s' with scopes := t' } :=
  ⟨ht, h.closures, h.loaded, h.tops, h.host⟩

theorem TwinState.withHost (h : TwinState a b region s s') (host : Host) :
    TwinState a b region { s with host } { s' with host } :=
  ⟨h.scopes, h.closures, h.loaded, h.tops, rfl⟩

theorem TwinState.withFrame (h : TwinState a b region s s') {last : Bool} {t t' : Scopes Value}
    (ht : Lockstep a b (region ++ [last]) t t') :
    TwinState a b (region ++ [last]) { s with scopes := t } { s' with scopes := t' } where
  scopes := ht
  closures := h.closures.imp fun _ _ hc => hc.mono last
  loaded := h.loaded
  tops x g hg := region_mono (h.tops x g hg)
  host := h.host

theorem TwinState.nextFrame (h : TwinState a b region s s') :
    s.nextFrame = region.length ∧ s'.nextFrame = region.length :=
  ⟨h.scopes.twin.size, h.scopes.twin.size'⟩

theorem region_last (region : List Bool) (last : Bool) :
    (region ++ [last])[region.length]? = some last :=
  getElem?_append_singleton_iff.mpr (.inr ⟨rfl, rfl⟩)

theorem TwinState.startModule (h : TwinState a b region s s') (x : Name) :
    TwinState a b (region ++ [false]) (s.startModule x) (s'.startModule x) where
  scopes := h.scopes.newRoot
  closures := h.closures.imp fun _ _ hc => hc.mono false
  loaded := by
    show s'.loaded.insert x s'.nextFrame = s.loaded.insert x s.nextFrame
    rw [h.loaded, h.nextFrame.1, h.nextFrame.2]
  tops y g hg := by
    have hfind : (s.loaded.insert x s.nextFrame).find? y = some g := hg
    rw [Table.find?_insert] at hfind
    split at hfind
    · obtain rfl := Option.some.inj hfind
      rw [h.nextFrame.1]
      exact region_last region false
    · exact region_mono (h.tops y g hfind)
  host := h.host

theorem TwinState.newClosure (h : TwinState a b region s s') {r r' : Routine Stmt}
    (hr : TwinClosure a b region ⟨r, f⟩ ⟨r', f⟩) :
    TwinState a b region (s.newClosure r f) (s'.newClosure r' f) where
  scopes := h.scopes
  closures := by
    show List.Forall₂ _ (s.closures.push _).toList (s'.closures.push _).toList
    rw [Array.toList_push, Array.toList_push]
    exact List.rel_append h.closures (.cons hr .nil)
  loaded := h.loaded
  tops := h.tops
  host := h.host

theorem TwinState.nextClosure (h : TwinState a b region s s') : s'.nextClosure = s.nextClosure := by
  have hlength := h.closures.length_eq
  rw [Array.length_toList, Array.length_toList] at hlength
  exact hlength.symm

theorem TwinState.defineFunction (h : TwinState a b region s s') (hf : region[f]? = some inside)
    {x : Name} (hx : Old b inside x) {r r' : Routine Stmt}
    (hr : TwinClosure a b region ⟨r, f⟩ ⟨r', f⟩) :
    TwinState a b region (s.defineFunction f x r)
      (s'.defineFunction f (twinName a b inside x) r') := by
  have hnew := h.newClosure hr
  unfold State.defineFunction
  rw [h.nextClosure]
  exact hnew.withScopes (hnew.scopes.bindNew hf hx _)

theorem TwinState.closure? (h : TwinState a b region s s') (k : ClosureId) :
    Option.Rel (TwinClosure a b region) s.closures[k]? s'.closures[k]? := by
  obtain ⟨hlength, hget⟩ := List.forall₂_iff_get.mp h.closures
  rw [Array.getElem?_toList.symm, Array.getElem?_toList.symm]
  by_cases hk : k < s.closures.toList.length
  · rw [List.getElem?_eq_getElem hk, List.getElem?_eq_getElem (hlength ▸ hk)]
    exact .some (hget k hk (hlength ▸ hk))
  · have hle : s.closures.toList.length ≤ k := Nat.le_of_not_lt hk
    rw [List.getElem?_eq_none hle, List.getElem?_eq_none (hlength ▸ hle)]
    exact .none

/-! Programs -/

variable {p p' : Program}

theorem TwinProgram.named (h : TwinProgram a b p p') (x : Name) :
    List.Forall₂ (TwinModule a b) (p.modules.filter fun m => m.name = x)
      (p'.modules.filter fun m => m.name = x) :=
  List.rel_filter (fun m m' hm => by simp [hm.name]) h.modules

theorem rel_head? {α : Type} {R : α → α → Prop} {l l' : List α} (h : List.Forall₂ R l l') :
    Option.Rel R l.head? l'.head? := by
  cases h with
  | nil => exact .none
  | cons hfirst _ => exact .some hfirst

theorem TwinProgram.module? (h : TwinProgram a b p p') (x : Name) :
    Option.Rel (TwinModule a b) (p.module? x) (p'.module? x) := by
  unfold Program.module?
  rw [← List.head?_filter, ← List.head?_filter]
  exact rel_head? (h.named x)

theorem twinModule_refl (m : Module) : TwinModule a b m m := ⟨rfl, rfl, twinBody_refl m.body⟩

theorem twinModules_refl (ms : List Module) : List.Forall₂ (TwinModule a b) ms ms :=
  List.forall₂_same.mpr fun m _ => twinModule_refl m

theorem twinProgram_of_renamesParameter (h : RenamesParameter a b p p') : TwinProgram a b p p' := by
  obtain ⟨hbody⟩ := h
  refine ⟨rfl, List.rel_append (twinModules_refl _) (.cons ?_ (twinModules_refl _))⟩
  exact ⟨rfl, rfl, twinBody_of_renamesIn hbody⟩

end Renaming

end ModuleScript
