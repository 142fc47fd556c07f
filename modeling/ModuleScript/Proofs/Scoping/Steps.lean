import ModuleScript.Proofs.Scoping.Invariant

/-!
Every step keeps lexical scoping. There is one statement for each function of the machine. Only
calls, branches, loops and module starts make frames; they add the block that they run to the
list of blocks.
-/

namespace ModuleScript

namespace Machine

variable {p : Program} {blocks : List Block} {s : State} {stack : List Pending} {f : FrameId}

/--
The configuration is scoped lexically, with the same blocks for the frames that there were and with
blocks for the new ones that have just been opened.
-/
def Continues (p : Program) (blocks : List Block) (d : Config) : Prop :=
  ∃ more, blocks <+: more ∧ Lexical p more d ∧
    ∀ f b, blocks.length ≤ f → more[f]? = some b → Opens d f b

theorem continues_of_lexical {d : Config} (h : Lexical p blocks d) : Continues p blocks d := by
  refine ⟨blocks, List.prefix_refl _, h, fun f b hf hb => ?_⟩
  have hlt : f < blocks.length := (List.getElem?_eq_some_iff.mp hb).1
  exact absurd hf (Nat.not_le_of_lt hlt)

theorem continues_of_opens {b : Block} {d : Config} (h : Lexical p (blocks ++ [b]) d)
    (hopens : Opens d blocks.length b) : Continues p blocks d := by
  refine ⟨blocks ++ [b], List.prefix_append _ _, h, fun f b' hf hb' => ?_⟩
  have hlt : f < blocks.length + 1 := by simpa using (List.getElem?_eq_some_iff.mp hb').1
  obtain rfl : f = blocks.length := Nat.le_antisymm (Nat.le_of_lt_succ hlt) hf
  rw [List.getElem?_concat_length] at hb'
  exact Option.some.inj hb' ▸ hopens

theorem stack_fits_append (b : Block) (hstack : ∀ w ∈ stack, w.Fits blocks) :
    ∀ w ∈ stack, w.Fits (blocks ++ [b]) :=
  fun w hw => (hstack w hw).mono (List.prefix_append _ _)

theorem deliver_lexical (result : Except Fault Value) (hstack : ∀ w ∈ stack, w.Fits blocks)
    (hs : Scoped p blocks s) : Lexical p blocks (deliver result stack s) := by
  cases result with
  | ok v => exact ⟨trivial, hstack, hs⟩
  | error e => exact ⟨trivial, hstack, hs⟩

theorem finishImport_lexical {result : Option Fault × Scopes Value}
    (hstack : ∀ w ∈ stack, w.Fits blocks) (hs : Scoped p blocks { s with scopes := result.2 }) :
    Lexical p blocks (finishImport result stack s) := by
  obtain ⟨fault, scopes⟩ := result
  cases fault with
  | none => exact ⟨trivial, hstack, hs⟩
  | some e => exact ⟨trivial, hstack, hs⟩

theorem evaluate_lexical {e : Expr} (he : BlockAt blocks f fun b => b.Evaluates e)
    (hstack : ∀ w ∈ stack, w.Fits blocks) (hs : Scoped p blocks s) :
    Lexical p blocks (evaluate e f stack s) := by
  have hpart (part : Expr) (hpart : part ∈ e.operands) :
      BlockAt blocks f fun b => b.Evaluates part :=
    he.imp fun b hb => Block.evaluates_operand hb hpart
  cases e with
  | var x => exact deliver_lexical _ hstack hs
  | unary op e =>
    exact ⟨hpart e (List.mem_singleton_self e), List.forall_mem_cons.mpr ⟨trivial, hstack⟩, hs⟩
  | binary op left right =>
    have hright : (Pending.rightOperand op right f).Fits blocks :=
      hpart right (by simp [Expr.operands])
    exact ⟨hpart left (by simp [Expr.operands]), List.forall_mem_cons.mpr ⟨hright, hstack⟩, hs⟩
  | call fn args =>
    have hargs : (Pending.callee args f).Fits blocks :=
      he.imp fun b hb a ha => Block.evaluates_operand hb (List.mem_cons_of_mem fn ha)
    exact ⟨hpart fn List.mem_cons_self, List.forall_mem_cons.mpr ⟨hargs, hstack⟩, hs⟩
  | object fields =>
    cases fields with
    | nil => exact ⟨trivial, hstack, hs.withHost _⟩
    | cons entry rest =>
      have hrest : (Pending.field [] entry.1 rest f).Fits blocks :=
        he.imp fun b hb a ha => Block.evaluates_operand hb (List.mem_cons_of_mem entry.2 ha)
      exact ⟨hpart entry.2 List.mem_cons_self, List.forall_mem_cons.mpr ⟨hrest, hstack⟩, hs⟩
  | get e x =>
    exact ⟨hpart e (List.mem_singleton_self e), List.forall_mem_cons.mpr ⟨trivial, hstack⟩, hs⟩
  | _ => exact ⟨trivial, hstack, hs⟩

theorem enter_continues {b : Block} (bindings : List (Name × Value)) {waiting : List Pending}
    (hf : BlockAt blocks f fun outer => ∃ stmt ∈ outer.body, b ∈ stmt.blocks)
    (hnames : bindings.map Prod.fst = b.params)
    (hstack : ∀ w ∈ waiting, w.Fits blocks) (hs : Scoped p blocks s) :
    Continues p blocks
      ⟨.exec b.body s.nextFrame, waiting, s.onScopes (·.enter f bindings)⟩ := by
  have hblock : BlockAt (blocks ++ [b]) s.nextFrame fun b' => b' = b :=
    ⟨b, hs.getElem?_nextFrame b, rfl⟩
  -- first the empty frame, then the names in it
  have hnew : Scoped p (blocks ++ [b]) (s.onScopes (·.newChild f)) := hs.newChild hf
  have hfilled := hnew.fills (Scopes.defineAll_fills _ s.nextFrame bindings)
    (hblock.imp fun b' hb' y hy => .inl (hb' ▸ hnames ▸ hy))
  have hbody : BlockAt (blocks ++ [b]) s.nextFrame fun b' => b.body <:+ b'.body :=
    hblock.imp fun b' hb' => hb' ▸ List.suffix_refl _
  refine continues_of_opens ⟨hbody, stack_fits_append b hstack, hfilled⟩ ?_
  rw [hs.size]
  refine ⟨rfl, fun y => ?_⟩
  have hlt : s.scopes.nextFrame < (s.scopes.newChild f).nextFrame := by
    rw [Scopes.newChild, Scopes.nextFrame_newFrame]
    exact Nat.lt_succ_self _
  have hempty : (s.scopes.newChild f).here? s.scopes.nextFrame y = none := by
    rw [Scopes.newChild, Scopes.here?_newFrame, Scopes.here?_eq_none (Nat.le_refl _)]
  refine (Scopes.isSome_here?_defineAll hlt).trans ?_
  rw [hempty, hnames]
  simp

theorem newChild_continues {b : Block} {waiting : List Pending}
    (hf : BlockAt blocks f fun outer => ∃ stmt ∈ outer.body, b ∈ stmt.blocks)
    (hparams : [] = b.params) (hstack : ∀ w ∈ waiting, w.Fits blocks) (hs : Scoped p blocks s) :
    Continues p blocks ⟨.exec b.body s.nextFrame, waiting, s.onScopes (·.newChild f)⟩ :=
  enter_continues [] hf hparams hstack hs

theorem importFrom_continues {x : Name} {names : List Name}
    (hf : BlockAt blocks f fun b => .importFrom x names ∈ b.body)
    (hstack : ∀ w ∈ stack, w.Fits blocks) (hs : Scoped p blocks s) :
    Continues p blocks (importFrom p x names f stack s) := by
  have hnames : BlockAt blocks f fun b => ∀ y ∈ names, b.Declares y :=
    hf.imp fun b hb y hy => Block.declares_of_mem hb hy
  rw [importFrom]
  split
  · exact continues_of_lexical (finishImport_lexical hstack
      (hs.fills (Scopes.importNatives_fills _ _ _ _) hnames))
  · cases hm : p.module? x with
    | none => exact continues_of_lexical ⟨trivial, hstack, hs⟩
    | some m =>
      cases hx : s.loaded.find? x with
      | some g =>
        exact continues_of_lexical (finishImport_lexical hstack
          (hs.fills (Scopes.importNames_fills _ _ _ _ _) hnames))
      | none =>
        -- the names are bound in the importing frame when the body has ended
        have himports : (Pending.imports s.nextFrame m.exports names f).Fits blocks :=
          hf.imp fun b hb => ⟨x, hb⟩
        have hbody : BlockAt (blocks ++ [⟨[], m.body⟩]) s.nextFrame fun b => m.body <:+ b.body :=
          ⟨_, hs.getElem?_nextFrame _, List.suffix_refl _⟩
        have hwaiting :=
          stack_fits_append ⟨[], m.body⟩ (List.forall_mem_cons.mpr ⟨himports, hstack⟩)
        refine continues_of_opens ⟨hbody, hwaiting, hs.startModule hm hx⟩ ?_
        rw [hs.size]
        refine ⟨rfl, fun y => ?_⟩
        have hempty : s.scopes.newRoot.here? s.scopes.nextFrame y = none := by
          rw [Scopes.newRoot, Scopes.here?_newFrame, Scopes.here?_eq_none (Nat.le_refl _)]
        simp [State.startModule, hempty]

theorem execute_continues {stmt : Stmt} (hf : BlockAt blocks f fun b => stmt ∈ b.body)
    (hstack : ∀ w ∈ stack, w.Fits blocks) (hs : Scoped p blocks s) :
    Continues p blocks (execute p stmt f stack s) := by
  have hexpr (e : Expr) (he : e ∈ stmt.exprs) : BlockAt blocks f fun b => b.Evaluates e :=
    hf.imp fun b hb => Block.evaluates_of_mem hb he
  have hnames : BlockAt blocks f fun b => ∀ y ∈ stmt.declared, b.Declares y :=
    hf.imp fun b hb y hy => Block.declares_of_mem hb hy
  cases stmt with
  | declare x =>
    exact continues_of_lexical ⟨trivial, hstack, hs.fills (Scopes.bindNew_fills _ f x _) hnames⟩
  | assign x e =>
    have hassign : (Pending.assign x f).Fits blocks := hf.imp fun b hb => ⟨e, hb⟩
    exact continues_of_lexical
      ⟨hexpr e (List.mem_singleton_self e), List.forall_mem_cons.mpr ⟨hassign, hstack⟩, hs⟩
  | ret result =>
    cases result with
    | none => exact continues_of_lexical ⟨trivial, hstack, hs⟩
    | some e =>
      exact continues_of_lexical
        ⟨hexpr e (List.mem_singleton_self e), List.forall_mem_cons.mpr ⟨trivial, hstack⟩, hs⟩
  | eval e => exact continues_of_lexical ⟨hexpr e (List.mem_singleton_self e), hstack, hs⟩
  | function x routine =>
    have hclosure := hs.newClosure (hf.imp fun b hb => ⟨x, hb⟩)
    exact continues_of_lexical
      ⟨trivial, hstack, hclosure.fills (Scopes.bindNew_fills _ f x _) hnames⟩
  | classDecl x construct methods => exact continues_of_lexical ⟨trivial, hstack, hs⟩
  | ite condition yes no =>
    have hbranch : (Pending.branch yes no f).Fits blocks := hf.imp fun b hb => ⟨condition, hb⟩
    exact continues_of_lexical
      ⟨hexpr condition (List.mem_singleton_self _), List.forall_mem_cons.mpr ⟨hbranch, hstack⟩, hs⟩
  | loop condition body =>
    have htest : (Pending.test condition body f).Fits blocks := hf
    exact continues_of_lexical
      ⟨hexpr condition (List.mem_singleton_self _), List.forall_mem_cons.mpr ⟨htest, hstack⟩, hs⟩
  | set object x e =>
    have htarget : (Pending.target x e f).Fits blocks := hexpr e (by simp [Stmt.exprs])
    exact continues_of_lexical
      ⟨hexpr object List.mem_cons_self, List.forall_mem_cons.mpr ⟨htarget, hstack⟩, hs⟩
  | importFrom x names => exact importFrom_continues hf hstack hs

theorem call_continues (fn : Value) (args : List Value) (hstack : ∀ w ∈ stack, w.Fits blocks)
    (hs : Scoped p blocks s) : Continues p blocks (call p fn args stack s) := by
  have hfault (e : Fault) : Continues p blocks ⟨.fault e, stack, s⟩ :=
    continues_of_lexical ⟨trivial, hstack, hs⟩
  cases fn with
  | closure k =>
    rw [call]
    split
    · rename_i closure hk
      rw [callClosure]
      split
      · -- the body runs inside the frame of the declaration, wherever the call comes from
        have hf := (hs.closures k closure hk).imp fun outer ⟨x, hx⟩ =>
          (⟨_, hx, List.mem_singleton_self _⟩ : ∃ stmt ∈ outer.body, closure.routine ∈ stmt.blocks)
        refine enter_continues _ hf ?_ (List.forall_mem_cons.mpr ⟨trivial, hstack⟩) hs
        rename_i hargs
        exact List.map_fst_zip (Nat.le_of_eq hargs.symm)
      · exact hfault _
    · exact hfault _
  | native x =>
    rw [call]
    split
    · rw [callNative]
      split
      · exact continues_of_lexical ⟨trivial, hstack, hs.withHost _⟩
      · exact hfault _
    · exact hfault _
  | _ => exact hfault _

theorem callWith_continues {fn : Value} {done : List Value} {rest : List Expr}
    (hrest : BlockAt blocks f fun b => ∀ e ∈ rest, b.Evaluates e)
    (hstack : ∀ w ∈ stack, w.Fits blocks) (hs : Scoped p blocks s) :
    Continues p blocks (callWith p fn done rest f stack s) := by
  cases rest with
  | nil => exact call_continues fn done hstack hs
  | cons e rest =>
    have he : BlockAt blocks f fun b => b.Evaluates e :=
      hrest.imp fun b hb => hb e List.mem_cons_self
    have hargs : (Pending.argument fn done rest f).Fits blocks :=
      hrest.imp fun b hb a ha => hb a (List.mem_cons_of_mem e ha)
    exact continues_of_lexical ⟨he, List.forall_mem_cons.mpr ⟨hargs, hstack⟩, hs⟩

theorem imports_continues {source : FrameId} {exports names : List Name}
    (hw : (Pending.imports source exports names f).Fits blocks)
    (hstack : ∀ w ∈ stack, w.Fits blocks) (hs : Scoped p blocks s) :
    Continues p blocks (finishImport (s.scopes.importNames source exports f names) stack s) := by
  have hnames : BlockAt blocks f fun b => ∀ y ∈ names, b.Declares y := by
    obtain ⟨b, hf, x, hb⟩ := hw
    exact ⟨b, hf, fun y hy => Block.declares_of_mem hb hy⟩
  exact continues_of_lexical (finishImport_lexical hstack
    (hs.fills (Scopes.importNames_fills _ _ _ _ _) hnames))

theorem branch_continues {yes no : List Stmt} (v : Value)
    (hw : (Pending.branch yes no f).Fits blocks) (hstack : ∀ w ∈ stack, w.Fits blocks)
    (hs : Scoped p blocks s) : Continues p blocks (resume p v (.branch yes no f) stack s) := by
  have hfault (e : Fault) : Continues p blocks ⟨.fault e, stack, s⟩ :=
    continues_of_lexical ⟨trivial, hstack, hs⟩
  cases v with
  | boolean taken =>
    have hblock (b : Block) (hb : b = ⟨[], yes⟩ ∨ b = ⟨[], no⟩) :
        BlockAt blocks f fun outer => ∃ stmt ∈ outer.body, b ∈ stmt.blocks :=
      hw.imp fun outer ⟨condition, hmem⟩ => ⟨_, hmem, by simpa [Stmt.blocks] using hb⟩
    cases taken with
    | true => exact newChild_continues (hblock ⟨[], yes⟩ (.inl rfl)) rfl hstack hs
    | false => exact newChild_continues (hblock ⟨[], no⟩ (.inr rfl)) rfl hstack hs
  | _ => exact hfault _

theorem test_continues {condition : Expr} {body : List Stmt} (v : Value)
    (hw : (Pending.test condition body f).Fits blocks) (hstack : ∀ w ∈ stack, w.Fits blocks)
    (hs : Scoped p blocks s) :
    Continues p blocks (resume p v (.test condition body f) stack s) := by
  have hfault (e : Fault) : Continues p blocks ⟨.fault e, stack, s⟩ :=
    continues_of_lexical ⟨trivial, hstack, hs⟩
  cases v with
  | boolean taken =>
    cases taken with
    | true =>
      have hblock : BlockAt blocks f fun outer =>
          ∃ stmt ∈ outer.body, (⟨[], body⟩ : Block) ∈ stmt.blocks :=
        hw.imp fun outer hmem => ⟨_, hmem, List.mem_singleton_self _⟩
      exact newChild_continues hblock rfl (List.forall_mem_cons.mpr ⟨hw, hstack⟩) hs
    | false => exact continues_of_lexical ⟨trivial, hstack, hs⟩
  | _ => exact hfault _

theorem resume_continues (v : Value) {w : Pending} (hw : w.Fits blocks)
    (hstack : ∀ w ∈ stack, w.Fits blocks) (hs : Scoped p blocks s) :
    Continues p blocks (resume p v w stack s) := by
  have hsame (control : Control) (hc : control.Fits blocks) :
      Continues p blocks ⟨control, stack, s⟩ :=
    continues_of_lexical ⟨hc, hstack, hs⟩
  cases w with
  | unary op => exact continues_of_lexical (deliver_lexical _ hstack hs)
  | rightOperand op right f =>
    exact continues_of_lexical ⟨hw, List.forall_mem_cons.mpr ⟨trivial, hstack⟩, hs⟩
  | binary op left => exact continues_of_lexical (deliver_lexical _ hstack hs)
  | callee args f =>
    rw [resume]
    split
    · exact callWith_continues hw hstack hs
    · exact hsame _ trivial
  | argument fn done rest f => exact callWith_continues hw hstack hs
  | field done x rest f =>
    cases rest with
    | nil => exact continues_of_lexical ⟨trivial, hstack, hs.withHost _⟩
    | cons entry rest =>
      have he : BlockAt blocks f fun b => b.Evaluates entry.2 :=
        hw.imp fun b hb => hb entry.2 List.mem_cons_self
      have hrest : (Pending.field (done ++ [(x, v)]) entry.1 rest f).Fits blocks :=
        hw.imp fun b hb a ha => hb a (List.mem_cons_of_mem entry.2 ha)
      exact continues_of_lexical ⟨he, List.forall_mem_cons.mpr ⟨hrest, hstack⟩, hs⟩
  | get x => cases v <;> exact hsame _ trivial
  | assign x f =>
    rw [resume]
    split
    · rename_i cell _
      have hwritten := hs.fills (Scopes.write_fills s.scopes cell v f) (hw.imp fun b _ => by simp)
      exact continues_of_lexical ⟨trivial, hstack, hwritten⟩
    · exact hsame _ trivial
  | ret => exact hsame _ trivial
  | branch yes no f => exact branch_continues v hw hstack hs
  | test condition body f => exact test_continues v hw hstack hs
  | again condition body f =>
    have hcondition : BlockAt blocks f fun b => b.Evaluates condition :=
      hw.imp fun b hb => Block.evaluates_of_mem hb (List.mem_singleton_self condition)
    have htest : (Pending.test condition body f).Fits blocks := hw
    exact continues_of_lexical ⟨hcondition, List.forall_mem_cons.mpr ⟨htest, hstack⟩, hs⟩
  | target x e f =>
    cases v with
    | object o => exact continues_of_lexical ⟨hw, List.forall_mem_cons.mpr ⟨trivial, hstack⟩, hs⟩
    | _ => exact hsame _ trivial
  | set o x => exact continues_of_lexical ⟨trivial, hstack, hs.withHost _⟩
  | next rest f => exact hsame _ hw
  | result => exact hsame _ trivial
  | imports source exports names f => exact imports_continues hw hstack hs

theorem unwind_continues (v : Value) {w : Pending} (hw : w.Fits blocks)
    (hstack : ∀ w ∈ stack, w.Fits blocks) (hs : Scoped p blocks s) :
    Continues p blocks (unwind v w stack s) := by
  cases w with
  | imports source exports names f => exact imports_continues hw hstack hs
  | _ => exact continues_of_lexical ⟨trivial, hstack, hs⟩

theorem step_continues {c d : Config} (h : Lexical p blocks c) (hstep : step p c = .next d) :
    Continues p blocks d := by
  obtain ⟨control, stack, s⟩ := c
  obtain ⟨hc, hstack, hs⟩ := h
  cases control with
  | eval e f =>
    obtain rfl := Progress.next.inj hstep
    exact continues_of_lexical (evaluate_lexical hc hstack hs)
  | exec body f =>
    cases body with
    | nil =>
      obtain rfl := Progress.next.inj hstep
      exact continues_of_lexical ⟨trivial, hstack, hs⟩
    | cons stmt rest =>
      obtain rfl := Progress.next.inj hstep
      have hstmt : BlockAt blocks f fun b => stmt ∈ b.body :=
        hc.imp fun b hb => hb.subset List.mem_cons_self
      have hrest : (Pending.next rest f).Fits blocks :=
        hc.imp fun b hb => (List.suffix_cons stmt rest).trans hb
      exact execute_continues hstmt (List.forall_mem_cons.mpr ⟨hrest, hstack⟩) hs
  | value v =>
    cases stack with
    | nil => cases hstep
    | cons w stack =>
      obtain rfl := Progress.next.inj hstep
      obtain ⟨hw, hrest⟩ := List.forall_mem_cons.mp hstack
      exact resume_continues v hw hrest hs
  | returned v =>
    cases stack with
    | nil => cases hstep
    | cons w stack =>
      obtain rfl := Progress.next.inj hstep
      obtain ⟨hw, hrest⟩ := List.forall_mem_cons.mp hstack
      exact unwind_continues v hw hrest hs
  | fault e => cases hstep

end Machine

end ModuleScript
