import Mathlib.Data.List.Forall2
import ModuleScript.Proofs.Machine.Runs
import ModuleScript.Proofs.Scopes
import ModuleScript.Proofs.Scoping.Blocks

/-!
Lexical scoping as an invariant of the machine. The list `blocks` has the block of every frame.
Whatever runs in a frame is code of its block, the frames around a frame belong to the blocks around
its block, and a frame holds only names that its block declares.
-/

namespace ModuleScript

section Code

variable {blocks more : List Block} {f : FrameId} {P Q : Block → Prop}

def BlockAt (blocks : List Block) (f : FrameId) (P : Block → Prop) : Prop :=
  ∃ b, blocks[f]? = some b ∧ P b

theorem getElem?_extended {b : Block} (h : blocks <+: more) (hf : blocks[f]? = some b) :
    more[f]? = some b := by
  obtain ⟨hlt, hb⟩ := List.getElem?_eq_some_iff.mp hf
  rw [List.prefix_iff_getElem?.mp h f hlt, hb]

theorem BlockAt.mono (h : BlockAt blocks f P) (hm : blocks <+: more) : BlockAt more f P := by
  obtain ⟨b, hf, hb⟩ := h
  exact ⟨b, getElem?_extended hm hf, hb⟩

theorem BlockAt.imp (h : BlockAt blocks f P) (himp : ∀ b, P b → Q b) : BlockAt blocks f Q := by
  obtain ⟨b, hf, hb⟩ := h
  exact ⟨b, hf, himp b hb⟩

/-- The code at work is code of the block of its frame. -/
def Control.Fits (blocks : List Block) : Control → Prop
  | .eval e f => BlockAt blocks f fun b => b.Evaluates e
  | .exec body f => BlockAt blocks f fun b => body <:+ b.body
  | _ => True

def Pending.Fits (blocks : List Block) : Pending → Prop
  | .rightOperand _ e f => BlockAt blocks f fun b => b.Evaluates e
  | .callee args f => BlockAt blocks f fun b => ∀ e ∈ args, b.Evaluates e
  | .argument _ _ rest f => BlockAt blocks f fun b => ∀ e ∈ rest, b.Evaluates e
  | .field _ _ rest f => BlockAt blocks f fun b => ∀ e ∈ rest.map Prod.snd, b.Evaluates e
  | .assign x f => BlockAt blocks f fun b => ∃ e, .assign x e ∈ b.body
  | .branch yes no f => BlockAt blocks f fun b => ∃ condition, .ite condition yes no ∈ b.body
  | .test condition body f => BlockAt blocks f fun b => .loop condition body ∈ b.body
  | .again condition body f => BlockAt blocks f fun b => .loop condition body ∈ b.body
  | .target _ e f => BlockAt blocks f fun b => b.Evaluates e
  | .next rest f => BlockAt blocks f fun b => rest <:+ b.body
  | .imports _ _ names f => BlockAt blocks f fun b => ∃ x, .importFrom x names ∈ b.body
  | _ => True

theorem Pending.Fits.mono {w : Pending} (h : w.Fits blocks) (hm : blocks <+: more) :
    w.Fits more := by
  cases w <;> first
    | exact trivial
    | exact BlockAt.mono h hm

end Code

def Scopes.Within (s : Scopes Value) (g : FrameId) (b : Block) : Prop :=
  ∀ y, (s.here? g y).isSome → b.Declares y

/--
The frame `f` and those around it belong, one by one, to blocks of the module `m` that stand one
directly in the next, and the outermost of them is the top frame registered for `m` under `x`.
-/
structure Stands (p : Program) (blocks : List Block) (s : State) (f : FrameId) (x : Name)
    (m : Module) (path : List Block) : Prop where
  source : p.module? x = some m
  nests : m.Nests path
  frames : List.Forall₂ (fun g b => blocks[g]? = some b ∧ s.scopes.Within g b)
    (s.scopes.chain f) path
  root : s.loaded.find? x = (s.scopes.chain f).getLast?

/-- Every frame stands somewhere, and every closure was declared in the block of its frame. -/
structure Scoped (p : Program) (blocks : List Block) (s : State) : Prop where
  size : blocks.length = s.scopes.nextFrame
  stands : ∀ f < s.scopes.nextFrame, ∃ x m path, Stands p blocks s f x m path
  closures : ∀ (k : ClosureId) (closure : Closure), s.closures[k]? = some closure →
    BlockAt blocks closure.frame fun b => ∃ x, .function x closure.routine ∈ b.body

/--
The frame has just been made for the block: its body is about to be run in the frame, which holds
the parameters and nothing else.
-/
def Opens (c : Config) (f : FrameId) (b : Block) : Prop :=
  c.control = .exec b.body f ∧ ∀ y, (c.state.scopes.here? f y).isSome ↔ y ∈ b.params

structure Lexical (p : Program) (blocks : List Block) (c : Config) : Prop where
  control : c.control.Fits blocks
  stack : ∀ w ∈ c.stack, w.Fits blocks
  state : Scoped p blocks c.state

section State

variable {p : Program} {blocks more : List Block} {s t : State} {f : FrameId} {b : Block}
  {x : Name} {m : Module} {path : List Block}

theorem Stands.mono (h : Stands p blocks s f x m path) (hm : blocks <+: more)
    (hchain : t.scopes.chain f = s.scopes.chain f)
    (hwithin : ∀ g b, blocks[g]? = some b → s.scopes.Within g b → t.scopes.Within g b)
    (hloaded : ∀ x g, s.loaded.find? x = some g → t.loaded.find? x = some g) :
    Stands p more t f x m path where
  source := h.source
  nests := h.nests
  frames := by
    rw [hchain]
    exact h.frames.imp fun g b hb => ⟨getElem?_extended hm hb.1, hwithin g b hb.1 hb.2⟩
  root := by
    have hne : s.scopes.chain f ≠ [] := List.cons_ne_nil _ _
    have hlast := List.getLast?_eq_some_getLast hne
    rw [hchain, hlast]
    exact hloaded x _ (h.root.trans hlast)

theorem Scoped.lt_nextFrame (h : Scoped p blocks s) (hf : blocks[f]? = some b) :
    f < s.scopes.nextFrame :=
  h.size ▸ (List.getElem?_eq_some_iff.mp hf).1

theorem Scoped.lt_of_blockAt {P : Block → Prop} (h : Scoped p blocks s) (hf : BlockAt blocks f P) :
    f < s.scopes.nextFrame := by
  obtain ⟨b, hb, -⟩ := hf
  exact h.lt_nextFrame hb

theorem Scoped.fills {names : List Name} {scopes : Scopes Value} (h : Scoped p blocks s)
    (hfills : Scopes.Fills f names s.scopes scopes)
    (hf : BlockAt blocks f fun b => ∀ y ∈ names, b.Declares y) :
    Scoped p blocks { s with scopes } where
  size := h.size.trans hfills.frames.symm
  closures := h.closures
  stands g hg := by
    obtain ⟨x, m, path, hstands⟩ := h.stands g (hfills.frames ▸ hg)
    refine ⟨x, m, path, hstands.mono (List.prefix_refl _) (hfills.chain g) ?_ fun _ _ hl => hl⟩
    intro g b hb hwithin y hy
    -- a name that is new in `f` is declared by the block of `f`
    by_cases hnew : g = f ∧ y ∈ names
    · obtain ⟨b', hb', hnames⟩ := hf
      obtain rfl : b = b' := Option.some.inj (hb.symm.trans (hnew.1 ▸ hb'))
      exact hnames y hnew.2
    · rw [hfills.here g y hnew] at hy
      exact hwithin y hy

theorem Scoped.withHost (h : Scoped p blocks s) (host : Host) :
    Scoped p blocks { s with host } where
  size := h.size
  closures := h.closures
  stands f hf := by
    obtain ⟨x, m, path, hstands⟩ := h.stands f hf
    exact ⟨x, m, path, hstands.mono (List.prefix_refl _) rfl (fun _ _ _ hw => hw) fun _ _ hl => hl⟩

theorem Scoped.newClosure {routine : Routine Stmt} (h : Scoped p blocks s)
    (hf : BlockAt blocks f fun b => ∃ x, .function x routine ∈ b.body) :
    Scoped p blocks (s.newClosure routine f) where
  size := h.size
  closures k closure hk := by
    rw [State.newClosure, Array.getElem?_push] at hk
    split at hk
    · obtain rfl := Option.some.inj hk
      exact hf
    · exact h.closures k closure hk
  stands g hg := by
    obtain ⟨x, m, path, hstands⟩ := h.stands g hg
    exact ⟨x, m, path, hstands.mono (List.prefix_refl _) rfl (fun _ _ _ hw => hw) fun _ _ hl => hl⟩

theorem Scoped.stands_newFrame {loaded : Table FrameId} (h : Scoped p blocks s)
    (enclosing : List FrameId) (b : Block)
    (hloaded : ∀ x g, s.loaded.find? x = some g → loaded.find? x = some g)
    (hf : f < s.scopes.nextFrame) :
    ∃ x m path, Stands p (blocks ++ [b])
      { s with scopes := s.scopes.newFrame enclosing, loaded := loaded } f x m path := by
  obtain ⟨x, m, path, hstands⟩ := h.stands f hf
  have hchain : (s.scopes.newFrame enclosing).chain f = s.scopes.chain f := by
    rw [Scopes.chain_newFrame, if_neg (Nat.ne_of_lt hf)]
  refine ⟨x, m, path, hstands.mono (List.prefix_append _ _) hchain ?_ hloaded⟩
  intro g b _ hwithin y hy
  rw [Scopes.here?_newFrame] at hy
  exact hwithin y hy

theorem Scoped.getElem?_nextFrame (h : Scoped p blocks s) (b : Block) :
    (blocks ++ [b])[s.scopes.nextFrame]? = some b := by
  rw [← h.size, List.getElem?_concat_length]

theorem within_nextFrame (s : Scopes Value) (enclosing : List FrameId) (b : Block) :
    (s.newFrame enclosing).Within s.nextFrame b := by
  intro y hy
  rw [Scopes.here?_newFrame, Scopes.here?_eq_none (Nat.le_refl _)] at hy
  cases hy

theorem Scoped.newChild (h : Scoped p blocks s)
    (hf : BlockAt blocks f fun outer => ∃ stmt ∈ outer.body, b ∈ stmt.blocks) :
    Scoped p (blocks ++ [b]) (s.onScopes (·.newChild f)) where
  size := by
    rw [List.length_append, h.size]
    exact (Scopes.nextFrame_newFrame _ _).symm
  closures k closure hk := (h.closures k closure hk).mono (List.prefix_append _ _)
  stands g hg := by
    obtain ⟨outer, houter, stmt, hstmt, hb⟩ := hf
    have hlt : g < s.scopes.nextFrame + 1 := Nat.lt_of_lt_of_eq hg (Scopes.nextFrame_newFrame _ _)
    rcases Nat.lt_succ_iff_lt_or_eq.mp hlt with hold | rfl
    · exact h.stands_newFrame _ b (fun _ _ hl => hl) hold
    · obtain ⟨x, m, path, hstands⟩ := h.stands_newFrame (s.scopes.chain f) b
        (fun _ _ hl => hl) (h.lt_nextFrame houter)
      have hchain : (s.scopes.newChild f).chain s.scopes.nextFrame =
          s.scopes.nextFrame :: (s.scopes.newChild f).chain f := by
        have hf : f ≠ s.scopes.nextFrame := Nat.ne_of_lt (h.lt_nextFrame houter)
        rw [Scopes.newChild, Scopes.chain_newFrame, Scopes.chain_newFrame, if_pos rfl, if_neg hf]
      -- the innermost block of the path is the block of `f`, so the new block stands inside it
      obtain ⟨outer', path, ⟨houter', -⟩, -, rfl⟩ := List.forall₂_cons_left_iff.mp hstands.frames
      obtain rfl : outer = outer' := Option.some.inj
        ((getElem?_extended (List.prefix_append _ _) houter).symm.trans houter')
      refine ⟨x, m, b :: outer :: path, hstands.source, hstands.nests.inside hstmt hb, ?_, ?_⟩
      · exact hchain ▸ .cons ⟨h.getElem?_nextFrame b, within_nextFrame _ _ b⟩ hstands.frames
      · exact hchain ▸ hstands.root.trans (List.getLast?_cons_of_ne_nil (List.cons_ne_nil _ _)).symm

theorem Scoped.startModule (h : Scoped p blocks s) (hm : p.module? x = some m)
    (hx : s.loaded.find? x = none) :
    Scoped p (blocks ++ [⟨[], m.body⟩]) (s.startModule x) where
  size := by
    rw [List.length_append, h.size]
    exact (Scopes.nextFrame_newFrame _ _).symm
  closures k closure hk := (h.closures k closure hk).mono (List.prefix_append _ _)
  stands g hg := by
    have hlt : g < s.scopes.nextFrame + 1 := Nat.lt_of_lt_of_eq hg (Scopes.nextFrame_newFrame _ _)
    rcases Nat.lt_succ_iff_lt_or_eq.mp hlt with hold | rfl
    · refine h.stands_newFrame _ ⟨[], m.body⟩ ?_ hold
      intro y g hy
      have hne : y ≠ x := by
        rintro rfl
        cases hx.symm.trans hy
      rw [Table.find?_insert, if_neg hne]
      exact hy
    · have hchain : s.scopes.newRoot.chain s.scopes.nextFrame = [s.scopes.nextFrame] := by
        rw [Scopes.newRoot, Scopes.chain_newFrame, if_pos rfl]
      refine ⟨x, m, [⟨[], m.body⟩], hm, .body, ?_, ?_⟩
      · exact hchain ▸ .cons ⟨h.getElem?_nextFrame _, within_nextFrame _ _ _⟩ .nil
      · exact (Table.find?_insert ..).trans (hchain ▸ if_pos rfl)

end State

end ModuleScript
