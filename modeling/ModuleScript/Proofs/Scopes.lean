import ModuleScript.Machine.Import

/-!
What the operations on scopes leave alone. Making a frame changes no name of any frame. Putting
names into a frame (`Fills`) changes what that frame holds under those names, and neither the other
frames nor the way frames enclose each other.
-/

namespace ModuleScript

theorem findSome?_congr {l : List FrameId} {p q : FrameId → Option CellId}
    (h : ∀ g ∈ l, p g = q g) : l.findSome? p = l.findSome? q := by
  induction l with
  | nil => rfl
  | cons g l ih =>
    rw [List.findSome?_cons, List.findSome?_cons, h g (List.mem_cons_self ..),
      ih fun k hk => h k (List.mem_cons_of_mem g hk)]

namespace Scopes

variable {α : Type} {s t u : Scopes α} {f : FrameId} {names more : List Name}

structure Fills (f : FrameId) (names : List Name) (s t : Scopes α) : Prop where
  frames : t.nextFrame = s.nextFrame
  chain : ∀ g, t.chain g = s.chain g
  here : ∀ g y, ¬(g = f ∧ y ∈ names) → t.here? g y = s.here? g y

theorem fills_refl (f : FrameId) (names : List Name) (s : Scopes α) : Fills f names s s :=
  ⟨rfl, fun _ => rfl, fun _ _ _ => rfl⟩

theorem Fills.trans (h : Fills f names s t) (h' : Fills f names t u) : Fills f names s u where
  frames := h'.frames.trans h.frames
  chain g := (h'.chain g).trans (h.chain g)
  here g y hn := (h'.here g y hn).trans (h.here g y hn)

theorem Fills.mono (h : Fills f names s t) (hm : ∀ y ∈ names, y ∈ more) : Fills f more s t where
  frames := h.frames
  chain := h.chain
  here g y hn := h.here g y fun hy => hn ⟨hy.1, hm y hy.2⟩

theorem here?_eq_none {g : FrameId} (h : s.nextFrame ≤ g) (y : Name) : s.here? g y = none := by
  have hg : s.frames[g]? = none := Array.getElem?_eq_none h
  simp [here?, frame, hg, show (default : Frame).cells = ∅ from rfl]

theorem chain_of_le (h : s.nextFrame ≤ f) : s.chain f = [f] := by
  have hnone : s.frames[f]? = none := Array.getElem?_eq_none h
  rw [chain, frame, hnone]
  rfl

theorem nextFrame_bind (s : Scopes α) (f : FrameId) (x : Name) (c : CellId) :
    (s.bind f x c).nextFrame = s.nextFrame := by
  simp [nextFrame, bind]

theorem bind_fills (s : Scopes α) (f : FrameId) (x : Name) (c : CellId) :
    Fills f [x] s (s.bind f x c) where
  frames := nextFrame_bind s f x c
  chain := chain_bind s f x c
  here g y hn := by
    by_cases hf : f < s.frames.size
    · have hne : ¬(g = f ∧ y = x) := fun e => hn ⟨e.1, by simp [e.2]⟩
      rw [here?_bind hf, if_neg hne]
    · rw [bind_of_le (Nat.le_of_not_lt hf)]

theorem bindNew_fills (s : Scopes α) (f : FrameId) (x : Name) (content : Option α) :
    Fills f [x] s (s.bindNew f x content) := by
  have h := bind_fills (⟨s.frames, s.cells.push content⟩ : Scopes α) f x s.cells.size
  exact ⟨h.frames, h.chain, h.here⟩

theorem write_fills (s : Scopes α) (c : CellId) (a : α) (f : FrameId) :
    Fills f [] s (s.write c a) :=
  ⟨rfl, fun _ => rfl, fun _ _ _ => rfl⟩

theorem defineAll_fills (s : Scopes α) (f : FrameId) (bindings : List (Name × α)) :
    Fills f (bindings.map Prod.fst) s (s.defineAll f bindings) := by
  induction bindings generalizing s with
  | nil => exact fills_refl f [] s
  | cons entry rest ih =>
    have hfirst : Fills f [entry.1] s (s.define f entry.1 entry.2) := bindNew_fills s f _ _
    have hrest := ih (s.define f entry.1 entry.2)
    exact (hfirst.mono (by simp)).trans (hrest.mono fun y hy => by simp_all)

theorem importNames_fills (source : FrameId) (exports : List Name) (f : FrameId)
    (names : List Name) (s : Scopes Value) :
    Fills f names s (importNames source exports f names s).2 := by
  induction names generalizing s with
  | nil => exact fills_refl f [] s
  | cons x rest ih =>
    rw [importNames]
    cases s.exported source exports x with
    | error e => exact fills_refl f _ s
    | ok c =>
      have hfirst : Fills f (x :: rest) s (s.bind f x c) := (bind_fills s f x c).mono (by simp)
      exact hfirst.trans ((ih (s.bind f x c)).mono fun y hy => List.mem_cons_of_mem x hy)

theorem importNatives_fills (natives : Table Native) (f : FrameId) (names : List Name)
    (s : Scopes Value) : Fills f names s (importNatives natives f names s).2 := by
  induction names generalizing s with
  | nil => exact fills_refl f [] s
  | cons x rest ih =>
    rw [importNatives]
    cases natives.find? x with
    | none => exact fills_refl f _ s
    | some native =>
      have hfirst : Fills f (x :: rest) s (s.define f x (.native x)) :=
        (bindNew_fills s f x _).mono (by simp)
      exact hfirst.trans ((ih _).mono fun y hy => List.mem_cons_of_mem x hy)

@[simp] theorem nextFrame_newFrame (s : Scopes α) (enclosing : List FrameId) :
    (s.newFrame enclosing).nextFrame = s.nextFrame + 1 := by
  simp [nextFrame, newFrame]

theorem chain_newFrame (s : Scopes α) (enclosing : List FrameId) (g : FrameId) :
    (s.newFrame enclosing).chain g = if g = s.nextFrame then g :: enclosing else s.chain g := by
  rw [chain, frame_newFrame]
  split <;> rfl

@[simp] theorem here?_newFrame (s : Scopes α) (enclosing : List FrameId) (g : FrameId)
    (y : Name) : (s.newFrame enclosing).here? g y = s.here? g y := by
  by_cases hg : g = s.nextFrame
  · have hnone : s.here? g y = none := here?_eq_none (Nat.le_of_eq hg.symm) y
    rw [hnone, here?, frame_newFrame, if_pos hg, Table.find?_empty]
  · rw [here?, frame_newFrame, if_neg hg, here?]

theorem nextFrame_enter (s : Scopes α) (f : FrameId) (bindings : List (Name × α)) :
    (s.enter f bindings).nextFrame = s.nextFrame + 1 :=
  (defineAll_fills (s.newChild f) s.nextFrame bindings).frames.trans (nextFrame_newFrame _ _)

theorem chain_enter (s : Scopes α) (f : FrameId) (bindings : List (Name × α)) (g : FrameId) :
    (s.enter f bindings).chain g = if g = s.nextFrame then g :: s.chain f else s.chain g :=
  ((defineAll_fills (s.newChild f) s.nextFrame bindings).chain g).trans (chain_newFrame _ _ g)

theorem isSome_here?_defineAll {s : Scopes α} {f : FrameId} {bindings : List (Name × α)}
    {y : Name} (hf : f < s.nextFrame) :
    ((s.defineAll f bindings).here? f y).isSome ↔
      y ∈ bindings.map Prod.fst ∨ (s.here? f y).isSome := by
  induction bindings generalizing s with
  | nil => simp [defineAll]
  | cons entry rest ih =>
    have hlt : f < (s.define f entry.1 entry.2).nextFrame :=
      (bindNew_fills s f entry.1 (some entry.2)).frames ▸ hf
    have hfirst : (s.define f entry.1 entry.2).here? f y =
        if f = f ∧ y = entry.1 then some s.cells.size else s.here? f y :=
      here?_bind (s := ⟨s.frames, s.cells.push (some entry.2)⟩) hf entry.1 s.cells.size f y
    have hrest := ih hlt
    rw [hfirst] at hrest
    refine hrest.trans ?_
    by_cases hy : y = entry.1
    · simp [hy]
    · simp [hy]

theorem lookup?_eq_none_iff {x : Name} :
    s.lookup? f x = none ↔ ∀ g ∈ s.chain f, s.here? g x = none := by
  rw [lookup?, List.findSome?_eq_none_iff]

/-- Neither of the frames is the other one or around it. -/
def Apart (s : Scopes α) (f g : FrameId) : Prop := f ∉ s.chain g ∧ g ∉ s.chain f

/-- The frames around a frame are there, and they have around them what comes next in the chain. -/
def Nested (s : Scopes α) : Prop :=
  ∀ f, ∀ g ∈ s.chain f, s.chain g <:+ s.chain f ∧ (g = f ∨ g < s.nextFrame)

theorem Fills.nested (h : Fills f names s t) (hs : s.Nested) : t.Nested := by
  intro f g hg
  rw [h.chain] at hg
  rw [h.chain, h.chain, h.frames]
  exact hs f g hg

theorem Nested.newFrame {enclosing : List FrameId} (hs : s.Nested)
    (henclosing : ∀ g ∈ enclosing, s.chain g <:+ enclosing ∧ g < s.nextFrame) :
    (s.newFrame enclosing).Nested := by
  intro f g hg
  by_cases hgf : g = f
  · exact hgf ▸ ⟨List.suffix_refl _, .inl rfl⟩
  -- a frame that is not the first of its chain has been there before
  have hold : s.chain g <:+ (s.newFrame enclosing).chain f ∧ g < s.nextFrame := by
    rw [chain_newFrame] at hg ⊢
    by_cases hf : f = s.nextFrame
    · rw [if_pos hf] at hg ⊢
      obtain ⟨hsuffix, hlt⟩ := henclosing g ((List.mem_cons.mp hg).resolve_left hgf)
      exact ⟨hsuffix.trans (List.suffix_cons f enclosing), hlt⟩
    · rw [if_neg hf] at hg ⊢
      obtain ⟨hsuffix, hlt⟩ := hs f g hg
      exact ⟨hsuffix, hlt.resolve_left hgf⟩
  have hchain : (s.newFrame enclosing).chain g = s.chain g := by
    rw [chain_newFrame, if_neg (Nat.ne_of_lt hold.2)]
  rw [hchain, nextFrame_newFrame]
  exact ⟨hold.1, .inr (Nat.lt_succ_of_lt hold.2)⟩

theorem Nested.newChild {g : FrameId} (hs : s.Nested) (hg : g < s.nextFrame) :
    (s.newChild g).Nested := by
  apply hs.newFrame
  intro k hk
  obtain ⟨hsuffix, hlt⟩ := hs g k hk
  exact ⟨hsuffix, hlt.elim (fun heq => heq ▸ hg) id⟩

theorem Nested.not_apart {f g k : FrameId} (hs : s.Nested) (hf : f ∈ s.chain k)
    (hg : g ∈ s.chain k) : ¬s.Apart f g := by
  intro hapart
  rcases List.suffix_or_suffix_of_suffix (hs k f hf).1 (hs k g hg).1 with hsub | hsub
  · exact hapart.1 (hsub.subset List.mem_cons_self)
  · exact hapart.2 (hsub.subset List.mem_cons_self)

/-- Different frames with equally many frames around them are apart. -/
theorem Nested.apart_of_length_eq {f g : FrameId} (hs : s.Nested) (hne : f ≠ g)
    (hlength : (s.chain f).length = (s.chain g).length) : s.Apart f g := by
  constructor
  · intro hf
    have hchain : s.chain f = s.chain g := (hs g f hf).1.eq_of_length hlength
    exact hne (List.head_eq_of_cons_eq hchain)
  · intro hg
    have hchain : s.chain g = s.chain f := (hs f g hg).1.eq_of_length hlength.symm
    exact hne (List.head_eq_of_cons_eq hchain).symm

end Scopes

end ModuleScript
