import ModuleScript.Proofs.Scopes.Resolution

/-!
Scopes as they are built up by operations, with cells that frames may share under any names. Main
statement: `resolves_of_built`, a name means the cell in the nearest frame that holds it, and
filling a slot or assigning changes what is seen from where that slot or cell is seen.
-/

namespace ModuleScript

namespace Scopes

variable {α : Type} {s : Scopes α} {f g : FrameId} {x : Name} {c : CellId}

/-- An operation on scopes. The cell that is bound or assigned to is one that a name means. -/
inductive Operation (α : Type) where
  | newRoot
  | newChild (f : FrameId)
  | declare (f : FrameId) (x : Name)
  | define (f : FrameId) (x : Name) (a : α)
  | bind (f : FrameId) (x : Name) (g : FrameId) (y : Name)
  | assign (f : FrameId) (x : Name) (a : α)

namespace Operation

def frames : Operation α → List FrameId
  | newRoot => []
  | newChild f => [f]
  | declare f _ => [f]
  | define f _ _ => [f]
  | bind f _ g _ => [f, g]
  | assign f _ _ => [f]

def fills? (s : Scopes α) : Operation α → Option (FrameId × Name × CellId)
  | declare f x => some (f, x, s.cells.size)
  | define f x _ => some (f, x, s.cells.size)
  | bind f x g y => (s.lookup? g y).map fun c => (f, x, c)
  | _ => none

def content? (s : Scopes α) : Operation α → Option α
  | define _ _ a => some a
  | bind _ _ g y => s.seen? g y
  | _ => none

end Operation

/-- An operation on a name that means nothing does nothing. -/
def perform (s : Scopes α) : Operation α → Scopes α
  | .newRoot => s.newRoot
  | .newChild f => s.newChild f
  | .declare f x => s.declare f x
  | .define f x a => s.define f x a
  | .bind f x g y => (s.lookup? g y).elim s (s.bind f x)
  | .assign f x a => (s.lookup? f x).elim s (s.write · a)

inductive Built : Scopes α → Prop
  | empty : Built .empty
  | perform {s : Scopes α} {op : Operation α} :
      Built s → (∀ f ∈ op.frames, f < s.nextFrame) → Built (s.perform op)

theorem Chained.newFrame {enclosing : List FrameId} (hs : s.Chained)
    (h : enclosing = [] ∨ ∃ g < s.nextFrame, enclosing = s.chain g) :
    (s.newFrame enclosing).Chained := by
  have hold {g : FrameId} (hg : g ≠ s.nextFrame) : (s.newFrame enclosing).chain g = s.chain g := by
    rw [chain_newFrame, if_neg hg]
  intro f
  by_cases hf : f = s.nextFrame
  · have hnew : (s.newFrame enclosing).chain f = f :: enclosing := by
      rw [chain_newFrame, if_pos hf]
    rcases h with rfl | ⟨g, hg, rfl⟩
    · exact .inl hnew
    · exact .inr ⟨g, hf ▸ hg, by rw [hnew, hold (Nat.ne_of_lt hg)]⟩
  · rw [hold hf]
    rcases Nat.lt_or_ge f s.nextFrame with hlt | hge
    · rcases hs f with hchain | ⟨g, hg, hchain⟩
      · exact .inl hchain
      · exact .inr ⟨g, hg, by rw [hchain, hold (Nat.ne_of_lt (Nat.lt_trans hg hlt))]⟩
    · exact .inl (chain_of_le hge)

theorem chained_empty : (Scopes.empty : Scopes α).Chained :=
  fun _ => .inl (chain_of_le (Nat.zero_le _))

theorem bounded_bind (hs : s.Bounded) (hf : f < s.nextFrame) (hc : c < s.cells.size) :
    (s.bind f x c).Bounded := by
  intro g y d hd
  rw [here?_bind hf] at hd
  split at hd
  · exact Option.some.inj hd ▸ hc
  · exact hs g y d hd

theorem Bounded.lt_of_lookup? (hs : s.Bounded) (h : s.lookup? f x = some c) :
    c < s.cells.size := by
  obtain ⟨g, -, hg⟩ := List.exists_of_findSome?_eq_some h
  exact hs g x c hg

/-- What every operation keeps: frames stand inside older ones, and the cells of slots are there. -/
theorem Built.chained_and_bounded (h : Built s) : s.Chained ∧ s.Bounded := by
  induction h with
  | empty =>
    refine ⟨chained_empty, ?_⟩
    intro f x c hc
    rw [here?_eq_none (Nat.zero_le f)] at hc
    cases hc
  | @perform s op _ hframes ih =>
    obtain ⟨hchained, hbounded⟩ := ih
    have hmade {enclosing : List FrameId} : (s.newFrame enclosing).Bounded := by
      intro f x c hc
      rw [here?_newFrame] at hc
      exact hbounded f x c hc
    have hcell (f : FrameId) (hf : f < s.nextFrame) (x : Name) (content : Option α) :
        (s.bindNew f x content).Chained ∧ (s.bindNew f x content).Bounded :=
      ⟨hchained.of_chain_eq (bindNew_fills s f x content).chain,
        (bindNew_adds hf x content).bounded hbounded⟩
    cases op with
    | newRoot => exact ⟨hchained.newFrame (.inl rfl), hmade⟩
    | newChild f =>
      have hf : f < s.nextFrame := hframes f List.mem_cons_self
      exact ⟨hchained.newFrame (.inr ⟨f, hf, rfl⟩), hmade⟩
    | declare f x => exact hcell f (hframes f List.mem_cons_self) x none
    | define f x a => exact hcell f (hframes f List.mem_cons_self) x (some a)
    | bind f x g y =>
      have hf : f < s.nextFrame := hframes f List.mem_cons_self
      rw [Scopes.perform]
      cases hc : s.lookup? g y with
      | none => exact ⟨hchained, hbounded⟩
      | some c =>
        have hlt : c < s.cells.size := hbounded.lt_of_lookup? hc
        exact ⟨chained_bind hchained f x c, bounded_bind hbounded hf hlt⟩
    | assign f x a =>
      rw [Scopes.perform]
      cases hc : s.lookup? f x with
      | none => exact ⟨hchained, hbounded⟩
      | some c =>
        refine ⟨hchained.of_chain_eq fun _ => rfl, ?_⟩
        intro g y d hd
        exact Nat.lt_of_lt_of_eq (hbounded g y d hd) Array.size_setIfInBounds.symm

section Contents

variable {y : Name} {content : Option α}

theorem lookup?_bindNew (s : Scopes α) (f : FrameId) (x : Name) (content : Option α)
    (g : FrameId) (y : Name) :
    (s.bindNew f x content).lookup? g y = (s.bind f x s.cells.size).lookup? g y := rfl

theorem seen?_of_lookup? (h : s.lookup? f x = some c) : s.seen? f x = s.read? c := by
  rw [seen?, h, Option.bind_some]

theorem Bounded.seen?_eq {t : Scopes α} (hs : s.Bounded) (hlookup : t.lookup? g y = s.lookup? g y)
    (hread : ∀ d < s.cells.size, t.read? d = s.read? d) : t.seen? g y = s.seen? g y := by
  rw [seen?, seen?, hlookup]
  cases hd : s.lookup? g y with
  | none => rfl
  | some d => exact hread d (hs.lt_of_lookup? hd)

theorem Chained.bindNew_filled (hs : s.Chained) (hf : f < s.nextFrame) (h : s.Visible g f x) :
    (s.bindNew f x content).lookup? g x = some s.cells.size ∧
      (s.bindNew f x content).seen? g x = content := by
  have hlookup : (s.bindNew f x content).lookup? g x = some s.cells.size := by
    rw [lookup?_bindNew]
    exact hs.lookup?_bind_of_visible hf h
  refine ⟨hlookup, ?_⟩
  rw [seen?_of_lookup? hlookup, read?_bindNew_new]

theorem Chained.bindNew_kept (hs : s.Chained) (hbounded : s.Bounded) (hf : f < s.nextFrame)
    (h : ¬(y = x ∧ s.Visible g f x)) :
    (s.bindNew f x content).lookup? g y = s.lookup? g y ∧
      (s.bindNew f x content).seen? g y = s.seen? g y := by
  have hlookup : (s.bindNew f x content).lookup? g y = s.lookup? g y := by
    rw [lookup?_bindNew]
    exact hs.lookup?_bind_of_not_visible hf h
  exact ⟨hlookup, hbounded.seen?_eq hlookup fun d hd => read?_bindNew hd f x content⟩

theorem seen?_write (hs : s.Bounded) (hc : s.lookup? f x = some c) (a : α) (g : FrameId)
    (y : Name) :
    (s.write c a).seen? g y = if s.lookup? g y = some c then some a else s.seen? g y := by
  have hlt : c < s.cells.size := hs.lt_of_lookup? hc
  have hlookup : (s.write c a).lookup? g y = s.lookup? g y := rfl
  rw [seen?, seen?, hlookup]
  cases hd : s.lookup? g y with
  | none => rfl
  | some d =>
    rw [Option.bind_some, Option.bind_some, read?_write hlt]
    simp only [Option.some.injEq]

end Contents

/--
The meanings of names in the scopes `s` and what operations do to them. Going outwards from a frame
never leads back to it, so that every search for a name ends. A filled slot decides what its name
means, and what is read through it, in the frames from which it is visible; an assignment leaves all
meanings alone.
-/
structure Resolves (s : Scopes α) : Prop where
  acyclic : ∀ n f, s.outward? (n + 1) f ≠ some f
  searched : ∀ f x found, s.Searches x f found ↔ s.lookup? f x = found
  nearest : ∀ f x c, s.lookup? f x = some c ↔ ∃ g, s.Visible f g x ∧ s.here? g x = some c
  missing : ∀ f x, s.lookup? f x = none ↔ ∀ n g, s.outward? n f = some g → s.here? g x = none
  filled : ∀ op f x c, op.fills? s = some (f, x, c) → (∀ k ∈ op.frames, k < s.nextFrame) →
    ∀ g, s.Visible g f x →
      (s.perform op).lookup? g x = some c ∧ (s.perform op).seen? g x = op.content? s
  kept : ∀ op f x c, op.fills? s = some (f, x, c) → (∀ k ∈ op.frames, k < s.nextFrame) →
    ∀ g y, ¬(y = x ∧ s.Visible g f x) →
      (s.perform op).lookup? g y = s.lookup? g y ∧ (s.perform op).seen? g y = s.seen? g y
  assigned : ∀ f x a c, s.lookup? f x = some c → ∀ g y,
    (s.perform (.assign f x a)).lookup? g y = s.lookup? g y ∧
      (s.perform (.assign f x a)).seen? g y =
        if s.lookup? g y = some c then some a else s.seen? g y

/-- In whatever order and on however many frames the operations have been performed. -/
theorem resolves_of_built (h : Built s) : Resolves s := by
  obtain ⟨hchained, hbounded⟩ := h.chained_and_bounded
  constructor
  · intro n f hback
    exact Nat.lt_irrefl f (hchained.outward?_lt (m := 0) rfl hback (Nat.zero_lt_succ n))
  · intro f x found
    exact hchained.searches_iff
  · intro f x c
    exact hchained.lookup?_eq_some_iff
  · intro f x
    exact hchained.lookup?_eq_none_iff
  · intro op f x c hfills hframes g hvisible
    cases op with
    | declare f' x' =>
      cases hfills
      exact hchained.bindNew_filled (hframes f List.mem_cons_self) hvisible
    | define f' x' a =>
      cases hfills
      exact hchained.bindNew_filled (hframes f List.mem_cons_self) hvisible
    | bind f' x' k z =>
      obtain ⟨d, hd, hslot⟩ := Option.map_eq_some_iff.mp hfills
      cases hslot
      have hlookup : (s.bind f x c).lookup? g x = some c :=
        hchained.lookup?_bind_of_visible (hframes f List.mem_cons_self) hvisible
      have hread : (s.bind f x c).read? c = s.read? c := rfl
      rw [perform, hd, Option.elim_some, Operation.content?, seen?_of_lookup? hd,
        seen?_of_lookup? hlookup]
      exact ⟨hlookup, hread⟩
    | _ => cases hfills
  · intro op f x c hfills hframes g y hother
    cases op with
    | declare f' x' =>
      cases hfills
      exact hchained.bindNew_kept hbounded (hframes f List.mem_cons_self) hother
    | define f' x' a =>
      cases hfills
      exact hchained.bindNew_kept hbounded (hframes f List.mem_cons_self) hother
    | bind f' x' k z =>
      obtain ⟨d, hd, hslot⟩ := Option.map_eq_some_iff.mp hfills
      cases hslot
      have hlookup : (s.bind f x c).lookup? g y = s.lookup? g y :=
        hchained.lookup?_bind_of_not_visible (hframes f List.mem_cons_self) hother
      rw [perform, hd, Option.elim_some]
      exact ⟨hlookup, hbounded.seen?_eq hlookup fun _ _ => rfl⟩
    | _ => cases hfills
  · intro f x a c hc g y
    rw [perform, hc, Option.elim_some]
    exact ⟨rfl, seen?_write hbounded hc a g y⟩

/--
A frame inside another one and a frame apart from both, which holds the variable of the outer frame
under a name of its own.
-/
def sharedCell : Scopes Nat :=
  [.newRoot, .newChild 0, .newRoot, .define 0 "x" 1, .declare 1 "y", .bind 2 "z" 1 "x"].foldl
    perform .empty

theorem resolves_of_built_sharedCell :
    Resolves sharedCell ∧ sharedCell.lookup? 1 "x" = some 0 ∧
      (sharedCell.perform (.assign 1 "x" 5)).seen? 2 "z" = some 5 := by
  have hbuilt : Built sharedCell := by
    unfold sharedCell
    simp only [List.foldl_cons, List.foldl_nil]
    refine .perform (.perform (.perform (.perform (.perform (.perform .empty ?_) ?_) ?_) ?_) ?_) ?_
    all_goals decide
  have hresolves : Resolves sharedCell := resolves_of_built hbuilt
  exact ⟨hresolves, rfl, (hresolves.assigned 1 "x" 5 0 rfl 2 "z").2⟩

end Scopes

end ModuleScript
