import ModuleScript.Table

/-!
Scopes: frames that hold names and cells that hold things. A frame knows the frames around it, the
nearest first, and a name means the cell in the nearest frame that holds it. Two frames may share a
cell, and a cell is empty until it is first written.
-/

namespace ModuleScript

abbrev FrameId := Nat

abbrev CellId := Nat

structure Frame where
  cells : Table CellId
  enclosing : List FrameId

instance : Inhabited Frame := ⟨⟨∅, []⟩⟩

structure Scopes (α : Type) where
  frames : Array Frame
  cells : Array (Option α)

namespace Scopes

variable {α : Type}

protected def empty : Scopes α := ⟨#[], #[]⟩

def frame (s : Scopes α) (f : FrameId) : Frame := s.frames[f]?.getD default

def chain (s : Scopes α) (f : FrameId) : List FrameId := f :: (s.frame f).enclosing

def here? (s : Scopes α) (f : FrameId) (x : Name) : Option CellId := (s.frame f).cells.find? x

def lookup? (s : Scopes α) (f : FrameId) (x : Name) : Option CellId :=
  (s.chain f).findSome? fun g => s.here? g x

def read? (s : Scopes α) (c : CellId) : Option α := s.cells[c]?.join

def write (s : Scopes α) (c : CellId) (a : α) : Scopes α :=
  { s with cells := s.cells.setIfInBounds c (some a) }

/-- Lets `x` mean the cell `c` in the frame. Frames around it are not touched. -/
def bind (s : Scopes α) (f : FrameId) (x : Name) (c : CellId) : Scopes α :=
  { s with frames := s.frames.modify f fun fr => { fr with cells := fr.cells.insert x c } }

def bindNew (s : Scopes α) (f : FrameId) (x : Name) (content : Option α) : Scopes α :=
  let c := s.cells.size
  { s with cells := s.cells.push content }.bind f x c

def declare (s : Scopes α) (f : FrameId) (x : Name) : Scopes α := s.bindNew f x none

def define (s : Scopes α) (f : FrameId) (x : Name) (a : α) : Scopes α := s.bindNew f x (some a)

def nextFrame (s : Scopes α) : FrameId := s.frames.size

def newFrame (s : Scopes α) (enclosing : List FrameId) : Scopes α :=
  { s with frames := s.frames.push ⟨∅, enclosing⟩ }

def newRoot (s : Scopes α) : Scopes α := s.newFrame []

def newChild (s : Scopes α) (f : FrameId) : Scopes α := s.newFrame (s.chain f)

/-- Defines names one after the other; of two equal names the later counts. -/
def defineAll (s : Scopes α) (f : FrameId) (bindings : List (Name × α)) : Scopes α :=
  bindings.foldl (fun s p => s.define f p.1 p.2) s

/-- A new frame directly inside `f` that defines names. -/
def enter (s : Scopes α) (f : FrameId) (bindings : List (Name × α)) : Scopes α :=
  let g := s.nextFrame
  (s.newChild f).defineAll g bindings

theorem frame_newFrame (s : Scopes α) (enclosing : List FrameId) (g : FrameId) :
    (s.newFrame enclosing).frame g =
      if g = s.nextFrame then ⟨∅, enclosing⟩ else s.frame g := by
  by_cases e : g = s.frames.size <;> simp [newFrame, nextFrame, frame, Array.getElem?_push, e]

theorem frame_bind {s : Scopes α} {f : FrameId} (hf : f < s.frames.size) (x : Name) (c : CellId)
    (g : FrameId) :
    (s.bind f x c).frame g =
      if g = f then ⟨(s.frame f).cells.insert x c, (s.frame f).enclosing⟩ else s.frame g := by
  by_cases e : f = g
  · subst e
    simp [bind, frame, hf, Array.getElem_modify]
  · simp [bind, frame, Array.getElem?_modify, e, Ne.symm e]

theorem bind_of_le {s : Scopes α} {f : FrameId} (hf : s.nextFrame ≤ f) (x : Name) (c : CellId) :
    s.bind f x c = s := by
  have hf' : ¬f < s.frames.size := Nat.not_lt_of_le hf
  simp [bind, Array.modify, Array.modifyM, hf']

theorem here?_bind {s : Scopes α} {f : FrameId} (hf : f < s.frames.size) (x : Name) (c : CellId)
    (g : FrameId) (y : Name) :
    (s.bind f x c).here? g y = if g = f ∧ y = x then some c else s.here? g y := by
  rw [here?, frame_bind hf]
  by_cases hg : g = f
  · subst hg
    simp [here?, Table.find?_insert]
  · simp [here?, hg]

theorem chain_bind (s : Scopes α) (f : FrameId) (x : Name) (c : CellId) (g : FrameId) :
    (s.bind f x c).chain g = s.chain g := by
  by_cases e : f = g
  · subst e
    by_cases hf : f < s.frames.size
    · simp [chain, frame_bind hf]
    · simp [chain, bind, frame, hf]
  · simp [chain, bind, frame, Array.getElem?_modify, e]

theorem write_of_le {s : Scopes α} {c : CellId} (hc : s.cells.size ≤ c) (a : α) :
    s.write c a = s := by
  have hc' : ¬c < s.cells.size := Nat.not_lt_of_le hc
  simp [write, Array.setIfInBounds, hc']

theorem read?_write {s : Scopes α} {c : CellId} (hc : c < s.cells.size) (a : α) (d : CellId) :
    (s.write c a).read? d = if d = c then some a else s.read? d := by
  by_cases e : c = d
  · subst e
    simp [write, read?, hc]
  · simp [write, read?, e, Ne.symm e]

end Scopes

end ModuleScript
