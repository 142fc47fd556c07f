import Mathlib.Logic.Relation
import ModuleScript.Proofs.Persistence.Runs

/-!
Imported variables are live. Main statement: `imports_live`, frames that are joined by imports,
directly or through any number of other modules, share one variable, so that what is assigned to it
from inside one of them is what is read from inside the others.
-/

namespace ModuleScript

open Machine Relation

def Config.Rebinds (p : Program) (c : Config) (f : FrameId) (x : Name) : Prop :=
  c.Declares p f x ∨ ∃ y, c.Imports p y f x

def Config.AssignsTo (c : Config) (f : FrameId) (x : Name) : Prop :=
  ∃ cell, c.state.scopes.lookup? f x = some cell ∧ c.Assigns cell

/-- The frame `f` is `h` or stands around it, and no frame in between or `h` itself holds `x`. -/
def Scopes.Sees {α : Type} (s : Scopes α) (h f : FrameId) (x : Name) : Prop :=
  ∃ nearer outer, s.chain h = nearer ++ f :: outer ∧ ∀ k ∈ nearer, s.here? k x = none

/--
Before the moment `n` the name `x` has been imported into the frame `f` from a module with the top
frame `g`, and from then on until the moment `m` its slots in these frames are not filled again.
-/
def Live (p : Program) (host : Host) (n m : Nat) (x : Name) (g f : FrameId) : Prop :=
  ∃ k c y, k < n ∧ p.Reaches host k c ∧ c.Imports p y f x ∧ c.state.loaded.find? y = some g ∧
    ∀ i b, k < i → i < m → p.Reaches host i b → ¬b.Rebinds p f x ∧ ¬b.Rebinds p g x

/-- Live imports lead from one frame to the other, in either direction and in any number. -/
def Joined (p : Program) (host : Host) (n m : Nat) (x : Name) : FrameId → FrameId → Prop :=
  TransGen fun g f => Live p host n m x g f ∨ Live p host n m x f g

/--
What can be relied on between the moments `n` and `m` of a run, as far as joined frames are
concerned. Code that is run inside a frame sees the variable of that frame unless a frame that is
nearer holds the name. Native functions are isolated (`Native`), so none of them assigns to it.
-/
structure ImportsLive (p : Program) (host : Host) : Prop where
  shared : ∀ {n m x g f d}, n ≤ m → p.Reaches host m d → Joined p host n m x g f →
    ∃ cell, ∀ i c, n ≤ i → i ≤ m → p.Reaches host i c →
      c.state.scopes.lookup? g x = some cell ∧ c.state.scopes.lookup? f x = some cell
  seen : ∀ {n m x g f h h' i c}, Joined p host n m x g f → n ≤ i → i ≤ m → p.Reaches host i c →
    c.state.scopes.Sees h g x → c.state.scopes.Sees h' f x →
      c.state.scopes.lookup? h x = c.state.scopes.lookup? h' x
  assigned : ∀ {n m x g f h h' i j v stack c d}, Joined p host n m x g f → n ≤ i → i < j →
    j ≤ m → p.Reaches host i c → p.Reaches host j d → c.control = .value v →
    c.stack = .assign x h :: stack → c.state.scopes.Sees h g x → d.state.scopes.Sees h' f x →
    (∀ l b, i < l → l < j → p.Reaches host l b → ¬b.AssignsTo f x) →
      readVariable x h' d.state = .ok v

section Slots

variable {α : Type} {s : Scopes α} {f h : FrameId} {x : Name} {cell : CellId}

theorem Scopes.Sees.lookup? (hsees : s.Sees h f x) (hx : s.here? f x = some cell) :
    s.lookup? h x = some cell := by
  obtain ⟨nearer, outer, hchain, hnearer⟩ := hsees
  have hnone : (nearer.findSome? fun k => s.here? k x) = none :=
    List.findSome?_eq_none_iff.mpr hnearer
  rw [Scopes.lookup?, hchain, List.findSome?_append, hnone, Option.none_or, List.findSome?_cons, hx]

theorem Scopes.sees_self (s : Scopes α) (f : FrameId) (x : Name) : s.Sees f f x :=
  ⟨[], _, rfl, List.forall_mem_nil _⟩

end Slots

variable {p : Program} {host : Host} {n m : Nat} {x : Name} {f g h : FrameId} {c d : Config}

/-- Between two moments the slots of `x` in both frames hold one and the same cell. -/
def HeldAlike (p : Program) (host : Host) (n m : Nat) (x : Name) (g f : FrameId)
    (cell : CellId) : Prop :=
  ∀ i c, n ≤ i → i ≤ m → p.Reaches host i c →
    c.state.scopes.here? g x = some cell ∧ c.state.scopes.here? f x = some cell

theorem HeldAlike.symm {cell : CellId} (h : HeldAlike p host n m x g f cell) :
    HeldAlike p host n m x f g cell :=
  fun i c hn hm hc => (h i c hn hm hc).symm

theorem here?_eq_some_of_step {cell : CellId} (hsound : Sound p c) (hstep : step p c = .next d)
    (hrebinds : ¬c.Rebinds p f x) (hx : c.state.scopes.here? f x = some cell) :
    d.state.scopes.here? f x = some cell := by
  obtain ⟨hdeclares, himports⟩ := not_or.mp hrebinds
  exact (here?_eq_of_step hsound hstep hdeclares (not_exists.mp himports)).trans hx

theorem Live.heldAlike (h : Live p host n m x g f) (hnm : n ≤ m) (hd : p.Reaches host m d) :
    ∃ cell, HeldAlike p host n m x g f cell := by
  obtain ⟨k, b, y, hkn, hb, himports, hloaded, hundisturbed⟩ := h
  obtain ⟨e, he⟩ := hd.exists_before (Nat.le_trans hkn hnm)
  obtain ⟨b', hb', hstep⟩ := Program.reaches_succ_iff.mp he
  obtain rfl := hb.unique hb'
  obtain ⟨source, names, hsource, hx, hshares⟩ :=
    shares_of_imports (sound_of_reaches hb) himports hstep
  obtain rfl : g = source := Option.some.inj (hloaded.symm.trans hsource)
  obtain ⟨cell, hheld, hbound⟩ := hshares.shared x hx
  have hboth : e.state.scopes.here? g x = some cell ∧ e.state.scopes.here? f x = some cell := by
    refine ⟨?_, hbound⟩
    -- the module may import from itself
    by_cases hself : g = f ∧ x ∈ names
    · exact hself.1 ▸ hbound
    · exact (hshares.kept g x hself).trans hheld
  refine ⟨cell, fun i c hni him hc => ?_⟩
  have hbefore : k + 1 ≤ i := Nat.le_trans hkn hni
  refine hc.later (P := fun i c => i ≤ m → c.state.scopes.here? g x = some cell ∧
    c.state.scopes.here? f x = some cell) hbefore he (fun _ => hboth) ?_ him
  intro i c d hki hc ih hstep him
  obtain ⟨hg, hf⟩ := ih (Nat.le_of_succ_le him)
  obtain ⟨hnotf, hnotg⟩ := hundisturbed i c hki him hc
  have hsound := sound_of_reaches hc
  exact ⟨here?_eq_some_of_step hsound hstep hnotg hg, here?_eq_some_of_step hsound hstep hnotf hf⟩

/-- Along a chain of live imports the cell is that of the first frame. -/
theorem Joined.heldAlike (h : Joined p host n m x g f) (hnm : n ≤ m) (hd : p.Reaches host m d) :
    ∃ cell, HeldAlike p host n m x g f cell := by
  have hlink {a b : FrameId} (h : Live p host n m x a b ∨ Live p host n m x b a) :
      ∃ cell, HeldAlike p host n m x a b cell := by
    rcases h with hlive | hlive
    · exact hlive.heldAlike hnm hd
    · obtain ⟨cell, hheld⟩ := hlive.heldAlike hnm hd
      exact ⟨cell, hheld.symm⟩
  induction h with
  | single hfirst => exact hlink hfirst
  | @tail b f _ hlast ih =>
    obtain ⟨cell, hheld⟩ := ih
    obtain ⟨cell', hheld'⟩ := hlink hlast
    -- at the moment `m` the frame in between holds both cells
    have hsame := (hheld m d hnm (Nat.le_refl m) hd).2.symm.trans
      (hheld' m d hnm (Nat.le_refl m) hd).1
    obtain rfl : cell = cell' := Option.some.inj hsame
    exact ⟨cell, fun i c hi him hc => ⟨(hheld i c hi him hc).1, (hheld' i c hi him hc).2⟩⟩

theorem Live.mono {i : Nat} (h : Live p host n m x g f) (him : i ≤ m) :
    Live p host n i x g f := by
  obtain ⟨k, b, y, hkn, hb, himports, hloaded, hundisturbed⟩ := h
  refine ⟨k, b, y, hkn, hb, himports, hloaded, fun j c hkj hji => ?_⟩
  exact hundisturbed j c hkj (Nat.lt_of_lt_of_le hji him)

theorem Joined.mono {i : Nat} (h : Joined p host n m x g f) (him : i ≤ m) :
    Joined p host n i x g f := by
  refine TransGen.mono (fun a b hlive => ?_) g f h
  exact hlive.imp (·.mono him) (·.mono him)

theorem read?_eq_some_of_assign {v : Value} {stack : List Pending} {cell : CellId} {i j : Nat}
    (hij : i < j) (hc : p.Reaches host i c) (hd : p.Reaches host j d)
    (hcontrol : c.control = .value v) (hstack : c.stack = .assign x h :: stack)
    (hlookup : c.state.scopes.lookup? h x = some cell)
    (hnone : ∀ l b, i < l → l < j → p.Reaches host l b → ¬b.Assigns cell) :
    d.state.scopes.read? cell = some v := by
  obtain ⟨e, he⟩ := hd.exists_before hij
  obtain ⟨c', hc', hstep⟩ := Program.reaches_succ_iff.mp he
  obtain rfl := hc.unique hc'
  obtain ⟨a, -, hheld⟩ := List.exists_of_findSome?_eq_some hlookup
  have hlt : cell < c.state.scopes.cells.size := (sound_of_reaches hc).bounded a x cell hheld
  have hwritten : e.state.scopes.read? cell = some v := by
    rw [state_eq_of_assign hcontrol hstack hlookup hstep]
    exact (Scopes.read?_write hlt v cell).trans (if_pos rfl)
  refine hd.later (P := fun l b => l ≤ j → b.state.scopes.read? cell = some v) hij he
    (fun _ => hwritten) ?_ (Nat.le_refl j)
  intro l b e hil hb ih hstep hlj
  have hltb : cell < b.state.scopes.cells.size :=
    Nat.lt_of_lt_of_le hlt (size_cells_le_of_reaches (Nat.le_of_succ_le hil) hc hb)
  rcases (step_change hstep).read?_cases hltb with hsame | hassigns
  · exact hsame.trans (ih (Nat.le_of_succ_le hlj))
  · exact absurd hassigns (hnone l b hil hlj hb)

/-- In every run, whether it ends or not. -/
theorem imports_live (p : Program) (host : Host) : ImportsLive p host := by
  constructor
  · intro n m x g f d hnm hd hjoined
    obtain ⟨cell, hheld⟩ := hjoined.heldAlike hnm hd
    refine ⟨cell, fun i c hni him hc => ?_⟩
    obtain ⟨hg, hf⟩ := hheld i c hni him hc
    exact ⟨(Scopes.sees_self _ g x).lookup? hg, (Scopes.sees_self _ f x).lookup? hf⟩
  · intro n m x g f h h' i c hjoined hni him hc hsees hsees'
    obtain ⟨cell, hheld⟩ := (hjoined.mono him).heldAlike hni hc
    obtain ⟨hg, hf⟩ := hheld i c hni (Nat.le_refl i) hc
    rw [hsees.lookup? hg, hsees'.lookup? hf]
  · intro n m x g f h h' i j v stack c d hjoined hni hij hjm hc hd hcontrol hstack hsees hsees'
      hnone
    have hnj : n ≤ j := Nat.le_trans hni (Nat.le_of_lt hij)
    obtain ⟨cell, hheld⟩ := (hjoined.mono hjm).heldAlike hnj hd
    have hlookup := hsees.lookup? (hheld i c hni (Nat.le_of_lt hij) hc).1
    have hread : d.state.scopes.read? cell = some v := by
      apply read?_eq_some_of_assign hij hc hd hcontrol hstack hlookup
      intro l b hil hlj hb hassigns
      have hf := (hheld l b (Nat.le_trans hni (Nat.le_of_lt hil)) (Nat.le_of_lt hlj) hb).2
      exact hnone l b hil hlj hb ⟨cell, (Scopes.sees_self _ f x).lookup? hf, hassigns⟩
    have hmeans := hsees'.lookup? (hheld j d hnj (Nat.le_refl j) hd).2
    simp only [readVariable, hmeans, hread]

end ModuleScript
