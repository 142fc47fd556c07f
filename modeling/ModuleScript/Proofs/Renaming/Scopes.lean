import ModuleScript.Proofs.Renaming.Twins
import ModuleScript.Proofs.Scopes

/-!
Scopes of two runs in lockstep. The region tells which frames belong to the renamed function; these
hold under the new name what they hold under the old one. Main statement: `Lockstep.lookup?`, a name
means the same cell on both sides.
-/

namespace ModuleScript

namespace Renaming

open Scopes

variable {a b : Name} {region : List Bool} {s s' : Scopes Value} {f : FrameId} {inside : Bool}

structure TwinScopes (a b : Name) (region : List Bool) (s s' : Scopes Value) : Prop where
  size : s.nextFrame = region.length
  size' : s'.nextFrame = region.length
  chain : ∀ g, s'.chain g = s.chain g
  cells : s'.cells = s.cells
  known : ∀ f inside, region[f]? = some inside → ∀ g ∈ s.chain f, ∃ i, region[g]? = some i
  here : ∀ f inside, region[f]? = some inside → ∀ x, Old b inside x →
    s'.here? f (twinName a b inside x) = s.here? f x

/-- Nothing inside is around a frame outside, and an inside frame sees the parameter in a frame that
has nothing outside before it. -/
structure Enclosed (a : Name) (region : List Bool) (s : Scopes Value) : Prop where
  outside : ∀ f, region[f]? = some false → ∀ g ∈ s.chain f, region[g]? = some false
  inside : ∀ f, region[f]? = some true → ∃ inner outer, s.chain f = inner ++ outer ∧
    (∀ g ∈ inner, region[g]? = some true) ∧ ∃ g ∈ inner, (s.here? g a).isSome

structure Lockstep (a b : Name) (region : List Bool) (s s' : Scopes Value) : Prop where
  twin : TwinScopes a b region s s'
  enclosed : Enclosed a region s

theorem Lockstep.lookup? (h : Lockstep a b region s s') (hf : region[f]? = some inside) {x : Name}
    (hx : Old b inside x) : s'.lookup? f (twinName a b inside x) = s.lookup? f x := by
  rw [Scopes.lookup?, Scopes.lookup?, h.twin.chain]
  cases inside with
  | false =>
    refine findSome?_congr fun g hg => ?_
    exact h.twin.here g false (h.enclosed.outside f hf g hg) x (old_false b x)
  | true =>
    by_cases hxa : x = a
    · -- the search for the parameter ends before it leaves the function
      subst hxa
      obtain ⟨inner, outer, hchain, hinside, g, hg, hsome⟩ := h.enclosed.inside f hf
      have hinner : inner.findSome? (fun k => s'.here? k (twinName x b true x)) =
          inner.findSome? (fun k => s.here? k x) :=
        findSome?_congr fun k hk => h.twin.here k true (hinside k hk) x hx
      obtain ⟨c, hc⟩ : ∃ c, inner.findSome? (fun k => s.here? k x) = some c := by
        rw [← Option.isSome_iff_exists, List.findSome?_isSome_iff]
        exact ⟨g, hg, hsome⟩
      rw [hchain, List.findSome?_append, List.findSome?_append, hinner, hc]
      rfl
    · -- other names are written in the same way on both sides of the border
      refine findSome?_congr fun g hg => ?_
      obtain ⟨i, hi⟩ := h.twin.known f true hf g hg
      have hhere := h.twin.here g i hi x fun _ => hx rfl
      rwa [twinName_of_ne hxa] at hhere ⊢

theorem lt_of_region (h : region[f]? = some inside) : f < region.length :=
  (List.getElem?_eq_some_iff.mp h).1

/-! Names and cells -/

theorem TwinScopes.lt_size (h : TwinScopes a b region s s') (hf : region[f]? = some inside) :
    f < s.frames.size ∧ f < s'.frames.size := by
  show f < s.nextFrame ∧ f < s'.nextFrame
  rw [h.size, h.size']
  exact ⟨lt_of_region hf, lt_of_region hf⟩

theorem TwinScopes.bind (h : TwinScopes a b region s s') (hf : region[f]? = some inside) {x : Name}
    (hx : Old b inside x) (c : CellId) :
    TwinScopes a b region (s.bind f x c) (s'.bind f (twinName a b inside x) c) where
  size := (nextFrame_bind s f x c).trans h.size
  size' := (nextFrame_bind s' f _ c).trans h.size'
  chain g := by rw [chain_bind, chain_bind, h.chain]
  cells := h.cells
  known g i hg := by
    rw [chain_bind]
    exact h.known g i hg
  here g i hg y hy := by
    obtain ⟨hsize, hsize'⟩ := h.lt_size hf
    rw [here?_bind hsize, here?_bind hsize', h.here g i hg y hy]
    by_cases hgf : g = f
    · subst hgf
      obtain rfl : i = inside := Option.some.inj (hg.symm.trans hf)
      simp only [true_and, twinName_inj hy hx]
    · simp only [hgf, false_and, if_false]

theorem Enclosed.imp {t : Scopes Value} (h : Enclosed a region s)
    (hchain : ∀ g, t.chain g = s.chain g)
    (hhere : ∀ g, (s.here? g a).isSome → (t.here? g a).isSome) : Enclosed a region t := by
  refine ⟨fun g hg => ?_, fun g hg => ?_⟩
  · rw [hchain]
    exact h.outside g hg
  · obtain ⟨inner, outer, hinner, hinside, k, hk, hsome⟩ := h.inside g hg
    exact ⟨inner, outer, (hchain g).trans hinner, hinside, k, hk, hhere k hsome⟩

theorem Lockstep.bind (h : Lockstep a b region s s') (hf : region[f]? = some inside) {x : Name}
    (hx : Old b inside x) (c : CellId) :
    Lockstep a b region (s.bind f x c) (s'.bind f (twinName a b inside x) c) := by
  refine ⟨h.twin.bind hf hx c, h.enclosed.imp (chain_bind s f x c) fun g hg => ?_⟩
  rw [here?_bind (h.twin.lt_size hf).1]
  split
  · rfl
  · exact hg

theorem TwinScopes.withCells (h : TwinScopes a b region s s') (cells : Array (Option Value)) :
    TwinScopes a b region { s with cells } { s' with cells } :=
  ⟨h.size, h.size', h.chain, rfl, h.known, h.here⟩

theorem Lockstep.withCells (h : Lockstep a b region s s') (cells : Array (Option Value)) :
    Lockstep a b region { s with cells } { s' with cells } :=
  ⟨h.twin.withCells cells, h.enclosed.imp (fun _ => rfl) fun _ hg => hg⟩

theorem TwinScopes.bindNew (h : TwinScopes a b region s s') (hf : region[f]? = some inside)
    {x : Name} (hx : Old b inside x) (content : Option Value) :
    TwinScopes a b region (s.bindNew f x content)
      (s'.bindNew f (twinName a b inside x) content) := by
  unfold Scopes.bindNew
  rw [h.cells]
  exact (h.withCells (s.cells.push content)).bind hf hx s.cells.size

theorem Lockstep.bindNew (h : Lockstep a b region s s') (hf : region[f]? = some inside) {x : Name}
    (hx : Old b inside x) (content : Option Value) :
    Lockstep a b region (s.bindNew f x content)
      (s'.bindNew f (twinName a b inside x) content) := by
  unfold Scopes.bindNew
  rw [h.twin.cells]
  exact (h.withCells (s.cells.push content)).bind hf hx s.cells.size

theorem Lockstep.write (h : Lockstep a b region s s') (c : CellId) (v : Value) :
    Lockstep a b region (s.write c v) (s'.write c v) := by
  unfold Scopes.write
  rw [h.twin.cells]
  exact h.withCells _

def twinBindings (a b : Name) (inside : Bool) (bindings : List (Name × Value)) :
    List (Name × Value) := bindings.map fun p => (twinName a b inside p.1, p.2)

theorem TwinScopes.defineAll {bindings : List (Name × Value)} (h : TwinScopes a b region s s')
    (hf : region[f]? = some inside) (hold : ∀ p ∈ bindings, Old b inside p.1) :
    TwinScopes a b region (s.defineAll f bindings)
      (s'.defineAll f (twinBindings a b inside bindings)) := by
  induction bindings generalizing s s' with
  | nil => exact h
  | cons p rest ih =>
    have hfirst := h.bindNew hf (hold p (List.mem_cons_self ..)) (some p.2)
    exact ih hfirst fun q hq => hold q (List.mem_cons_of_mem p hq)

theorem Lockstep.defineAll {bindings : List (Name × Value)} (h : Lockstep a b region s s')
    (hf : region[f]? = some inside) (hold : ∀ p ∈ bindings, Old b inside p.1) :
    Lockstep a b region (s.defineAll f bindings)
      (s'.defineAll f (twinBindings a b inside bindings)) := by
  have hfills := defineAll_fills s f bindings
  refine ⟨h.twin.defineAll hf hold, h.enclosed.imp hfills.chain fun g hg => ?_⟩
  by_cases hgf : g = f
  · subst hgf
    exact (isSome_here?_defineAll (h.twin.lt_size hf).1).mpr (.inr hg)
  · rwa [hfills.here g a fun hga => hgf hga.1]

/-! New frames -/

theorem getElem?_append_singleton_iff {last : Bool} :
    (region ++ [last])[f]? = some inside ↔
      region[f]? = some inside ∨ f = region.length ∧ last = inside := by
  rcases Nat.lt_trichotomy f region.length with hlt | heq | hgt
  · rw [List.getElem?_append_left hlt]
    constructor
    · exact .inl
    · rintro (h | ⟨rfl, -⟩)
      · exact h
      · exact absurd hlt (Nat.lt_irrefl _)
  · subst heq
    simp
  · have hnone : region[f]? = none := List.getElem?_eq_none (Nat.le_of_lt hgt)
    have hnone' : (region ++ [last])[f]? = none := by
      apply List.getElem?_eq_none
      rw [List.length_append]
      exact hgt
    rw [hnone, hnone']
    constructor
    · nofun
    · rintro (h | ⟨rfl, -⟩)
      · exact h
      · exact absurd hgt (Nat.lt_irrefl _)

theorem region_mono {last : Bool} (h : region[f]? = some inside) :
    (region ++ [last])[f]? = some inside :=
  getElem?_append_singleton_iff.mpr (.inl h)

theorem TwinScopes.chain_newFrame_old {enclosing : List FrameId} (h : TwinScopes a b region s s')
    (hf : region[f]? = some inside) : (s.newFrame enclosing).chain f = s.chain f := by
  rw [chain_newFrame, h.size, if_neg (Nat.ne_of_lt (lt_of_region hf))]

theorem TwinScopes.chain_newFrame_new {enclosing : List FrameId} (h : TwinScopes a b region s s') :
    (s.newFrame enclosing).chain region.length = region.length :: enclosing := by
  rw [chain_newFrame, if_pos h.size.symm]

theorem TwinScopes.newFrame {enclosing : List FrameId} (h : TwinScopes a b region s s')
    (henclosing : ∀ g ∈ enclosing, ∃ i, region[g]? = some i) (last : Bool) :
    TwinScopes a b (region ++ [last]) (s.newFrame enclosing) (s'.newFrame enclosing) where
  size := by rw [nextFrame_newFrame, h.size, List.length_append]; rfl
  size' := by rw [nextFrame_newFrame, h.size', List.length_append]; rfl
  chain g := by rw [chain_newFrame, chain_newFrame, h.chain, h.size, h.size']
  cells := h.cells
  known g i hg k hk := by
    rcases getElem?_append_singleton_iff.mp hg with hold | ⟨rfl, -⟩
    · rw [h.chain_newFrame_old hold] at hk
      obtain ⟨j, hj⟩ := h.known g i hold k hk
      exact ⟨j, region_mono hj⟩
    · rw [h.chain_newFrame_new] at hk
      rcases List.mem_cons.mp hk with rfl | hk
      · exact ⟨i, hg⟩
      · obtain ⟨j, hj⟩ := henclosing k hk
        exact ⟨j, region_mono hj⟩
  here g i hg x hx := by
    rw [here?_newFrame, here?_newFrame]
    rcases getElem?_append_singleton_iff.mp hg with hold | ⟨hnew, -⟩
    · exact h.here g i hold x hx
    · rw [here?_eq_none (Nat.le_of_eq (h.size'.trans hnew.symm)),
        here?_eq_none (Nat.le_of_eq (h.size.trans hnew.symm))]

theorem Lockstep.enclosed_newFrame {enclosing : List FrameId} (h : Lockstep a b region s s')
    {last : Bool}
    (houtside : last = false → ∀ g ∈ enclosing, region[g]? = some false)
    (hinside : last = true → ∃ inner outer, enclosing = inner ++ outer ∧
      (∀ g ∈ inner, region[g]? = some true) ∧ ∃ g ∈ inner, (s.here? g a).isSome) :
    Enclosed a (region ++ [last]) (s.newFrame enclosing) := by
  refine ⟨fun g hg k hk => ?_, fun g hg => ?_⟩
  · rcases getElem?_append_singleton_iff.mp hg with hold | ⟨rfl, hlast⟩
    · rw [h.twin.chain_newFrame_old hold] at hk
      exact region_mono (h.enclosed.outside g hold k hk)
    · rw [h.twin.chain_newFrame_new] at hk
      rcases List.mem_cons.mp hk with rfl | hk
      · exact hg
      · exact region_mono (houtside hlast k hk)
  · simp only [here?_newFrame]
    rcases getElem?_append_singleton_iff.mp hg with hold | ⟨rfl, hlast⟩
    · obtain ⟨inner, outer, hchain, hinner, hholds⟩ := h.enclosed.inside g hold
      refine ⟨inner, outer, ?_, fun k hk => region_mono (hinner k hk), hholds⟩
      rw [h.twin.chain_newFrame_old hold, hchain]
    · obtain ⟨inner, outer, hchain, hinner, k, hk, hholds⟩ := hinside hlast
      refine ⟨region.length :: inner, outer, ?_, ?_, k, List.mem_cons_of_mem _ hk, hholds⟩
      · rw [h.twin.chain_newFrame_new, hchain, List.cons_append]
      · intro j hj
        rcases List.mem_cons.mp hj with rfl | hj
        · exact hg
        · exact region_mono (hinner j hj)

theorem Lockstep.newRoot (h : Lockstep a b region s s') :
    Lockstep a b (region ++ [false]) s.newRoot s'.newRoot :=
  ⟨h.twin.newFrame (fun _ hg => absurd hg List.not_mem_nil) false,
    h.enclosed_newFrame (fun _ _ hg => absurd hg List.not_mem_nil)
      fun hinside => absurd hinside Bool.false_ne_true⟩

theorem Lockstep.newChild (h : Lockstep a b region s s') (hf : region[f]? = some inside) :
    Lockstep a b (region ++ [inside]) (s.newChild f) (s'.newChild f) := by
  unfold Scopes.newChild
  rw [h.twin.chain]
  refine ⟨h.twin.newFrame (h.twin.known f inside hf) inside, h.enclosed_newFrame ?_ ?_⟩
  · rintro rfl
    exact h.enclosed.outside f hf
  · rintro rfl
    exact h.enclosed.inside f hf

theorem Lockstep.enter {bindings : List (Name × Value)} (h : Lockstep a b region s s')
    (hf : region[f]? = some inside) (hold : ∀ p ∈ bindings, Old b inside p.1) :
    Lockstep a b (region ++ [inside]) (s.enter f bindings)
      (s'.enter f (twinBindings a b inside bindings)) := by
  unfold Scopes.enter
  rw [h.twin.size, h.twin.size']
  have hnew : (region ++ [inside])[region.length]? = some inside :=
    getElem?_append_singleton_iff.mpr (.inr ⟨rfl, rfl⟩)
  exact (h.newChild hf).defineAll hnew hold

/-- A call of the renamed function: its frame holds the parameter. -/
theorem Lockstep.enterRenamed {bindings : List (Name × Value)} (h : Lockstep a b region s s')
    (hf : region[f]? = some inside) (hold : ∀ p ∈ bindings, Old b true p.1)
    (ha : a ∈ bindings.map Prod.fst) :
    Lockstep a b (region ++ [true]) (s.enter f bindings)
      (s'.enter f (twinBindings a b true bindings)) := by
  unfold Scopes.enter Scopes.newChild
  rw [h.twin.size, h.twin.size', h.twin.chain]
  have hnew : (region ++ [true])[region.length]? = some true :=
    getElem?_append_singleton_iff.mpr (.inr ⟨rfl, rfl⟩)
  have htwin := h.twin.newFrame (h.twin.known f inside hf) true
  have hfills := defineAll_fills (s.newFrame (s.chain f)) region.length bindings
  have hchain {g : FrameId} {i : Bool} (hg : region[g]? = some i) :
      ((s.newFrame (s.chain f)).defineAll region.length bindings).chain g = s.chain g := by
    rw [hfills.chain, h.twin.chain_newFrame_old hg]
  -- the new frame holds the parameter only after all names are defined in it
  refine ⟨htwin.defineAll hnew hold, fun g hg k hk => ?_, fun g hg => ?_⟩
  · rcases getElem?_append_singleton_iff.mp hg with hold | ⟨-, hne⟩
    · rw [hchain hold] at hk
      exact region_mono (h.enclosed.outside g hold k hk)
    · cases hne
  · rcases getElem?_append_singleton_iff.mp hg with hold | ⟨rfl, -⟩
    · obtain ⟨inner, outer, hinner, hinside, k, hk, hholds⟩ := h.enclosed.inside g hold
      refine ⟨inner, outer, (hchain hold).trans hinner, fun j hj => region_mono (hinside j hj),
        k, hk, ?_⟩
      have hne : k ≠ region.length := Nat.ne_of_lt (lt_of_region (hinside k hk))
      rwa [hfills.here k a fun hka => hne hka.1, here?_newFrame]
    · refine ⟨[region.length], s.chain f, ?_, ?_, region.length, List.mem_cons_self .., ?_⟩
      · rw [hfills.chain, h.twin.chain_newFrame_new]
        rfl
      · intro j hj
        rw [List.mem_singleton.mp hj]
        exact hg
      · have hlt : region.length < (s.newFrame (s.chain f)).nextFrame := by
          rw [nextFrame_newFrame, h.twin.size]
          exact Nat.lt_succ_self _
        exact (isSome_here?_defineAll hlt).mpr (.inl ha)

/-! Imports -/

theorem TwinScopes.exported (h : TwinScopes a b region s s') {source : FrameId}
    (hsource : region[source]? = some false) (exports : List Name) (x : Name) :
    s'.exported source exports x = s.exported source exports x := by
  have hhere : s'.here? source x = s.here? source x :=
    h.here source false hsource x (old_false b x)
  unfold Scopes.exported Scopes.read?
  rw [hhere, h.cells]

/-- A name that may be imported inside is neither the old name nor the new one. -/
theorem twinName_of_imported {xs : List Name} (h : inside = true → a ∉ xs ∧ b ∉ xs) {x : Name}
    (hx : x ∈ xs) : Old b inside x ∧ twinName a b inside x = x := by
  refine ⟨fun hi hxb => (h hi).2 (hxb ▸ hx), ?_⟩
  cases inside with
  | false => rfl
  | true => exact twinName_of_ne fun hxa => (h rfl).1 (hxa ▸ hx)

theorem Lockstep.importNames (h : Lockstep a b region s s') (hf : region[f]? = some inside)
    {source : FrameId} (hsource : region[source]? = some false) (exports : List Name)
    {xs : List Name} (hxs : inside = true → a ∉ xs ∧ b ∉ xs) :
    (Scopes.importNames source exports f xs s').1 = (Scopes.importNames source exports f xs s).1 ∧
      Lockstep a b region (Scopes.importNames source exports f xs s).2
        (Scopes.importNames source exports f xs s').2 := by
  induction xs generalizing s s' with
  | nil => exact ⟨rfl, h⟩
  | cons x rest ih =>
    obtain ⟨hold, hname⟩ := twinName_of_imported hxs (List.mem_cons_self ..)
    unfold Scopes.importNames
    rw [h.twin.exported hsource exports x]
    cases s.exported source exports x with
    | error e => exact ⟨rfl, h⟩
    | ok c =>
      have hbind := h.bind hf hold c
      rw [hname] at hbind
      refine ih hbind fun hi => ?_
      exact ⟨fun hm => (hxs hi).1 (List.mem_cons_of_mem x hm),
        fun hm => (hxs hi).2 (List.mem_cons_of_mem x hm)⟩

theorem Lockstep.importNatives (h : Lockstep a b region s s') (hf : region[f]? = some inside)
    (natives : Table Native) {xs : List Name} (hxs : inside = true → a ∉ xs ∧ b ∉ xs) :
    (Scopes.importNatives natives f xs s').1 = (Scopes.importNatives natives f xs s).1 ∧
      Lockstep a b region (Scopes.importNatives natives f xs s).2
        (Scopes.importNatives natives f xs s').2 := by
  induction xs generalizing s s' with
  | nil => exact ⟨rfl, h⟩
  | cons x rest ih =>
    obtain ⟨hold, hname⟩ := twinName_of_imported hxs (List.mem_cons_self ..)
    unfold Scopes.importNatives
    cases natives.find? x with
    | none => exact ⟨rfl, h⟩
    | some native =>
      have hdefine := h.bindNew hf hold (some (.native x))
      rw [hname] at hdefine
      refine ih hdefine fun hi => ?_
      exact ⟨fun hm => (hxs hi).1 (List.mem_cons_of_mem x hm),
        fun hm => (hxs hi).2 (List.mem_cons_of_mem x hm)⟩

end Renaming

end ModuleScript
