import ModuleScript.Proofs.Sharing.Steps

/-!
What holds of slots, frames and cells throughout a run: cells that slots hold are there and have one
name, the frames around a frame nest, and neither frames nor cells are ever given up.
-/

namespace ModuleScript

open Machine

variable {p : Program} {host : Host} {n k : Nat} {c d : Config} {f : FrameId} {x : Name}

theorem here?_start (h : p.start host = .ok c) (f : FrameId) (x : Name) :
    c.state.scopes.here? f x = none := by
  obtain ⟨main, -, rfl⟩ := Program.start_eq_ok_iff.mp h
  have hempty : (State.initial host).scopes.here? f x = none :=
    Scopes.here?_eq_none (Nat.zero_le f) x
  exact (Scopes.here?_newFrame _ _ f x).trans hempty

theorem Lexical.lt_of_exec {blocks : List Block} {body : List Stmt} (h : Lexical p blocks c)
    (hc : c.control = .exec body f) : f < c.state.nextFrame := by
  have hfits : (Control.exec body f).Fits blocks := hc ▸ h.control
  exact h.state.lt_of_blockAt hfits

theorem Lexical.lt_of_imports {blocks : List Block} {source : FrameId} {exports names : List Name}
    (h : Lexical p blocks c) (hw : .imports source exports names f ∈ c.stack) :
    f < c.state.nextFrame := by
  have hfits : (Pending.imports source exports names f).Fits blocks := h.stack _ hw
  exact h.state.lt_of_blockAt hfits

theorem registered_of_reaches (hc : p.Reaches host n c) {source : FrameId}
    {exports names : List Name} (hw : .imports source exports names f ∈ c.stack) :
    ∃ x m, p.module? x = some m ∧ exports = m.exports ∧ c.state.loaded.find? x = some source := by
  refine hc.induction (P := fun _ c => ∀ source exports names f,
    .imports source exports names f ∈ c.stack →
      ∃ x m, p.module? x = some m ∧ exports = m.exports ∧ c.state.loaded.find? x = some source)
    ?_ ?_ source exports names f hw
  · intro c hstart source exports names f hw
    obtain ⟨main, -, rfl⟩ := Program.start_eq_ok_iff.mp hstart
    cases hw
  · intro n c d _ ih hstep source exports names f hw
    obtain ⟨new, hstack, hnew⟩ := (step_moves hstep).stack
    rw [hstack] at hw
    rcases List.mem_append.mp hw with hw | hw
    · cases hnew _ hw with
      | inner hinner => cases hinner
      | imports hcontrol hm hl => exact ⟨_, _, hm, rfl, hl⟩
    · have hwaiting := Config.mem_stack_of_mem_waiting hw
      obtain ⟨x, m, hm, hexports, hl⟩ := ih source exports names f hwaiting
      exact ⟨x, m, hm, hexports, (step_change hstep).find?_loaded hl⟩

theorem sound_of_reaches (hc : p.Reaches host n c) : Sound p c := by
  obtain ⟨blocks, hblocks⟩ := exists_blocksOf p host
  have hsound (n : Nat) (c : Config) (hc : p.Reaches host n c) (hbounded : c.state.scopes.Bounded) :
      Sound p c := by
    have hlexical := hblocks.lexical n c hc
    refine ⟨hbounded, fun _ _ h => hlexical.lt_of_exec h, fun source exports names f hw => ?_⟩
    exact ⟨hlexical.lt_of_imports hw, registered_of_reaches hc hw⟩
  have hbounded : c.state.scopes.Bounded := by
    refine hc.induction (P := fun _ c => c.state.scopes.Bounded) ?_ ?_
    · intro c hstart f x cell hx
      rw [here?_start hstart] at hx
      cases hx
    · intro n c d hc ih hstep
      rcases step_slots (hsound n c hc ih) hstep with ⟨f, names, hadds, -⟩ | hshared
      · exact hadds.bounded ih
      · obtain ⟨y, source, f, names, -, hshares, -⟩ := hshared
        exact hshares.bounded ih
  exact hsound n c hc hbounded

theorem namedOnce_of_reaches (hc : p.Reaches host n c) : c.state.scopes.NamedOnce := by
  refine hc.induction (P := fun _ c => c.state.scopes.NamedOnce) ?_ ?_
  · intro c hstart f g x y cell hx _
    rw [here?_start hstart] at hx
    cases hx
  · intro n c d hc ih hstep
    have hsound := sound_of_reaches hc
    rcases step_slots hsound hstep with ⟨f, names, hadds, -⟩ | hshared
    · exact hadds.namedOnce hsound.bounded ih
    · obtain ⟨y, source, f, names, -, hshares, -⟩ := hshared
      exact hshares.namedOnce ih

theorem nested_of_reaches (hc : p.Reaches host n c) : c.state.scopes.Nested := by
  obtain ⟨blocks, hblocks⟩ := exists_blocksOf p host
  refine hc.induction (P := fun _ c => c.state.scopes.Nested) ?_ ?_
  · intro c hstart
    obtain ⟨main, -, rfl⟩ := Program.start_eq_ok_iff.mp hstart
    have hempty : (State.initial host).scopes.Nested := by
      intro f g hg
      obtain rfl : g = f := List.mem_singleton.mp hg
      exact ⟨List.suffix_refl _, .inl rfl⟩
    exact hempty.newFrame (List.forall_mem_nil _)
  · intro n c d hc ih hstep
    exact (step_change hstep).nested (hblocks.lexical n c hc) ih

theorem lt_nextFrame_of_loaded (hc : p.Reaches host n c)
    (hx : c.state.loaded.find? x = some f) : f < c.state.nextFrame := by
  refine hc.induction (P := fun _ c => ∀ x f, c.state.loaded.find? x = some f →
    f < c.state.nextFrame) ?_ ?_ x f hx
  · intro c hstart x f hx
    obtain ⟨main, -, rfl⟩ := Program.start_eq_ok_iff.mp hstart
    have hsize : (State.initial host).scopes.newRoot.nextFrame = 1 := Scopes.nextFrame_newFrame _ _
    rw [State.startModule, Table.find?_insert] at hx
    split at hx
    · exact Nat.lt_of_lt_of_eq (Option.some.inj hx ▸ Nat.zero_lt_one) hsize.symm
    · cases hx
  · intro n c d _ ih hstep x f hx
    exact (step_change hstep).loaded_lt ih hx

theorem nextFrame_le_of_reaches (hkn : k ≤ n) (hc : p.Reaches host k c)
    (hd : p.Reaches host n d) : c.state.nextFrame ≤ d.state.nextFrame :=
  hd.later (P := fun _ d => c.state.nextFrame ≤ d.state.nextFrame) hkn hc (Nat.le_refl _)
    fun _ _ _ _ _ ih hstep => Nat.le_trans ih (step_change hstep).nextFrame_le

theorem size_cells_le_of_reaches (hkn : k ≤ n) (hc : p.Reaches host k c)
    (hd : p.Reaches host n d) : c.state.scopes.cells.size ≤ d.state.scopes.cells.size :=
  hd.later (P := fun _ d => c.state.scopes.cells.size ≤ d.state.scopes.cells.size) hkn hc
    (Nat.le_refl _)
    fun _ _ _ _ hb ih hstep => Nat.le_trans ih (size_cells_le (sound_of_reaches hb) hstep)

end ModuleScript
