import ModuleScript.Proofs.Erasing.Steps
import ModuleScript.Proofs.Machine.Evaluations

/-!
Runs of a program and of the same program without its dead code. Each step of the one is matched by
the other after the classes that are passed over, so both runs end in the same way or neither does.
Main statement: `run_erased`.
-/

namespace ModuleScript

/-- In the course of a run the host is `now`, and then or after some more steps it is `later`. -/
def Program.Shows (p : Program) (host now later : Host) : Prop :=
  ∃ n k c d, p.Reaches host n c ∧ Machine.after p k c = some d ∧ c.state.host = now ∧
    d.state.host = later

/--
What erasing dead code leaves as it is. The runs end with the same value or the same fault, in
states that differ in the bodies of closures only, or neither of them ends; and the hosts of both,
with all that has been printed, are the same in the same order. Native functions are isolated
(`Native`): they look into no body.
-/
structure RunsErased (p : Program) (host : Host) : Prop where
  ends : ∀ o', (∃ limit, p.erase.run host limit = some o') ↔
    ∃ limit o, p.run host limit = some o ∧ Erasing.outcome o = o'
  hosts : ∀ now later, p.erase.Shows host now later ↔ p.Shows host now later

namespace Erasing

open Machine

variable {p : Program} {c c' d d' : Config} {o o' : Outcome} {host : Host}

theorem InStep.host_eq (h : InStep c c') : c'.state.host = c.state.host := by
  cases h <;> rfl

/-- After the classes that are passed over, both do the same. -/
theorem InStep.settles (h : InStep c c') :
    ∃ k d, after p k c = some d ∧ InStep d c' ∧ ProgressAlike (step p d) (step p.erase c') := by
  induction hlag : lag c using Nat.strongRecOn generalizing c with
  | _ n ih =>
    subst hlag
    rcases h.stepsAlike (p := p) with ⟨d, hstep, hd, hless⟩ | hboth
    · obtain ⟨k, e, he, hsettled⟩ := ih (lag d) hless hd rfl
      refine ⟨k + 1, e, ?_, hsettled⟩
      rw [after, hstep]
      exact he
    · exact ⟨0, c, rfl, h, hboth⟩

theorem Ends.erase (ho : Ends p c o) (h : InStep c c') : Ends p.erase c' (outcome o) := by
  refine ho.induction (P := fun c => ∀ c', InStep c c' → Ends p.erase c' (outcome o)) ?_ ?_ c' h
  · intro b hdone c' h
    rcases h.stepsAlike (p := p) with ⟨d, hstep, -⟩ | hboth
    · cases hdone.symm.trans hstep
    · rw [hdone] at hboth
      generalize hprogress : step p.erase c' = progress at hboth
      cases hboth
      exact (ends_iff_of_done hprogress).mpr rfl
  · intro b d hnext ih c' h
    rcases h.stepsAlike (p := p) with ⟨e, hstep, he, -⟩ | hboth
    · obtain rfl := Progress.next.inj (hnext.symm.trans hstep)
      exact ih c' he
    · rw [hnext] at hboth
      generalize hprogress : step p.erase c' = progress at hboth
      cases hboth with
      | next hd => exact (ends_iff_of_next hprogress).mpr (ih _ hd)

theorem Ends.of_erase (ho : Ends p.erase c' o') (h : InStep c c') :
    ∃ o, Ends p c o ∧ outcome o = o' := by
  refine ho.induction (P := fun c' => ∀ c, InStep c c' → ∃ o, Ends p c o ∧ outcome o = o')
    ?_ ?_ c h
  · intro b' hdone c h
    obtain ⟨k, d, hd, -, hboth⟩ := h.settles (p := p)
    rw [hdone] at hboth
    generalize hprogress : step p d = progress at hboth
    cases hboth with
    | done o =>
      exact ⟨o, (ends_iff_of_after hd).mpr ((ends_iff_of_done hprogress).mpr rfl), rfl⟩
  · intro b' d' hnext ih c h
    obtain ⟨k, d, hd, -, hboth⟩ := h.settles (p := p)
    rw [hnext] at hboth
    generalize hprogress : step p d = progress at hboth
    cases hboth with
    | next he =>
      obtain ⟨o, ho, houtcome⟩ := ih _ he
      exact ⟨o, (ends_iff_of_after hd).mpr ((ends_iff_of_next hprogress).mpr ho), houtcome⟩

theorem after_erase {n : Nat} (hd : after p n c = some d) (h : InStep c c') :
    ∃ m d', after p.erase m c' = some d' ∧ InStep d d' := by
  induction n generalizing c c' with
  | zero => exact ⟨0, c', rfl, Option.some.inj hd ▸ h⟩
  | succ n ih =>
    rw [after] at hd
    rcases h.stepsAlike (p := p) with ⟨e, hstep, he, -⟩ | hboth
    · rw [hstep] at hd
      exact ih hd he
    · generalize step p c = progress at hd hboth
      generalize hprogress : step p.erase c' = progress' at hboth
      cases hboth with
      | next he =>
        obtain ⟨m, d', hd', hin⟩ := ih hd he
        refine ⟨m + 1, d', ?_, hin⟩
        rw [after, hprogress]
        exact hd'
      | done o => cases hd

theorem after_of_erase {m : Nat} (hd : after p.erase m c' = some d') (h : InStep c c') :
    ∃ n d, after p n c = some d ∧ InStep d d' := by
  induction m generalizing c c' with
  | zero => exact ⟨0, c, rfl, Option.some.inj hd ▸ h⟩
  | succ m ih =>
    obtain ⟨k, b, hb, -, hboth⟩ := h.settles (p := p)
    rw [after] at hd
    generalize step p.erase c' = progress' at hd hboth
    generalize hprogress : step p b = progress at hboth
    cases hboth with
    | next he =>
      obtain ⟨n, d, hn, hin⟩ := ih hd he
      refine ⟨k + (n + 1), d, ?_, hin⟩
      rw [after_add, hb, Option.bind_some, after, hprogress]
      exact hn
    | done o => cases hd

theorem start_cases (p : Program) (host : Host) :
    (∃ c c', p.start host = .ok c ∧ p.erase.start host = .ok c' ∧ InStep c c') ∨
      ∃ e, p.start host = .error e ∧ p.erase.start host = .error e := by
  have hmains : (p.erase.modules.filter fun m => m.name = mainModule) =
      (p.modules.filter fun m => m.name = mainModule).map module := by
    simp only [Program.erase, List.filter_map]
    rfl
  unfold Program.start
  rw [hmains]
  generalize p.modules.filter (fun m => m.name = mainModule) = mains
  rcases mains with _ | ⟨main, _ | ⟨second, mains⟩⟩
  · exact .inr ⟨_, rfl, rfl⟩
  · have hstart := InStep.same (c := .exec main.body (State.initial host).nextFrame)
      (s := (State.initial host).startModule mainModule) .nil
    have hstate : state ((State.initial host).startModule mainModule) =
        (State.initial host).startModule mainModule :=
      congrArg (·.startModule mainModule) (state_initial host)
    rw [hstate] at hstart
    exact .inl ⟨_, _, rfl, rfl, hstart⟩
  · exact .inr ⟨_, rfl, rfl⟩

theorem shows_iff (hstart : p.start host = .ok c) (hstart' : p.erase.start host = .ok c')
    (h : InStep c c') (now later : Host) :
    p.erase.Shows host now later ↔ p.Shows host now later := by
  simp only [Program.Shows, Program.reaches_iff_of_start hstart,
    Program.reaches_iff_of_start hstart']
  constructor
  · rintro ⟨n, k, b', d', hb', hd', rfl, rfl⟩
    obtain ⟨m, b, hb, hfirst⟩ := after_of_erase hb' h
    obtain ⟨l, d, hd, hsecond⟩ := after_of_erase hd' hfirst
    exact ⟨m, l, b, d, hb, hd, hfirst.host_eq.symm, hsecond.host_eq.symm⟩
  · rintro ⟨n, k, b, d, hb, hd, rfl, rfl⟩
    obtain ⟨m, b', hb', hfirst⟩ := after_erase hb h
    obtain ⟨l, d', hd', hsecond⟩ := after_erase hd hfirst
    exact ⟨m, l, b', d', hb', hd', hfirst.host_eq, hsecond.host_eq⟩

/-- If one of the runs comes to an end, both do, and they end alike. -/
theorem ends_iff (h : InStep c c') (o' : Outcome) :
    Ends p.erase c' o' ↔ ∃ o, Ends p c o ∧ outcome o = o' := by
  constructor
  · intro ho'
    exact Ends.of_erase ho' h
  · rintro ⟨o, ho, rfl⟩
    exact Ends.erase ho h

end Erasing

theorem run_erased (p : Program) (host : Host) : RunsErased p host := by
  rcases Erasing.start_cases p host with ⟨c, c', hstart, hstart', h⟩ | ⟨e, hstart, hstart'⟩
  · refine ⟨fun o' => ?_, Erasing.shows_iff hstart hstart' h⟩
    simp only [Program.run, hstart, hstart']
    exact (Erasing.ends_iff h o').trans
      ⟨fun ⟨o, ⟨n, hn⟩, ho⟩ => ⟨n, o, hn, ho⟩, fun ⟨n, o, hn, ho⟩ => ⟨o, ⟨n, hn⟩, ho⟩⟩
  · refine ⟨fun o' => ?_, fun now later => ?_⟩
    · simp [Program.run, hstart, hstart', Erasing.outcome, Erasing.state_initial]
    · simp [Program.Shows, Program.Reaches, hstart, hstart']

end ModuleScript
