import ModuleScript.Native
import ModuleScript.Proofs.Machine.Runs
import ModuleScript.Proofs.Renaming.Steps

/-!
Runs of two programs of which one is the other with a parameter renamed. They start in lockstep,
every step keeps them there, and so they print the same at every moment and end alike, if they end
at all. Main statement: `run_renamed_parameter`.
-/

namespace ModuleScript

namespace Renaming

variable {a b : Name} {p p' : Program}

theorem run_agrees (hp : TwinProgram a b p p') {c c' : Config} (h : InStep a b c c') (n : Nat) :
    Option.Rel (Outcome.Agrees a b) (Machine.run p n c) (Machine.run p' n c') := by
  induction n generalizing c c' with
  | zero => exact .none
  | succ n ih =>
    unfold Machine.run
    have hstep := step_agrees hp h
    generalize Machine.step p c = progress at hstep ⊢
    generalize Machine.step p' c' = progress' at hstep ⊢
    cases hstep with
    | next hnext => exact ih hnext
    | done houtcome => exact .some houtcome

theorem after_inStep (hp : TwinProgram a b p p') {c c' : Config} (h : InStep a b c c') (n : Nat) :
    Option.Rel (InStep a b) (Machine.after p n c) (Machine.after p' n c') := by
  induction n generalizing c c' with
  | zero => exact .some h
  | succ n ih =>
    unfold Machine.after
    have hstep := step_agrees hp h
    generalize Machine.step p c = progress at hstep ⊢
    generalize Machine.step p' c' = progress' at hstep ⊢
    cases hstep with
    | next hnext => exact ih hnext
    | done houtcome => exact .none

/-! Starts -/

theorem lockstep_empty (a b : Name) : Lockstep a b [] .empty .empty :=
  ⟨⟨rfl, rfl, fun _ => rfl, rfl, nofun, nofun⟩, nofun, nofun⟩

theorem twinState_initial (a b : Name) (host : Host) :
    TwinState a b [] (.initial host) (.initial host) :=
  ⟨lockstep_empty a b, .nil, rfl, nofun, rfl⟩

theorem start_cases (hp : TwinProgram a b p p') (host : Host) :
    (∃ c c', p.start host = .ok c ∧ p'.start host = .ok c' ∧ InStep a b c c') ∨
      ∃ e, p.start host = .error e ∧ p'.start host = .error e := by
  unfold Program.start
  have hmains := hp.named mainModule
  generalize p.modules.filter (fun m => m.name = mainModule) = mains at hmains ⊢
  generalize p'.modules.filter (fun m => m.name = mainModule) = mains' at hmains ⊢
  cases hmains with
  | nil => exact .inr ⟨_, rfl, rfl⟩
  | cons hmain hothers =>
    cases hothers with
    | nil =>
      have hbody := TwinControl.exec (region_last [] false) hmain.body
      have hstate := (twinState_initial a b host).startModule mainModule
      exact .inl ⟨_, _, rfl, rfl, [false], hbody, .nil, hstate⟩
    | cons _ _ => exact .inr ⟨_, rfl, rfl⟩

theorem InStep.host {c c' : Config} (h : InStep a b c c') : c'.state.host = c.state.host := by
  obtain ⟨region, htwin⟩ := h
  exact htwin.state.host

theorem host_iff_of_rel {o o' : Option Config} (h : Option.Rel (InStep a b) o o') {now : Host} :
    (∃ c, o = some c ∧ c.state.host = now) ↔ ∃ c, o' = some c ∧ c.state.host = now := by
  cases h with
  | none => exact Iff.rfl
  | some hstep => simp [hstep.host]

theorem outcome_agrees_refl (o : Outcome) : o.Agrees a b o :=
  ⟨resultsAgree_refl o.result, rfl, rfl, fun _ => rfl, rfl⟩

end Renaming

/--
The programs behave in the same way on the host, up to the names `a` and `b`. One ends within a
number of steps just when the other does, and then they end alike; whatever the host of one is after
a number of steps, what it has printed included, so is the host of the other. Native functions are
isolated (`Native`): they cannot tell the closures of one from those of the other.
-/
structure BehaveAlike (a b : Name) (host : Host) (p p' : Program) : Prop where
  outcomes : ∀ limit, Option.Rel (Outcome.Agrees a b) (p.run host limit) (p'.run host limit)
  hosts : ∀ n now, (∃ c, p.Reaches host n c ∧ c.state.host = now) ↔
    ∃ c, p'.Reaches host n c ∧ c.state.host = now

theorem run_renamed_parameter {a b : Name} {p p' : Program} (h : RenamesParameter a b p p')
    (host : Host) : BehaveAlike a b host p p' := by
  have hp := Renaming.twinProgram_of_renamesParameter h
  rcases Renaming.start_cases hp host with ⟨c, c', hstart, hstart', hstep⟩ | ⟨e, hstart, hstart'⟩
  · refine ⟨fun limit => ?_, fun n now => ?_⟩
    · simp only [Program.run, hstart, hstart']
      exact Renaming.run_agrees hp hstep limit
    · simp only [Program.reaches_iff_of_start hstart, Program.reaches_iff_of_start hstart']
      exact Renaming.host_iff_of_rel (Renaming.after_inStep hp hstep n)
  · refine ⟨fun limit => ?_, fun n now => ?_⟩
    · simp only [Program.run, hstart, hstart']
      exact .some (Renaming.outcome_agrees_refl _)
    · simp [Program.Reaches, hstart, hstart']

def sums (x : Name) : Program where
  modules := [⟨"Main",
    [.importFrom "Native" ["print"],
      .function "adder" ⟨[x],
        [.function "add" ⟨["y"],
            [.assign x (.binary .add (.var x) (.var "y")), .ret (some (.var x))]⟩,
          .ret (some (.var "add"))]⟩,
      .eval (.call (.var "print") [.call (.call (.var "adder") [.number 1]) [.number 2]])], []⟩]
  natives := Native.standard

theorem run_renamed_parameter_sums :
    RenamesParameter "x" "z" (sums "x") (sums "z") ∧
      BehaveAlike "x" "z" ⟨.empty, ⟨"", [], fun _ => 0, 0⟩⟩ (sums "x") (sums "z") := by
  have h : RenamesParameter "x" "z" (sums "x") (sums "z") := by
    refine @RenamesParameter.mk "x" "z" [] [] "Main" [] _ _ _ (.later ?_)
    exact .here (by decide) (by decide) (by decide)
  exact ⟨h, run_renamed_parameter h _⟩

end ModuleScript
