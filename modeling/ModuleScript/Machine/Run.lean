import ModuleScript.Machine.Step

/-!
Runs of the machine and of programs. A program runs its only module named Main. Main statement:
`run_add`, a run can be taken up where its limit stopped it, and `run_mono`, a larger limit keeps
the outcome.
-/

namespace ModuleScript

namespace Machine

def run (p : Program) : Nat → Config → Option Outcome
  | 0, _ => none
  | n + 1, c =>
    match step p c with
    | .next c => run p n c
    | .done outcome => some outcome

/-- The configuration after `n` steps, if the run goes on for so long. -/
def after (p : Program) : Nat → Config → Option Config
  | 0, c => some c
  | n + 1, c =>
    match step p c with
    | .next c => after p n c
    | .done _ => none

theorem after_add (p : Program) (m n : Nat) (c : Config) :
    after p (m + n) c = (after p m c).bind (after p n) := by
  induction m generalizing c with
  | zero => simp [after]
  | succ m ih =>
    rw [Nat.succ_add, after, after]
    split
    · exact ih _
    · rfl

theorem run_add {p : Program} {m : Nat} {c d : Config} (h : after p m c = some d) (n : Nat) :
    run p (m + n) c = run p n d := by
  induction m generalizing c with
  | zero =>
    cases h
    rw [Nat.zero_add]
  | succ m ih =>
    rw [Nat.succ_add, run]
    rw [after] at h
    split at h
    · exact ih h
    · cases h

theorem run_mono {p : Program} {n : Nat} {c : Config} {o : Outcome} (h : run p n c = some o)
    (k : Nat) : run p (n + k) c = some o := by
  induction n generalizing c with
  | zero => cases h
  | succ n ih =>
    rw [Nat.succ_add, run]
    rw [run] at h
    split at h
    · exact ih h
    · exact h

end Machine

def mainModule : Name := "Main"

namespace Program

def start (p : Program) (host : Host) : Except Fault Config :=
  match p.modules.filter fun m => m.name = mainModule with
  | [] => .error .noMain
  | [main] =>
    let s := State.initial host
    .ok ⟨.exec main.body s.nextFrame, [], s.startModule mainModule⟩
  | _ => .error .multipleMains

def run (p : Program) (host : Host) (limit : Nat) : Option Outcome :=
  match p.start host with
  | .ok c => Machine.run p limit c
  | .error e => some ⟨.error e, .initial host⟩

end Program

end ModuleScript
