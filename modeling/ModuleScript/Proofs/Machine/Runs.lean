import ModuleScript.Machine.Run

/-!
Reached configurations. A property that holds at the start of a program and that every step keeps
holds of all configurations of a run, whether the run ends or not.
-/

namespace ModuleScript

namespace Program

variable {p : Program} {host : Host} {n : Nat} {c d : Config}

/-- The program comes to `c` after `n` steps. -/
def Reaches (p : Program) (host : Host) (n : Nat) (c : Config) : Prop :=
  ∃ c₀, p.start host = .ok c₀ ∧ Machine.after p n c₀ = some c

theorem reaches_zero_iff : p.Reaches host 0 c ↔ p.start host = .ok c := by
  simp [Reaches, Machine.after]

theorem reaches_iff_of_start (h : p.start host = .ok c) :
    p.Reaches host n d ↔ Machine.after p n c = some d := by
  simp [Reaches, h]

theorem reaches_succ_iff :
    p.Reaches host (n + 1) d ↔ ∃ c, p.Reaches host n c ∧ Machine.step p c = .next d := by
  have hone (c : Config) : Machine.after p 1 c = some d ↔ Machine.step p c = .next d := by
    rw [Machine.after]
    cases Machine.step p c <;> simp [Machine.after]
  simp only [Reaches, Machine.after_add, Option.bind_eq_some_iff, hone]
  constructor
  · rintro ⟨c₀, hstart, c, hc, hstep⟩
    exact ⟨c, ⟨c₀, hstart, hc⟩, hstep⟩
  · rintro ⟨c, ⟨c₀, hstart, hc⟩, hstep⟩
    exact ⟨c₀, hstart, c, hc, hstep⟩

theorem Reaches.unique (h : p.Reaches host n c) (h' : p.Reaches host n d) : c = d := by
  obtain ⟨c₀, hstart, hc⟩ := h
  obtain ⟨d₀, hstart', hd⟩ := h'
  obtain rfl : c₀ = d₀ := Except.ok.inj (hstart.symm.trans hstart')
  exact Option.some.inj (hc.symm.trans hd)

theorem Reaches.exists_before {k : Nat} (h : p.Reaches host n d) (hkn : k ≤ n) :
    ∃ c, p.Reaches host k c := by
  induction n generalizing d with
  | zero => exact ⟨d, Nat.le_zero.mp hkn ▸ h⟩
  | succ n ih =>
    rcases Nat.le_succ_iff.mp hkn with hle | rfl
    · obtain ⟨c, hc, -⟩ := reaches_succ_iff.mp h
      exact ih hc hle
    · exact ⟨d, h⟩

theorem Reaches.induction {P : Nat → Config → Prop} (h : p.Reaches host n c)
    (start : ∀ c, p.start host = .ok c → P 0 c)
    (step : ∀ n c d, p.Reaches host n c → P n c → Machine.step p c = .next d → P (n + 1) d) :
    P n c := by
  induction n generalizing c with
  | zero => exact start c (reaches_zero_iff.mp h)
  | succ n ih =>
    obtain ⟨b, hb, hstep⟩ := reaches_succ_iff.mp h
    exact step n b c hb (ih hb) hstep

theorem Reaches.later {P : Nat → Config → Prop} {k : Nat} (hd : p.Reaches host n d) (hkn : k ≤ n)
    (hc : p.Reaches host k c) (start : P k c)
    (step : ∀ m b e, k ≤ m → p.Reaches host m b → P m b → Machine.step p b = .next e →
      P (m + 1) e) : P n d := by
  induction n generalizing d with
  | zero =>
    obtain rfl : k = 0 := Nat.le_zero.mp hkn
    exact hc.unique hd ▸ start
  | succ n ih =>
    rcases Nat.le_succ_iff.mp hkn with hle | rfl
    · obtain ⟨b, hb, hstep⟩ := reaches_succ_iff.mp hd
      exact step n b d hle hb (ih hb hle) hstep
    · exact hc.unique hd ▸ start

theorem start_eq_ok_iff :
    p.start host = .ok c ↔ ∃ main, (p.modules.filter fun m => m.name = mainModule) = [main] ∧
      c = ⟨.exec main.body 0, [], (State.initial host).startModule mainModule⟩ := by
  rw [start]
  split
  · rename_i hnone
    simp only [hnone, reduceCtorEq, List.ne_cons_self, false_and, exists_false]
  · rename_i main hmain
    simp only [hmain, Except.ok.injEq, List.cons.injEq, and_true, exists_eq_left']
    exact eq_comm
  · -- neither none nor one
    rename_i hne hmany
    constructor
    · intro h
      cases h
    · rintro ⟨main, hmain, -⟩
      exact absurd hmain (hmany main)

theorem module?_main {main : Module}
    (h : (p.modules.filter fun m => m.name = mainModule) = [main]) :
    p.module? mainModule = some main := by
  rw [module?, ← List.head?_filter, h, List.head?_cons]

end Program

end ModuleScript
