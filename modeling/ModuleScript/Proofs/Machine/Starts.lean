import ModuleScript.Proofs.Machine.Changes

/-!
Starts of modules. Main statement: `starts_once`, every module starts at most once and the main
module exactly once, its top frame is registered before that and for good, and no module starts
under the name of the native functions.
-/

namespace ModuleScript

open Machine

/-- After `n` steps the body of the module `x` is about to be run in the frame `f`. -/
inductive StartsAt (p : Program) (host : Host) : Nat → Name → List Stmt → FrameId → Prop
  | main {body : List Stmt} {f : FrameId} {stack : List Pending} {s : State} :
      p.Reaches host 0 ⟨.exec body f, stack, s⟩ → StartsAt p host 0 mainModule body f
  | imported {n : Nat} {x : Name} {names : List Name} {rest body : List Stmt} {f g : FrameId}
      {stack stack' : List Pending} {s s' : State} :
      p.Reaches host n ⟨.exec (.importFrom x names :: rest) g, stack, s⟩ →
      p.Reaches host (n + 1) ⟨.exec body f, stack', s'⟩ → StartsAt p host (n + 1) x body f

/--
Starts of modules in a run. All but the main module start by import only, because native functions
are isolated (`Native`).
-/
structure StartsOnce (p : Program) (host : Host) (main : Module) : Prop where
  main : ∃ f, StartsAt p host 0 mainModule main.body f
  once : ∀ {x n n' body body' f f'},
    StartsAt p host n x body f → StartsAt p host n' x body' f' → n = n'
  imported : ∀ {x n body f}, StartsAt p host n x body f → x ≠ mainModule →
    ∃ k names rest g stack s,
      n = k + 1 ∧ p.Reaches host k ⟨.exec (.importFrom x names :: rest) g, stack, s⟩
  first : ∀ {x n body f}, StartsAt p host n x body f →
    ∃ m, p.module? x = some m ∧ body = m.body
  registered : ∀ {x n body f c}, StartsAt p host n x body f → p.Reaches host n c →
    c.state.loaded.find? x = some f
  kept : ∀ {x f k n c d}, k ≤ n → p.Reaches host k c → p.Reaches host n d →
    c.state.loaded.find? x = some f → d.state.loaded.find? x = some f
  started : ∀ {x f n c}, p.Reaches host n c → c.state.loaded.find? x = some f →
    ∃ k ≤ n, ∃ body, StartsAt p host k x body f
  native : ∀ {n body f}, ¬StartsAt p host n nativeModule body f
  top : ∀ {f n c}, p.Reaches host n c → f < c.state.nextFrame → c.state.scopes.chain f = [f] →
    ∃ k ≤ n, ∃ x body, StartsAt p host k x body f

variable {p : Program} {host : Host} {main : Module} {x : Name} {n k : Nat} {body : List Stmt}
  {f : FrameId} {c d : Config}

theorem importFrom_eq_exec {names : List Name} {g : FrameId} {stack stack' : List Pending}
    {s s' : State} (h : importFrom p x names g stack s = ⟨.exec body f, stack', s'⟩) :
    x ≠ nativeModule ∧ s.loaded.find? x = none ∧ s'.loaded.find? x = some f ∧
      ∃ m, p.module? x = some m ∧ body = m.body := by
  have hfinish (result : Option Fault × Scopes Value) :
      finishImport result stack s ≠ ⟨.exec body f, stack', s'⟩ := by
    obtain ⟨fault, scopes⟩ := result
    intro hexec
    cases fault <;> cases hexec
  rw [importFrom] at h
  split at h
  · exact absurd h (hfinish _)
  · rename_i hx
    cases hm : p.module? x with
    | none =>
      rw [hm] at h
      cases h
    | some m =>
      cases hl : s.loaded.find? x with
      | some source =>
        simp only [hm, hl] at h
        exact absurd h (hfinish _)
      | none =>
        simp only [hm, hl] at h
        cases h
        have hfound : (s.startModule x).loaded.find? x = some s.nextFrame := by
          rw [State.startModule, Table.find?_insert, if_pos rfl]
        exact ⟨hx, rfl, hfound, m, rfl, rfl⟩

theorem find?_loaded_of_reaches (hkn : k ≤ n) (hc : p.Reaches host k c)
    (hd : p.Reaches host n d) (hx : c.state.loaded.find? x = some f) :
    d.state.loaded.find? x = some f :=
  hd.later (P := fun _ d => d.state.loaded.find? x = some f) hkn hc hx
    fun _ _ _ _ _ hb hstep => (step_change hstep).find?_loaded hb

theorem reaches_zero_of_main
    (hmain : (p.modules.filter fun m => m.name = mainModule) = [main]) :
    p.Reaches host 0 ⟨.exec main.body 0, [], (State.initial host).startModule mainModule⟩ :=
  Program.reaches_zero_iff.mpr (Program.start_eq_ok_iff.mpr ⟨main, hmain, rfl⟩)

theorem StartsAt.importFrom_eq {names : List Name} {rest : List Stmt} {g : FrameId}
    {stack : List Pending} {s : State}
    (h : p.Reaches host n ⟨.exec (.importFrom x names :: rest) g, stack, s⟩)
    (hd : p.Reaches host (n + 1) d) : importFrom p x names g (.next rest g :: stack) s = d := by
  obtain ⟨c, hc, hstep⟩ := Program.reaches_succ_iff.mp hd
  obtain rfl := hc.unique h
  exact Progress.next.inj hstep

theorem StartsAt.spec (hmain : (p.modules.filter fun m => m.name = mainModule) = [main])
    (h : StartsAt p host n x body f) :
    x ≠ nativeModule ∧ (∃ m, p.module? x = some m ∧ body = m.body) ∧
      ∀ c, p.Reaches host n c → c.state.loaded.find? x = some f := by
  cases h with
  | main hstart =>
    have heq := hstart.unique (reaches_zero_of_main hmain)
    cases heq
    refine ⟨by decide, ⟨main, Program.module?_main hmain, rfl⟩, fun c hc => ?_⟩
    obtain rfl := hc.unique hstart
    rfl
  | imported himport hbody =>
    have hstep := StartsAt.importFrom_eq himport hbody
    obtain ⟨hx, -, hfound, hm⟩ := importFrom_eq_exec hstep
    exact ⟨hx, hm, fun c hc => hbody.unique hc ▸ hfound⟩

theorem StartsAt.find?_loaded_before (h : StartsAt p host n x body f) (hk : k < n)
    (hc : p.Reaches host k c) : c.state.loaded.find? x = none := by
  cases h with
  | main hstart => exact absurd hk (Nat.not_lt_zero k)
  | @imported n _ names rest _ _ g stack _ s _ himport hbody =>
    obtain ⟨-, hnone, -⟩ := importFrom_eq_exec (StartsAt.importFrom_eq himport hbody)
    cases hx : c.state.loaded.find? x with
    | none => rfl
    | some f' =>
      -- it would still be registered at the import
      have hlater := find?_loaded_of_reaches (Nat.le_of_lt_succ hk) hc himport hx
      cases hnone.symm.trans hlater

theorem StartsAt.reaches (h : StartsAt p host n x body f) : ∃ c, p.Reaches host n c := by
  cases h with
  | main hstart => exact ⟨_, hstart⟩
  | imported himport hbody => exact ⟨_, hbody⟩

theorem StartsAt.not_before (hmain : (p.modules.filter fun m => m.name = mainModule) = [main])
    {body' : List Stmt} {f' : FrameId} (h : StartsAt p host k x body f)
    (h' : StartsAt p host n x body' f') : ¬k < n := by
  intro hk
  obtain ⟨c, hc⟩ := h.reaches
  have hsome := (h.spec hmain).2.2 c hc
  have hnone := h'.find?_loaded_before hk hc
  cases hnone.symm.trans hsome

theorem startsAt_of_import {m : Module} {names : List Name} {rest : List Stmt} {g : FrameId}
    (hc : p.Reaches host n c) (hstep : step p c = .next d)
    (hcontrol : c.control = .exec (.importFrom x names :: rest) g) (hx : x ≠ nativeModule)
    (hm : p.module? x = some m) (hnone : c.state.loaded.find? x = none) :
    StartsAt p host (n + 1) x m.body c.state.nextFrame := by
  have hd := Program.reaches_succ_iff.mpr ⟨c, hc, hstep⟩
  obtain ⟨control, stack, s⟩ := c
  obtain rfl : control = _ := hcontrol
  have hbody : importFrom p x names g (.next rest g :: stack) s = d := Progress.next.inj hstep
  rw [importFrom, if_neg hx] at hbody
  simp only [hm, hnone] at hbody
  subst hbody
  exact .imported hc hd

theorem exists_startsAt_of_loaded (hc : p.Reaches host n c)
    (hx : c.state.loaded.find? x = some f) : ∃ k ≤ n, ∃ body, StartsAt p host k x body f := by
  refine hc.induction (P := fun n c => ∀ x f, c.state.loaded.find? x = some f →
    ∃ k ≤ n, ∃ body, StartsAt p host k x body f) ?_ ?_ x f hx
  · intro c hstart x f hx
    have hreaches := Program.reaches_zero_iff.mpr hstart
    obtain ⟨main, -, rfl⟩ := Program.start_eq_ok_iff.mp hstart
    rw [State.startModule, Table.find?_insert] at hx
    split at hx
    · rename_i hmain
      cases hx
      exact ⟨0, Nat.le_refl 0, main.body, hmain ▸ .main hreaches⟩
    · cases hx
  · intro n c d hc ih hstep x f hx
    rcases (step_change hstep).loaded_cases hx with hold | hstart
    · obtain ⟨k, hk, hstarts⟩ := ih x f hold
      exact ⟨k, Nat.le_succ_of_le hk, hstarts⟩
    · obtain ⟨m, names, rest, g, hcontrol, hne, hm, hnone, rfl⟩ := hstart
      exact ⟨n + 1, Nat.le_refl _, m.body, startsAt_of_import hc hstep hcontrol hne hm hnone⟩

/-- A frame with nothing around it was made for the start of a module. -/
theorem exists_startsAt_of_chain (hc : p.Reaches host n c) (hf : f < c.state.nextFrame)
    (hchain : c.state.scopes.chain f = [f]) : ∃ k ≤ n, ∃ x body, StartsAt p host k x body f := by
  refine hc.induction (P := fun n c => ∀ f, f < c.state.nextFrame → c.state.scopes.chain f = [f] →
    ∃ k ≤ n, ∃ x body, StartsAt p host k x body f) ?_ ?_ f hf hchain
  · intro c hstart f hf _
    have hreaches := Program.reaches_zero_iff.mpr hstart
    obtain ⟨main, -, rfl⟩ := Program.start_eq_ok_iff.mp hstart
    have hsize : (State.initial host).scopes.newRoot.nextFrame = 1 := Scopes.nextFrame_newFrame _ _
    obtain rfl : f = 0 := Nat.lt_one_iff.mp (Nat.lt_of_lt_of_eq hf hsize)
    exact ⟨0, Nat.le_refl 0, mainModule, main.body, .main hreaches⟩
  · intro n c d hc ih hstep f hf hchain
    rcases (step_change hstep).chain_cases hf with ⟨hold, hsame⟩ | ⟨g, hinside⟩ | hstart
    · obtain ⟨k, hk, hstarts⟩ := ih f hold (hsame.symm.trans hchain)
      exact ⟨k, Nat.le_succ_of_le hk, hstarts⟩
    · -- a frame inside another one has something around it
      have hnil : c.state.scopes.chain g = [] := List.tail_eq_of_cons_eq (hinside.symm.trans hchain)
      cases hnil
    · obtain ⟨x, m, names, rest, g, hcontrol, hx, hm, hnone, rfl⟩ := hstart
      have hstarts := startsAt_of_import hc hstep hcontrol hx hm hnone
      exact ⟨n + 1, Nat.le_refl _, x, m.body, hstarts⟩

/--
In every run of a program with one main module, whatever modules import each other and however
often, and whether the run ends or not.
-/
theorem starts_once (p : Program) (host : Host) (main : Module)
    (hmain : (p.modules.filter fun m => m.name = mainModule) = [main]) :
    StartsOnce p host main where
  main := ⟨0, .main (reaches_zero_of_main hmain)⟩
  once h h' := by
    have hle := Nat.le_of_not_lt (h.not_before hmain h')
    have hge := Nat.le_of_not_lt (h'.not_before hmain h)
    exact Nat.le_antisymm hge hle
  imported h hx := by
    cases h with
    | main hstart => exact absurd rfl hx
    | imported himport hbody => exact ⟨_, _, _, _, _, _, rfl, himport⟩
  first h := (h.spec hmain).2.1
  registered h hc := (h.spec hmain).2.2 _ hc
  kept hkn hc hd hx := find?_loaded_of_reaches hkn hc hd hx
  started hc hx := exists_startsAt_of_loaded hc hx
  native h := (h.spec hmain).1 rfl
  top hc hf hchain := exists_startsAt_of_chain hc hf hchain

def mutualImports : Program where
  modules := [⟨"Main", [.importFrom "Lib" []], []⟩, ⟨"Lib", [.importFrom "Main" []], []⟩]
  natives := ∅

theorem starts_once_mutualImports :
    StartsOnce mutualImports ⟨.empty, ⟨"", [], fun _ => 0, 0⟩⟩
        ⟨"Main", [.importFrom "Lib" []], []⟩ ∧
      StartsAt mutualImports ⟨.empty, ⟨"", [], fun _ => 0, 0⟩⟩ 1 "Lib"
        [.importFrom "Main" []] 1 := by
  have hlib : "Lib" ≠ nativeModule := by decide
  have hfound : mutualImports.module? "Lib" = some ⟨"Lib", [.importFrom "Main" []], []⟩ := rfl
  refine ⟨starts_once _ _ _ rfl, ?_⟩
  exact startsAt_of_import (reaches_zero_of_main rfl) rfl rfl hlib hfound rfl

end ModuleScript
