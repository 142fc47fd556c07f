import ModuleScript.Proofs.Linking.Imports
import ModuleScript.Proofs.Machine.Agreement

/-!
Native functions are got hold of by importing them. Main statement: `natives_by_import`, a run
holds and calls only native functions that a linked module imports by name, and it does not depend
on the others, provided that the native functions it calls pass on no others.
-/

namespace ModuleScript

def ImportsNative (modules : List Module) (x : Name) : Prop :=
  ∃ names, Writes modules nativeModule names ∧ x ∈ names

def Heap.Holds (h : Heap) (v : Value) : Prop := ∃ o x, (h.fields o).find? x = some v

/--
The native functions that a native function answers with or leaves in objects were among its
arguments or in objects before.
-/
def Native.PassesOn (native : Native) : Prop :=
  ∀ args host x, (native.run args host).1 = .native x ∨
    (native.run args host).2.heap.Holds (.native x) →
      .native x ∈ args ∨ host.heap.Holds (.native x)

def Value.Granted (modules : List Module) (v : Value) : Prop :=
  ∀ x, v = .native x → ImportsNative modules x

/--
What native functions mean for a run. It is the same with both tables, at every moment and at its
end; the native functions that it holds anywhere and those that it calls are imported by name.
Native functions are isolated (`Native`), so none of them calls another one.
-/
structure NativesByImport (modules : List Module) (natives natives' : Table Native)
    (host : Host) : Prop where
  alike : RunAlike ⟨modules, natives⟩ ⟨modules, natives'⟩ host
  held : ∀ n c, Program.Reaches ⟨modules, natives⟩ host n c → c.All (·.Granted modules)
  called : ∀ n c x args, Program.Reaches ⟨modules, natives⟩ host n c →
    c.Calls (.native x) args → ImportsNative modules x

variable {modules : List Module} {natives natives' : Table Native} {host : Host} {n : Nat}
  {c : Config} {x : Name}

theorem Native.PassesOn.keeps {native : Native} (h : native.PassesOn) (modules : List Module) :
    native.Keeps (·.Granted modules) := by
  intro args host hargs hheap
  have hgranted (x : Name) (hx : (native.run args host).1 = .native x ∨
      (native.run args host).2.heap.Holds (.native x)) : ImportsNative modules x := by
    rcases h args host x hx with harg | ⟨o, y, hfield⟩
    · exact hargs _ harg x rfl
    · exact hheap o y _ hfield x rfl
  constructor
  · intro x hx
    exact hgranted x (.inl hx)
  · intro o y v hv x hx
    exact hgranted x (.inr ⟨o, y, hx ▸ hv⟩)

theorem all_granted
    (hpass : ∀ x native, ImportsNative modules x → natives.find? x = some native →
      native.PassesOn)
    (hheap : ∀ x, host.heap.Holds (.native x) → ImportsNative modules x)
    (hc : Program.Reaches ⟨modules, natives⟩ host n c) : c.All (·.Granted modules) := by
  refine hc.induction (P := fun _ c => c.All (·.Granted modules)) ?_ ?_
  · intro c hstart
    apply start_all _ hstart
    intro o y v hv x hx
    exact hheap x ⟨o, y, hx ▸ hv⟩
  · intro n c d hc hall hstep
    refine Machine.step_all ?_ ?_ ?_ ?_ hall hstep
    · intro v hv x hx
      subst hx
      cases hv
    · intro x native hx hfound
      exact (hpass x native (hx x rfl) hfound).keeps modules
    · intro y routine rest f _ x hx
      cases hx
    · intro names rest f hcontrol y hy _ x hx
      obtain rfl := Value.native.inj hx
      exact ⟨names, writes_of_executed hc hcontrol, hy⟩

theorem Config.All.called {P : Value → Prop} {fn : Value} {args : List Value} (h : c.All P)
    (hcall : c.Calls fn args) : P fn := by
  cases hcall with
  | noArguments hcallable => exact h.control fn List.mem_cons_self
  | lastArgument => exact h.stack _ List.mem_cons_self fn List.mem_cons_self

/--
The tables have to agree on the native functions that are imported, and these have to pass on no
others. A host without objects holds no native functions to begin with.
-/
theorem natives_by_import
    (hagree : ∀ x, ImportsNative modules x → natives.find? x = natives'.find? x)
    (hpass : ∀ x native, ImportsNative modules x → natives.find? x = some native →
      native.PassesOn)
    (hheap : ∀ x, host.heap.Holds (.native x) → ImportsNative modules x) :
    NativesByImport modules natives natives' host := by
  have hheld (n : Nat) (c : Config) (hc : Program.Reaches ⟨modules, natives⟩ host n c) :
      c.All (·.Granted modules) :=
    all_granted hpass hheap hc
  have hcalled (n : Nat) (c : Config) (x : Name) (args : List Value)
      (hc : Program.Reaches ⟨modules, natives⟩ host n c) (hcall : c.Calls (.native x) args) :
      ImportsNative modules x :=
    (hheld n c hc).called hcall x rfl
  refine ⟨?_, hheld, hcalled⟩
  apply runAlike_of_agree
  · rfl
  · intro n c hc
    constructor
    · intro x names rest f _ _
      rfl
    · intro names rest f hcontrol x hx
      exact hagree x ⟨names, writes_of_executed hc hcontrol, hx⟩
    · intro x args hcall
      exact hagree x (hcalled n c x args hc hcall)

theorem standard_passesOn {native : Native} (h : Native.standard.find? x = some native) :
    native.PassesOn := by
  intro args host x hx
  have hkeeps : native.Keeps fun v => v.isCallable = true → v ∈ args ∨ host.heap.Holds v :=
    standard_keeps (fun v hv hcallable => absurd hcallable (by simp [hv])) h
  obtain ⟨hanswer, hheap⟩ := hkeeps args host (fun v hv _ => .inl hv)
    (fun o y v hv _ => .inr ⟨o, y, hv⟩)
  rcases hx with hx | ⟨o, y, hy⟩
  · rw [hx] at hanswer
    exact hanswer rfl
  · exact hheap o y _ hy rfl

/-- A module that greets through another one, which imports a native function for it. -/
def greeting : List Module :=
  [⟨"Main", [.importFrom "Lib" ["greet"], .eval (.call (.var "greet") [])], []⟩,
    ⟨"Lib", [.importFrom "Native" ["print"],
      .function "greet" ⟨[], [.eval (.call (.var "print") [.string "hello"])]⟩], ["greet"]⟩]

theorem linked_greeting (h : Linked greeting x) : x = "Main" ∨ x = "Lib" := by
  induction h with
  | main => exact .inl rfl
  | @imported x y m names _ hm hmem hne ih =>
    rcases ih with rfl | rfl
    · obtain rfl := Option.some.inj hm
      have hy : (y, names) = ("Lib", ["greet"]) := List.mem_singleton.mp hmem
      exact .inr (congrArg Prod.fst hy)
    · obtain rfl := Option.some.inj hm
      have hy : (y, names) = ("Native", ["print"]) := List.mem_singleton.mp hmem
      exact absurd (congrArg Prod.fst hy) hne

theorem importsNative_greeting (h : ImportsNative greeting x) : x = "print" := by
  obtain ⟨names, ⟨y, m, hy, hm, hmem⟩, hx⟩ := h
  rcases linked_greeting hy with rfl | rfl
  · obtain rfl := Option.some.inj hm
    have hnames : (nativeModule, names) = ("Lib", ["greet"]) := List.mem_singleton.mp hmem
    have hname : nativeModule = "Lib" := congrArg Prod.fst hnames
    exact absurd hname (by decide)
  · obtain rfl := Option.some.inj hm
    have hnames : (nativeModule, names) = ("Native", ["print"]) := List.mem_singleton.mp hmem
    rw [(Prod.mk.inj hnames).2] at hx
    exact List.mem_singleton.mp hx

def handsOut (x : Name) : Native := ⟨0, fun _ host => (.native x, host)⟩

theorem natives_by_import_greeting :
    ImportsNative greeting "print" ∧ NativesByImport greeting Native.standard
      (Native.standard.insert "clock" (handsOut "readString"))
      ⟨.empty, ⟨"", [], fun _ => 0, 0⟩⟩ := by
  have hmain : Linked greeting "Main" := .main
  have hlib : Linked greeting "Lib" := .imported hmain rfl List.mem_cons_self (by decide)
  refine ⟨⟨["print"], ⟨"Lib", _, hlib, rfl, List.mem_cons_self⟩, List.mem_cons_self⟩, ?_⟩
  apply natives_by_import
  · intro x hx
    obtain rfl := importsNative_greeting hx
    rfl
  · intro x native _ hfound
    exact standard_passesOn hfound
  · intro x hx
    obtain ⟨o, y, hy⟩ := hx
    cases hy

end ModuleScript
