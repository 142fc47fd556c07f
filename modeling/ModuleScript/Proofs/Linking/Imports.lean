import ModuleScript.Proofs.Machine.Changes
import ModuleScript.Proofs.Scoping.Runs

/-!
Imports as they are written, and imports as they are executed. The linked modules are the main
module and those that a linked module imports anywhere in its code, classes apart. Main statement:
`writes_of_executed`, an import that is executed is written in a linked module.
-/

namespace ModuleScript

mutual

/-- The imports that are written in a statement: modules with the names taken from them. -/
def Stmt.imports : Stmt → List (Name × List Name)
  | .importFrom x names => [(x, names)]
  | .function _ r => Stmt.routineImports r
  | .ite _ yes no => Stmt.bodyImports yes ++ Stmt.bodyImports no
  | .loop _ body => Stmt.bodyImports body
  | _ => []

def Stmt.bodyImports : List Stmt → List (Name × List Name)
  | [] => []
  | stmt :: rest => Stmt.imports stmt ++ Stmt.bodyImports rest

def Stmt.routineImports : Routine Stmt → List (Name × List Name)
  | ⟨_, body⟩ => Stmt.bodyImports body

end

def Module.imports (m : Module) : List (Name × List Name) := Stmt.bodyImports m.body

/--
The main module and those that linked modules import. Native functions come from no module.
-/
inductive Linked (modules : List Module) : Name → Prop
  | main : Linked modules mainModule
  | imported {x y : Name} {m : Module} {names : List Name} : Linked modules x →
      modules.find? (fun m => m.name = x) = some m → (y, names) ∈ m.imports → y ≠ nativeModule →
      Linked modules y

def Writes (modules : List Module) (y : Name) (names : List Name) : Prop :=
  ∃ x m, Linked modules x ∧ modules.find? (fun m => m.name = x) = some m ∧ (y, names) ∈ m.imports

section Written

variable {i : Name × List Name} {stmt : Stmt} {body : List Stmt} {b : Block} {m : Module}

theorem mem_bodyImports_of_mem (hstmt : stmt ∈ body) (hi : i ∈ stmt.imports) :
    i ∈ Stmt.bodyImports body := by
  induction body with
  | nil => cases hstmt
  | cons first rest ih =>
    rw [Stmt.bodyImports, List.mem_append]
    rcases List.mem_cons.mp hstmt with rfl | hrest
    · exact .inl hi
    · exact .inr (ih hrest)

theorem mem_imports_of_mem_blocks (hb : b ∈ stmt.blocks) (hi : i ∈ Stmt.bodyImports b.body) :
    i ∈ stmt.imports := by
  cases stmt with
  | function x routine =>
    obtain rfl := List.mem_singleton.mp hb
    obtain ⟨params, body⟩ := b
    rw [Stmt.imports, Stmt.routineImports]
    exact hi
  | ite condition yes no =>
    rw [Stmt.imports, List.mem_append]
    rcases List.mem_cons.mp hb with rfl | hno
    · exact .inl hi
    · obtain rfl := List.mem_singleton.mp hno
      exact .inr hi
  | loop condition body =>
    obtain rfl := List.mem_singleton.mp hb
    exact hi
  | _ => cases hb

theorem mem_imports_of_nests {path : List Block} (h : m.Nests path) :
    ∀ b ∈ path, i ∈ Stmt.bodyImports b.body → i ∈ m.imports := by
  induction h with
  | body => exact List.forall_mem_singleton.mpr id
  | @inside b outer path stmt _ hstmt hb ih =>
    refine List.forall_mem_cons.mpr ⟨fun hi => ?_, ih⟩
    have hinside := mem_imports_of_mem_blocks hb hi
    exact ih outer List.mem_cons_self (mem_bodyImports_of_mem hstmt hinside)

end Written

variable {p : Program} {host : Host} {n : Nat} {c : Config} {x y : Name} {names : List Name}
  {rest : List Stmt} {f : FrameId}

theorem Lexical.exists_loaded {blocks : List Block} (h : Lexical p blocks c)
    (hc : c.control = .exec (.importFrom y names :: rest) f) :
    ∃ x m top, c.state.loaded.find? x = some top ∧ p.module? x = some m ∧
      (y, names) ∈ m.imports := by
  have hfits : (Control.exec (.importFrom y names :: rest) f).Fits blocks := hc ▸ h.control
  obtain ⟨x, m, b, path, hstands, hsuffix⟩ := h.state.stands_at hfits
  have hstmt : .importFrom y names ∈ b.body := hsuffix.subset List.mem_cons_self
  have hwritten : (y, names) ∈ Stmt.bodyImports b.body :=
    mem_bodyImports_of_mem hstmt (by simp [Stmt.imports])
  have hne : c.state.scopes.chain f ≠ [] := List.cons_ne_nil _ _
  have htop := hstands.root.trans (List.getLast?_eq_some_getLast hne)
  have hmem := mem_imports_of_nests hstands.nests b List.mem_cons_self hwritten
  exact ⟨x, m, _, htop, hstands.source, hmem⟩

/-- Only linked modules are started. -/
theorem linked_of_loaded (hc : p.Reaches host n c) (hx : c.state.loaded.find? x = some f) :
    Linked p.modules x := by
  obtain ⟨blocks, hblocks⟩ := exists_blocksOf p host
  refine hc.induction (P := fun _ c => ∀ x f, c.state.loaded.find? x = some f →
    Linked p.modules x) ?_ ?_ x f hx
  · intro c hstart x f hx
    obtain ⟨main, -, rfl⟩ := Program.start_eq_ok_iff.mp hstart
    rw [State.startModule, Table.find?_insert] at hx
    split at hx
    · rename_i hmain
      exact hmain ▸ .main
    · cases hx
  · intro n c d hc ih hstep y f hy
    rcases (Machine.step_change hstep).loaded_cases hy with hold | hstart
    · exact ih y f hold
    · obtain ⟨-, names, rest, g, hcontrol, hne, -, -, -⟩ := hstart
      obtain ⟨x, m, top, htop, hm, hwritten⟩ := (hblocks.lexical n c hc).exists_loaded hcontrol
      exact .imported (ih x top htop) hm hwritten hne

theorem writes_of_executed (hc : p.Reaches host n c)
    (hcontrol : c.control = .exec (.importFrom y names :: rest) f) : Writes p.modules y names := by
  obtain ⟨blocks, hblocks⟩ := exists_blocksOf p host
  obtain ⟨x, m, top, htop, hm, hwritten⟩ := (hblocks.lexical n c hc).exists_loaded hcontrol
  exact ⟨x, m, linked_of_loaded hc htop, hm, hwritten⟩

theorem Writes.linked {modules : List Module} (h : Writes modules y names)
    (hy : y ≠ nativeModule) : Linked modules y := by
  obtain ⟨x, m, hx, hm, hwritten⟩ := h
  exact .imported hx hm hwritten hy

theorem not_linked_nativeModule (modules : List Module) : ¬Linked modules nativeModule := by
  intro h
  generalize hx : nativeModule = x at h
  cases h with
  | main => exact absurd hx (by decide)
  | imported _ _ _ hne => exact hne hx.symm

end ModuleScript
