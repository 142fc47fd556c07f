import ModuleScript.Machine.State

/-!
Blocks and where they stand in a module: the body of the module, the bodies of its functions, loops
and branches, and so on inwards. The members of a class are left out, because declaring a class
does nothing.
-/

namespace ModuleScript

/-- Statements that share a frame, with the parameters that the frame starts with. -/
abbrev Block := Routine Stmt

namespace Stmt

def declared : Stmt → List Name
  | .declare x => [x]
  | .function x _ => [x]
  | .importFrom _ names => names
  | _ => []

def blocks : Stmt → List Block
  | .function _ routine => [routine]
  | .ite _ yes no => [⟨[], yes⟩, ⟨[], no⟩]
  | .loop _ body => [⟨[], body⟩]
  | _ => []

def exprs : Stmt → List Expr
  | .assign _ e => [e]
  | .ret (some e) => [e]
  | .eval e => [e]
  | .ite condition _ _ => [condition]
  | .loop condition _ => [condition]
  | .set object _ e => [object, e]
  | _ => []

end Stmt

namespace Expr

def operands : Expr → List Expr
  | .unary _ e => [e]
  | .binary _ left right => [left, right]
  | .call fn args => fn :: args
  | .object fields => fields.map Prod.snd
  | .get e _ => [e]
  | _ => []

inductive Part (whole : Expr) : Expr → Prop
  | whole : Part whole whole
  | operand {e part : Expr} : Part whole e → part ∈ e.operands → Part whole part

end Expr

namespace Block

def Declares (b : Block) (y : Name) : Prop := y ∈ b.params ∨ ∃ stmt ∈ b.body, y ∈ stmt.declared

def Evaluates (b : Block) (e : Expr) : Prop :=
  ∃ stmt ∈ b.body, ∃ whole ∈ stmt.exprs, Expr.Part whole e

theorem evaluates_of_mem {b : Block} {stmt : Stmt} {e : Expr} (hs : stmt ∈ b.body)
    (he : e ∈ stmt.exprs) : b.Evaluates e :=
  ⟨stmt, hs, e, he, .whole⟩

theorem evaluates_operand {b : Block} {e part : Expr} (h : b.Evaluates e)
    (hp : part ∈ e.operands) : b.Evaluates part := by
  obtain ⟨stmt, hs, whole, hw, he⟩ := h
  exact ⟨stmt, hs, whole, hw, he.operand hp⟩

theorem declares_of_mem {b : Block} {stmt : Stmt} {y : Name} (hs : stmt ∈ b.body)
    (hy : y ∈ stmt.declared) : b.Declares y :=
  .inr ⟨stmt, hs, hy⟩

end Block

/--
The blocks of a list, from the inside out, stand one directly in the next, and the last one is the
body of the module. The length of the list is one more than the depth of nesting.
-/
inductive Module.Nests (m : Module) : List Block → Prop
  | body : Nests m [⟨[], m.body⟩]
  | inside {b outer : Block} {path : List Block} {stmt : Stmt} :
      Nests m (outer :: path) → stmt ∈ outer.body → b ∈ stmt.blocks → Nests m (b :: outer :: path)

end ModuleScript
