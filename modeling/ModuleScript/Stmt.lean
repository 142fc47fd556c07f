import ModuleScript.Expr

/-!
Statements, routines and modules. A module has a body that runs once and a list of names that others
may import from it.
-/

namespace ModuleScript

structure Routine (α : Type) where
  params : List Name
  body : List α

inductive Stmt where
  | declare (x : Name)
  | assign (x : Name) (e : Expr)
  | ret (e : Option Expr)
  | eval (e : Expr)
  | function (x : Name) (routine : Routine Stmt)
  | classDecl (x : Name) (construct : Routine Stmt) (methods : List (Name × Routine Stmt))
  | ite (condition : Expr) (yes no : List Stmt)
  | loop (condition : Expr) (body : List Stmt)
  | set (object : Expr) (x : Name) (e : Expr)
  | importFrom (source : Name) (names : List Name)

structure Module where
  name : Name
  body : List Stmt
  exports : List Name

end ModuleScript
