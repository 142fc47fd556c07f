import ModuleScript.Machine.Config

/-!
Renaming a parameter. The new name replaces the old one in the parameters of one function and
throughout its body: where variables are read, assigned to and declared, and in the names and
parameters of the functions inside. Names of fields, methods, classes and modules stay.
-/

namespace ModuleScript

namespace Renaming

def name (a b x : Name) : Name := if x = a then b else x

section Replacing

variable (a b : Name)

mutual

def expr : Expr → Expr
  | .number x => .number x
  | .string s => .string s
  | .boolean c => .boolean c
  | .null => .null
  | .var x => .var (name a b x)
  | .unary op e => .unary op (expr e)
  | .binary op left right => .binary op (expr left) (expr right)
  | .call callee args => .call (expr callee) (exprs args)
  | .object fs => .object (fields fs)
  | .get e x => .get (expr e) x

def exprs : List Expr → List Expr
  | [] => []
  | e :: es => expr e :: exprs es

def fields : List (Name × Expr) → List (Name × Expr)
  | [] => []
  | (x, e) :: fs => (x, expr e) :: fields fs

end

mutual

def stmt : Stmt → Stmt
  | .declare x => .declare (name a b x)
  | .assign x e => .assign (name a b x) (expr a b e)
  | .ret none => .ret none
  | .ret (some e) => .ret (some (expr a b e))
  | .eval e => .eval (expr a b e)
  | .function x r => .function (name a b x) (routine r)
  | .classDecl x construct ms => .classDecl x (routine construct) (methods ms)
  | .ite condition yes no => .ite (expr a b condition) (stmts yes) (stmts no)
  | .loop condition body => .loop (expr a b condition) (stmts body)
  | .set object x e => .set (expr a b object) x (expr a b e)
  | .importFrom source xs => .importFrom source xs

def stmts : List Stmt → List Stmt
  | [] => []
  | s :: ss => stmt s :: stmts ss

def routine : Routine Stmt → Routine Stmt
  | ⟨params, body⟩ => ⟨params.map (name a b), stmts body⟩

def methods : List (Name × Routine Stmt) → List (Name × Routine Stmt)
  | [] => []
  | (x, r) :: ms => (x, routine r) :: methods ms

end

end Replacing

/-! The names that occur as names of variables, and among them those that are imported -/

mutual

def exprNames : Expr → List Name
  | .var x => [x]
  | .unary _ e => exprNames e
  | .binary _ left right => exprNames left ++ exprNames right
  | .call callee args => exprNames callee ++ exprsNames args
  | .object fs => fieldsNames fs
  | .get e _ => exprNames e
  | _ => []

def exprsNames : List Expr → List Name
  | [] => []
  | e :: es => exprNames e ++ exprsNames es

def fieldsNames : List (Name × Expr) → List Name
  | [] => []
  | (_, e) :: fs => exprNames e ++ fieldsNames fs

end

mutual

def stmtNames : Stmt → List Name
  | .declare x => [x]
  | .assign x e => x :: exprNames e
  | .ret none => []
  | .ret (some e) => exprNames e
  | .eval e => exprNames e
  | .function x r => x :: routineNames r
  | .classDecl _ construct ms => routineNames construct ++ methodsNames ms
  | .ite condition yes no => exprNames condition ++ stmtsNames yes ++ stmtsNames no
  | .loop condition body => exprNames condition ++ stmtsNames body
  | .set object _ e => exprNames object ++ exprNames e
  | .importFrom _ xs => xs

def stmtsNames : List Stmt → List Name
  | [] => []
  | s :: ss => stmtNames s ++ stmtsNames ss

def routineNames : Routine Stmt → List Name
  | ⟨params, body⟩ => params ++ stmtsNames body

def methodsNames : List (Name × Routine Stmt) → List Name
  | [] => []
  | (_, r) :: ms => routineNames r ++ methodsNames ms

end

mutual

def stmtImports : Stmt → List Name
  | .function _ r => routineImports r
  | .classDecl _ construct ms => routineImports construct ++ methodsImports ms
  | .ite _ yes no => stmtsImports yes ++ stmtsImports no
  | .loop _ body => stmtsImports body
  | .importFrom _ xs => xs
  | _ => []

def stmtsImports : List Stmt → List Name
  | [] => []
  | s :: ss => stmtImports s ++ stmtsImports ss

def routineImports : Routine Stmt → List Name
  | ⟨_, body⟩ => stmtsImports body

def methodsImports : List (Name × Routine Stmt) → List Name
  | [] => []
  | (_, r) :: ms => routineImports r ++ methodsImports ms

end

end Renaming

/--
The second body is the first one with the parameter `a` of one function renamed to `b`. The function
may stand anywhere inside. It imports nothing under the name `a`, and `b` names nothing in it.
-/
inductive RenamesIn (a b : Name) : List Stmt → List Stmt → Prop
  | here {x : Name} {r : Routine Stmt} {rest : List Stmt} :
      a ∈ r.params → a ∉ Renaming.routineImports r → b ∉ Renaming.routineNames r →
        RenamesIn a b (.function x r :: rest) (.function x (Renaming.routine a b r) :: rest)
  | later {s : Stmt} {rest rest' : List Stmt} :
      RenamesIn a b rest rest' → RenamesIn a b (s :: rest) (s :: rest')
  | inFunction {x : Name} {params : List Name} {body body' rest : List Stmt} :
      RenamesIn a b body body' →
        RenamesIn a b (.function x ⟨params, body⟩ :: rest) (.function x ⟨params, body'⟩ :: rest)
  | inConstructor {x : Name} {params : List Name} {body body' rest : List Stmt}
      {ms : List (Name × Routine Stmt)} :
      RenamesIn a b body body' →
        RenamesIn a b (.classDecl x ⟨params, body⟩ ms :: rest)
          (.classDecl x ⟨params, body'⟩ ms :: rest)
  | inMethod {x y : Name} {params : List Name} {body body' rest : List Stmt}
      {construct : Routine Stmt} {before after : List (Name × Routine Stmt)} :
      RenamesIn a b body body' →
        RenamesIn a b (.classDecl x construct (before ++ (y, ⟨params, body⟩) :: after) :: rest)
          (.classDecl x construct (before ++ (y, ⟨params, body'⟩) :: after) :: rest)
  | inYes {condition : Expr} {yes yes' no rest : List Stmt} :
      RenamesIn a b yes yes' →
        RenamesIn a b (.ite condition yes no :: rest) (.ite condition yes' no :: rest)
  | inNo {condition : Expr} {yes no no' rest : List Stmt} :
      RenamesIn a b no no' →
        RenamesIn a b (.ite condition yes no :: rest) (.ite condition yes no' :: rest)
  | inLoop {condition : Expr} {body body' rest : List Stmt} :
      RenamesIn a b body body' →
        RenamesIn a b (.loop condition body :: rest) (.loop condition body' :: rest)

/-- The second program is the first one with a parameter renamed in one of the modules. -/
inductive RenamesParameter (a b : Name) : Program → Program → Prop
  | mk {before after : List Module} {x : Name} {exports : List Name} {body body' : List Stmt}
      {natives : Table Native} :
      RenamesIn a b body body' →
        RenamesParameter a b ⟨before ++ ⟨x, body, exports⟩ :: after, natives⟩
          ⟨before ++ ⟨x, body', exports⟩ :: after, natives⟩

def Fault.exchange (a b : Name) (e : Fault) : Fault :=
  let other (x : Name) : Name := if x = a then b else if x = b then a else x
  match e with
  | .notInScope x => .notInScope (other x)
  | .unassigned x => .unassigned (other x)
  | .noSuchModule x => .noSuchModule (other x)
  | .noSuchExport x => .noSuchExport (other x)
  | e => e

def Fault.Agrees (a b : Name) (e e' : Fault) : Prop := e' = e ∨ e' = e.exchange a b

inductive ResultsAgree (a b : Name) : Except Fault Value → Except Fault Value → Prop
  | ok (v : Value) : ResultsAgree a b (.ok v) (.ok v)
  | error {e e' : Fault} : e.Agrees a b e' → ResultsAgree a b (.error e) (.error e')

/--
Two runs have ended in the same way: nothing differs but the names under which frames hold their
cells, the bodies and the names of the parameters of closures, and a name in a fault.
-/
structure Outcome.Agrees (a b : Name) (o o' : Outcome) : Prop where
  result : ResultsAgree a b o.result o'.result
  host : o'.state.host = o.state.host
  cells : o'.state.scopes.cells = o.state.scopes.cells
  chain : ∀ f, o'.state.scopes.chain f = o.state.scopes.chain f
  closures : o'.state.closures.map (fun c => (c.routine.params.length, c.frame)) =
    o.state.closures.map (fun c => (c.routine.params.length, c.frame))

end ModuleScript
