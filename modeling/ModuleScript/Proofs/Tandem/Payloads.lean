import ModuleScript.Stmt

/-!
Tokens and syntax with other payloads. Names, numbers, strings and truth values are replaced
wherever they stand, and may be made equal; only the name for which `this` stands is kept.
-/

namespace ModuleScript

structure Payloads where
  name : Name → Name
  number : Float → Float
  string : String → String
  boolean : Bool → Bool
  name_this : name thisName = thisName

namespace Payloads

section Replacing

variable (ρ : Payloads)

def token : Token → Token
  | .number x => .number (ρ.number x)
  | .string s => .string (ρ.string s)
  | .boolean b => .boolean (ρ.boolean b)
  | .identifier x => .identifier (ρ.name x)
  | t => t

mutual

def expr : Expr → Expr
  | .number x => .number (ρ.number x)
  | .string s => .string (ρ.string s)
  | .boolean b => .boolean (ρ.boolean b)
  | .null => .null
  | .var x => .var (ρ.name x)
  | .unary op e => .unary op (expr e)
  | .binary op left right => .binary op (expr left) (expr right)
  | .call callee args => .call (expr callee) (exprs args)
  | .object fs => .object (fields fs)
  | .get e x => .get (expr e) (ρ.name x)

def exprs : List Expr → List Expr
  | [] => []
  | e :: es => expr e :: exprs es

def fields : List (Name × Expr) → List (Name × Expr)
  | [] => []
  | (x, e) :: fs => (ρ.name x, expr e) :: fields fs

end

mutual

def stmt : Stmt → Stmt
  | .declare x => .declare (ρ.name x)
  | .assign x e => .assign (ρ.name x) (ρ.expr e)
  | .ret none => .ret none
  | .ret (some e) => .ret (some (ρ.expr e))
  | .eval e => .eval (ρ.expr e)
  | .function x r => .function (ρ.name x) (routine r)
  | .classDecl x construct ms => .classDecl (ρ.name x) (routine construct) (methods ms)
  | .ite condition yes no => .ite (ρ.expr condition) (stmts yes) (stmts no)
  | .loop condition body => .loop (ρ.expr condition) (stmts body)
  | .set object x e => .set (ρ.expr object) (ρ.name x) (ρ.expr e)
  | .importFrom source xs => .importFrom (ρ.name source) (xs.map ρ.name)

def stmts : List Stmt → List Stmt
  | [] => []
  | s :: ss => stmt s :: stmts ss

def routine : Routine Stmt → Routine Stmt
  | ⟨params, body⟩ => ⟨params.map ρ.name, stmts body⟩

def methods : List (Name × Routine Stmt) → List (Name × Routine Stmt)
  | [] => []
  | (x, r) :: ms => (ρ.name x, routine r) :: methods ms

end

def field (p : Name × Expr) : Name × Expr := (ρ.name p.1, ρ.expr p.2)

def method (p : Name × Routine Stmt) : Name × Routine Stmt := (ρ.name p.1, ρ.routine p.2)

def module (m : Module) : Module := ⟨ρ.name m.name, ρ.stmts m.body, m.exports.map ρ.name⟩

@[simp] theorem exprs_eq_map (es : List Expr) : ρ.exprs es = es.map ρ.expr := by
  induction es with
  | nil => rfl
  | cons e es ih => rw [exprs, ih, List.map_cons]

@[simp] theorem fields_eq_map (fs : List (Name × Expr)) : ρ.fields fs = fs.map ρ.field := by
  induction fs with
  | nil => rfl
  | cons p fs ih =>
    obtain ⟨x, e⟩ := p
    rw [fields, ih, List.map_cons, field]

@[simp] theorem stmts_eq_map (ss : List Stmt) : ρ.stmts ss = ss.map ρ.stmt := by
  induction ss with
  | nil => rfl
  | cons s ss ih => rw [stmts, ih, List.map_cons]

@[simp] theorem methods_eq_map (ms : List (Name × Routine Stmt)) :
    ρ.methods ms = ms.map ρ.method := by
  induction ms with
  | nil => rfl
  | cons p ms ih =>
    obtain ⟨x, r⟩ := p
    rw [methods, ih, List.map_cons, method]

theorem token_eq_symbol_iff (s : Symbol) (t : Token) :
    ρ.token t = .symbol s ↔ t = .symbol s := by
  cases t <;> simp [token]

theorem token_eq_keyword_iff (k : Keyword) (t : Token) :
    ρ.token t = .keyword k ↔ t = .keyword k := by
  cases t <;> simp [token]

end Replacing

/-! The payloads as they are -/

def same : Payloads where
  name := id
  number := id
  string := id
  boolean := id
  name_this := rfl

theorem token_same (t : Token) : same.token t = t := by
  cases t <;> rfl

theorem map_name_same (xs : List Name) : xs.map same.name = xs := List.map_id xs

mutual

theorem expr_same : ∀ e : Expr, same.expr e = e
  | .number x => rfl
  | .string s => rfl
  | .boolean b => rfl
  | .null => rfl
  | .var x => rfl
  | .unary op e => by rw [expr, expr_same e]
  | .binary op left right => by rw [expr, expr_same left, expr_same right]
  | .call callee args => by rw [expr, expr_same callee, exprs_same args]
  | .object fs => by rw [expr, fields_same fs]
  | .get e x => by rw [expr, expr_same e]; rfl

theorem exprs_same : ∀ es : List Expr, same.exprs es = es
  | [] => rfl
  | e :: es => by rw [exprs, expr_same e, exprs_same es]

theorem fields_same : ∀ fs : List (Name × Expr), same.fields fs = fs
  | [] => rfl
  | (x, e) :: fs => by rw [fields, expr_same e, fields_same fs]; rfl

end

mutual

theorem stmt_same : ∀ s : Stmt, same.stmt s = s
  | .declare x => rfl
  | .assign x e => by rw [stmt, expr_same e]; rfl
  | .ret none => rfl
  | .ret (some e) => by rw [stmt, expr_same e]
  | .eval e => by rw [stmt, expr_same e]
  | .function x r => by rw [stmt, routine_same r]; rfl
  | .classDecl x construct ms => by rw [stmt, routine_same construct, methods_same ms]; rfl
  | .ite condition yes no => by rw [stmt, expr_same condition, stmts_same yes, stmts_same no]
  | .loop condition body => by rw [stmt, expr_same condition, stmts_same body]
  | .set object x e => by rw [stmt, expr_same object, expr_same e]; rfl
  | .importFrom source xs => by rw [stmt, map_name_same]; rfl

theorem stmts_same : ∀ ss : List Stmt, same.stmts ss = ss
  | [] => rfl
  | s :: ss => by rw [stmts, stmt_same s, stmts_same ss]

theorem routine_same : ∀ r : Routine Stmt, same.routine r = r
  | ⟨params, body⟩ => by rw [routine, map_name_same, stmts_same body]

theorem methods_same : ∀ ms : List (Name × Routine Stmt), same.methods ms = ms
  | [] => rfl
  | (x, r) :: ms => by rw [methods, routine_same r, methods_same ms]; rfl

end

theorem module_same (m : Module) : same.module m = m := by
  rw [module, stmts_same, map_name_same]
  rfl

end Payloads

end ModuleScript
