import ModuleScript.Parser.Stmt

/-!
The grammar of the language, apart from any parser: which lists of tokens are texts of which syntax
trees. The texts of nested expressions and statements are parameters, until `Expression` and
`Statement` close the circle.
-/

namespace ModuleScript

namespace Grammar

/-- Which lists of tokens are texts of which things. -/
abbrev Texts (α : Type) : Type := List Token → α → Prop

abbrev inParens (u : List Token) : List Token := .symbol .openParen :: u ++ [.symbol .closeParen]

abbrev inBraces (u : List Token) : List Token := .symbol .openBrace :: u ++ [.symbol .closeBrace]

section Repetition

variable {α : Type} (item : Texts α)

inductive Many : Texts (List α)
  | nil : Many [] []
  | cons {u v : List Token} {a : α} {as : List α} :
      item u a → Many v as → Many (u ++ v) (a :: as)

/-- Items with commas between them. A comma may stand after the last one. -/
inductive Items : Texts (List α)
  | nil : Items [] []
  | last {u : List Token} {a : α} : item u a → Items u [a]
  | cons {u v : List Token} {a : α} {as : List α} :
      item u a → Items v as → Items (u ++ .symbol .comma :: v) (a :: as)

end Repetition

inductive NameText : Texts Name
  | mk (x : Name) : NameText [.identifier x] x

section Expressions

variable (expr : Texts Expr)

inductive Field : Texts (Name × Expr)
  | mk {u : List Token} {x : Name} {e : Expr} :
      expr u e → Field (.identifier x :: .symbol .colon :: u) (x, e)

inductive Operand : Texts Expr
  | number (x : Float) : Operand [.number x] (.number x)
  | string (s : String) : Operand [.string s] (.string s)
  | boolean (b : Bool) : Operand [.boolean b] (.boolean b)
  | null : Operand [.keyword .null_] .null
  | name (x : Name) : Operand [.identifier x] (.var x)
  | this : Operand [.keyword .this_] (.var thisName)
  | parenthesised {u : List Token} {e : Expr} : expr u e → Operand (inParens u) e
  | object {u : List Token} {fields : List (Name × Expr)} :
      Items (Field expr) u fields → Operand (inBraces u) (.object fields)

inductive Trailed : Texts Expr
  | operand {u : List Token} {e : Expr} : Operand expr u e → Trailed u e
  | call {u v : List Token} {e : Expr} {args : List Expr} :
      Trailed u e → Items expr v args → Trailed (u ++ inParens v) (.call e args)
  | get {u : List Token} {e : Expr} {x : Name} :
      Trailed u e → Trailed (u ++ [.symbol .dot, .identifier x]) (.get e x)

inductive Signed : Texts Expr
  | trailed {u : List Token} {e : Expr} : Trailed expr u e → Signed u e
  | sign {u : List Token} {e : Expr} (op : UnaryOp) :
      Signed u e → Signed (.symbol op.symbol :: u) (.unary op e)

/-- Operators of rank at most `k`. Those of one rank group to the left. -/
inductive Joined : Nat → Texts Expr
  | signed {u : List Token} {e : Expr} : Signed expr u e → Joined 0 u e
  | tighter {k : Nat} {u : List Token} {e : Expr} : Joined k u e → Joined (k + 1) u e
  | binary {k : Nat} {u v : List Token} {left right : Expr} (op : BinaryOp) :
      op.rank = k + 1 → Joined (k + 1) u left → Joined k v right →
        Joined (k + 1) (u ++ .symbol op.symbol :: v) (.binary op left right)

end Expressions

inductive Expression : Texts Expr
  | mk {u : List Token} {e : Expr} : Joined Expression 6 u e → Expression u e

inductive Chain : Texts Expr
  | name (x : Name) : Chain [.identifier x] (.var x)
  | this : Chain [.keyword .this_] (.var thisName)
  | call {u v : List Token} {e : Expr} {args : List Expr} :
      Chain u e → Items Expression v args → Chain (u ++ inParens v) (.call e args)
  | get {u : List Token} {e : Expr} {x : Name} :
      Chain u e → Chain (u ++ [.symbol .dot, .identifier x]) (.get e x)

def DotAfterThis (u : List Token) : Prop :=
  u[0]? = some (.keyword .this_) → u[1]? = some (.symbol .dot)

inductive Member where
  | construct (r : Routine Stmt)
  | method (x : Name) (r : Routine Stmt)

namespace Member

def construct? : Member → Option (Routine Stmt)
  | construct r => some r
  | method _ _ => none

def method? : Member → Option (Name × Routine Stmt)
  | construct _ => none
  | method x r => some (x, r)

end Member

section Statements

variable (stmt : Texts (List Stmt))

inductive BlockText : Texts (List Stmt)
  | mk {u : List Token} {bodies : List (List Stmt)} :
      Many stmt u bodies → BlockText (inBraces u) bodies.flatten

inductive RoutineText : Texts (Routine Stmt)
  | mk {u v : List Token} {params : List Name} {body : List Stmt} :
      Items NameText u params → BlockText stmt v body →
        RoutineText (inParens u ++ v) ⟨params, body⟩

inductive MemberText : Texts Member
  | construct {u : List Token} {r : Routine Stmt} :
      RoutineText stmt u r → MemberText (.keyword .constructor_ :: u) (.construct r)
  | method {u : List Token} {r : Routine Stmt} (x : Name) :
      RoutineText stmt u r → MemberText (.identifier x :: u) (.method x r)

/-- An `if` after `else` is the only statement of the second branch. -/
inductive Conditional : Texts Stmt
  | plain {u v w : List Token} {condition : Expr} {yes no : List Stmt} :
      Expression u condition → BlockText stmt v yes → BlockText stmt w no →
        Conditional (.keyword .if_ :: inParens u ++ v ++ .keyword .else_ :: w)
          (.ite condition yes no)
  | elseIf {u v w : List Token} {condition : Expr} {yes : List Stmt} {no : Stmt} :
      Expression u condition → BlockText stmt v yes → Conditional w no →
        Conditional (.keyword .if_ :: inParens u ++ v ++ .keyword .else_ :: w)
          (.ite condition yes [no])

/-- The text of one statement may stand for two: a declaration and an assignment. -/
inductive StatementWith : Texts (List Stmt)
  | declare (x : Name) :
      StatementWith [.keyword .let_, .identifier x, .symbol .semicolon] [.declare x]
  | declareAs {u : List Token} {e : Expr} (x : Name) : Expression u e →
      StatementWith
        (.keyword .let_ :: .identifier x :: .symbol .assign :: u ++ [.symbol .semicolon])
        [.declare x, .assign x e]
  | ret : StatementWith [.keyword .return_, .symbol .semicolon] [.ret none]
  | retValue {u : List Token} {e : Expr} : Expression u e →
      StatementWith (.keyword .return_ :: u ++ [.symbol .semicolon]) [.ret (some e)]
  | conditional {u : List Token} {s : Stmt} : Conditional stmt u s → StatementWith u [s]
  | loop {u v : List Token} {condition : Expr} {body : List Stmt} :
      Expression u condition → BlockText stmt v body →
        StatementWith (.keyword .while_ :: inParens u ++ v) [.loop condition body]
  | function {u : List Token} {r : Routine Stmt} (x : Name) : RoutineText stmt u r →
      StatementWith (.keyword .function_ :: .identifier x :: u) [.function x r]
  | classDecl {u : List Token} {members : List Member} (x : Name) :
      Many (MemberText stmt) u members → (members.filterMap Member.construct?).length ≤ 1 →
        StatementWith (.keyword .class_ :: .identifier x :: inBraces u)
          [.classDecl x ((members.filterMap Member.construct?).headD ⟨[], []⟩)
            (members.filterMap Member.method?)]
  | importFrom {u : List Token} {names : List Name} (m : Name) : Items NameText u names →
      StatementWith
        (.keyword .import_ :: u ++ [.keyword .from_, .identifier m, .symbol .semicolon])
        [.importFrom m names]
  | assign {u : List Token} {e : Expr} (x : Name) : Expression u e →
      StatementWith (.identifier x :: .symbol .assign :: u ++ [.symbol .semicolon]) [.assign x e]
  | set {u v : List Token} {object e : Expr} (x : Name) :
      Chain u object → DotAfterThis (u ++ [.symbol .dot]) → Expression v e →
        StatementWith
          (u ++ .symbol .dot :: .identifier x :: .symbol .assign :: v ++ [.symbol .semicolon])
          [.set object x e]
  | eval {u : List Token} {e : Expr} :
      Expression u e → DotAfterThis (u ++ [.symbol .semicolon]) →
        StatementWith (u ++ [.symbol .semicolon]) [.eval e]

end Statements

inductive Statement : Texts (List Stmt)
  | mk {u : List Token} {body : List Stmt} : StatementWith Statement u body → Statement u body

inductive ModuleText : Texts Module
  | plain {u : List Token} {body : List Stmt} (x : Name) : BlockText Statement u body →
      ModuleText (.keyword .module_ :: .identifier x :: u) ⟨x, body, []⟩
  | exporting {u v : List Token} {body : List Stmt} {names : List Name} (x : Name) :
      BlockText Statement u body → Items NameText v names →
        ModuleText
          (.keyword .module_ :: .identifier x :: u ++ .keyword .export_ :: v ++
            [.symbol .semicolon])
          ⟨x, body, names⟩

section Repetition

variable {α : Type} {item : Texts α} {u : List Token} {as : List α}

theorem many_iff : Many item u as ↔ u = [] ∧ as = [] ∨
    ∃ v w a bs, u = v ++ w ∧ as = a :: bs ∧ item v a ∧ Many item w bs := by
  constructor
  · rintro (_ | ⟨h, hs⟩)
    · exact .inl ⟨rfl, rfl⟩
    · exact .inr ⟨_, _, _, _, rfl, rfl, h, hs⟩
  · rintro (⟨rfl, rfl⟩ | ⟨v, w, a, bs, rfl, rfl, h, hs⟩)
    · exact .nil
    · exact .cons h hs

theorem items_iff : Items item u as ↔ u = [] ∧ as = [] ∨ (∃ a, as = [a] ∧ item u a) ∨
    ∃ v w a bs, u = v ++ .symbol .comma :: w ∧ as = a :: bs ∧ item v a ∧ Items item w bs := by
  constructor
  · rintro (_ | h | ⟨h, hs⟩)
    · exact .inl ⟨rfl, rfl⟩
    · exact .inr (.inl ⟨_, rfl, h⟩)
    · exact .inr (.inr ⟨_, _, _, _, rfl, rfl, h, hs⟩)
  · rintro (⟨rfl, rfl⟩ | ⟨a, rfl, h⟩ | ⟨v, w, a, bs, rfl, rfl, h, hs⟩)
    · exact .nil
    · exact .last h
    · exact .cons h hs

end Repetition

theorem expression_iff {u : List Token} {e : Expr} : Expression u e ↔ Joined Expression 6 u e :=
  ⟨fun | .mk h => h, .mk⟩

theorem statement_iff {u : List Token} {body : List Stmt} :
    Statement u body ↔ StatementWith Statement u body := ⟨fun | .mk h => h, .mk⟩

end Grammar

end ModuleScript
