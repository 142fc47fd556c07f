import Mathlib.Data.List.Forall2
import ModuleScript.Proofs.Renaming.Rename

/-!
Code before and after renaming. Inside the renamed function the two differ in the name of the
parameter, outside they are the same but for that function. Main statement: `twinBody_of_renamesIn`.
-/

namespace ModuleScript

namespace Renaming

variable {a b : Name} {inside : Bool}

/-- How a name of the first program is written in the second, inside the function or outside. -/
def twinName (a b : Name) (inside : Bool) (x : Name) : Name := if inside then name a b x else x

def Old (b : Name) (inside : Bool) (x : Name) : Prop := inside = true → x ≠ b

theorem twinName_inj {x y : Name} (hx : Old b inside x) (hy : Old b inside y) :
    twinName a b inside x = twinName a b inside y ↔ x = y := by
  cases inside with
  | false => exact Iff.rfl
  | true =>
    have hxb := hx rfl
    have hyb := hy rfl
    simp only [twinName, name, if_true]
    by_cases hxa : x = a
    · by_cases hya : y = a
      · simp [hxa, hya]
      · simp [hxa, hya, Ne.symm hyb, Ne.symm hya]
    · by_cases hya : y = a
      · simp [hxa, hya, hxb]
      · simp [hxa, hya]

theorem twinName_of_ne {x : Name} (h : x ≠ a) : twinName a b inside x = x := by
  cases inside with
  | false => rfl
  | true => simp [twinName, name, h]

inductive TwinField (twin : Expr → Expr → Prop) : Name × Expr → Name × Expr → Prop
  | mk {x : Name} {e e' : Expr} : twin e e' → TwinField twin (x, e) (x, e')

inductive TwinExpr (a b : Name) (inside : Bool) : Expr → Expr → Prop
  | number (x : Float) : TwinExpr a b inside (.number x) (.number x)
  | string (s : String) : TwinExpr a b inside (.string s) (.string s)
  | boolean (c : Bool) : TwinExpr a b inside (.boolean c) (.boolean c)
  | null : TwinExpr a b inside .null .null
  | var {x : Name} : Old b inside x →
      TwinExpr a b inside (.var x) (.var (twinName a b inside x))
  | unary {op : UnaryOp} {e e' : Expr} : TwinExpr a b inside e e' →
      TwinExpr a b inside (.unary op e) (.unary op e')
  | binary {op : BinaryOp} {left left' right right' : Expr} : TwinExpr a b inside left left' →
      TwinExpr a b inside right right' →
        TwinExpr a b inside (.binary op left right) (.binary op left' right')
  | call {callee callee' : Expr} {args args' : List Expr} : TwinExpr a b inside callee callee' →
      List.Forall₂ (TwinExpr a b inside) args args' →
        TwinExpr a b inside (.call callee args) (.call callee' args')
  | object {fs fs' : List (Name × Expr)} :
      List.Forall₂ (TwinField (TwinExpr a b inside)) fs fs' →
        TwinExpr a b inside (.object fs) (.object fs')
  | get {e e' : Expr} {x : Name} : TwinExpr a b inside e e' →
      TwinExpr a b inside (.get e x) (.get e' x)

/-- Statements of a block. The renamed function itself stands outside, and its body is inside. -/
inductive TwinBody (a b : Name) : Bool → List Stmt → List Stmt → Prop
  | nil {inside : Bool} : TwinBody a b inside [] []
  | declare {inside : Bool} {x : Name} {rest rest' : List Stmt} : Old b inside x →
      TwinBody a b inside rest rest' →
        TwinBody a b inside (.declare x :: rest) (.declare (twinName a b inside x) :: rest')
  | assign {inside : Bool} {x : Name} {e e' : Expr} {rest rest' : List Stmt} : Old b inside x →
      TwinExpr a b inside e e' → TwinBody a b inside rest rest' →
        TwinBody a b inside (.assign x e :: rest) (.assign (twinName a b inside x) e' :: rest')
  | ret {inside : Bool} {rest rest' : List Stmt} : TwinBody a b inside rest rest' →
      TwinBody a b inside (.ret none :: rest) (.ret none :: rest')
  | retValue {inside : Bool} {e e' : Expr} {rest rest' : List Stmt} : TwinExpr a b inside e e' →
      TwinBody a b inside rest rest' →
        TwinBody a b inside (.ret (some e) :: rest) (.ret (some e') :: rest')
  | eval {inside : Bool} {e e' : Expr} {rest rest' : List Stmt} : TwinExpr a b inside e e' →
      TwinBody a b inside rest rest' → TwinBody a b inside (.eval e :: rest) (.eval e' :: rest')
  | function {inside : Bool} {x : Name} {params : List Name} {body body' rest rest' : List Stmt} :
      Old b inside x → (∀ y ∈ params, Old b inside y) → TwinBody a b inside body body' →
        TwinBody a b inside rest rest' →
          TwinBody a b inside (.function x ⟨params, body⟩ :: rest)
            (.function (twinName a b inside x) ⟨params.map (twinName a b inside), body'⟩ :: rest')
  | renamed {x : Name} {params : List Name} {body body' rest rest' : List Stmt} :
      a ∈ params → (∀ y ∈ params, Old b true y) → TwinBody a b true body body' →
        TwinBody a b false rest rest' →
          TwinBody a b false (.function x ⟨params, body⟩ :: rest)
            (.function x ⟨params.map (twinName a b true), body'⟩ :: rest')
  | classDecl {inside : Bool} {x : Name} {construct construct' : Routine Stmt}
      {ms ms' : List (Name × Routine Stmt)} {rest rest' : List Stmt} :
      TwinBody a b inside rest rest' →
        TwinBody a b inside (.classDecl x construct ms :: rest)
          (.classDecl x construct' ms' :: rest')
  | ite {inside : Bool} {condition condition' : Expr}
      {yes yes' no no' rest rest' : List Stmt} : TwinExpr a b inside condition condition' →
      TwinBody a b inside yes yes' → TwinBody a b inside no no' →
        TwinBody a b inside rest rest' →
          TwinBody a b inside (.ite condition yes no :: rest) (.ite condition' yes' no' :: rest')
  | loop {inside : Bool} {condition condition' : Expr} {body body' rest rest' : List Stmt} :
      TwinExpr a b inside condition condition' → TwinBody a b inside body body' →
        TwinBody a b inside rest rest' →
          TwinBody a b inside (.loop condition body :: rest) (.loop condition' body' :: rest')
  | set {inside : Bool} {object object' e e' : Expr} {x : Name} {rest rest' : List Stmt} :
      TwinExpr a b inside object object' → TwinExpr a b inside e e' →
        TwinBody a b inside rest rest' →
          TwinBody a b inside (.set object x e :: rest) (.set object' x e' :: rest')
  | importFrom {inside : Bool} {source : Name} {xs : List Name} {rest rest' : List Stmt} :
      (inside = true → a ∉ xs ∧ b ∉ xs) → TwinBody a b inside rest rest' →
        TwinBody a b inside (.importFrom source xs :: rest) (.importFrom source xs :: rest')

theorem TwinBody.exists_of_cons {stmt : Stmt} {rest body' : List Stmt}
    (h : TwinBody a b inside (stmt :: rest) body') :
    ∃ stmt' rest', body' = stmt' :: rest' ∧ TwinBody a b inside rest rest' := by
  cases h
  all_goals exact ⟨_, _, rfl, by assumption⟩

/-! Code outside the renamed function -/

theorem old_false (b x : Name) : Old b false x := nofun

mutual

theorem twinExpr_refl (e : Expr) : TwinExpr a b false e e := by
  cases e with
  | number x => exact .number x
  | string s => exact .string s
  | boolean c => exact .boolean c
  | null => exact .null
  | var x => exact .var (old_false b x)
  | unary op e => exact .unary (twinExpr_refl e)
  | binary op left right => exact .binary (twinExpr_refl left) (twinExpr_refl right)
  | call callee args => exact .call (twinExpr_refl callee) (twinExprs_refl args)
  | object fs => exact .object (twinFields_refl fs)
  | get e x => exact .get (twinExpr_refl e)

theorem twinExprs_refl (es : List Expr) : List.Forall₂ (TwinExpr a b false) es es := by
  cases es with
  | nil => exact .nil
  | cons e es => exact .cons (twinExpr_refl e) (twinExprs_refl es)

theorem twinFields_refl (fs : List (Name × Expr)) :
    List.Forall₂ (TwinField (TwinExpr a b false)) fs fs := by
  match fs with
  | [] => exact .nil
  | (x, e) :: fs => exact .cons (.mk (twinExpr_refl e)) (twinFields_refl fs)

end

theorem map_twinName_false (xs : List Name) : xs.map (twinName a b false) = xs :=
  List.map_id xs

mutual

theorem twinBody_cons (s : Stmt) {rest rest' : List Stmt} (h : TwinBody a b false rest rest') :
    TwinBody a b false (s :: rest) (s :: rest') := by
  match s with
  | .declare x => exact .declare (old_false b x) h
  | .assign x e => exact .assign (old_false b x) (twinExpr_refl e) h
  | .ret none => exact .ret h
  | .ret (some e) => exact .retValue (twinExpr_refl e) h
  | .eval e => exact .eval (twinExpr_refl e) h
  | .function x ⟨params, body⟩ =>
    have hparams : ∀ y ∈ params, Old b false y := fun y _ => old_false b y
    have hfunction := TwinBody.function (old_false b x) hparams (twinBody_refl body) h
    rwa [map_twinName_false] at hfunction
  | .classDecl x construct ms => exact .classDecl h
  | .ite condition yes no =>
    exact .ite (twinExpr_refl condition) (twinBody_refl yes) (twinBody_refl no) h
  | .loop condition body => exact .loop (twinExpr_refl condition) (twinBody_refl body) h
  | .set object x e => exact .set (twinExpr_refl object) (twinExpr_refl e) h
  | .importFrom source xs => exact .importFrom nofun h

theorem twinBody_refl (ss : List Stmt) : TwinBody a b false ss ss := by
  match ss with
  | [] => exact .nil
  | s :: ss => exact twinBody_cons s (twinBody_refl ss)

end

/-! Code inside the renamed function -/

mutual

theorem twinExpr_expr (e : Expr) (h : b ∉ exprNames e) : TwinExpr a b true e (expr a b e) := by
  cases e with
  | number x => exact .number x
  | string s => exact .string s
  | boolean c => exact .boolean c
  | null => exact .null
  | var x => exact .var fun _ hx => h (hx ▸ List.mem_cons_self ..)
  | unary op e => exact .unary (twinExpr_expr e h)
  | binary op left right =>
    obtain ⟨hleft, hright⟩ := not_or.mp (mt List.mem_append.mpr h)
    exact .binary (twinExpr_expr left hleft) (twinExpr_expr right hright)
  | call callee args =>
    obtain ⟨hcallee, hargs⟩ := not_or.mp (mt List.mem_append.mpr h)
    exact .call (twinExpr_expr callee hcallee) (twinExprs_exprs args hargs)
  | object fs => exact .object (twinFields_fields fs h)
  | get e x => exact .get (twinExpr_expr e h)

theorem twinExprs_exprs (es : List Expr) (h : b ∉ exprsNames es) :
    List.Forall₂ (TwinExpr a b true) es (exprs a b es) := by
  cases es with
  | nil => exact .nil
  | cons e es =>
    obtain ⟨he, hes⟩ := not_or.mp (mt List.mem_append.mpr h)
    exact .cons (twinExpr_expr e he) (twinExprs_exprs es hes)

theorem twinFields_fields (fs : List (Name × Expr)) (h : b ∉ fieldsNames fs) :
    List.Forall₂ (TwinField (TwinExpr a b true)) fs (fields a b fs) := by
  match fs, h with
  | [], _ => exact .nil
  | (x, e) :: fs, h =>
    obtain ⟨he, hfs⟩ := not_or.mp (mt List.mem_append.mpr h)
    exact .cons (.mk (twinExpr_expr e he)) (twinFields_fields fs hfs)

end

theorem twinBody_stmts (ss : List Stmt) (hb : b ∉ stmtsNames ss) (ha : a ∉ stmtsImports ss) :
    TwinBody a b true ss (stmts a b ss) := by
  match ss, hb, ha with
  | [], _, _ => exact .nil
  | s :: rest, hb, ha =>
    obtain ⟨hs, hrest⟩ := not_or.mp (mt List.mem_append.mpr hb)
    obtain ⟨has, harest⟩ := not_or.mp (mt List.mem_append.mpr ha)
    have hold {x : Name} {xs : List Name} (h : b ∉ x :: xs) : Old b true x :=
      fun _ hx => h (hx ▸ List.mem_cons_self ..)
    have htwin := twinBody_stmts rest hrest harest
    match s, hs, has with
    | .declare x, hs, _ => exact .declare (hold hs) htwin
    | .assign x e, hs, _ =>
      exact .assign (hold hs) (twinExpr_expr e fun he => hs (List.mem_cons_of_mem x he)) htwin
    | .ret none, _, _ => exact .ret htwin
    | .ret (some e), hs, _ => exact .retValue (twinExpr_expr e hs) htwin
    | .eval e, hs, _ => exact .eval (twinExpr_expr e hs) htwin
    | .function x ⟨params, body⟩, hs, has =>
      have hr : b ∉ params ++ stmtsNames body := fun h => hs (List.mem_cons_of_mem x h)
      obtain ⟨hparams, hbody⟩ := not_or.mp (mt List.mem_append.mpr hr)
      exact .function (hold hs) (fun y hy _ hyb => hparams (hyb ▸ hy))
        (twinBody_stmts body hbody has) htwin
    | .classDecl x construct ms, _, _ => exact .classDecl htwin
    | .ite condition yes no, hs, has =>
      obtain ⟨hcy, hno⟩ := not_or.mp (mt List.mem_append.mpr hs)
      obtain ⟨hcondition, hyes⟩ := not_or.mp (mt List.mem_append.mpr hcy)
      obtain ⟨hayes, hano⟩ := not_or.mp (mt List.mem_append.mpr has)
      exact .ite (twinExpr_expr condition hcondition) (twinBody_stmts yes hyes hayes)
        (twinBody_stmts no hno hano) htwin
    | .loop condition body, hs, has =>
      obtain ⟨hcondition, hbody⟩ := not_or.mp (mt List.mem_append.mpr hs)
      exact .loop (twinExpr_expr condition hcondition) (twinBody_stmts body hbody has) htwin
    | .set object x e, hs, _ =>
      obtain ⟨hobject, he⟩ := not_or.mp (mt List.mem_append.mpr hs)
      exact .set (twinExpr_expr object hobject) (twinExpr_expr e he) htwin
    | .importFrom source xs, hs, has => exact .importFrom (fun _ => ⟨has, hs⟩) htwin

/-! The renamed function and what is around it -/

theorem twinBody_of_renamesIn {body body' : List Stmt} (h : RenamesIn a b body body') :
    TwinBody a b false body body' := by
  induction h with
  | @here x r rest ha himports hnames =>
    obtain ⟨params, body⟩ := r
    obtain ⟨hparams, hbody⟩ := not_or.mp (mt List.mem_append.mpr hnames)
    exact .renamed ha (fun y hy _ hyb => hparams (hyb ▸ hy)) (twinBody_stmts body hbody himports)
      (twinBody_refl rest)
  | @later s _ _ _ ih => exact twinBody_cons s ih
  | @inFunction x params body body' rest _ ih =>
    have hparams : ∀ y ∈ params, Old b false y := fun y _ => old_false b y
    have h := TwinBody.function (old_false b x) hparams ih (twinBody_refl rest)
    rwa [map_twinName_false] at h
  | inConstructor => exact .classDecl (twinBody_refl _)
  | inMethod => exact .classDecl (twinBody_refl _)
  | inYes _ ih => exact .ite (twinExpr_refl _) ih (twinBody_refl _) (twinBody_refl _)
  | inNo _ ih => exact .ite (twinExpr_refl _) (twinBody_refl _) ih (twinBody_refl _)
  | inLoop _ ih => exact .loop (twinExpr_refl _) ih (twinBody_refl _)

end Renaming

end ModuleScript
