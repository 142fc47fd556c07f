import ModuleScript.Proofs.Tandem.Parsers
import ModuleScript.Proofs.Viable.Bounds

/-!
Expressions in tandem. The kinds of the tokens alone tell where an expression ends and what stands
in it. Main statement: `expression_inStep`.
-/

namespace ModuleScript

namespace Parser

variable {ρ : Payloads} {R : List Token → List Token → Prop} {expr : Parser Expr}

def relabelTrailer (ρ : Payloads) : Trailer → Trailer
  | .call args => .call (args.map ρ.expr)
  | .get x => .get (ρ.name x)

theorem apply_relabelTrailer (ρ : Payloads) (e : Expr) (trailer : Trailer) :
    (relabelTrailer ρ trailer).apply (ρ.expr e) = ρ.expr (trailer.apply e) := by
  cases trailer with
  | call args => simp [relabelTrailer, Trailer.apply, Payloads.expr]
  | get x => rfl

theorem foldl_relabelTrailer (ρ : Payloads) (e : Expr) (trailers : List Trailer) :
    (trailers.map (relabelTrailer ρ)).foldl Trailer.apply (ρ.expr e) =
      ρ.expr (trailers.foldl Trailer.apply e) := by
  induction trailers generalizing e with
  | nil => rfl
  | cons trailer trailers ih =>
    rw [List.map_cons, List.foldl_cons, List.foldl_cons, apply_relabelTrailer, ih]

theorem foldr_unary_relabelled (ρ : Payloads) (e : Expr) (signs : List UnaryOp) :
    signs.foldr Expr.unary (ρ.expr e) = ρ.expr (signs.foldr Expr.unary e) := by
  induction signs with
  | nil => rfl
  | cons op signs ih => rw [List.foldr_cons, ih, List.foldr_cons, Payloads.expr]

def relabelRight (ρ : Payloads) (p : BinaryOp × Expr) : BinaryOp × Expr := (p.1, ρ.expr p.2)

theorem foldl_binary_relabelled (ρ : Payloads) (e : Expr) (rest : List (BinaryOp × Expr)) :
    (rest.map (relabelRight ρ)).foldl (fun left p => .binary p.1 left p.2) (ρ.expr e) =
      ρ.expr (rest.foldl (fun left p => .binary p.1 left p.2) e) := by
  induction rest generalizing e with
  | nil => rfl
  | cons p rest ih =>
    have hfirst : Expr.binary (relabelRight ρ p).1 (ρ.expr e) (relabelRight ρ p).2 =
        ρ.expr (.binary p.1 e p.2) := by
      rw [relabelRight, Payloads.expr]
    rw [List.map_cons, List.foldl_cons, List.foldl_cons, hfirst, ih]

theorem startsExpression_token (ρ : Payloads) (t : Token) :
    startsExpression (ρ.token t) = startsExpression t := by
  cases t <;> rfl

section Paired

variable (hR : Pairing ρ R) (h : InStep R ρ.expr expr expr) (hexpr : Advances 1 expr)

include hR

theorem startField?_inStep (h : InStep R ρ.expr expr expr) :
    StartsInStep ρ R ρ.field (startField? expr) (startField? expr) := by
  intro t
  cases t with
  | identifier x =>
    refine .some ⟨hR.passes nofun, bind_inStep (symbol_inStep hR .colon) fun _ => ?_⟩
    exact map_inStep h fun e => rfl
  | _ => exact .none

theorem startExpression?_inStep (h : InStep R ρ.expr expr expr) :
    StartsInStep ρ R ρ.expr (startExpression? expr) (startExpression? expr) := by
  intro t
  rw [startExpression?, startExpression?, startsExpression_token]
  split
  · rename_i ht
    have hlet : t ≠ .keyword .let_ := by
      rintro rfl
      cases ht
    exact .some ⟨hR.passes hlet, unread_inStep hR h.behind⟩
  · exact .none

include h hexpr

theorem operand_inStep : InStep R ρ.expr (operand expr) (operand expr) := by
  have hparens : InStep R ρ.expr (do let e ← expr; symbol .closeParen; pure e)
      (do let e ← expr; symbol .closeParen; pure e) :=
    bind_inStep h fun e => map_inStep (symbol_inStep hR .closeParen) fun _ => rfl
  have hfields := listUntil_inStep hR (ρ.token_eq_symbol_iff .closeBrace) nofun
    (startField?_inStep hR h) (startField?_advances hexpr) (startField?_advances hexpr)
  have hobject : InStep R ρ.expr
      (do let fields ← listUntil (.symbol .closeBrace) (startField? expr); pure (.object fields))
      (do let fields ← listUntil (.symbol .closeBrace) (startField? expr); pure (.object fields)) :=
    map_inStep hfields fun fields => by simp [Payloads.expr]
  refine inStep_of_next hR (fun hnil => .error hnil) fun t ts us hts htail => ?_
  cases t with
  | symbol s =>
    have hrest := htail nofun
    cases s with
    | openParen => exact hparens ts us hrest
    | openBrace => exact hobject ts us hrest
    | _ => exact .error hts
  | keyword k =>
    cases k with
    | null_ => exact .ok rfl (htail nofun)
    | this_ => exact .ok (congrArg Expr.var ρ.name_this.symm) (htail nofun)
    | _ => exact .error hts
  | _ => exact .ok rfl (htail nofun)

theorem startTrailer?_inStep :
    StartsInStep ρ R (relabelTrailer ρ) (startTrailer? expr) (startTrailer? expr) := by
  have hargs := listUntil_inStep hR (ρ.token_eq_symbol_iff .closeParen) nofun
    (startExpression?_inStep hR h) (startExpression?_advances hexpr)
    (startExpression?_advances hexpr)
  intro t
  cases t with
  | symbol s =>
    cases s with
    | openParen => exact .some ⟨hR.passes nofun, map_inStep hargs fun args => rfl⟩
    | dot => exact .some ⟨hR.passes nofun, map_inStep (identifier_inStep hR) fun x => rfl⟩
    | _ => exact .none
  | _ => exact .none

theorem trailed_inStep : InStep R ρ.expr (trailed expr) (trailed expr) := by
  refine bind_inStep (operand_inStep hR h hexpr) fun e => ?_
  exact map_inStep (many_inStep hR (startTrailer?_inStep hR h hexpr)
    (startTrailer?_advances hexpr) (startTrailer?_advances hexpr)) (foldl_relabelTrailer ρ e)

omit h hexpr in
theorem startSign?_inStep : StartsInStep ρ R id startSign? startSign? := by
  intro t
  cases t with
  | symbol s =>
    simp only [startSign?, Payloads.token]
    cases UnaryOp.ofSymbol? s with
    | none => exact .none
    | some op => exact .some ⟨hR.passes (by simp), pure_inStep rfl⟩
  | _ => exact .none

theorem signed_inStep : InStep R ρ.expr (signed expr) (signed expr) := by
  have hsigns := many_inStep hR (startSign?_inStep hR) startSign?_advances startSign?_advances
  refine bind_inStep hsigns fun signs => ?_
  refine map_inStep (trailed_inStep hR h hexpr) fun e => ?_
  rw [List.map_id]
  exact foldr_unary_relabelled ρ e signs

omit h hexpr in
theorem startBinary?_inStep {right : Parser Expr} (h : InStep R ρ.expr right right) (k : Nat) :
    StartsInStep ρ R (relabelRight ρ) (startBinary? k right) (startBinary? k right) := by
  intro t
  cases t with
  | symbol s =>
    simp only [startBinary?, Payloads.token]
    cases BinaryOp.ofSymbol? s with
    | none => exact .none
    | some op =>
      rw [Option.bind_some]
      split
      · exact .some ⟨hR.passes (by simp), map_inStep h fun e => rfl⟩
      · exact .none
  | _ => exact .none

theorem joined_inStep (k : Nat) : InStep R ρ.expr (joined expr k) (joined expr k) := by
  induction k with
  | zero => exact signed_inStep hR h hexpr
  | succ k ih =>
    have hright := joined_advances hexpr k
    have hrest := many_inStep hR (startBinary?_inStep hR ih (k + 1))
      (startBinary?_advances hright (k + 1)) (startBinary?_advances hright (k + 1))
    refine bind_inStep ih fun first => ?_
    exact map_inStep hrest (foldl_binary_relabelled ρ first)

omit h hexpr in
theorem expressionUpTo_inStep (bound : List Token) :
    InStep R ρ.expr (expressionUpTo bound) (expressionUpTo bound) := by
  induction bound with
  | nil => exact fail_inStep ρ.expr .operand
  | cons b bound ih => exact joined_inStep hR ih (expressionUpTo_advances bound) 6

omit h hexpr in
theorem expression_inStep : InStep R ρ.expr expression expression := by
  intro ts us hts
  refine matches_of_bounds (fun _ => expressionUpTo_eq) (fun _ => expressionUpTo_eq) ?_
  exact fun bound => expressionUpTo_inStep hR bound ts us hts

end Paired

end Parser

end ModuleScript
