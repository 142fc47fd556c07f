import ModuleScript.Proofs.Tandem.Expr

/-!
Statements in tandem. Here the tokens behind the first one are given as paired, so that a `let` may
come first as well; what goes on inside a block is left open. Main statement:
`statementWith_inStep`.
-/

namespace ModuleScript

namespace Parser

variable {ρ : Payloads} {R : List Token → List Token → Prop} {stmt : Parser (List Stmt)}

def statements (stmt : Parser (List Stmt)) : Parser (List Stmt) := do
  let bodies ← many (startStatement? stmt)
  pure bodies.flatten

theorem block_eq (stmt : Parser (List Stmt)) :
    block stmt = (do
      symbol .openBrace
      let body ← statements stmt
      blockEnd
      pure body) := by
  simp only [block, statements, bind_bind, pure_bind]

section Plain

variable (hR : Pairing ρ R)

include hR

theorem startName?_inStep : StartsInStep ρ R ρ.name startName? startName? := by
  intro t
  cases t with
  | identifier x => exact .some ⟨hR.passes nofun, pure_inStep rfl⟩
  | _ => exact .none

theorem names_inStep {closing : Token} (ht : ∀ u, ρ.token u = closing ↔ u = closing)
    (hlet : closing ≠ .keyword .let_) :
    InStep R (List.map ρ.name) (names closing) (names closing) :=
  listUntil_inStep hR ht hlet (startName?_inStep hR) startName?_advances startName?_advances

theorem parenthesised_inStep : InStep R ρ.expr parenthesised parenthesised := by
  refine bind_inStep (symbol_inStep hR .openParen) fun _ => ?_
  refine bind_inStep (expression_inStep hR) fun e => ?_
  exact map_inStep (symbol_inStep hR .closeParen) fun _ => rfl

theorem blockEnd_inStep : InStep R id blockEnd blockEnd := by
  refine inStep_of_next hR (fun h => .error h) fun t ts us h htail => ?_
  cases t with
  | symbol s =>
    cases s with
    | closeBrace => exact .ok rfl (htail nofun)
    | _ => exact .error h
  | _ => exact .error h

theorem declaration_inStep : InStep R ρ.stmts declaration declaration := by
  refine bind_inStep (identifier_inStep hR) fun x => ?_
  refine accept_symbol_bind_inStep hR .assign ?_ ?_
  · refine bind_inStep (expression_inStep hR) fun e => ?_
    exact map_inStep (symbol_inStep hR .semicolon) fun _ => rfl
  · exact map_inStep (symbol_inStep hR .semicolon) fun _ => rfl

theorem returning_inStep : InStep R ρ.stmts returning returning := by
  refine accept_symbol_bind_inStep hR .semicolon (pure_inStep rfl) ?_
  refine bind_inStep (expression_inStep hR) fun e => ?_
  exact map_inStep (symbol_inStep hR .semicolon) fun _ => rfl

theorem importing_inStep : InStep R ρ.stmts importing importing := by
  refine bind_inStep (names_inStep hR (ρ.token_eq_keyword_iff .from_) nofun) fun xs => ?_
  refine bind_inStep (identifier_inStep hR) fun m => ?_
  exact map_inStep (symbol_inStep hR .semicolon) fun _ => rfl

omit hR in
theorem assignTo?_relabelled (ρ : Payloads) (e : Expr) :
    Option.Rel (fun f g => ∀ value, g (ρ.expr value) = ρ.stmt (f value))
      (assignTo? e) (assignTo? (ρ.expr e)) := by
  cases e with
  | var x => exact .some fun _ => rfl
  | get e x => exact .some fun _ => rfl
  | _ => exact .none

theorem afterExpression_inStep (e : Expr) {f g : Option (Expr → Stmt)}
    (h : Option.Rel (fun f g => ∀ value, g (ρ.expr value) = ρ.stmt (f value)) f g) :
    InStep R ρ.stmts (afterExpression e f) (afterExpression (ρ.expr e) g) := by
  cases h with
  | none => exact map_inStep (symbol_inStep hR .semicolon) fun _ => rfl
  | some h =>
    refine accept_symbol_bind_inStep hR .assign ?_ ?_
    · refine bind_inStep (expression_inStep hR) fun value => ?_
      refine map_inStep (symbol_inStep hR .semicolon) fun _ => ?_
      rw [h, Payloads.stmts, Payloads.stmts]
    · exact accept_symbol_bind_inStep hR .semicolon (pure_inStep rfl) (fail_inStep _ _)

theorem startsWithName_of_paired {ts us : List Token} (h : R ts us) :
    startsWithName us = startsWithName ts := by
  cases ts with
  | nil =>
    obtain rfl := hR.nil h
    rfl
  | cons t ts =>
    obtain ⟨us, rfl⟩ := hR.cons h
    cases t with
    | keyword k => cases k <;> rfl
    | _ => rfl

theorem expressionStatement_inStep :
    InStep R ρ.stmts expressionStatement expressionStatement := by
  intro ts us hts
  refine bind_inStep (expression_inStep hR) (fun e => ?_) ts us hts
  rw [startsWithName_of_paired hR hts]
  refine afterExpression_inStep hR e ?_
  split
  · exact assignTo?_relabelled ρ e
  · exact .none

end Plain

section Nested

variable (hR : Pairing ρ R) (hstmt : InStepBehind R ρ.stmts stmt stmt)
  (hbody : InStep R ρ.stmts (statements stmt) (statements stmt)) (hadvances : Advances 1 stmt)

include hR hbody

theorem block_inStep : InStep R ρ.stmts (block stmt) (block stmt) := by
  rw [block_eq]
  refine bind_inStep (symbol_inStep hR .openBrace) fun _ => bind_inStep hbody fun body => ?_
  exact map_inStep (blockEnd_inStep hR) fun _ => rfl

theorem routine_inStep : InStep R ρ.routine (routine stmt) (routine stmt) := by
  refine bind_inStep (symbol_inStep hR .openParen) fun _ => ?_
  refine bind_inStep (names_inStep hR (ρ.token_eq_symbol_iff .closeParen) nofun) fun params => ?_
  exact map_inStep (block_inStep hR hbody) fun body => rfl

theorem whileLoop_inStep : InStep R ρ.stmts (whileLoop stmt) (whileLoop stmt) := by
  refine bind_inStep (parenthesised_inStep hR) fun condition => ?_
  exact map_inStep (block_inStep hR hbody) fun body => rfl

theorem function_inStep : InStep R ρ.stmts (function stmt) (function stmt) := by
  refine bind_inStep (identifier_inStep hR) fun x => ?_
  exact map_inStep (routine_inStep hR hbody) fun r => rfl

theorem startMethod?_inStep :
    StartsInStep ρ R ρ.method (startMethod? stmt) (startMethod? stmt) := by
  intro t
  cases t with
  | identifier x =>
    exact .some ⟨hR.passes nofun, map_inStep (routine_inStep hR hbody) fun r => rfl⟩
  | _ => exact .none

omit hbody in
theorem classEnd_inStep : InStep R id classEnd classEnd := by
  refine inStep_of_next hR (fun h => .error h) fun t ts us h htail => ?_
  cases t with
  | symbol s =>
    cases s with
    | closeBrace => exact .ok rfl (htail nofun)
    | _ => exact .error h
  | keyword k =>
    cases k with
    | constructor_ => exact .error h
    | _ => exact .error h
  | _ => exact .error h

include hadvances

theorem members_inStep :
    InStep R (fun p => (ρ.routine p.1, p.2.map ρ.method)) (members stmt) (members stmt) := by
  have hmethods := many_inStep hR (startMethod?_inStep hR hbody)
    (startMethod?_advances hadvances) (startMethod?_advances hadvances)
  refine bind_inStep hmethods fun before => ?_
  refine accept_word_bind_inStep hR (by decide) ?_ ?_
  · refine bind_inStep (routine_inStep hR hbody) fun construct => ?_
    refine bind_inStep hmethods fun after => ?_
    exact map_inStep (classEnd_inStep hR) fun _ => by rw [List.map_append]
  · exact map_inStep (classEnd_inStep hR) fun _ => rfl

theorem classDeclaration_inStep :
    InStep R ρ.stmts (classDeclaration stmt) (classDeclaration stmt) := by
  refine bind_inStep (identifier_inStep hR) fun x => ?_
  refine bind_inStep (symbol_inStep hR .openBrace) fun _ => ?_
  exact map_inStep (members_inStep hR hbody hadvances) fun p => by
    simp [Payloads.stmt]

include hstmt

omit hadvances in
theorem alternative_inStep : InStep R ρ.stmts (alternative stmt) (alternative stmt) := by
  have hblock := block_inStep hR hbody
  refine inStep_of_next hR (fun h => hblock [] [] h) fun t ts us h htail => ?_
  by_cases hif : t = .keyword .if_
  · subst hif
    exact hstmt _ _ h (htail nofun)
  · have hif' : ρ.token t ≠ .keyword .if_ := mt (ρ.token_eq_keyword_iff .if_ t).mp hif
    rw [alternative_of_head? (by simpa using hif), alternative_of_head? (by simpa using hif')]
    exact hblock _ _ h

omit hadvances in
theorem conditional_inStep : InStep R ρ.stmts (conditional stmt) (conditional stmt) := by
  refine bind_inStep (parenthesised_inStep hR) fun condition => ?_
  refine bind_inStep (block_inStep hR hbody) fun yes => ?_
  refine bind_inStep (word_inStep hR (by decide)) fun _ => ?_
  exact map_inStep (alternative_inStep hR hstmt hbody) fun no => rfl

theorem statementWith_inStep :
    InStepBehind R ρ.stmts (statementWith stmt) (statementWith stmt) := by
  intro ts us h htail
  have hexpression := expressionStatement_inStep hR
  cases ts with
  | nil =>
    obtain rfl := hR.nil h
    exact hexpression [] [] h
  | cons t ts =>
    obtain ⟨us, rfl⟩ := hR.cons h
    cases t with
    | keyword k =>
      cases k with
      | let_ => exact declaration_inStep hR ts us htail
      | return_ => exact returning_inStep hR ts us htail
      | if_ => exact conditional_inStep hR hstmt hbody ts us htail
      | while_ => exact whileLoop_inStep hR hbody ts us htail
      | function_ => exact function_inStep hR hbody ts us htail
      | class_ => exact classDeclaration_inStep hR hbody hadvances ts us htail
      | import_ => exact importing_inStep hR ts us htail
      | this_ =>
        cases ts with
        | nil =>
          obtain rfl := hR.nil htail
          exact .error htail
        | cons t ts =>
          obtain ⟨us, rfl⟩ := hR.cons htail
          by_cases hdot : t = .symbol .dot
          · subst hdot
            exact hexpression _ _ h
          · have hdot' : ρ.token t ≠ .symbol .dot := mt (ρ.token_eq_symbol_iff .dot t).mp hdot
            change Matches R ρ.stmts _ (statementWith stmt (.keyword .this_ :: ρ.token t :: us))
            rw [statementWith_this (by simpa using hdot), statementWith_this (by simpa using hdot')]
            exact .error htail
      | _ => exact hexpression _ _ h
    | _ => exact hexpression _ _ h

end Nested

/-! Modules -/

section Modules

variable (hR : Pairing ρ R)

include hR

theorem exports_inStep : InStep R (List.map ρ.name) exports exports := by
  refine accept_word_bind_inStep hR (by decide) ?_ (pure_inStep rfl)
  exact names_inStep hR (ρ.token_eq_symbol_iff .semicolon) nofun

theorem endOfInput_inStep : InStep R id endOfInput endOfInput :=
  inStep_of_next hR (fun h => .ok rfl h) fun _ _ _ h _ => .error h

theorem module_inStep (hbody : InStep R ρ.stmts (statements statement) (statements statement)) :
    InStep R ρ.module module module := by
  refine bind_inStep (word_inStep hR (by decide)) fun _ => ?_
  refine bind_inStep (identifier_inStep hR) fun x => ?_
  refine bind_inStep (block_inStep hR hbody) fun body => ?_
  refine bind_inStep (exports_inStep hR) fun xs => ?_
  exact map_inStep (endOfInput_inStep hR) fun _ => rfl

end Modules

end Parser

theorem parseModule_inStep {ρ : Payloads} {R : List Token → List Token → Prop}
    (h : Parser.InStep R ρ.module Parser.module Parser.module) {ts us : List Token}
    (hts : R ts us) :
    (∃ m, parseModule ts = .ok m ∧ parseModule us = .ok (ρ.module m)) ∨
      ∃ expected rest rest', parseModule ts = .error ⟨expected, rest⟩ ∧
        parseModule us = .error ⟨expected, rest'⟩ ∧ R rest rest' := by
  have hmodule := h ts us hts
  unfold parseModule
  generalize Parser.module ts = r at hmodule ⊢
  generalize Parser.module us = r' at hmodule ⊢
  cases hmodule with
  | ok hm _ =>
    subst hm
    exact .inl ⟨_, rfl, rfl⟩
  | error hrest => exact .inr ⟨_, _, _, rfl, rfl, hrest⟩

end ModuleScript
