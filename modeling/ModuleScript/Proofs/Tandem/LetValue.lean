import ModuleScript.Proofs.Tandem.Stmt

/-!
Declarations with values. `let x = e;` and `let x; x = e;` stand for the same statements. Where one
stands for the other among the tokens, two parses go on in step; only behind the `let` itself do
their tokens differ in number. Main statement: `parseModule_letValue`.
-/

namespace ModuleScript

namespace Parser

open Grammar

def letValue (x : Name) (rest : List Token) : List Token :=
  .keyword .let_ :: .identifier x :: .symbol .assign :: rest

def letThenAssign (x : Name) (rest : List Token) : List Token :=
  .keyword .let_ :: .identifier x :: .symbol .semicolon :: .identifier x :: .symbol .assign :: rest

/-- The second tokens are the first ones, perhaps with a declaration taken apart. -/
inductive TakesApart : List Token → List Token → Prop
  | same (ts : List Token) : TakesApart ts ts
  | here (x : Name) (rest : List Token) : TakesApart (letValue x rest) (letThenAssign x rest)
  | behind (t : Token) {ts us : List Token} : TakesApart ts us → TakesApart (t :: ts) (t :: us)

variable {p : Parser (List Stmt)}

theorem takesApart_pairing : Pairing .same TakesApart where
  nil h := by
    cases h
    rfl
  cons {t ts us} h := by
    rw [Payloads.token_same]
    cases h with
    | same => exact ⟨_, rfl⟩
    | here x rest => exact ⟨_, rfl⟩
    | behind _ h => exact ⟨_, rfl⟩
  tail ht h := by
    rw [Payloads.token_same] at h
    cases h with
    | same => exact .same _
    | here x rest => exact absurd rfl ht
    | behind _ h => exact h
  push t ts us h := by
    rw [Payloads.token_same]
    exact .behind t h

theorem TakesApart.append_left {ts us : List Token} (h : TakesApart ts us) (pre : List Token) :
    TakesApart (pre ++ ts) (pre ++ us) := by
  induction pre with
  | nil => exact h
  | cons t pre ih => exact .behind t ih

/-! The statements at a declaration -/

theorem statements_closeBrace (p : Parser (List Stmt)) (ts : List Token) :
    statements p (.symbol .closeBrace :: ts) = .ok ([], .symbol .closeBrace :: ts) := by
  have hstart : startStatement? p (.symbol .closeBrace) = none := if_pos rfl
  rw [statements, bind_apply, many, manyUpTo_of_start_eq_none hstart]
  rfl

theorem statements_cons (hadvances : Advances 1 p) {t : Token} (ht : t ≠ .symbol .closeBrace)
    (ts : List Token) :
    statements p (t :: ts) =
      (do let body ← p; let rest ← statements p; pure (body ++ rest)) (t :: ts) := by
  have hstart : startStatement? p t = some (unread t p) := by rw [startStatement?, if_neg ht]
  have hmany := many_cons (startStatement?_advances hadvances) hstart ts
  rw [statements, bind_apply, hmany]
  simp only [bind_apply, unread]
  cases p (t :: ts) with
  | error e => rfl
  | ok r =>
    dsimp only
    cases many (startStatement? p) r.2 <;> rfl

/-- On tokens, `p` reads statements as the parser of statements does, whatever it nests. -/
def ReadsStatements (p : Parser (List Stmt)) : Prop :=
  ∀ t ts, ∃ stmt, p (t :: ts) = statementWith stmt (t :: ts)

theorem expression_name (x : Name) (rest : List Token) :
    expression (.identifier x :: .symbol .assign :: rest) =
      .ok (.var x, .symbol .assign :: rest) := by
  refine expression_eq_ok_iff.mpr ⟨[.identifier x], rfl, ?_, rfl⟩
  exact expression_of_trailed (.operand (.name x))

theorem statements_letValue (hp : ReadsStatements p) (hadvances : Advances 1 p) (x : Name)
    (rest : List Token) :
    statements p (letValue x rest) = statements p (letThenAssign x rest) := by
  have hvalue : p (letValue x rest) = (do
      let e ← expression
      symbol .semicolon
      pure [Stmt.declare x, .assign x e]) rest := by
    obtain ⟨stmt, hstmt⟩ := hp (.keyword .let_) (.identifier x :: .symbol .assign :: rest)
    exact hstmt
  have hdeclare (more : List Token) :
      p (.keyword .let_ :: .identifier x :: .symbol .semicolon :: more) =
        .ok ([.declare x], more) := by
    obtain ⟨stmt, hstmt⟩ := hp (.keyword .let_) (.identifier x :: .symbol .semicolon :: more)
    exact hstmt
  have hassign : p (.identifier x :: .symbol .assign :: rest) = (do
      let e ← expression
      symbol .semicolon
      pure [Stmt.assign x e]) rest := by
    obtain ⟨stmt, hstmt⟩ := hp (.identifier x) (.symbol .assign :: rest)
    have hstatement : statementWith stmt (.identifier x :: .symbol .assign :: rest) =
        expressionStatement (.identifier x :: .symbol .assign :: rest) := rfl
    rw [hstmt, hstatement, expressionStatement, bind_apply, expression_name]
    rfl
  have hlet := statements_cons hadvances (t := .keyword .let_) (by simp)
  have hname := statements_cons hadvances (t := .identifier x) (by simp)
  rw [letValue] at hvalue ⊢
  rw [letThenAssign, hlet, hlet, bind_apply, bind_apply, hvalue, hdeclare]
  dsimp only
  rw [bind_apply, bind_apply, hname, bind_apply, hassign]
  simp only [bind_apply]
  cases expression rest with
  | error e => rfl
  | ok r =>
    dsimp only
    cases symbol .semicolon r.2 with
    | error e => rfl
    | ok r' =>
      dsimp only [pure_apply]
      cases statements p r'.2 <;> rfl

/-! Two parses -/

theorem matches_same (r : Except ParseError (List Stmt × List Token)) :
    Matches TakesApart Payloads.same.stmts r r := by
  cases r with
  | ok r => exact .ok (Payloads.stmts_same r.1).symm (.same r.2)
  | error e => exact .error (.same e.rest)

/-- By induction on the number of tokens: behind a statement there are fewer. -/
theorem statements_takenApart (hp : InStepBehind TakesApart Payloads.same.stmts p p)
    (hhere : ∀ x rest, Matches TakesApart Payloads.same.stmts (statements p (letValue x rest))
      (statements p (letThenAssign x rest)))
    (hadvances : Advances 1 p) :
    InStep TakesApart Payloads.same.stmts (statements p) (statements p) := by
  intro ts us h
  induction hn : ts.length using Nat.strongRecOn generalizing ts us with
  | ind n ih =>
    cases h with
    | same => exact matches_same _
    | here x rest => exact hhere x rest
    | @behind t ts us h =>
      by_cases ht : t = .symbol .closeBrace
      · subst ht
        rw [statements_closeBrace, statements_closeBrace]
        exact .ok rfl (.behind _ h)
      · rw [statements_cons hadvances ht, statements_cons hadvances ht]
        refine (hp _ _ (.behind t h) h).bind fun body rest rest' hbody hrest => ?_
        have hlength := (hadvances _ _ _ hbody).2
        have hmore := ih rest.length (by omega) rest rest' hrest rfl
        refine hmore.bind fun more rest rest' _ hrest => .ok ?_ hrest
        rw [Payloads.stmts_same, Payloads.stmts_same, Payloads.stmts_same]

theorem statementUpTo_takenApart (bound : List Token) :
    InStepBehind TakesApart Payloads.same.stmts (statementUpTo bound) (statementUpTo bound) := by
  induction bound with
  | nil => exact (fail_inStep _ .operand).behind
  | cons b bound ih =>
    have hadvances := statementUpTo_advances bound
    refine statementWith_inStep takesApart_pairing ih ?_ hadvances
    refine statements_takenApart ih (fun x rest => ?_) hadvances
    cases bound with
    | nil => exact .error (.here x rest) -- nothing is nested, and the `let` itself is refused
    | cons b bound =>
      have hreads : ReadsStatements (statementUpTo (b :: bound)) := fun t ts => ⟨_, rfl⟩
      rw [statements_letValue hreads hadvances]
      exact matches_same _

theorem module_takenApart : InStep TakesApart Payloads.same.module module module := by
  have hstatement : InStepBehind TakesApart Payloads.same.stmts statement statement := by
    intro ts us hts htail
    refine matches_of_bounds (fun _ => statementUpTo_eq) (fun _ => statementUpTo_eq) ?_
    exact fun bound => statementUpTo_takenApart bound ts us hts htail
  refine module_inStep takesApart_pairing ?_
  refine statements_takenApart hstatement (fun x rest => ?_) statement_advances
  have hreads : ReadsStatements statement := fun t ts => ⟨statementUpTo ts, rfl⟩
  rw [statements_letValue hreads statement_advances]
  exact matches_same _

end Parser

/--
Wherever `let x =` stands among the tokens, `let x; x =` may stand as well: the tokens are read as
the same module, or refused with the same message.
-/
theorem parseModule_letValue (pre rest : List Token) (x : Name) :
    (parseModule (pre ++ [.keyword .let_, .identifier x, .symbol .assign] ++ rest)).mapError
        ParseError.message =
      (parseModule (pre ++ [.keyword .let_, .identifier x, .symbol .semicolon, .identifier x,
        .symbol .assign] ++ rest)).mapError ParseError.message := by
  have hapart := (Parser.TakesApart.here x rest).append_left pre
  have hsame : (parseModule (pre ++ Parser.letValue x rest)).mapError ParseError.message =
      (parseModule (pre ++ Parser.letThenAssign x rest)).mapError ParseError.message := by
    rcases parseModule_inStep Parser.module_takenApart hapart with
      ⟨m, hm, hm'⟩ | ⟨expected, left, left', he, he', hleft⟩
    · rw [hm, hm', Payloads.module_same]
    · -- the same token comes next on both sides
      have hmessage : ParseError.message ⟨expected, left⟩ =
          ParseError.message ⟨expected, left'⟩ := by
        cases hleft <;> rfl
      rw [he, he']
      exact congrArg Except.error hmessage
  rw [List.append_assoc, List.append_assoc]
  exact hsame

end ModuleScript
