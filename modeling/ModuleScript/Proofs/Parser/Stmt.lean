import ModuleScript.Proofs.Parser.Class

/-!
The module parser reads the modules of the grammar. A statement shows where it ends, and its first
token tells its kind. Main statement: `parseModule_eq_ok_iff`, the parser accepts the texts of the
grammar, and no others, with the syntax trees of the grammar.
-/

namespace ModuleScript

namespace Parser

open Grammar

theorem chain_var_iff {u : List Token} {x : Name} : Chain u (.var x) ↔
    u = [.identifier x] ∨ u = [.keyword .this_] ∧ x = thisName := by
  constructor
  · intro h
    cases h with
    | name => exact .inl rfl
    | this => exact .inr ⟨rfl, rfl⟩
  · rintro (rfl | ⟨rfl, rfl⟩)
    · exact .name x
    · exact .this

theorem chain_get_iff {u : List Token} {o : Expr} {x : Name} : Chain u (.get o x) ↔
    ∃ v, u = v ++ [.symbol .dot, .identifier x] ∧ Chain v o := by
  constructor
  · intro h
    cases h with
    | get h => exact ⟨_, rfl, h⟩
  · rintro ⟨v, rfl, h⟩
    exact .get h

theorem expressionStatement_eq_ok_iff {ts : List Token} (hd : DotAfterThis ts) (body : List Stmt)
    (rest : List Token) :
    expressionStatement ts = .ok (body, rest) ↔ ∃ u, ts = u ++ rest ∧
      ((∃ v e, u = v ++ [.symbol .semicolon] ∧ Expression v e ∧ body = [.eval e]) ∨
      (∃ x v e, u = .identifier x :: .symbol .assign :: v ++ [.symbol .semicolon] ∧
        Expression v e ∧ body = [.assign x e]) ∨
      ∃ v o x w e, u = v ++ .symbol .dot :: .identifier x :: .symbol .assign :: w ++
        [.symbol .semicolon] ∧ Chain v o ∧ Expression w e ∧ body = [.set o x e]) := by
  rw [expressionStatement_reads _ ts (Nat.lt_succ_self _)]
  constructor
  · rintro ⟨u, rfl, hu | ⟨v, e, w, value, assign, rfl, hv, hn, ha, hw, rfl⟩, -⟩
    · exact ⟨u, rfl, .inl hu⟩
    · have hc := chain_of_expression hv hn (by rw [ha]; rfl)
      cases e with
      | var x =>
        cases ha
        rcases chain_var_iff.1 hc with rfl | ⟨rfl, -⟩
        · exact ⟨_, rfl, .inr (.inl ⟨x, w, value, rfl, hw, rfl⟩)⟩
        · cases hd rfl
      | get o x =>
        cases ha
        obtain ⟨v, rfl, ho⟩ := chain_get_iff.1 hc
        exact ⟨_, rfl, .inr (.inr ⟨v, o, x, w, value, by simp, ho, hw, rfl⟩)⟩
      | _ => cases ha
  · rintro ⟨u, rfl, hu | ⟨x, v, e, rfl, hv, rfl⟩ | ⟨v, o, x, w, e, rfl, hc, hw, rfl⟩⟩
    · exact ⟨u, rfl, .inl hu, stops_never _⟩
    · have hx : Expression [.identifier x] (.var x) := expression_of_trailed (.operand (.name x))
      exact ⟨_, rfl, .inr ⟨_, _, v, e, _, rfl, hx, rfl, rfl, hv, rfl⟩, stops_never _⟩
    · obtain ⟨ht, hn⟩ := chain_iff.1 (chain_get_iff.2 ⟨v, rfl, hc⟩ : Chain _ (.get o x))
      exact ⟨_, rfl, .inr ⟨_, _, w, e, _, by simp, expression_of_trailed ht, hn, rfl, hw, rfl⟩,
        stops_never _⟩

theorem statement_of_expressionStatement {ts rest : List Token} {body : List Stmt}
    (hd : DotAfterThis ts) (h : expressionStatement ts = .ok (body, rest)) :
    ∃ u, ts = u ++ rest ∧ Statement u body := by
  obtain ⟨u, rfl, ⟨v, e, rfl, hv, rfl⟩ | ⟨x, v, e, rfl, hv, rfl⟩ |
    ⟨v, o, x, w, e, rfl, hc, hw, rfl⟩⟩ := (expressionStatement_eq_ok_iff hd _ _).1 h
  · rw [List.append_assoc, List.singleton_append,
      dotAfterThis_append_cons (expression_ne_nil hv)] at hd
    exact ⟨_, rfl, .mk (.eval hv hd)⟩
  · exact ⟨_, rfl, .mk (.assign x hv)⟩
  · have hv : v ≠ [] := trailed_ne_nil (chain_iff.1 hc).1
    rw [List.append_assoc, List.append_assoc, List.cons_append,
      dotAfterThis_append_cons hv] at hd
    exact ⟨_, rfl, .mk (.set x hc hd hw)⟩

section Statements

variable {n : Nat} {stmt : Parser (List Stmt)} {ts rest : List Token} {body : List Stmt}

theorem statement_of_statementWith (h : Reads n stmt Statement never) (hn : ts.length < n + 1)
    (hs : statementWith stmt ts = .ok (body, rest)) : ∃ u, ts = u ++ rest ∧ Statement u body := by
  unfold statementWith at hs
  -- One case for each first token, in the order of the parser.
  split at hs
  · obtain ⟨u, rfl, ⟨x, rfl, rfl⟩ | ⟨x, v, e, rfl, hv, rfl⟩, -⟩ :=
      (declaration_reads n _ (Nat.lt_of_succ_lt_succ hn) _ _).1 hs
    · exact ⟨_ :: _, rfl, .mk (.declare x)⟩
    · exact ⟨_ :: _, rfl, .mk (.declareAs x hv)⟩
  · obtain ⟨u, rfl, ⟨rfl, rfl⟩ | ⟨v, e, rfl, hv, rfl⟩, -⟩ :=
      (returning_reads n _ (Nat.lt_of_succ_lt_succ hn) _ _).1 hs
    · exact ⟨_ :: _, rfl, .mk .ret⟩
    · exact ⟨_ :: _, rfl, .mk (.retValue hv)⟩
  · obtain ⟨u, rfl, ⟨s, rfl, hc⟩, -⟩ :=
      (conditional_reads h _ (Nat.lt_of_succ_lt_succ hn) _ _).1 hs
    exact ⟨_ :: u, rfl, .mk (.conditional hc)⟩
  · obtain ⟨u, rfl, ⟨v, w, condition, inner, rfl, hv, hw, rfl⟩, -⟩ :=
      (whileLoop_reads h _ (Nat.lt_of_succ_lt_succ hn) _ _).1 hs
    exact ⟨_ :: _, rfl, .mk (.loop hv hw)⟩
  · obtain ⟨u, rfl, ⟨x, v, r, rfl, hv, rfl⟩, -⟩ :=
      (function_reads h _ (Nat.lt_of_succ_lt_succ hn) _ _).1 hs
    exact ⟨_ :: _, rfl, .mk (.function x hv)⟩
  · obtain ⟨u, rfl, ⟨x, v, members, rfl, hm, hone, rfl⟩, -⟩ :=
      (classDeclaration_reads h _ (Nat.lt_of_succ_lt_succ hn) _ _).1 hs
    exact ⟨_ :: _, rfl, .mk (.classDecl x hm hone)⟩
  · obtain ⟨u, rfl, ⟨v, xs, m, rfl, hv, rfl⟩, -⟩ :=
      (importing_reads n _ (Nat.lt_of_succ_lt_succ hn) _ _).1 hs
    exact ⟨_ :: _, rfl, .mk (.importFrom m hv)⟩
  · -- `this` with a dot behind it
    exact statement_of_expressionStatement (fun _ => rfl) hs
  · -- `this` without one
    cases hs
  · rename_i hthis
    have hd : DotAfterThis ts := by
      intro h0
      cases ts with
      | nil => cases h0
      | cons t ts =>
        cases h0
        exact absurd rfl (hthis ts)
    exact statement_of_expressionStatement hd hs

theorem statementWith_of_statement {u : List Token} (h : Reads n stmt Statement never)
    (hn : (u ++ rest).length < n + 1) (hu : Statement u body) :
    statementWith stmt (u ++ rest) = .ok (body, rest) := by
  cases statement_iff.1 hu with
  | declare x => rfl
  | declareAs x hv =>
    exact (declaration_reads n _ (Nat.lt_of_succ_lt_succ hn) _ _).2
      ⟨_, rfl, .inr ⟨x, _, _, rfl, hv, rfl⟩, stops_never _⟩
  | ret => rfl
  | retValue hv =>
    exact (returning_reads n _ (Nat.lt_of_succ_lt_succ hn) _ _).2
      ⟨_, rfl, .inr ⟨_, _, rfl, hv, rfl⟩, stops_never _⟩
  | @conditional _ s hs =>
    have hif : ∃ v, u = .keyword .if_ :: v := by cases hs <;> exact ⟨_, rfl⟩
    obtain ⟨v, rfl⟩ := hif
    exact (conditional_reads h _ (Nat.lt_of_succ_lt_succ hn) _ _).2
      ⟨v, rfl, ⟨s, rfl, hs⟩, stops_never _⟩
  | loop hv hw =>
    exact (whileLoop_reads h _ (Nat.lt_of_succ_lt_succ hn) _ _).2
      ⟨_, rfl, ⟨_, _, _, _, rfl, hv, hw, rfl⟩, stops_never _⟩
  | function x hv =>
    exact (function_reads h _ (Nat.lt_of_succ_lt_succ hn) _ _).2
      ⟨_, rfl, ⟨x, _, _, rfl, hv, rfl⟩, stops_never _⟩
  | classDecl x hm hone =>
    exact (classDeclaration_reads h _ (Nat.lt_of_succ_lt_succ hn) _ _).2
      ⟨_, rfl, ⟨x, _, _, rfl, hm, hone, rfl⟩, stops_never _⟩
  | importFrom m hv =>
    exact (importing_reads n _ (Nat.lt_of_succ_lt_succ hn) _ _).2
      ⟨_, rfl, ⟨_, _, m, rfl, hv, rfl⟩, stops_never _⟩
  | assign x hv =>
    exact (expressionStatement_eq_ok_iff (fun h0 => by cases h0) _ _).2
      ⟨_, rfl, .inr (.inl ⟨x, _, _, rfl, hv, rfl⟩)⟩
  | @set v w _ _ x hc hd hw =>
    -- the first token does not tell a setter from an expression, only what follows does
    obtain ⟨t, v, rfl, ht, -⟩ := start_of_trailed (chain_iff.1 hc).1
    rw [← dotAfterThis_append_cons (List.cons_ne_nil t v) _
      (.identifier x :: .symbol .assign :: (w ++ .symbol .semicolon :: rest))] at hd
    have hs := (expressionStatement_eq_ok_iff hd _ rest).2
      ⟨_, by simp, .inr (.inr ⟨_, _, x, w, _, rfl, hc, hw, rfl⟩)⟩
    have hw : statementWith stmt _ = _ := (statementWith_eq_expressionStatement ht hd).trans hs
    simpa using hw
  | @eval v _ hv hd =>
    obtain ⟨t, v, rfl, ht⟩ := start_of_expression hv
    rw [← dotAfterThis_append_cons (List.cons_ne_nil t v) _ rest] at hd
    have hs := (expressionStatement_eq_ok_iff hd _ rest).2
      ⟨_, by simp, .inl ⟨_, _, rfl, hv, rfl⟩⟩
    have hw : statementWith stmt _ = _ := (statementWith_eq_expressionStatement ht hd).trans hs
    simpa using hw

theorem statementWith_reads (h : Reads n stmt Statement never) :
    Reads (n + 1) (statementWith stmt) Statement never := by
  intro ts hn body rest
  constructor
  · intro hs
    obtain ⟨u, hu, hstatement⟩ := statement_of_statementWith h hn hs
    exact ⟨u, hu, hstatement, stops_never _⟩
  · rintro ⟨u, rfl, hu, -⟩
    exact statementWith_of_statement h hn hu

end Statements

theorem statementUpTo_reads (bound : List Token) :
    Reads (bound.length + 1) (statementUpTo bound) Statement never := by
  induction bound with
  | nil =>
    intro ts hn body rest
    obtain rfl : ts = [] := List.length_eq_zero_iff.1 (Nat.lt_one_iff.1 hn)
    constructor
    · intro h
      cases h
    · rintro ⟨u, hu, hs, -⟩
      obtain ⟨t, v, rfl, -⟩ := start_of_statement hs
      cases hu
  | cons b bound ih => exact statementWith_reads ih

theorem statement_reads (n : Nat) : Reads n statement Statement never := by
  intro ts _ body rest
  exact statementUpTo_reads ts ts (Nat.lt_succ_self _) body rest

theorem exports_eq_ok_iff {ts : List Token} {xs : List Name} :
    exports ts = .ok (xs, []) ↔ ts = [] ∧ xs = [] ∨
      ∃ u, ts = .keyword .export_ :: u ++ [.symbol .semicolon] ∧ Items NameText u xs := by
  have hclose : Closes (.symbol .semicolon) startName? never := ⟨by decide, rfl, rfl, rfl⟩
  rw [exports, bind_eq_ok_iff]
  constructor
  · rintro ⟨b, mid, hb, h⟩
    cases b with
    | true =>
      obtain ⟨u, rfl, ⟨v, rfl, hv⟩, -⟩ := (names_reads _ hclose mid (Nat.lt_succ_self _) _ _).1 h
      rw [accept_eq_ok_true_iff.1 hb]
      exact .inr ⟨v, by simp, hv⟩
    | false =>
      obtain ⟨rfl, rfl⟩ := pure_eq_ok_iff.1 h
      exact .inl ⟨(accept_eq_ok_false_iff.1 hb).1, rfl⟩
  · rintro (⟨rfl, rfl⟩ | ⟨u, rfl, hu⟩)
    · exact ⟨false, [], rfl, rfl⟩
    · refine ⟨true, u ++ [.symbol .semicolon], accept_eq_ok_true_iff.2 rfl, ?_⟩
      exact (names_reads _ hclose _ (Nat.lt_succ_self _) _ _).2
        ⟨_, by simp, ⟨u, rfl, hu⟩, trivial⟩

theorem endOfInput_eq_ok_iff {ts rest : List Token} {a : Unit} :
    endOfInput ts = .ok (a, rest) ↔ ts = [] ∧ rest = [] := by
  constructor
  · intro h
    unfold endOfInput at h
    split at h
    · cases h
      exact ⟨rfl, rfl⟩
    · cases h
  · rintro ⟨rfl, rfl⟩
    rfl

theorem block_statement_eq_ok_iff {ts rest : List Token} {body : List Stmt} :
    block statement ts = .ok (body, rest) ↔ ∃ u, ts = u ++ rest ∧ BlockText Statement u body := by
  rw [block_reads (statement_reads _) ts (Nat.lt_succ_of_le (Nat.le_refl _))]
  simp only [stops_never, and_true]

theorem module_eq_ok_iff {ts rest : List Token} {m : Module} :
    module ts = .ok (m, rest) ↔ rest = [] ∧ ModuleText ts m := by
  simp only [module, word, bind_eq_ok_iff, expect_eq_ok_iff, identifier_eq_ok_iff,
    block_statement_eq_ok_iff, endOfInput_eq_ok_iff, pure_eq_ok_iff]
  constructor
  · rintro ⟨_, _, rfl, x, _, rfl, body, _, ⟨u, rfl, hu⟩, xs, _, hxs, _, _, ⟨rfl, rfl⟩, rfl, rfl⟩
    refine ⟨rfl, ?_⟩
    rcases exports_eq_ok_iff.1 hxs with ⟨rfl, rfl⟩ | ⟨v, rfl, hv⟩
    · simpa using ModuleText.plain x hu
    · simpa using ModuleText.exporting x hu hv
  · rintro ⟨rfl, hm⟩
    cases hm with
    | plain x hu =>
      exact ⟨(), _, rfl, x, _, rfl, _, [], ⟨_, by simp, hu⟩, [], [], rfl, (), [], ⟨rfl, rfl⟩, rfl,
        rfl⟩
    | exporting x hu hv =>
      have hxs := exports_eq_ok_iff.2 (.inr ⟨_, rfl, hv⟩)
      exact ⟨(), _, rfl, x, _, rfl, _, _, ⟨_, by simp, hu⟩, _, [], hxs, (), [], ⟨rfl, rfl⟩, rfl,
        rfl⟩

end Parser

/-- The parser accepts exactly the texts of modules, each with its syntax tree. -/
theorem parseModule_eq_ok_iff (ts : List Token) (m : Module) :
    parseModule ts = .ok m ↔ Grammar.ModuleText ts m := by
  constructor
  · intro h
    unfold parseModule at h
    split at h
    · rename_i hm
      cases h
      exact (Parser.module_eq_ok_iff.1 hm).2
    · cases h
  · intro h
    rw [parseModule, Parser.module_eq_ok_iff.2 ⟨rfl, h⟩]

end ModuleScript
