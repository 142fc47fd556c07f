import ModuleScript.Proofs.Parser.Expr

/-!
Statements without nested statements: declarations, `return`, imports, assignments and expressions.
What an assignment assigns to is first read as an expression; `chain_of_expression` says which
expressions these are.
-/

namespace ModuleScript

namespace Parser

open Grammar

/-! Names and parenthesised expressions -/

theorem startName?_reads (n : Nat) : StartReads n startName? NameText never where
  reads := by
    intro t p hp
    cases t with
    | identifier x =>
      cases hp
      refine (pure_reads n x).congr fun u y => ?_
      constructor
      · intro hu
        cases hu
        exact ⟨rfl, rfl⟩
      · rintro ⟨rfl, rfl⟩
        exact .mk y
    | _ => cases hp
  starts := by
    rintro u x ⟨⟩
    exact ⟨_, _, rfl, rfl⟩

theorem names_reads (n : Nat) {closing : Token} (hclose : Closes closing startName? never) :
    Reads n (names closing) (fun u xs => ∃ v, u = v ++ [closing] ∧ Items NameText v xs) never :=
  reads_mono (listUntil_reads (startName?_reads n) hclose) (Nat.le_succ n)

theorem expressionThen_reads {α : Type} (n : Nat) (s : Symbol)
    (hs : continues 6 (.symbol s) = false) (f : Expr → α) :
    Reads n (do let e ← expression; symbol s; pure (f e))
      (fun u a => ∃ v e, u = v ++ [.symbol s] ∧ Expression v e ∧ a = f e) never :=
  followedBy_reads (expression_reads n) (.symbol s) hs f

theorem parenthesised_reads (n : Nat) :
    Reads n parenthesised (fun u e => ∃ v, u = inParens v ∧ Expression v e) never := by
  have hbody := expect_bind_reads (.symbol .openParen) (expressionThen_reads n .closeParen rfl id)
  refine (reads_mono hbody (Nat.le_succ n)).congr fun u e => ?_
  constructor
  · rintro ⟨v, rfl, hv⟩
    exact ⟨_, rfl, v, e, rfl, hv, rfl⟩
  · rintro ⟨_, rfl, v, e, rfl, hv, rfl⟩
    exact ⟨v, rfl, hv⟩

/-! Targets of assignments -/

section Targets

variable {u v : List Token} {e : Expr}

theorem startsWithName_append (hu : u ≠ []) : startsWithName (u ++ v) = startsWithName u := by
  match u, hu with
  | t :: _, _ =>
    cases t with
    | keyword k => cases k <;> rfl
    | _ => rfl

theorem trailed_ne_nil (h : Trailed Expression u e) : u ≠ [] := by
  obtain ⟨t, v, rfl, -⟩ := start_of_trailed h
  exact List.cons_ne_nil t v

theorem expression_ne_nil (h : Expression u e) : u ≠ [] := by
  obtain ⟨t, v, rfl, -⟩ := start_of_expression h
  exact List.cons_ne_nil t v

theorem chain_iff : Chain u e ↔ Trailed Expression u e ∧ startsWithName u = true := by
  constructor
  · intro h
    induction h with
    | name x => exact ⟨.operand (.name x), rfl⟩
    | this => exact ⟨.operand .this, rfl⟩
    | call _ hargs ih =>
      exact ⟨.call ih.1 hargs, by rw [startsWithName_append (trailed_ne_nil ih.1), ih.2]⟩
    | get _ ih => exact ⟨.get ih.1, by rw [startsWithName_append (trailed_ne_nil ih.1), ih.2]⟩
  · rintro ⟨h, hn⟩
    induction h with
    | operand h =>
      cases h with
      | name x => exact .name x
      | this => exact .this
      | _ => cases hn
    | call h hargs ih =>
      rw [startsWithName_append (trailed_ne_nil h)] at hn
      exact .call (ih hn) hargs
    | get h ih =>
      rw [startsWithName_append (trailed_ne_nil h)] at hn
      exact .get (ih hn)

theorem expression_of_trailed (h : Trailed Expression u e) : Expression u e := by
  have hk (k : Nat) : Joined Expression k u e := by
    induction k with
    | zero => exact .signed (.trailed h)
    | succ k ih => exact .tighter ih
  exact .mk (hk 6)

theorem trailed_of_expression (h : Expression u e) (ha : (assignTo? e).isSome = true) :
    Trailed Expression u e := by
  obtain ⟨h⟩ := h
  generalize 6 = k at h
  induction h with
  | signed h =>
    cases h with
    | trailed h => exact h
    | sign op _ => cases ha
  | tighter _ ih => exact ih ha
  | binary => cases ha

theorem chain_of_expression (h : Expression u e) (hn : startsWithName u = true)
    (ha : (assignTo? e).isSome = true) : Chain u e :=
  chain_iff.2 ⟨trailed_of_expression h ha, hn⟩

end Targets

/-! First tokens of statements -/

theorem dotAfterThis_append_cons {u : List Token} (hu : u ≠ []) (t : Token) (w : List Token) :
    DotAfterThis (u ++ t :: w) ↔ DotAfterThis (u ++ [t]) := by
  match u, hu with
  | [_], _ => exact Iff.rfl
  | _ :: _ :: _, _ => exact Iff.rfl

theorem statementWith_eq_expressionStatement {stmt : Parser (List Stmt)} {t : Token}
    {ts : List Token} (ht : startsExpression t = true) (hd : DotAfterThis (t :: ts)) :
    statementWith stmt (t :: ts) = expressionStatement (t :: ts) := by
  cases t with
  | keyword k =>
    cases k with
    | this_ =>
      have hdot : ts[0]? = some (.symbol .dot) := hd rfl
      cases ts with
      | nil => cases hdot
      | cons t ts =>
        cases hdot
        rfl
    | null_ => rfl
    | _ => cases ht
  | _ => rfl

/-! Statements without nested statements -/

theorem declaration_reads (n : Nat) :
    Reads n declaration
      (fun u body => (∃ x, u = [.identifier x, .symbol .semicolon] ∧ body = [.declare x]) ∨
        ∃ x v e, u = .identifier x :: .symbol .assign :: v ++ [.symbol .semicolon] ∧
          Expression v e ∧ body = [.declare x, .assign x e]) never := by
  have hplain (x : Name) :=
    reads_mono (expect_bind_reads (.symbol .semicolon) (pure_reads n [Stmt.declare x]))
      (Nat.le_succ n)
  have hvalue (x : Name) := expressionThen_reads n .semicolon rfl fun e =>
    [Stmt.declare x, .assign x e]
  have h := identifier_bind_reads fun x =>
    accept_bind_reads (.symbol .assign) (hvalue x) (hplain x) (by
      rintro w body ⟨v, rfl, -⟩
      exact ⟨_, v, rfl, by decide⟩)
  refine (reads_mono h (Nat.le_succ n)).congr fun u body => ?_
  constructor
  · rintro (⟨x, rfl, rfl⟩ | ⟨x, v, e, rfl, hv, rfl⟩)
    · exact ⟨x, _, rfl, .inr ⟨[], rfl, rfl, rfl⟩⟩
    · exact ⟨x, _, rfl, .inl ⟨_, rfl, v, e, rfl, hv, rfl⟩⟩
  · rintro ⟨x, _, rfl, ⟨_, rfl, v, e, rfl, hv, rfl⟩ | ⟨_, rfl, rfl, rfl⟩⟩
    · exact .inr ⟨x, v, e, rfl, hv, rfl⟩
    · exact .inl ⟨x, rfl, rfl⟩

theorem returning_reads (n : Nat) :
    Reads n returning
      (fun u body => u = [.symbol .semicolon] ∧ body = [.ret none] ∨
        ∃ v e, u = v ++ [.symbol .semicolon] ∧ Expression v e ∧ body = [.ret (some e)]) never := by
  have hvalue := expressionThen_reads n .semicolon rfl fun e => [Stmt.ret (some e)]
  have h := accept_bind_reads (.symbol .semicolon) (pure_reads n [Stmt.ret none]) hvalue (by
    rintro w body ⟨v, e, rfl, hv, -⟩
    obtain ⟨t, v, rfl, ht⟩ := start_of_expression hv
    refine ⟨t, _, rfl, ?_⟩
    rintro rfl
    cases ht)
  refine h.congr fun u body => ?_
  constructor
  · rintro (⟨rfl, rfl⟩ | hv)
    · exact .inl ⟨[], rfl, rfl, rfl⟩
    · exact .inr hv
  · rintro (⟨_, rfl, rfl, rfl⟩ | hv)
    · exact .inl ⟨rfl, rfl⟩
    · exact .inr hv

theorem importing_reads (n : Nat) :
    Reads n importing
      (fun u body => ∃ v xs m,
        u = v ++ [.keyword .from_, .identifier m, .symbol .semicolon] ∧ Items NameText v xs ∧
          body = [.importFrom m xs]) never := by
  have hclose : Closes (.keyword .from_) startName? never := ⟨by decide, rfl, rfl, rfl⟩
  have hsource (xs : List Name) := identifier_bind_reads fun m =>
    expect_bind_reads (.symbol .semicolon) (pure_reads n [Stmt.importFrom m xs])
  have h := bind_reads (names_reads (n + 2) hclose) hsource
  refine (reads_mono h (by omega)).congr fun u body => ?_
  constructor
  · rintro ⟨v, xs, m, rfl, hv, rfl⟩
    exact ⟨_, _, xs, by simp, ⟨v, rfl, hv⟩, m, _, rfl, [], rfl, rfl, rfl⟩
  · rintro ⟨_, _, xs, rfl, ⟨v, rfl, hv⟩, m, _, rfl, _, rfl, rfl, rfl⟩
    exact ⟨v, xs, m, by simp, hv, rfl⟩

theorem afterExpression_reads (n : Nat) (e : Expr) (target : Option (Expr → Stmt)) :
    Reads n (afterExpression e target)
      (fun u body => u = [.symbol .semicolon] ∧ body = [.eval e] ∨
        ∃ assign v value, target = some assign ∧
          u = .symbol .assign :: v ++ [.symbol .semicolon] ∧ Expression v value ∧
            body = [assign value]) never := by
  have heval := pure_reads n [Stmt.eval e]
  cases target with
  | none =>
    have h := expect_bind_reads (.symbol .semicolon) heval
    refine (reads_mono h (Nat.le_succ n)).congr fun u body => ?_
    constructor
    · rintro (⟨rfl, rfl⟩ | ⟨_, _, _, ht, -⟩)
      · exact ⟨[], rfl, rfl, rfl⟩
      · cases ht
    · rintro ⟨_, rfl, rfl, rfl⟩
      exact .inl ⟨rfl, rfl⟩
  | some assign =>
    have hend := accept_bind_reads (.symbol .semicolon) heval (fail_reads n .assignOrSemicolon)
      (by
        rintro w body ⟨⟩)
    have hvalue := expressionThen_reads n .semicolon rfl fun value => [assign value]
    have h := accept_bind_reads (.symbol .assign) hvalue hend (by
      rintro w body (⟨v, rfl, -⟩ | ⟨⟨⟩⟩)
      exact ⟨_, v, rfl, by decide⟩)
    refine h.congr fun u body => ?_
    constructor
    · rintro (⟨rfl, rfl⟩ | ⟨assign', v, value, ht, rfl, hv, rfl⟩)
      · exact .inr (.inl ⟨[], rfl, rfl, rfl⟩)
      · cases ht
        exact .inl ⟨_, rfl, v, value, rfl, hv, rfl⟩
    · rintro (⟨_, rfl, v, value, rfl, hv, rfl⟩ | ⟨_, rfl, rfl, rfl⟩ | ⟨⟨⟩⟩)
      · exact .inr ⟨assign, v, value, rfl, rfl, hv, rfl⟩
      · exact .inl ⟨rfl, rfl⟩

theorem expressionStatement_reads (n : Nat) :
    Reads n expressionStatement
      (fun u body => (∃ v e, u = v ++ [.symbol .semicolon] ∧ Expression v e ∧ body = [.eval e]) ∨
        ∃ v e w value assign, u = v ++ .symbol .assign :: w ++ [.symbol .semicolon] ∧
          Expression v e ∧ startsWithName v = true ∧ assignTo? e = some assign ∧
            Expression w value ∧ body = [assign value]) never := by
  intro ts _ body rest
  have hafter (e : Expr) (target : Option (Expr → Stmt)) (mid : List Token) :=
    afterExpression_reads _ e target mid (Nat.lt_succ_self _) body rest
  rw [expressionStatement, bind_eq_ok_iff]
  -- whether it is an assignment is decided after the whole expression has been read
  simp only [expression_eq_ok_iff, hafter, Option.ite_none_right_eq_some]
  constructor
  · rintro ⟨e, _, ⟨u, rfl, hu, -⟩, _, rfl,
      ⟨rfl, rfl⟩ | ⟨assign, v, value, ⟨hn, ha⟩, rfl, hv, rfl⟩, -⟩
    · exact ⟨_, by simp, .inl ⟨u, e, rfl, hu, rfl⟩, stops_never _⟩
    · rw [startsWithName_append (expression_ne_nil hu)] at hn
      exact ⟨_, by simp, .inr ⟨u, e, v, value, assign, rfl, hu, hn, ha, hv, rfl⟩, stops_never _⟩
  · rintro ⟨_, rfl, ⟨u, e, rfl, hu, rfl⟩ | ⟨u, e, v, value, assign, rfl, hu, hn, ha, hv, rfl⟩, -⟩
    · refine ⟨e, .symbol .semicolon :: rest, ⟨u, by simp, hu, rfl⟩, [_], rfl, ?_, stops_never _⟩
      exact .inl ⟨rfl, rfl⟩
    · refine ⟨e, .symbol .assign :: v ++ [Token.symbol .semicolon] ++ rest, ⟨u, by simp, hu, rfl⟩,
        _, rfl, .inr ⟨assign, v, value, ⟨?_, ha⟩, rfl, hv, rfl⟩, stops_never _⟩
      rw [List.append_assoc, List.append_assoc, startsWithName_append (expression_ne_nil hu), hn]

end Parser

end ModuleScript
