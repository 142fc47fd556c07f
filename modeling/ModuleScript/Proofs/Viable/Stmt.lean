import ModuleScript.Proofs.Parser.Stmt
import ModuleScript.Proofs.Viable.Expr

/-!
Where statements fail. A statement is told by its first token, and after `this` by the second one;
every failure is in front of the first token that no statement goes on with. Main statement:
`statement_alike`.
-/

namespace ModuleScript

namespace Parser

open Grammar

variable {n n' : Nat}

/-! Statements without nested statements -/

theorem startName?_alike (n n' : Nat) : StartAlike n n' startName? startName? NameText never := by
  refine startAlike_of_some (startName?_reads n) (startName?_reads n') rfl ⟨_, _, .mk ""⟩ ?_
  intro t item item' hi hi'
  obtain rfl : item = item' := Option.some.inj (hi.symm.trans hi')
  cases t with
  | identifier x =>
    cases hi
    exact pure_fails _ _ x _
  | _ => cases hi

theorem names_alike (n n' : Nat) {closing : Token} (hclose : Closes closing startName? never) :
    Alike n n' (names closing) (names closing)
      (fun u xs => ∃ v, u = v ++ [closing] ∧ Items NameText v xs) never := by
  have hfails := listUntil_fails (startName?_alike n n') hclose
  exact ⟨names_reads n hclose, names_reads n' hclose,
    hfails.mono (Nat.le_succ n) (Nat.le_succ n'), _, [], [], rfl, .nil⟩

theorem parenthesised_alike (n n' : Nat) :
    Alike n n' parenthesised parenthesised (fun u e => ∃ v, u = inParens v ∧ Expression v e)
      never := by
  have hinner := followedBy_fails (expression_alike n n') (.symbol .closeParen) id
  have hfails := expect_bind_fails (.symbol .openParen) hinner
    ⟨_, _, _, _, rfl, expression_null, rfl⟩
  refine ⟨parenthesised_reads n, parenthesised_reads n', hfails.imp ?_, _, _, _, rfl,
    expression_null⟩
  rintro w _ ⟨_, rfl, u, _, rfl, hu, rfl⟩
  exact ⟨_, u, rfl, hu⟩

theorem declaration_fails : Fails n n' declaration declaration fun u body =>
    Statement (.keyword .let_ :: u) body := by
  have hplain (x : Name) := expect_pure_fails n n' (.symbol .semicolon) [Stmt.declare x]
  have hvalue (x : Name) := followedBy_fails (expression_alike n n') (.symbol .semicolon)
    fun e => [Stmt.declare x, .assign x e]
  have hfails := identifier_bind_fails
    (fun x => accept_bind_fails (.symbol .assign) (hvalue x)
      ⟨_, _, _, _, rfl, expression_null, rfl⟩ (hplain x))
    fun x => ⟨_, _, .inr ⟨rfl, rfl⟩⟩
  refine hfails.imp ?_
  rintro w _ ⟨x, _, rfl, ⟨_, rfl, u, e, rfl, hu, rfl⟩ | ⟨rfl, rfl⟩⟩
  · exact ⟨_, .mk (.declareAs x hu)⟩
  · exact ⟨_, .mk (.declare x)⟩

theorem returning_fails : Fails n n' returning returning fun u body =>
    Statement (.keyword .return_ :: u) body := by
  have hvalue := followedBy_fails (expression_alike n n') (.symbol .semicolon)
    fun e => [Stmt.ret (some e)]
  have hplain := pure_fails n n' [Stmt.ret none] fun u body => u = [] ∧ body = [.ret none]
  have hfails := accept_bind_fails (.symbol .semicolon) hplain ⟨_, _, rfl, rfl⟩ hvalue
  refine hfails.imp ?_
  rintro w _ (⟨_, rfl, rfl, rfl⟩ | ⟨u, e, rfl, hu, rfl⟩)
  · exact ⟨_, .mk .ret⟩
  · exact ⟨_, .mk (.retValue hu)⟩

theorem importing_fails : Fails n n' importing importing fun u body =>
    Statement (.keyword .import_ :: u) body := by
  have hclose : Closes (.keyword .from_) startName? never := ⟨by decide, rfl, rfl, rfl⟩
  have hsource (xs : List Name) := identifier_bind_fails
    (fun m => expect_pure_fails n n' (.symbol .semicolon) [Stmt.importFrom m xs])
    fun m => ⟨_, _, rfl, rfl⟩
  have hfails := bind_fails (names_alike n n' hclose) hsource
    fun xs => ⟨_, _, "", _, rfl, rfl, rfl⟩
  refine hfails.imp ?_
  rintro w _ ⟨_, _, xs, rfl, ⟨u, rfl, hu⟩, m, _, rfl, rfl, rfl⟩
  have himport : Statement _ [.importFrom m xs] := .mk (.importFrom m hu)
  exact ⟨_, by simpa using himport⟩

def AfterText (e : Expr) (target : Option (Expr → Stmt)) : Texts (List Stmt) := fun u body =>
  u = [.symbol .semicolon] ∧ body = [.eval e] ∨
    ∃ assign v value, target = some assign ∧ u = .symbol .assign :: v ++ [.symbol .semicolon] ∧
      Expression v value ∧ body = [assign value]

theorem afterExpression_fails (n n' : Nat) (e : Expr) (target : Option (Expr → Stmt)) :
    Fails n n' (afterExpression e target) (afterExpression e target) (AfterText e target) := by
  cases target with
  | none =>
    refine (expect_pure_fails n n' (.symbol .semicolon) [Stmt.eval e]).imp ?_
    rintro w _ ⟨rfl, rfl⟩
    exact ⟨_, .inl ⟨rfl, rfl⟩⟩
  | some assign =>
    have hvalue := followedBy_fails (expression_alike n n') (.symbol .semicolon)
      fun value => [assign value]
    -- a semicolon would still be right where neither token comes next
    have heval := pure_fails n n' [Stmt.eval e] fun u body => u = [] ∧ body = [.eval e]
    have hneither : Fails n n' (fail .assignOrSemicolon) (fail .assignOrSemicolon) fun u body =>
        u = [.symbol .semicolon] ∧ body = [Stmt.eval e] :=
      fail_fails n n' .assignOrSemicolon ⟨_, _, rfl, rfl⟩
    have hend := accept_bind_fails (.symbol .semicolon) heval ⟨_, _, rfl, rfl⟩ hneither
    have hfails := accept_bind_fails (.symbol .assign) hvalue
      ⟨_, _, _, _, rfl, expression_null, rfl⟩ hend
    refine hfails.imp ?_
    rintro w _ (⟨_, rfl, v, value, rfl, hv, rfl⟩ | ⟨_, rfl, rfl, rfl⟩ | ⟨rfl, rfl⟩)
    · exact ⟨_, .inr ⟨assign, v, value, rfl, rfl, hv, rfl⟩⟩
    · exact ⟨_, .inl ⟨rfl, rfl⟩⟩
    · exact ⟨_, .inl ⟨rfl, rfl⟩⟩

def ExpressionText : Texts (List Stmt) := fun u body =>
  ∃ v w e, u = v ++ w ∧ Expression v e ∧
    AfterText e (if startsWithName v then assignTo? e else none) w body

theorem expressionStatement_fails (n n' : Nat) :
    Fails n n' expressionStatement expressionStatement ExpressionText := by
  intro ts hts e he
  rcases bind_eq_error_iff.mp he with hfirst | ⟨first, mid, hread, hafter⟩
  · obtain ⟨u, hu, ⟨v, e', hv⟩, hlocal⟩ := (expression_alike n n').fails ts hts e hfirst
    refine ⟨u, hu, ⟨v ++ [.symbol .semicolon], _, u ++ v, _, e', by simp, hv, .inl ⟨rfl, rfl⟩⟩,
      fun rest hrest hlength => ?_⟩
    exact bind_eq_error_iff.mpr (.inl (hlocal rest hrest hlength))
  · obtain ⟨u, rfl, hu, hstop⟩ := expression_eq_ok_iff.mp hread
    have hname (w : List Token) : startsWithName (u ++ w) = startsWithName u :=
      startsWithName_append (expression_ne_nil hu)
    have hmid : mid.length < n := by
      rw [List.length_append] at hts
      omega
    rw [hname] at hafter
    obtain ⟨v, hv, ⟨w, body, hw⟩, hlocal⟩ :=
      afterExpression_fails n n' first _ mid hmid e hafter
    refine ⟨u ++ v, by rw [List.append_assoc, ← hv], ⟨w, body, u, v ++ w, first, by simp, hu, hw⟩,
      fun rest hrest hlength => ?_⟩
    rw [hv, ← stops_congr (head?_append_congr v hrest)] at hstop
    rw [List.append_assoc] at hlength ⊢
    have hread' := expression_eq_ok_iff.mpr ⟨u, rfl, hu, hstop⟩
    refine bind_eq_error_iff.mpr (.inr ⟨first, v ++ rest, hread', ?_⟩)
    rw [hname]
    rw [List.length_append] at hlength
    exact hlocal rest hrest (by omega)

/-- A statement that starts with an expression, unless `this` is without its dot. -/
theorem statement_of_expressionText {u : List Token} {body : List Stmt} (h : ExpressionText u body)
    (hd : DotAfterThis u) : Statement u body := by
  obtain ⟨v, w, e, rfl, hv, hw⟩ := h
  have hok : expressionStatement (v ++ w) = .ok (body, []) := by
    rw [expressionStatement_reads _ _ (Nat.lt_succ_self _)]
    refine ⟨v ++ w, by simp, ?_, stops_nil _⟩
    rcases hw with ⟨rfl, rfl⟩ | ⟨assign, x, value, htarget, rfl, hx, rfl⟩
    · exact .inl ⟨v, e, rfl, hv, rfl⟩
    · obtain ⟨hname, hassign⟩ := Option.ite_none_right_eq_some.mp htarget
      exact .inr ⟨v, e, x, value, assign, by simp, hv, hname, hassign, hx, rfl⟩
  obtain ⟨u, hu, hs⟩ := statement_of_expressionStatement hd hok
  rwa [hu, List.append_nil]

/-! Statements with nested statements -/

theorem statement_ret : Statement [.keyword .return_, .symbol .semicolon] [.ret none] := .mk .ret

theorem blockText_nil : BlockText Statement (inBraces []) [] := .mk .nil

theorem routineText_nil : RoutineText Statement (inParens [] ++ inBraces []) ⟨[], []⟩ :=
  .mk .nil blockText_nil

section Nested

variable {stmt stmt' : Parser (List Stmt)}

theorem startStatement?_alike (h : Alike (n + 1) (n' + 1) stmt stmt' Statement never) :
    StartAlike n n' (startStatement? stmt) (startStatement? stmt') Statement never := by
  have hstart (stmt : Parser (List Stmt)) (t : Token) :
      startStatement? stmt t = if t ≠ .symbol .closeBrace then some (unread t stmt) else none := by
    rw [startStatement?, ite_not]
  refine startAlike_of_unread (· ≠ .symbol .closeBrace) (by simpa using hstart stmt)
    (by simpa using hstart stmt') (fun u body hu => ?_) h
  obtain ⟨t, v, rfl, ht⟩ := start_of_statement hu
  exact ⟨t, v, rfl, decide_eq_true ht⟩

theorem blockEnd_fails : Fails n n' blockEnd blockEnd fun u _ => u = [.symbol .closeBrace] := by
  refine fails_of_first ⟨_, (), rfl⟩ fun ts e he => ?_
  unfold blockEnd at he
  split at he
  · cases he
  · rename_i hts
    cases he
    refine ⟨rfl, fun rest hrest => ?_⟩
    unfold blockEnd
    split
    · obtain ⟨r, rfl⟩ := List.head?_eq_some_iff.mp hrest.symm
      exact absurd rfl (hts _)
    · rfl

theorem block_alike (h : Alike (n + 1) (n' + 1) stmt stmt' Statement never) :
    Alike (n + 1) (n' + 1) (block stmt) (block stmt') (BlockText Statement) never := by
  have hbody := bind_fails (many_alike (startStatement?_alike h))
    (fun bodies => map_fails blockEnd_fails fun _ => bodies.flatten)
    fun bodies => ⟨_, _, (), rfl, rfl⟩
  have hfails := expect_bind_fails (.symbol .openBrace) hbody
    ⟨_, _, [], _, [], rfl, .nil, (), rfl, rfl⟩
  refine ⟨reads_mono (block_reads h.reads) (Nat.le_succ _),
    reads_mono (block_reads h.reads') (Nat.le_succ _), hfails.imp ?_, _, _, blockText_nil⟩
  rintro w _ ⟨_, rfl, u, _, bodies, rfl, hu, _, rfl, rfl⟩
  exact ⟨_, .mk hu⟩

theorem routine_alike (h : Alike (n + 1) (n' + 1) stmt stmt' Statement never) :
    Alike (n + 1) (n' + 1) (routine stmt) (routine stmt') (RoutineText Statement) never := by
  have hclose : Closes (.symbol .closeParen) startName? never := ⟨by decide, rfl, rfl, rfl⟩
  have hbody := bind_fails (names_alike (n + 1) (n' + 1) hclose)
    (fun params => map_fails (block_alike h).fails fun body => (⟨params, body⟩ : Routine Stmt))
    fun params => ⟨_, _, _, blockText_nil, rfl⟩
  have hfails := expect_bind_fails (.symbol .openParen) hbody
    ⟨_, _, _, _, [], rfl, ⟨[], rfl, .nil⟩, _, blockText_nil, rfl⟩
  refine ⟨reads_mono (routine_reads h.reads) (Nat.le_succ _),
    reads_mono (routine_reads h.reads') (Nat.le_succ _), hfails.imp ?_, _, _, routineText_nil⟩
  rintro w _ ⟨_, rfl, _, v, params, rfl, ⟨u, rfl, hu⟩, body, hv, rfl⟩
  exact ⟨_, .mk hu hv⟩

theorem alternative_of_head? {ts : List Token} (h : ts.head? ≠ some (.keyword .if_)) :
    alternative stmt ts = block stmt ts := by
  unfold alternative
  split
  · exact absurd rfl h
  · rfl

theorem alternative_fails (h : Alike (n + 1) (n' + 1) stmt stmt' Statement never) :
    Fails (n + 1) (n' + 1) (alternative stmt) (alternative stmt') fun u body =>
      BlockText Statement u body ∨ ∃ s, body = [s] ∧ Conditional Statement u s := by
  intro ts hts e he
  by_cases hif : ts.head? = some (.keyword .if_)
  · obtain ⟨ts, rfl⟩ := List.head?_eq_some_iff.mp hif
    obtain ⟨u, hu, ⟨v, body, hv⟩, hlocal⟩ := h.fails _ hts e he
    refine ⟨u, hu, ?_, fun rest hrest hlength => ?_⟩
    · cases u with
      | nil => exact ⟨_, _, .inl blockText_nil⟩
      | cons t u =>
        obtain ⟨rfl, -⟩ := List.cons.inj hu
        exact ⟨v, body, .inr (statement_if_iff.mp hv)⟩
    · obtain ⟨w, hw⟩ : ∃ w, u ++ rest = .keyword .if_ :: w := by
        rw [← List.head?_eq_some_iff, head?_append_congr u hrest, ← hu]
        rfl
      have hfail := hlocal rest hrest hlength
      rw [hw] at hfail ⊢
      exact hfail
  · rw [alternative_of_head? hif] at he
    obtain ⟨u, hu, ⟨v, body, hv⟩, hlocal⟩ := (block_alike h).fails ts hts e he
    refine ⟨u, hu, ⟨v, body, .inl hv⟩, fun rest hrest hlength => ?_⟩
    rw [hu, ← head?_append_congr u hrest] at hif
    rw [alternative_of_head? hif]
    exact hlocal rest hrest hlength

theorem conditional_fails (h : Alike (n + 1) (n' + 1) stmt stmt' Statement never) :
    Fails (n + 1) (n' + 1) (conditional stmt) (conditional stmt') fun u body =>
      Statement (.keyword .if_ :: u) body := by
  have hno (condition : Expr) (yes : List Stmt) := expect_bind_fails (.keyword .else_)
    (map_fails (alternative_fails h) fun no => [Stmt.ite condition yes no])
    ⟨_, _, _, .inl blockText_nil, rfl⟩
  have hyes (condition : Expr) := bind_fails (block_alike h) (hno condition)
    fun yes => ⟨_, _, _, rfl, _, .inl blockText_nil, rfl⟩
  have hfails := bind_fails (parenthesised_alike (n + 1) (n' + 1)) hyes
    fun condition => ⟨_, _, _, _, _, rfl, blockText_nil, _, rfl, _, .inl blockText_nil, rfl⟩
  refine hfails.imp ?_
  rintro w _ ⟨_, _, condition, rfl, ⟨u, rfl, hu⟩, v, _, yes, rfl, hv, x, rfl, no,
    hx | ⟨s, rfl, hs⟩, rfl⟩
  · have hite : Statement _ [.ite condition yes no] := .mk (.conditional (.plain hu hv hx))
    exact ⟨_, by simpa using hite⟩
  · have hite : Statement _ [.ite condition yes [s]] := .mk (.conditional (.elseIf hu hv hs))
    exact ⟨_, by simpa using hite⟩

theorem whileLoop_fails (h : Alike (n + 1) (n' + 1) stmt stmt' Statement never) :
    Fails (n + 1) (n' + 1) (whileLoop stmt) (whileLoop stmt') fun u body =>
      Statement (.keyword .while_ :: u) body := by
  have hfails := bind_fails (parenthesised_alike (n + 1) (n' + 1))
    (fun condition => map_fails (block_alike h).fails fun body => [Stmt.loop condition body])
    fun condition => ⟨_, _, _, blockText_nil, rfl⟩
  refine hfails.imp ?_
  rintro w _ ⟨_, v, condition, rfl, ⟨u, rfl, hu⟩, body, hv, rfl⟩
  exact ⟨_, .mk (.loop hu hv)⟩

theorem function_fails (h : Alike (n + 1) (n' + 1) stmt stmt' Statement never) :
    Fails (n + 1) (n' + 1) (function stmt) (function stmt') fun u body =>
      Statement (.keyword .function_ :: u) body := by
  have hfails := identifier_bind_fails
    (fun x => map_fails (routine_alike h).fails fun r => [Stmt.function x r])
    fun x => ⟨_, _, _, routineText_nil, rfl⟩
  refine hfails.imp ?_
  rintro w _ ⟨x, u, rfl, r, hu, rfl⟩
  exact ⟨_, .mk (.function x hu)⟩

/-! Classes -/

theorem startMethod?_alike (h : Alike (n + 1) (n' + 1) stmt stmt' Statement never) :
    StartAlike (n + 1) (n' + 1) (startMethod? stmt) (startMethod? stmt') (MethodText Statement)
      never := by
  have hstarts : starts (startMethod? stmt) = starts (startMethod? stmt') := by
    funext t
    cases t <;> rfl
  refine startAlike_of_some (startMethod?_reads h.reads) (startMethod?_reads h.reads') hstarts
    ⟨_, _, .mk "" routineText_nil⟩ fun t item item' hi hi' => ?_
  cases t with
  | identifier x =>
    cases hi
    cases hi'
    refine (map_fails (routine_alike h).fails (x, ·)).imp ?_
    rintro u _ ⟨r, hr, rfl⟩
    exact ⟨_, .mk x hr⟩
  | _ => cases hi

theorem classEnd_fails (n n' : Nat) :
    Fails n n' classEnd classEnd fun u _ => u = [.symbol .closeBrace] := by
  refine fails_of_first ⟨_, (), rfl⟩ fun ts e he => ?_
  unfold classEnd at he
  split at he
  · cases he
  · cases he
    refine ⟨rfl, fun rest hrest => ?_⟩
    obtain ⟨r, rfl⟩ := List.head?_eq_some_iff.mp hrest
    rfl
  · rename_i hbrace hconstructor
    cases he
    refine ⟨rfl, fun rest hrest => ?_⟩
    unfold classEnd
    split
    · obtain ⟨r, rfl⟩ := List.head?_eq_some_iff.mp hrest.symm
      exact absurd rfl (hbrace _)
    · obtain ⟨r, rfl⟩ := List.head?_eq_some_iff.mp hrest.symm
      exact absurd rfl (hconstructor _)
    · rfl

theorem members_fails (h : Alike (n + 1) (n' + 1) stmt stmt' Statement never) :
    Fails (n + 1) (n' + 1) (members stmt) (members stmt') fun u p => ∃ v,
      u = v ++ [.symbol .closeBrace] ∧
        ((Many (MethodText Statement) v p.2 ∧ p.1 = ⟨[], []⟩) ∨
          ∃ w x y before after, v = w ++ .keyword .constructor_ :: x ++ y ∧
            Many (MethodText Statement) w before ∧ RoutineText Statement x p.1 ∧
              Many (MethodText Statement) y after ∧ p.2 = before ++ after) := by
  have hmethods := (many_alike (startMethod?_alike h)).mono (Nat.le_succ _) (Nat.le_succ _)
  have hend (p : Routine Stmt × List (Name × Routine Stmt)) :=
    map_fails (classEnd_fails (n + 1) (n' + 1)) fun _ => p
  have hafter (before : List (Name × Routine Stmt)) (construct : Routine Stmt) :=
    bind_fails hmethods (fun after => hend (construct, before ++ after))
      fun after => ⟨_, _, (), rfl, rfl⟩
  have hconstruct (before : List (Name × Routine Stmt)) :=
    bind_fails (routine_alike h) (hafter before)
      fun construct => ⟨_, _, [], _, [], rfl, .nil, (), rfl, rfl⟩
  have hchoice (before : List (Name × Routine Stmt)) :=
    accept_bind_fails (.keyword .constructor_) (hconstruct before)
      ⟨_, _, _, _, _, rfl, routineText_nil, [], _, [], rfl, .nil, (), rfl, rfl⟩
      (hend (⟨[], []⟩, before))
  have hfails := bind_fails hmethods hchoice fun before => ⟨_, _, .inr ⟨(), rfl, rfl⟩⟩
  refine hfails.imp ?_
  rintro w _ ⟨u, _, before, rfl, hu,
    ⟨_, rfl, v, _, construct, rfl, hv, x, _, after, rfl, hx, _, rfl, rfl⟩ | ⟨_, rfl, rfl⟩⟩
  · exact ⟨(construct, before ++ after), u ++ .keyword .constructor_ :: v ++ x, by simp,
      .inr ⟨u, v, x, before, after, rfl, hu, hv, hx, rfl⟩⟩
  · exact ⟨(⟨[], []⟩, before), u, rfl, .inl ⟨hu, rfl⟩⟩

theorem classDeclaration_fails (h : Alike (n + 1) (n' + 1) stmt stmt' Statement never) :
    Fails (n + 1) (n' + 1) (classDeclaration stmt) (classDeclaration stmt') fun u body =>
      Statement (.keyword .class_ :: u) body := by
  have hfails := identifier_bind_fails
    (fun x => expect_bind_fails (.symbol .openBrace)
      (map_fails (members_fails h) fun p => [Stmt.classDecl x p.1 p.2])
      ⟨_, _, (⟨[], []⟩, []), ⟨[], rfl, .inl ⟨.nil, rfl⟩⟩, rfl⟩)
    fun x => ⟨_, _, _, rfl, (⟨[], []⟩, []), ⟨[], rfl, .inl ⟨.nil, rfl⟩⟩, rfl⟩
  refine hfails.imp ?_
  rintro w _ ⟨x, _, rfl, _, rfl, ⟨construct, methods⟩, ⟨u, rfl, hu⟩, rfl⟩
  obtain ⟨members, hm, hone, -, -⟩ := members_iff.mpr hu
  exact ⟨_, .mk (.classDecl x hm hone)⟩

/-! Statements -/

def startsStatement : Token → Bool
  | .keyword k => k = .let_ || k = .return_ || k = .if_ || k = .while_ || k = .function_ ||
      k = .class_ || k = .import_ || k = .this_
  | _ => false

theorem statementWith_of_stops {ts : List Token} (h : Stops startsStatement ts) :
    statementWith stmt ts = expressionStatement ts := by
  unfold statementWith
  split <;> first | rfl | cases h

theorem statementWith_this {ts : List Token} (h : Stops (· = .symbol .dot) ts) :
    statementWith stmt (.keyword .this_ :: ts) = .error ⟨.token (.symbol .dot), ts⟩ := by
  unfold statementWith
  split <;> first | rfl | simp_all

theorem statement_this_get (x : Name) :
    Statement [.keyword .this_, .symbol .dot, .identifier x, .symbol .semicolon]
      [.eval (.get (.var thisName) x)] :=
  .mk (.eval (expression_of_trailed (.get (.operand .this))) fun _ => rfl)

theorem statementWith_this_fails {m : Nat} {ts : List Token} {e : ParseError}
    (he : statementWith stmt (.keyword .this_ :: ts) = .error e) :
    FailsAt m (statementWith stmt') Statement (.keyword .this_ :: ts) e := by
  by_cases hdot : Stops (· = .symbol .dot) ts
  · rw [statementWith_this hdot] at he
    cases he
    refine ⟨[.keyword .this_], rfl, ⟨_, _, statement_this_get ""⟩, fun rest hrest _ => ?_⟩
    exact statementWith_this ((stops_congr hrest).mpr hdot)
  · cases ts with
    | nil => exact absurd trivial hdot
    | cons t ts =>
      obtain rfl : t = .symbol .dot := by simpa using hdot
      have hfails := expressionStatement_fails _ (m + 3) _ (Nat.lt_succ_self _) e he
      obtain ⟨u, hu, ⟨v, body, hv⟩, hlocal⟩ := hfails
      cases u with
      | nil =>
        -- an expression can start with `this`, so the failure is not in front of it
        have hrest : e.rest = .keyword .this_ :: .symbol .dot :: ts := hu.symm
        have hok := hlocal [.keyword .this_, .symbol .semicolon] (by rw [hrest]; rfl) (by simp)
        cases hok
      | cons t u =>
        obtain ⟨rfl, hts⟩ := List.cons.inj hu
        refine ⟨.keyword .this_ :: u, hu, ?_, fun rest hrest hlength => ?_⟩
        · cases u with
          | nil => exact ⟨_, _, statement_this_get ""⟩
          | cons t u =>
            obtain ⟨rfl, -⟩ := List.cons.inj hts
            exact ⟨v, body, statement_of_expressionText hv fun _ => rfl⟩
        · obtain ⟨w, hw⟩ : ∃ w, u ++ rest = .symbol .dot :: w := by
            rw [← List.head?_eq_some_iff, head?_append_congr u hrest]
            exact congrArg List.head? hts.symm
          have hfail := hlocal rest hrest (by omega)
          rw [List.cons_append, hw] at hfail ⊢
          exact hfail

theorem statementWith_fails (h : Alike (n + 1) (n' + 1) stmt stmt' Statement never) :
    Fails (n + 2) (n' + 2) (statementWith stmt) (statementWith stmt') Statement := by
  intro ts hts e he
  by_cases hstops : Stops startsStatement ts
  · rw [statementWith_of_stops hstops] at he
    obtain ⟨u, hu, ⟨v, body, hv⟩, hlocal⟩ := expressionStatement_fails _ _ ts hts e he
    refine ⟨u, hu, ?_, fun rest hrest hlength => ?_⟩
    · cases u with
      | nil => exact ⟨_, _, statement_ret⟩
      | cons t u =>
        refine ⟨v, body, statement_of_expressionText hv fun h0 => ?_⟩
        rw [hu] at hstops
        cases h0
        cases hstops
    · rw [hu, ← stops_congr (head?_append_congr u hrest)] at hstops
      rw [statementWith_of_stops hstops]
      exact hlocal rest hrest hlength
  · cases ts with
    | nil => exact absurd trivial hstops
    | cons t ts =>
      cases t with
      | keyword k =>
        cases k with
        | let_ => exact declaration_fails.cons hts he (fun _ _ he => he) fun _ b hb => ⟨b, hb⟩
        | return_ => exact returning_fails.cons hts he (fun _ _ he => he) fun _ b hb => ⟨b, hb⟩
        | if_ => exact (conditional_fails h).cons hts he (fun _ _ he => he) fun _ b hb => ⟨b, hb⟩
        | while_ => exact (whileLoop_fails h).cons hts he (fun _ _ he => he) fun _ b hb => ⟨b, hb⟩
        | function_ => exact (function_fails h).cons hts he (fun _ _ he => he) fun _ b hb => ⟨b, hb⟩
        | class_ =>
          exact (classDeclaration_fails h).cons hts he (fun _ _ he => he) fun _ b hb => ⟨b, hb⟩
        | import_ => exact importing_fails.cons hts he (fun _ _ he => he) fun _ b hb => ⟨b, hb⟩
        | this_ => exact statementWith_this_fails he
        | _ => exact absurd rfl hstops
      | _ => exact absurd rfl hstops

end Nested

theorem statementUpTo_fails (bound bound' : List Token) :
    Fails (bound.length + 1) (bound'.length + 1) (statementUpTo bound) (statementUpTo bound')
      Statement :=
  nested_fails statementWith rfl (fun _ _ => rfl) (fun _ => rfl) ⟨_, _, statement_ret⟩
    statementUpTo_reads statementWith_fails bound bound'

theorem statement_alike (n n' : Nat) : Alike n n' statement statement Statement never := by
  have hfails : Fails (n + 1) (n' + 1) statement statement Statement :=
    fails_of_bounds statementUpTo statementUpTo fun bound bound' _ _ =>
      statementUpTo_fails bound bound'
  exact ⟨statement_reads n, statement_reads n', hfails.mono (Nat.le_succ n) (Nat.le_succ n'),
    _, _, statement_ret⟩

end Parser

end ModuleScript
