import ModuleScript.Proofs.Parser.Expr
import ModuleScript.Proofs.Viable.Fails

/-!
Where expressions fail. Every failure is in front of the first token that no expression goes on
with. Main statement: `expression_alike`.
-/

namespace ModuleScript

namespace Parser

open Grammar

variable {n n' : Nat} {expr expr' : Parser Expr} {E : Texts Expr}

theorem startField?_alike (h : Alike n n' expr expr' E (continues 6)) :
    StartAlike n n' (startField? expr) (startField? expr') (Field E) (continues 6) := by
  obtain ⟨u, e, hu⟩ := h.exists_text
  have hstarts : starts (startField? expr) = starts (startField? expr') := by
    funext t
    cases t <;> rfl
  refine startAlike_of_some (startField?_reads h.reads) (startField?_reads h.reads') hstarts
    ⟨_, ("", e), .mk hu⟩ fun t item item' hi hi' => ?_
  cases t with
  | identifier x =>
    cases hi
    cases hi'
    have hvalue := expect_bind_fails (.symbol .colon) (map_fails h.fails (x, ·))
      ⟨u, (x, e), e, hu, rfl⟩
    refine hvalue.imp ?_
    rintro w field ⟨v, rfl, e, hv, rfl⟩
    exact ⟨(x, e), .mk hv⟩
  | _ => cases hi

theorem startExpression?_alike (hE : StartsExpressions E)
    (h : Alike (n + 1) (n' + 1) expr expr' E (continues 6)) :
    StartAlike n n' (startExpression? expr) (startExpression? expr') E (continues 6) :=
  startAlike_of_unread startsExpression (fun _ => rfl) (fun _ => rfl) hE h

theorem operand_alike (h : Alike n n' expr expr' E (continues 6)) :
    Alike (n + 1) (n' + 1) (operand expr) (operand expr') (Operand E) never := by
  have hparens := followedBy_fails h (.symbol .closeParen) id
  have hclose : Closes (.symbol .closeBrace) (startField? expr) (continues 6) :=
    ⟨by decide, rfl, rfl, rfl⟩
  have hfields := (listUntil_fails (startField?_alike h) hclose).mono (Nat.le_succ n)
    (Nat.le_succ n')
  have hfirst {t : Token} {ts : List Token} {e : ParseError} (he : e = ⟨.operand, t :: ts⟩)
      (ht : ∀ ts, operand expr' (t :: ts) = .error ⟨.operand, t :: ts⟩) :
      FailsAt (n' + 1) (operand expr') (Operand E) (t :: ts) e := by
    subst he
    refine ⟨[], rfl, ⟨_, _, .null⟩, fun rest hrest _ => ?_⟩
    obtain ⟨r, rfl⟩ := List.head?_eq_some_iff.mp hrest
    exact ht r
  refine ⟨operand_reads h.reads, operand_reads h.reads', fun ts hts e he => ?_, _, _, .null⟩
  cases ts with
  | nil =>
    cases he
    refine ⟨[], rfl, ⟨_, _, .null⟩, fun rest hrest _ => ?_⟩
    obtain rfl := List.head?_eq_none_iff.mp hrest
    rfl
  | cons t ts =>
    cases t with
    | symbol s =>
      cases s with
      | openParen =>
        refine hparens.cons hts he (fun _ _ he => he) ?_
        rintro w _ ⟨u, _, rfl, hu, rfl⟩
        exact ⟨_, .parenthesised hu⟩
      | openBrace =>
        refine (map_fails hfields Expr.object).cons hts he (fun _ _ he => he) ?_
        rintro w _ ⟨fields, ⟨u, rfl, hu⟩, rfl⟩
        exact ⟨_, .object hu⟩
      | _ => exact hfirst (Except.error.inj he).symm fun _ => rfl
    | keyword k =>
      cases k with
      | null_ => cases he
      | this_ => cases he
      | _ => exact hfirst (Except.error.inj he).symm fun _ => rfl
    | _ => cases he

theorem startTrailer?_alike (hE : StartsExpressions E)
    (h : Alike (n + 1) (n' + 1) expr expr' E (continues 6)) :
    StartAlike (n + 1) (n' + 1) (startTrailer? expr) (startTrailer? expr') (TrailerText E)
      never := by
  have hstarts : starts (startTrailer? expr) = starts (startTrailer? expr') := by
    funext t
    rw [starts_startTrailer?, starts_startTrailer?]
  have hclose : Closes (.symbol .closeParen) (startExpression? expr) (continues 6) :=
    ⟨by decide, rfl, rfl, rfl⟩
  have hargs := listUntil_fails (startExpression?_alike hE h) hclose
  refine startAlike_of_some (startTrailer?_reads hE h.reads) (startTrailer?_reads hE h.reads')
    hstarts ⟨_, _, .get ""⟩ fun t item item' hi hi' => ?_
  unfold startTrailer? at hi
  split at hi
  · cases hi
    cases hi'
    refine (map_fails hargs Trailer.call).imp ?_
    rintro w _ ⟨args, ⟨u, rfl, hu⟩, rfl⟩
    exact ⟨_, .call hu⟩
  · cases hi
    cases hi'
    refine (map_fails identifier_fails Trailer.get).imp ?_
    rintro w _ ⟨x, ⟨x⟩, rfl⟩
    exact ⟨_, .get x⟩
  · cases hi

theorem trailed_alike (hE : StartsExpressions E)
    (h : Alike (n + 1) (n' + 1) expr expr' E (continues 6)) :
    Alike (n + 2) (n' + 2) (trailed expr) (trailed expr') (Trailed E) (continues 0) := by
  have hmany := many_fails (startTrailer?_alike hE h)
  have hfails := bind_fails (operand_alike h)
    (fun e => map_fails hmany fun trailers => trailers.foldl Trailer.apply e)
    fun e => ⟨[], e, [], .nil, rfl⟩
  refine ⟨trailed_reads hE h.reads, trailed_reads hE h.reads', hfails.imp ?_, _, _,
    .operand .null⟩
  rintro w _ ⟨u, v, first, rfl, hu, trailers, hv, rfl⟩
  exact ⟨_, trailed_append hv (.operand hu)⟩

theorem startSign?_alike (n n' : Nat) :
    StartAlike n n' startSign? startSign? SignText never := by
  refine startAlike_of_some (startSign?_reads n) (startSign?_reads n') rfl ⟨_, .not, rfl⟩ ?_
  intro t item item' hi hi'
  obtain rfl : item = item' := Option.some.inj (hi.symm.trans hi')
  cases t with
  | symbol s =>
    obtain ⟨op, -, rfl⟩ := Option.map_eq_some_iff.mp hi
    exact pure_fails _ _ op _
  | _ => cases hi

theorem signed_alike (hE : StartsExpressions E)
    (h : Alike (n + 1) (n' + 1) expr expr' E (continues 6)) :
    Alike (n + 2) (n' + 2) (signed expr) (signed expr') (Signed E) (continues 0) := by
  have htrailed := trailed_alike hE h
  have hfails := bind_fails (many_alike (startSign?_alike (n + 1) (n' + 1)))
    (fun signs => map_fails htrailed.fails fun e => signs.foldr Expr.unary e)
    fun signs => ⟨_, _, _, .operand .null, rfl⟩
  refine ⟨signed_reads hE h.reads, signed_reads hE h.reads', hfails.imp ?_, _, _,
    .trailed (.operand .null)⟩
  rintro w _ ⟨u, v, signs, rfl, hu, e, hv, rfl⟩
  exact ⟨_, signed_iff.mpr ⟨u, v, signs, e, rfl, hu, hv, rfl⟩⟩

theorem exists_rank_eq_succ {k : Nat} (hk : k < 6) : ∃ op : BinaryOp, op.rank = k + 1 := by
  match k, hk with
  | 0, _ => exact ⟨.multiply, rfl⟩
  | 1, _ => exact ⟨.add, rfl⟩
  | 2, _ => exact ⟨.less, rfl⟩
  | 3, _ => exact ⟨.equal, rfl⟩
  | 4, _ => exact ⟨.and, rfl⟩
  | 5, _ => exact ⟨.or, rfl⟩

theorem startBinary?_alike {k : Nat} {right right' : Parser Expr}
    (h : Alike n n' right right' (Joined E k) (continues k)) (hk : k < 6) :
    StartAlike n n' (startBinary? (k + 1) right) (startBinary? (k + 1) right') (BinaryText E k)
      (continues k) := by
  obtain ⟨u, e, hu⟩ := h.exists_text
  obtain ⟨op, hop⟩ := exists_rank_eq_succ hk
  have hstarts : starts (startBinary? (k + 1) right) = starts (startBinary? (k + 1) right') := by
    funext t
    cases t with
    | symbol s => rw [starts_startBinary?_symbol, starts_startBinary?_symbol]
    | _ => rfl
  refine startAlike_of_some (startBinary?_reads h.reads) (startBinary?_reads h.reads') hstarts
    ⟨_, (op, e), u, rfl, hop, hu⟩ fun t item item' hi hi' => ?_
  cases t with
  | symbol s =>
    obtain ⟨op, hs, hitem⟩ := Option.bind_eq_some_iff.mp hi
    obtain ⟨op', hs', hitem'⟩ := Option.bind_eq_some_iff.mp hi'
    obtain rfl : op = op' := Option.some.inj (hs.symm.trans hs')
    obtain rfl := BinaryOp.ofSymbol?_eq_some_iff.mp hs
    by_cases hrank : op.rank = k + 1
    · rw [if_pos hrank] at hitem hitem'
      cases hitem
      cases hitem'
      refine (map_fails h.fails (op, ·)).imp ?_
      rintro v _ ⟨e, hv, rfl⟩
      exact ⟨(op, e), v, rfl, hrank, hv⟩
    · rw [if_neg hrank] at hitem
      cases hitem
  | _ => cases hi

theorem joined_of_trailed {u : List Token} {e : Expr} (h : Trailed E u e) (k : Nat) :
    Joined E k u e := by
  induction k with
  | zero => exact .signed (.trailed h)
  | succ k ih => exact .tighter ih

theorem joined_alike (hE : StartsExpressions E)
    (h : Alike (n + 1) (n' + 1) expr expr' E (continues 6)) {k : Nat} (hk : k ≤ 6) :
    Alike (n + 2) (n' + 2) (joined expr k) (joined expr' k) (Joined E k) (continues k) := by
  refine ⟨joined_reads hE h.reads k, joined_reads hE h.reads' k, ?_, _, _,
    joined_of_trailed (.operand .null) k⟩
  induction k with
  | zero => exact (signed_alike hE h).fails.imp fun u e he => ⟨e, .signed he⟩
  | succ k ih =>
    have hfirst : Alike (n + 2) (n' + 2) (joined expr k) (joined expr' k) (Joined E k)
        (continues k) :=
      ⟨joined_reads hE h.reads k, joined_reads hE h.reads' k, ih (Nat.le_of_succ_le hk), _, _,
        joined_of_trailed (.operand .null) k⟩
    have hmany := many_fails (startBinary?_alike hfirst hk)
    have hfails := bind_fails hfirst
      (fun first => map_fails (hmany.mono (Nat.le_succ _) (Nat.le_succ _))
        fun rest => rest.foldl (fun left p => Expr.binary p.1 left p.2) first)
      fun first => ⟨[], first, [], .nil, rfl⟩
    refine hfails.imp ?_
    rintro w _ ⟨u, v, first, rfl, hu, rest, hv, rfl⟩
    exact ⟨_, joined_append hv (.tighter hu)⟩

theorem expression_null : Expression [.keyword .null_] .null :=
  .mk (joined_of_trailed (.operand .null) 6)

theorem expressionUpTo_fails (bound bound' : List Token) :
    Fails (bound.length + 1) (bound'.length + 1) (expressionUpTo bound) (expressionUpTo bound')
      Expression := by
  refine nested_fails (joined · 6) rfl (fun _ _ => rfl) (fun _ => rfl)
    ⟨_, _, expression_null⟩ expressionUpTo_reads (fun h => ?_) bound bound'
  have hjoined := joined_alike startsExpressions_expression h (Nat.le_refl 6)
  exact hjoined.fails.imp fun u e he => ⟨e, .mk he⟩

theorem expression_alike (n n' : Nat) :
    Alike n n' expression expression Expression (continues 6) := by
  have hfails : Fails (n + 1) (n' + 1) expression expression Expression :=
    fails_of_bounds expressionUpTo expressionUpTo fun bound bound' _ _ =>
      expressionUpTo_fails bound bound'
  exact ⟨expression_reads n, expression_reads n', hfails.mono (Nat.le_succ n) (Nat.le_succ n'),
    _, _, expression_null⟩

end Parser

end ModuleScript
