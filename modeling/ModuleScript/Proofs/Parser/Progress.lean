import ModuleScript.Proofs.Parser.Reading
import ModuleScript.Parser.Stmt

/-!
Progress of the parsers. Main statements: `expressionUpTo_advances` and `statementUpTo_advances`,
whatever the bound, expressions and statements read a token and leave the end of what they were
given; `manyUpTo_eq_many`, the tokens themselves are bound enough for a repetition.
-/

namespace ModuleScript

namespace Parser

variable {α β : Type} {k l : Nat} {p : Parser α} {start? : Token → Option (Parser α)}

/-- The parser reads at least `k` tokens and leaves the others. -/
def Advances (k : Nat) (p : Parser α) : Prop :=
  ∀ ts a rest, p ts = .ok (a, rest) → rest <:+ ts ∧ rest.length + k ≤ ts.length

def ItemsAdvance (start? : Token → Option (Parser α)) : Prop :=
  ∀ t item, start? t = some item → Advances 0 item

/-! The basic parsers -/

theorem Advances.mono (h : Advances k p) (hl : l ≤ k) : Advances l p := by
  intro ts a rest hp
  obtain ⟨hsuffix, hlength⟩ := h ts a rest hp
  exact ⟨hsuffix, by omega⟩

theorem Advances.bind {f : α → Parser β} (hp : Advances k p) (hf : ∀ a, Advances l (f a)) :
    Advances (k + l) (p >>= f) := by
  intro ts b rest h
  obtain ⟨a, mid, ha, hb⟩ := bind_eq_ok_iff.mp h
  obtain ⟨hmid, hk⟩ := hp ts a mid ha
  obtain ⟨hrest, hl⟩ := hf a mid b rest hb
  exact ⟨hrest.trans hmid, by omega⟩

theorem Advances.bind_left {f : α → Parser β} (hp : Advances k p) (hf : ∀ a, Advances 0 (f a)) :
    Advances k (p >>= f) :=
  hp.bind hf

theorem pure_advances (a : α) : Advances 0 (pure a) := by
  intro ts b rest h
  obtain ⟨-, rfl⟩ := pure_eq_ok_iff.mp h
  exact ⟨List.suffix_rfl, Nat.le_refl _⟩

theorem Advances.map (hp : Advances k p) (f : α → β) : Advances k (do let a ← p; pure (f a)) :=
  hp.bind_left fun a => pure_advances (f a)

theorem fail_advances (k : Nat) (expected : Expected) : Advances k (fail expected : Parser α) := by
  intro ts a rest h
  cases h

theorem expect_advances (t : Token) : Advances 1 (expect t) := by
  intro ts a rest h
  obtain rfl := expect_eq_ok_iff.mp h
  exact ⟨List.suffix_cons t rest, Nat.le_refl _⟩

theorem identifier_advances : Advances 1 identifier := by
  intro ts x rest h
  obtain rfl := identifier_eq_ok_iff.mp h
  exact ⟨List.suffix_cons _ rest, Nat.le_refl _⟩

theorem accept_advances (t : Token) : Advances 0 (accept t) := by
  intro ts b rest h
  cases b with
  | true =>
    obtain rfl := accept_eq_ok_true_iff.mp h
    exact ⟨List.suffix_cons t rest, Nat.le_succ _⟩
  | false =>
    obtain ⟨rfl, -⟩ := accept_eq_ok_false_iff.mp h
    exact ⟨List.suffix_rfl, Nat.le_refl _⟩

theorem accept_bind_advances {q : Parser α} (t : Token) (hp : Advances k p)
    (hq : Advances (k + 1) q) : Advances (k + 1) (do if ← accept t then p else q) := by
  intro ts a rest h
  obtain ⟨b, mid, hb, ha⟩ := bind_eq_ok_iff.mp h
  cases b with
  | true =>
    obtain rfl := accept_eq_ok_true_iff.mp hb
    obtain ⟨hsuffix, hlength⟩ := hp mid a rest ha
    exact ⟨hsuffix.trans (List.suffix_cons t mid), Nat.succ_le_succ hlength⟩
  | false =>
    obtain ⟨rfl, -⟩ := accept_eq_ok_false_iff.mp hb
    exact hq ts a rest ha

theorem separator_advances (closing : Token) : Advances 0 (separator closing) := by
  intro ts a rest h
  cases ts with
  | nil => cases h
  | cons t ts =>
    rw [separator] at h
    split at h
    · cases h
      exact ⟨List.suffix_cons t rest, Nat.le_succ _⟩
    · split at h
      · cases h
        exact ⟨List.suffix_rfl, Nat.le_refl _⟩
      · cases h

theorem unread_advances (hp : Advances (k + 1) p) (t : Token) : Advances k (unread t p) := by
  intro ts a rest h
  obtain ⟨hsuffix, hlength⟩ := hp (t :: ts) a rest h
  rw [List.length_cons] at hlength
  refine ⟨?_, by omega⟩
  rcases List.suffix_cons_iff.mp hsuffix with rfl | hsuffix
  · rw [List.length_cons] at hlength
    omega
  · exact hsuffix

theorem advances_cons {t : Token} {ts rest : List Token} {a : α} (hp : Advances k p)
    (h : p ts = .ok (a, rest)) : rest <:+ t :: ts ∧ rest.length + (k + 1) ≤ (t :: ts).length := by
  obtain ⟨hsuffix, hlength⟩ := hp ts a rest h
  exact ⟨hsuffix.trans (List.suffix_cons t ts), Nat.succ_le_succ hlength⟩

/-! Repetition -/

theorem manyUpTo_advances (h : ItemsAdvance start?) (bound : List Token) :
    Advances 0 (manyUpTo start? bound) := by
  induction bound with
  | nil => exact pure_advances []
  | cons b bound ih =>
    intro ts as rest has
    cases ts with
    | nil => exact pure_advances [] [] as rest has
    | cons t ts =>
      cases hi : start? t with
      | none =>
        rw [manyUpTo_of_start_eq_none hi] at has
        exact pure_advances [] (t :: ts) as rest has
      | some item =>
        obtain ⟨a, mid, bs, ha, hbs, rfl⟩ := (manyUpTo_cons_eq_ok_iff hi).mp has
        obtain ⟨hmid, hlength⟩ := advances_cons (t := t) (h t item hi) ha
        obtain ⟨hrest, hlength'⟩ := ih mid bs rest hbs
        exact ⟨hrest.trans hmid, by omega⟩

theorem many_advances (h : ItemsAdvance start?) : Advances 0 (many start?) := by
  intro ts as rest has
  exact manyUpTo_advances h ts ts as rest has

/-- An item takes a token from the bound and from the tokens, so that no bound is used up. -/
theorem manyUpTo_eq_of_length_le (h : ItemsAdvance start?) {bound bound' ts : List Token}
    (hbound : ts.length ≤ bound.length) (hbound' : ts.length ≤ bound'.length) :
    manyUpTo start? bound ts = manyUpTo start? bound' ts := by
  induction bound generalizing bound' ts with
  | nil =>
    obtain rfl : ts = [] := List.length_eq_zero_iff.mp (Nat.le_zero.mp hbound)
    cases bound' <;> rfl
  | cons b bound ih =>
    cases ts with
    | nil => cases bound' <;> rfl
    | cons t ts =>
      cases bound' with
      | nil => cases hbound'
      | cons b' bound' =>
        simp only [manyUpTo]
        cases hi : start? t with
        | none => rfl
        | some item =>
          simp only [bind_apply]
          cases ha : item ts with
          | error e => rfl
          | ok r =>
            obtain ⟨a, mid⟩ := r
            have hmid := (h t item hi ts a mid ha).2
            have hrest : mid.length ≤ ts.length := by omega
            have hsame := ih (Nat.le_trans hrest (Nat.le_of_succ_le_succ hbound))
              (Nat.le_trans hrest (Nat.le_of_succ_le_succ hbound'))
            simp only [hsame]

theorem manyUpTo_eq_many (h : ItemsAdvance start?) {bound ts : List Token}
    (hbound : ts.length ≤ bound.length) : manyUpTo start? bound ts = many start? ts :=
  manyUpTo_eq_of_length_le h hbound (Nat.le_refl _)

theorem many_cons (h : ItemsAdvance start?) {t : Token} {item : Parser α}
    (hi : start? t = some item) (ts : List Token) :
    many start? (t :: ts) = (do let a ← item; let as ← many start?; pure (a :: as)) ts := by
  have hunfold : many start? (t :: ts) =
      (do let a ← item; let as ← manyUpTo start? ts; pure (a :: as)) ts := by
    simp [many, manyUpTo, hi]
  rw [hunfold, bind_apply, bind_apply]
  cases ha : item ts with
  | error e => rfl
  | ok r =>
    obtain ⟨a, mid⟩ := r
    have hmid := (h t item hi ts a mid ha).2
    simp only [bind_apply]
    rw [manyUpTo_eq_many h (by omega)]

theorem separated_advance (closing : Token) (h : ItemsAdvance start?) :
    ItemsAdvance fun t => (start? t).map (separated closing) := by
  intro t item hi
  obtain ⟨item, hitem, rfl⟩ := Option.map_eq_some_iff.mp hi
  exact (h t item hitem).bind_left fun a => (separator_advances closing).map fun _ => a

theorem listUntil_advances (closing : Token) (h : ItemsAdvance start?) :
    Advances 1 (listUntil closing start?) :=
  (many_advances (separated_advance closing h)).bind fun as =>
    (expect_advances closing).map fun _ => as

/-! Expressions -/

section Expressions

variable {expr : Parser Expr}

theorem startField?_advances (h : Advances 1 expr) : ItemsAdvance (startField? expr) := by
  intro t item hi
  cases t with
  | identifier x =>
    cases hi
    exact (((expect_advances _).bind fun _ => h.map (x, ·)).mono (Nat.zero_le _))
  | _ => cases hi

theorem startExpression?_advances (h : Advances 1 expr) :
    ItemsAdvance (startExpression? expr) := by
  intro t item hi
  obtain ⟨-, hitem⟩ := Option.ite_none_right_eq_some.mp hi
  obtain rfl := Option.some.inj hitem
  exact unread_advances h t

theorem operand_advances (h : Advances 1 expr) : Advances 1 (operand expr) := by
  have hparens : Advances 0 (do let e ← expr; symbol .closeParen; pure e) :=
    (h.bind fun e => (expect_advances _).map fun _ => e).mono (Nat.zero_le _)
  have hobject : Advances 0 (do
      let fields ← listUntil (.symbol .closeBrace) (startField? expr)
      pure (Expr.object fields)) :=
    ((listUntil_advances _ (startField?_advances h)).map Expr.object).mono (Nat.zero_le _)
  intro ts e rest he
  unfold operand at he
  split at he
  case h_7 => exact advances_cons hparens he
  case h_8 => exact advances_cons hobject he
  case h_9 => cases he
  all_goals exact advances_cons (pure_advances _) he

theorem startTrailer?_advances (h : Advances 1 expr) : ItemsAdvance (startTrailer? expr) := by
  intro t item hi
  unfold startTrailer? at hi
  split at hi
  · cases hi
    exact ((listUntil_advances _ (startExpression?_advances h)).map _).mono (Nat.zero_le _)
  · cases hi
    exact (identifier_advances.map _).mono (Nat.zero_le _)
  · cases hi

theorem trailed_advances (h : Advances 1 expr) : Advances 1 (trailed expr) :=
  (operand_advances h).bind_left fun _ => (many_advances (startTrailer?_advances h)).map _

theorem startSign?_advances : ItemsAdvance startSign? := by
  intro t item hi
  cases t with
  | symbol s =>
    obtain ⟨op, -, rfl⟩ := Option.map_eq_some_iff.mp hi
    exact pure_advances op
  | _ => cases hi

theorem signed_advances (h : Advances 1 expr) : Advances 1 (signed expr) :=
  (many_advances startSign?_advances).bind fun _ => (trailed_advances h).map _

theorem startBinary?_advances {right : Parser Expr} (h : Advances 1 right) (k : Nat) :
    ItemsAdvance (startBinary? k right) := by
  intro t item hi
  cases t with
  | symbol s =>
    obtain ⟨op, -, hitem⟩ := Option.bind_eq_some_iff.mp hi
    obtain ⟨-, hitem⟩ := Option.ite_none_right_eq_some.mp hitem
    cases hitem
    exact (h.map _).mono (Nat.zero_le _)
  | _ => cases hi

theorem joined_advances (h : Advances 1 expr) (k : Nat) : Advances 1 (joined expr k) := by
  induction k with
  | zero => exact signed_advances h
  | succ k ih => exact ih.bind_left fun _ => (many_advances (startBinary?_advances ih _)).map _

theorem expressionUpTo_advances (bound : List Token) : Advances 1 (expressionUpTo bound) := by
  induction bound with
  | nil => exact fail_advances 1 .operand
  | cons b bound ih => exact joined_advances ih 6

theorem expression_advances : Advances 1 expression := by
  intro ts e rest he
  exact expressionUpTo_advances ts ts e rest he

end Expressions

/-! Statements -/

section Statements

variable {stmt : Parser (List Stmt)}

theorem startName?_advances : ItemsAdvance startName? := by
  intro t item hi
  cases t with
  | identifier x =>
    cases hi
    exact pure_advances x
  | _ => cases hi

theorem names_advances (closing : Token) : Advances 1 (names closing) :=
  listUntil_advances closing startName?_advances

theorem parenthesised_advances : Advances 3 parenthesised :=
  (expect_advances _).bind fun _ => expression_advances.bind fun e =>
    (expect_advances _).map fun _ => e

theorem blockEnd_advances : Advances 1 blockEnd := by
  intro ts a rest h
  unfold blockEnd at h
  split at h
  · exact advances_cons (pure_advances ()) h
  · cases h

theorem startStatement?_advances (h : Advances 1 stmt) : ItemsAdvance (startStatement? stmt) := by
  intro t item hi
  obtain ⟨-, hitem⟩ := Option.ite_none_left_eq_some.mp hi
  obtain rfl := Option.some.inj hitem
  exact unread_advances h t

theorem block_advances (h : Advances 1 stmt) : Advances 2 (block stmt) :=
  (expect_advances _).bind fun _ => (many_advances (startStatement?_advances h)).bind fun bodies =>
    blockEnd_advances.map fun _ => bodies.flatten

theorem routine_advances (h : Advances 1 stmt) : Advances 4 (routine stmt) :=
  (expect_advances _).bind fun _ => (names_advances _).bind fun _ => (block_advances h).map _

theorem declaration_advances : Advances 2 declaration := by
  have hvalue (x : Name) : Advances 0 (do
      let e ← expression
      symbol .semicolon
      pure [Stmt.declare x, .assign x e]) :=
    (expression_advances.bind fun _ => (expect_advances _).map _).mono (Nat.zero_le _)
  exact identifier_advances.bind fun x =>
    accept_bind_advances _ (hvalue x) ((expect_advances _).map _)

theorem returning_advances : Advances 1 returning := by
  have hvalue : Advances 1 (do
      let e ← expression
      symbol .semicolon
      pure [Stmt.ret (some e)]) :=
    expression_advances.bind_left fun _ => ((expect_advances _).map _).mono (Nat.zero_le _)
  exact accept_bind_advances _ (pure_advances _) hvalue

theorem alternative_advances (h : Advances 1 stmt) : Advances 1 (alternative stmt) := by
  intro ts body rest hbody
  unfold alternative at hbody
  split at hbody
  · exact h _ body rest hbody
  · exact (block_advances h).mono (Nat.le_succ 1) _ body rest hbody

theorem conditional_advances (h : Advances 1 stmt) : Advances 7 (conditional stmt) :=
  parenthesised_advances.bind fun _ => (block_advances h).bind fun _ =>
    (expect_advances _).bind fun _ => (alternative_advances h).map _

theorem whileLoop_advances (h : Advances 1 stmt) : Advances 5 (whileLoop stmt) :=
  parenthesised_advances.bind fun _ => (block_advances h).map _

theorem function_advances (h : Advances 1 stmt) : Advances 5 (function stmt) :=
  identifier_advances.bind fun _ => (routine_advances h).map _

theorem startMethod?_advances (h : Advances 1 stmt) : ItemsAdvance (startMethod? stmt) := by
  intro t item hi
  cases t with
  | identifier x =>
    cases hi
    exact ((routine_advances h).map _).mono (Nat.zero_le _)
  | _ => cases hi

theorem classEnd_advances : Advances 1 classEnd := by
  intro ts a rest h
  unfold classEnd at h
  split at h
  · exact advances_cons (pure_advances ()) h
  · cases h
  · cases h

theorem members_advances (h : Advances 1 stmt) : Advances 1 (members stmt) := by
  have hmethods := many_advances (startMethod?_advances h)
  have hconstruct (before : List (Name × Routine Stmt)) : Advances 0 (do
      let construct ← routine stmt
      let after ← many (startMethod? stmt)
      classEnd
      pure (construct, before ++ after)) :=
    ((routine_advances h).bind_left fun _ => hmethods.bind_left fun _ =>
      (classEnd_advances.map _).mono (Nat.zero_le _)).mono (Nat.zero_le _)
  exact hmethods.bind fun before =>
    accept_bind_advances _ (hconstruct before) (classEnd_advances.map _)

theorem classDeclaration_advances (h : Advances 1 stmt) : Advances 3 (classDeclaration stmt) :=
  identifier_advances.bind fun _ => (expect_advances _).bind fun _ => (members_advances h).map _

theorem importing_advances : Advances 3 importing :=
  (names_advances _).bind fun _ => identifier_advances.bind fun _ => (expect_advances _).map _

theorem afterExpression_advances (e : Expr) (target : Option (Expr → Stmt)) :
    Advances 1 (afterExpression e target) := by
  cases target with
  | none => exact (expect_advances _).map _
  | some assign =>
    have hvalue : Advances 0 (do
        let value ← expression
        symbol .semicolon
        pure [assign value]) :=
      (expression_advances.bind fun _ => (expect_advances _).map _).mono (Nat.zero_le _)
    exact accept_bind_advances _ hvalue
      (accept_bind_advances _ (pure_advances _) (fail_advances 1 _))

theorem expressionStatement_advances : Advances 2 expressionStatement := by
  intro ts body rest h
  exact expression_advances.bind (fun e => afterExpression_advances e _) ts body rest h

theorem statementWith_advances (h : Advances 1 stmt) : Advances 1 (statementWith stmt) := by
  intro ts body rest hbody
  unfold statementWith at hbody
  split at hbody
  · exact advances_cons (declaration_advances.mono (Nat.zero_le _)) hbody
  · exact advances_cons (returning_advances.mono (Nat.zero_le _)) hbody
  · exact advances_cons ((conditional_advances h).mono (Nat.zero_le _)) hbody
  · exact advances_cons ((whileLoop_advances h).mono (Nat.zero_le _)) hbody
  · exact advances_cons ((function_advances h).mono (Nat.zero_le _)) hbody
  · exact advances_cons ((classDeclaration_advances h).mono (Nat.zero_le _)) hbody
  · exact advances_cons (importing_advances.mono (Nat.zero_le _)) hbody
  · exact expressionStatement_advances.mono (Nat.le_succ 1) _ body rest hbody
  · cases hbody
  · exact expressionStatement_advances.mono (Nat.le_succ 1) _ body rest hbody

theorem statementUpTo_advances (bound : List Token) : Advances 1 (statementUpTo bound) := by
  induction bound with
  | nil => exact fail_advances 1 .operand
  | cons b bound ih => exact statementWith_advances ih

theorem statement_advances : Advances 1 statement := by
  intro ts body rest h
  exact statementUpTo_advances ts ts body rest h

end Statements

end Parser

end ModuleScript
