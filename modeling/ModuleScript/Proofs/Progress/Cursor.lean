import ModuleScript.Proofs.Viable.Module
import ModuleScript.Proofs.Parser.Progress

/-!
Where parsers stop, as a place of a cursor in a text. Main statement: `Part.proceeds`, no part of
the grammar moves the cursor back or past the end, and each moves it on by a number of tokens.
-/

namespace ModuleScript

namespace Parser

variable {α β : Type} {k : Nat} {p : Parser α} {start? : Token → Option (Parser α)}

/-- Wherever the cursor stands, reading moves it on by `k` tokens at least and not past the end. A
failure, too, is between the cursor and the end. -/
structure Proceeds (k : Nat) (p : Parser α) : Prop where
  reads : ∀ (ts : List Token) (i : Nat), i ≤ ts.length → ∀ a rest, p (ts.drop i) = .ok (a, rest) →
    ∃ j ≤ ts.length, i + k ≤ j ∧ rest = ts.drop j
  fails : ∀ (ts : List Token) (i : Nat), i ≤ ts.length → ∀ e, p (ts.drop i) = .error e →
    ∃ j ≤ ts.length, i ≤ j ∧ e.rest = ts.drop j

/-- What the grammar repeats: statements of blocks, methods of classes, calls and fields behind
operands, signs, operators of each rank with their right operands, and the items of lists, by
themselves and together with what separates them. -/
inductive Repeated : {α : Type} → (Token → Option (Parser α)) → Prop
  | statement : Repeated (startStatement? statement)
  | method : Repeated (startMethod? statement)
  | trailer : Repeated (startTrailer? expression)
  | sign : Repeated startSign?
  | binary {k : Nat} : k < 6 → Repeated (startBinary? (k + 1) (joined expression k))
  | name : Repeated startName?
  | argument : Repeated (startExpression? expression)
  | field : Repeated (startField? expression)
  | separated {α : Type} {start? : Token → Option (Parser α)} (closing : Token) :
      Repeated start? → Repeated fun t => (start? t).map (separated closing)

/-- The parts of the grammar, each with a number of tokens that it reads at least. -/
inductive Part : {α : Type} → Nat → Parser α → Prop
  | expect (t : Token) : Part 1 (expect t)
  | accept (t : Token) : Part 0 (accept t)
  | identifier : Part 1 identifier
  | separator (closing : Token) : Part 0 (separator closing)
  | blockEnd : Part 1 blockEnd
  | classEnd : Part 1 classEnd
  | endOfInput : Part 0 endOfInput
  | item {α : Type} {start? : Token → Option (Parser α)} : Repeated start? → Part 1 (one start?)
  | items {α : Type} {start? : Token → Option (Parser α)} : Repeated start? → Part 0 (many start?)
  | list {α : Type} {start? : Token → Option (Parser α)} (closing : Token) :
      Repeated start? → Part 1 (listUntil closing start?)
  | operand : Part 1 (operand expression)
  | trailed : Part 1 (trailed expression)
  | signed : Part 1 (signed expression)
  | joined {k : Nat} : k ≤ 6 → Part 1 (joined expression k)
  | expression : Part 1 expression
  | parenthesised : Part 3 parenthesised
  | declaration : Part 2 declaration
  | returning : Part 1 returning
  | afterExpression (e : Expr) (target : Option (Expr → Stmt)) : Part 1 (afterExpression e target)
  | expressionStatement : Part 2 expressionStatement
  | importing : Part 3 importing
  | block : Part 2 (block statement)
  | routine : Part 4 (routine statement)
  | alternative : Part 1 (alternative statement)
  | conditional : Part 7 (conditional statement)
  | whileLoop : Part 5 (whileLoop statement)
  | function : Part 5 (function statement)
  | members : Part 1 (members statement)
  | classDeclaration : Part 3 (classDeclaration statement)
  | statement : Part 1 statement
  | module : Part 4 module

/-- What an error names is the end of what the parser was given. -/
def FailsWithin (p : Parser α) : Prop := ∀ ts e, p ts = .error e → e.rest <:+ ts

theorem exists_drop_of_suffix {ts rest : List Token} {i : Nat} (hi : i ≤ ts.length)
    (hsuffix : rest <:+ ts.drop i) (hlength : rest.length + k ≤ (ts.drop i).length) :
    ∃ j ≤ ts.length, i + k ≤ j ∧ rest = ts.drop j := by
  rw [List.length_drop] at hlength
  refine ⟨ts.length - rest.length, Nat.sub_le _ _, by omega, ?_⟩
  exact List.suffix_iff_eq_drop.mp (hsuffix.trans (List.drop_suffix i ts))

theorem proceeds_of (hreads : Advances k p) (hfails : FailsWithin p) : Proceeds k p where
  reads ts i hi a rest h := by
    obtain ⟨hsuffix, hlength⟩ := hreads _ a rest h
    exact exists_drop_of_suffix hi hsuffix hlength
  fails ts i hi e h := by
    have hsuffix := hfails _ e h
    exact exists_drop_of_suffix (k := 0) hi hsuffix hsuffix.length_le

/-! Failures -/

theorem failsWithin_of_fails {g : Grammar.Texts α} (h : ∀ n, Fails (n + 2) (n + 2) p p g) :
    FailsWithin p := by
  intro ts e he
  obtain ⟨u, hu, -⟩ := h ts.length ts (Nat.lt_add_of_pos_right Nat.two_pos) e he
  exact ⟨u, hu.symm⟩

theorem pure_failsWithin (a : α) : FailsWithin (pure a) := by
  intro ts e he
  cases he

theorem FailsWithin.bind {f : α → Parser β} (hp : FailsWithin p) (hreads : Advances 0 p)
    (hf : ∀ a, FailsWithin (f a)) : FailsWithin (p >>= f) := by
  intro ts e he
  rcases bind_eq_error_iff.mp he with hfirst | ⟨a, mid, ha, hsecond⟩
  · exact hp ts e hfirst
  · exact (hf a mid e hsecond).trans (hreads ts a mid ha).1

theorem expect_failsWithin (t : Token) : FailsWithin (expect t) :=
  failsWithin_of_fails fun _ => expect_fails _ _ t

theorem accept_failsWithin (t : Token) : FailsWithin (accept t) := by
  intro ts e he
  cases ts with
  | nil => cases he
  | cons s ts =>
    rw [accept] at he
    split at he <;> cases he

theorem separator_failsWithin (closing : Token) : FailsWithin (separator closing) := by
  intro ts e he
  obtain ⟨rfl, -⟩ := separator_eq_error_iff.mp he
  exact List.suffix_rfl

/-! Repetition -/

section Repetition

variable (h : ItemsAdvance start?)

include h

theorem one_advances : Advances 1 (one start?) := by
  intro ts a rest ha
  cases ts with
  | nil => cases ha
  | cons t ts =>
    cases hi : start? t with
    | none => simp [one, hi] at ha
    | some item =>
      rw [one_cons hi] at ha
      exact advances_cons (h t item hi) ha

theorem one_separated_failsWithin (hone : FailsWithin (one start?)) (closing : Token) :
    FailsWithin (one fun t => (start? t).map (separated closing)) := by
  have hreads := (one_advances h).mono (Nat.zero_le 1)
  rw [one_separated]
  exact hone.bind hreads fun a => (separator_failsWithin closing).bind (separator_advances closing)
    fun _ => pure_failsWithin a

theorem manyUpTo_failsWithin (hone : FailsWithin (one start?)) (bound : List Token) :
    FailsWithin (manyUpTo start? bound) := by
  induction bound with
  | nil => exact pure_failsWithin []
  | cons b bound ih =>
    intro ts e he
    cases ts with
    | nil => cases he
    | cons t ts =>
      cases hi : start? t with
      | none =>
        rw [manyUpTo_of_start_eq_none hi] at he
        cases he
      | some item =>
        -- an item that looks at its first token once more may fail in front of it
        have hround : manyUpTo start? (b :: bound) (t :: ts) =
            (do let a ← one start?; let as ← manyUpTo start? bound; pure (a :: as)) (t :: ts) := by
          simp [manyUpTo, hi, bind_apply, one_cons hi]
        rw [hround] at he
        have hreads := (one_advances h).mono (Nat.zero_le 1)
        have hrest (a : α) := ih.bind (manyUpTo_advances h bound) fun as =>
          pure_failsWithin (a :: as)
        exact hone.bind hreads hrest _ e he

theorem many_failsWithin (hone : FailsWithin (one start?)) : FailsWithin (many start?) :=
  fun ts => manyUpTo_failsWithin h hone ts ts

theorem listUntil_failsWithin (hone : FailsWithin (one start?)) (closing : Token) :
    FailsWithin (listUntil closing start?) := by
  have hitems := separated_advance closing h
  have hmany := many_failsWithin hitems (one_separated_failsWithin h hone closing)
  exact hmany.bind (many_advances hitems) fun as => (expect_failsWithin closing).bind
    ((expect_advances closing).mono (Nat.zero_le 1)) fun _ => pure_failsWithin as

end Repetition

theorem Repeated.itemsAdvance (h : Repeated start?) : ItemsAdvance start? := by
  induction h with
  | statement => exact startStatement?_advances statement_advances
  | method => exact startMethod?_advances statement_advances
  | trailer => exact startTrailer?_advances expression_advances
  | sign => exact startSign?_advances
  | binary _ => exact startBinary?_advances (joined_advances expression_advances _) _
  | name => exact startName?_advances
  | argument => exact startExpression?_advances expression_advances
  | field => exact startField?_advances expression_advances
  | separated closing _ ih => exact separated_advance closing ih

theorem Repeated.one_failsWithin (h : Repeated start?) : FailsWithin (one start?) := by
  have hstart := startsExpressions_expression
  induction h with
  | statement =>
    exact failsWithin_of_fails fun n => (startStatement?_alike (statement_alike _ _)).fails
  | method => exact failsWithin_of_fails fun n => (startMethod?_alike (statement_alike _ _)).fails
  | trailer =>
    exact failsWithin_of_fails fun n => (startTrailer?_alike hstart (expression_alike _ _)).fails
  | sign => exact failsWithin_of_fails fun n => (startSign?_alike _ _).fails
  | binary hk =>
    have hright (n : Nat) :=
      joined_alike hstart (expression_alike (n + 1) (n + 1)) (Nat.le_of_lt hk)
    exact failsWithin_of_fails fun n =>
      (startBinary?_alike (hright n) hk).fails.mono (Nat.le_succ _) (Nat.le_succ _)
  | name => exact failsWithin_of_fails fun n => (startName?_alike _ _).fails
  | argument =>
    exact failsWithin_of_fails fun n => (startExpression?_alike hstart (expression_alike _ _)).fails
  | field => exact failsWithin_of_fails fun n => (startField?_alike (expression_alike _ _)).fails
  | separated closing h ih => exact one_separated_failsWithin h.itemsAdvance ih closing

/-! Parts -/

theorem endOfInput_advances : Advances 0 endOfInput := by
  intro ts a rest h
  cases ts with
  | nil => exact pure_advances () [] a rest h
  | cons t ts => cases h

theorem exports_advances : Advances 0 exports := by
  have hchoice : ∀ b : Bool, Advances 0 (if b then names (.symbol .semicolon) else pure []) := by
    intro b
    cases b with
    | true => exact (names_advances _).mono (Nat.zero_le 1)
    | false => exact pure_advances []
  exact (accept_advances _).bind hchoice

theorem module_advances : Advances 4 module :=
  (expect_advances _).bind fun _ => identifier_advances.bind fun _ =>
    (block_advances statement_advances).bind_left fun _ => exports_advances.bind fun _ =>
      endOfInput_advances.map _

theorem Part.advances (h : Part k p) : Advances k p := by
  cases h with
  | expect t => exact expect_advances t
  | accept t => exact accept_advances t
  | identifier => exact identifier_advances
  | separator closing => exact separator_advances closing
  | blockEnd => exact blockEnd_advances
  | classEnd => exact classEnd_advances
  | endOfInput => exact endOfInput_advances
  | item h => exact one_advances h.itemsAdvance
  | items h => exact many_advances h.itemsAdvance
  | list closing h => exact listUntil_advances closing h.itemsAdvance
  | operand => exact operand_advances expression_advances
  | trailed => exact trailed_advances expression_advances
  | signed => exact signed_advances expression_advances
  | joined _ => exact joined_advances expression_advances _
  | expression => exact expression_advances
  | parenthesised => exact parenthesised_advances
  | declaration => exact declaration_advances
  | returning => exact returning_advances
  | afterExpression e target => exact afterExpression_advances e target
  | expressionStatement => exact expressionStatement_advances
  | importing => exact importing_advances
  | block => exact block_advances statement_advances
  | routine => exact routine_advances statement_advances
  | alternative => exact alternative_advances statement_advances
  | conditional => exact conditional_advances statement_advances
  | whileLoop => exact whileLoop_advances statement_advances
  | function => exact function_advances statement_advances
  | members => exact members_advances statement_advances
  | classDeclaration => exact classDeclaration_advances statement_advances
  | statement => exact statement_advances
  | module => exact module_advances

theorem Part.failsWithin (h : Part k p) : FailsWithin p := by
  have hstart := startsExpressions_expression
  have hexpr (n : Nat) := expression_alike n n
  have hstmt (n : Nat) := statement_alike n n
  cases h with
  | expect t => exact expect_failsWithin t
  | accept t => exact accept_failsWithin t
  | identifier => exact failsWithin_of_fails fun n => identifier_fails
  | separator closing => exact separator_failsWithin closing
  | blockEnd => exact failsWithin_of_fails fun n => blockEnd_fails
  | classEnd => exact failsWithin_of_fails fun n => classEnd_fails _ _
  | endOfInput => exact failsWithin_of_fails fun n => endOfInput_fails _ _
  | item h => exact h.one_failsWithin
  | items h => exact many_failsWithin h.itemsAdvance h.one_failsWithin
  | list closing h => exact listUntil_failsWithin h.itemsAdvance h.one_failsWithin closing
  | operand => exact failsWithin_of_fails fun n => (operand_alike (hexpr (n + 1))).fails
  | trailed => exact failsWithin_of_fails fun n => (trailed_alike hstart (hexpr (n + 1))).fails
  | signed => exact failsWithin_of_fails fun n => (signed_alike hstart (hexpr (n + 1))).fails
  | joined hk => exact failsWithin_of_fails fun n => (joined_alike hstart (hexpr (n + 1)) hk).fails
  | expression => exact failsWithin_of_fails fun n => (hexpr (n + 2)).fails
  | parenthesised => exact failsWithin_of_fails fun n => (parenthesised_alike _ _).fails
  | declaration => exact failsWithin_of_fails fun n => declaration_fails
  | returning => exact failsWithin_of_fails fun n => returning_fails
  | afterExpression e target =>
    exact failsWithin_of_fails fun n => afterExpression_fails _ _ e target
  | expressionStatement => exact failsWithin_of_fails fun n => expressionStatement_fails _ _
  | importing => exact failsWithin_of_fails fun n => importing_fails
  | block => exact failsWithin_of_fails fun n => (block_alike (hstmt (n + 2))).fails
  | routine => exact failsWithin_of_fails fun n => (routine_alike (hstmt (n + 2))).fails
  | alternative => exact failsWithin_of_fails fun n => alternative_fails (hstmt (n + 2))
  | conditional => exact failsWithin_of_fails fun n => conditional_fails (hstmt (n + 2))
  | whileLoop => exact failsWithin_of_fails fun n => whileLoop_fails (hstmt (n + 2))
  | function => exact failsWithin_of_fails fun n => function_fails (hstmt (n + 2))
  | members => exact failsWithin_of_fails fun n => members_fails (hstmt (n + 2))
  | classDeclaration => exact failsWithin_of_fails fun n => classDeclaration_fails (hstmt (n + 2))
  | statement => exact failsWithin_of_fails fun n => (hstmt (n + 2)).fails
  | module => exact failsWithin_of_fails fun n => module_fails _ _

theorem Part.proceeds (h : Part k p) : Proceeds k p :=
  proceeds_of h.advances h.failsWithin

end Parser

end ModuleScript
