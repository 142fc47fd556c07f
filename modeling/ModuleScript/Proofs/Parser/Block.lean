import ModuleScript.Proofs.Parser.Simple

/-!
Blocks and the statements made of them: conditionals, loops and functions. The statements inside are
read by a parser that is only known to read texts that are short enough.
-/

namespace ModuleScript

namespace Parser

open Grammar

theorem start_of_statement {u : List Token} {body : List Stmt} (h : Statement u body) :
    ∃ t v, u = t :: v ∧ t ≠ .symbol .closeBrace := by
  have hstart {t : Token} (ht : startsExpression t = true) : t ≠ .symbol .closeBrace := by
    rintro rfl
    cases ht
  cases statement_iff.1 h with
  | conditional hc => cases hc <;> exact ⟨_, _, rfl, by decide⟩
  | set x hc _ _ =>
    obtain ⟨t, v, rfl, ht, -⟩ := start_of_trailed (chain_iff.1 hc).1
    exact ⟨t, _, rfl, hstart ht⟩
  | eval he _ =>
    obtain ⟨t, v, rfl, ht⟩ := start_of_expression he
    exact ⟨t, _, rfl, hstart ht⟩
  | assign x _ => exact ⟨_, _, rfl, nofun⟩
  | _ => exact ⟨_, _, rfl, by decide⟩

theorem statement_if_iff {w : List Token} {body : List Stmt} :
    Statement (.keyword .if_ :: w) body ↔
      ∃ s, body = [s] ∧ Conditional Statement (.keyword .if_ :: w) s := by
  constructor
  · intro h
    have hstart {t : Token} {v : List Token} (hw : .keyword .if_ :: w = t :: v) :
        startsExpression t ≠ true := by
      cases hw
      decide
    generalize hu : Token.keyword .if_ :: w = u at h hstart ⊢
    cases statement_iff.1 h with
    | conditional hc => exact ⟨_, rfl, hc⟩
    | set x hc _ _ =>
      obtain ⟨t, v, rfl, ht, -⟩ := start_of_trailed (chain_iff.1 hc).1
      exact absurd ht (hstart rfl)
    | eval he _ =>
      obtain ⟨t, v, rfl, ht⟩ := start_of_expression he
      exact absurd ht (hstart rfl)
    | _ => cases hu
  · rintro ⟨s, rfl, hs⟩
    exact .mk (.conditional hs)

variable {n : Nat} {stmt : Parser (List Stmt)}

theorem startStatement?_reads (h : Reads n stmt Statement never) :
    StartReads (n - 1) (startStatement? stmt) Statement never := by
  refine startReads_of_unread h ?_ ?_
  · intro t q hq
    rw [startStatement?] at hq
    split at hq
    · cases hq
    · exact (Option.some.inj hq).symm
  · intro u body hu
    obtain ⟨t, v, rfl, ht⟩ := start_of_statement hu
    exact ⟨t, v, rfl, by simp [starts, startStatement?, ht]⟩

theorem blockEnd_eq_ok_iff {ts rest : List Token} {a : Unit} :
    blockEnd ts = .ok (a, rest) ↔ ts = .symbol .closeBrace :: rest := by
  constructor
  · intro h
    unfold blockEnd at h
    split at h
    · cases h
      rfl
    · cases h
  · rintro rfl
    rfl

theorem block_reads (h : Reads n stmt Statement never) :
    Reads (n + 1) (block stmt) (BlockText Statement) never := by
  have hend : Reads n blockEnd (fun u _ => u = [.symbol .closeBrace]) never := by
    intro ts _ a rest
    simp [blockEnd_eq_ok_iff]
  have hmany : Reads n (many (startStatement? stmt)) (Many Statement)
      (starts (startStatement? stmt)) := by
    intro ts hn
    exact many_eq_ok_iff (startStatement?_reads h) (fun _ _ => rfl) (by simp)
      (Nat.le_sub_one_of_lt hn) (stops_never ts)
  -- statements are read up to the brace, which starts none
  have hbody := andThen_reads hmany (fun ts hn _ => hend ts hn)
    (by
      rintro v _ rest rfl -
      simp [starts, startStatement?])
    fun bodies _ => bodies.flatten
  refine (expect_bind_reads (.symbol .openBrace) hbody).congr fun u body => ?_
  constructor
  · rintro ⟨hu⟩
    exact ⟨_, rfl, _, _, _, (), rfl, hu, rfl, rfl⟩
  · rintro ⟨_, rfl, u, _, bodies, _, rfl, hu, rfl, rfl⟩
    exact .mk hu

theorem routine_reads (h : Reads n stmt Statement never) :
    Reads (n + 1) (routine stmt) (RoutineText Statement) never := by
  have hclose : Closes (.symbol .closeParen) startName? never := ⟨by decide, rfl, rfl, rfl⟩
  have hbody (params : List Name) :=
    map_reads (reads_mono (block_reads h) (Nat.le_succ n)) fun body =>
      (⟨params, body⟩ : Routine Stmt)
  have hr := expect_bind_reads (.symbol .openParen) (bind_reads (names_reads n hclose) hbody)
  refine hr.congr fun u r => ?_
  constructor
  · intro hu
    cases hu with
    | mk hu hv => exact ⟨_, rfl, _, _, _, rfl, ⟨_, rfl, hu⟩, _, hv, rfl⟩
  · rintro ⟨_, rfl, _, v, params, rfl, ⟨u, rfl, hu⟩, body, hv, rfl⟩
    exact .mk hu hv

theorem alternative_reads (h : Reads n stmt Statement never) :
    Reads n (alternative stmt)
      (fun u body => BlockText Statement u body ∨ ∃ s, body = [s] ∧ Conditional Statement u s)
      never := by
  intro ts hn body rest
  unfold alternative
  split
  · rename_i ts
    rw [h _ hn]
    constructor
    · rintro ⟨u, hu, hs, -⟩
      obtain ⟨t, v, rfl, -⟩ := start_of_statement hs
      obtain ⟨rfl, rfl⟩ := List.cons.inj hu
      exact ⟨_, rfl, .inr (statement_if_iff.1 hs), stops_never _⟩
    · rintro ⟨u, hu, hb | ⟨s, rfl, hs⟩, -⟩
      · cases hb
        cases hu
      · exact ⟨u, hu, .mk (.conditional hs), stops_never _⟩
  · rename_i hif
    rw [block_reads h ts (Nat.lt_succ_of_lt hn)]
    constructor
    · rintro ⟨u, rfl, hu, -⟩
      exact ⟨u, rfl, .inl hu, stops_never _⟩
    · rintro ⟨u, rfl, hu | ⟨s, rfl, hs⟩, -⟩
      · exact ⟨u, rfl, hu, stops_never _⟩
      · cases hs <;> exact absurd rfl (hif _)

theorem conditional_reads (h : Reads n stmt Statement never) :
    Reads n (conditional stmt)
      (fun u body => ∃ s, body = [s] ∧ Conditional Statement (.keyword .if_ :: u) s) never := by
  have hno (condition : Expr) (yes : List Stmt) := reads_mono (expect_bind_reads (.keyword .else_)
    (map_reads (alternative_reads h) fun no => [Stmt.ite condition yes no])) (Nat.le_succ n)
  have hyes (condition : Expr) :=
    bind_reads (reads_mono (block_reads h) (Nat.le_succ n)) (hno condition)
  refine (bind_reads (parenthesised_reads n) hyes).congr fun u body => ?_
  constructor
  · rintro ⟨s, rfl, hs⟩
    cases hs with
    | @plain v w x _ _ _ hv hw hx =>
      exact ⟨inParens v, _, _, by simp, ⟨v, rfl, hv⟩, w, _, _, rfl, hw, x, rfl, _, .inl hx, rfl⟩
    | @elseIf v w x _ _ _ hv hw hx =>
      exact ⟨inParens v, _, _, by simp, ⟨v, rfl, hv⟩, w, _, _, rfl, hw, x, rfl, _,
        .inr ⟨_, rfl, hx⟩, rfl⟩
  · rintro ⟨_, _, condition, rfl, ⟨u, rfl, hu⟩, v, _, yes, rfl, hv, w, rfl, no,
      hw | ⟨s, rfl, hs⟩, rfl⟩
    · exact ⟨_, rfl, by simpa using Conditional.plain hu hv hw⟩
    · exact ⟨_, rfl, by simpa using Conditional.elseIf hu hv hs⟩

theorem whileLoop_reads (h : Reads n stmt Statement never) :
    Reads n (whileLoop stmt)
      (fun u body => ∃ v w condition inner, u = inParens v ++ w ∧ Expression v condition ∧
        BlockText Statement w inner ∧ body = [.loop condition inner]) never := by
  have hbody (condition : Expr) :=
    map_reads (reads_mono (block_reads h) (Nat.le_succ n)) fun inner => [Stmt.loop condition inner]
  refine (bind_reads (parenthesised_reads n) hbody).congr fun u body => ?_
  constructor
  · rintro ⟨v, w, condition, inner, rfl, hv, hw, rfl⟩
    exact ⟨_, w, condition, rfl, ⟨v, rfl, hv⟩, inner, hw, rfl⟩
  · rintro ⟨_, w, condition, rfl, ⟨v, rfl, hv⟩, inner, hw, rfl⟩
    exact ⟨v, w, condition, inner, rfl, hv, hw, rfl⟩

theorem function_reads (h : Reads n stmt Statement never) :
    Reads n (function stmt)
      (fun u body => ∃ x v r, u = .identifier x :: v ∧ RoutineText Statement v r ∧
        body = [.function x r]) never := by
  have hr := identifier_bind_reads fun x =>
    map_reads (reads_mono (routine_reads h) (Nat.le_succ n)) fun r => [Stmt.function x r]
  refine (reads_mono hr (Nat.le_succ n)).congr fun u body => ?_
  constructor
  · rintro ⟨x, v, r, rfl, hv, rfl⟩
    exact ⟨x, v, rfl, r, hv, rfl⟩
  · rintro ⟨x, v, rfl, r, hv, rfl⟩
    exact ⟨x, v, r, rfl, hv, rfl⟩

end Parser

end ModuleScript
