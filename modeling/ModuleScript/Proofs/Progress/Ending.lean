import Mathlib.Logic.Function.Iterate
import ModuleScript.Proofs.Progress.Cursor
import ModuleScript.Proofs.Viable.Bounds

/-!
Loops and nesting end, because each round and each level has fewer tokens before it. Main statement:
`grammar_progress`, parts of the grammar move on, their loops and their recursion end, and for all
tokens there is a module or an error.
-/

namespace ModuleScript

namespace Parser

open Grammar

variable {α : Type} {n n' : Nat} {p p' q : Parser α} {step : Parser α → Parser α}
  {start? : Token → Option (Parser α)}

def round (start? : Token → Option (Parser α)) (again : Parser (List α)) : Parser (List α)
  | [] => .ok ([], [])
  | t :: ts =>
    match start? t with
    | some item => (do
        let a ← item
        let as ← again
        pure (a :: as)) ts
    | none => .ok ([], t :: ts)

/-- What `step` needs to know of `p` to give `p` is what `p` does on fewer tokens. -/
def Recurs (step : Parser α → Parser α) (p : Parser α) : Prop :=
  ∀ q ts, (∀ us : List Token, us.length < ts.length → q us = p us) → step q ts = p ts

/-- The recursion of `p` through `step` ends: on fewer than `n` tokens `n` levels are enough,
whatever would be done on a deeper level. -/
structure Ends (step : Parser α → Parser α) (p : Parser α) : Prop where
  step_eq : step p = p
  iterate_eq : ∀ (deeper : Parser α) (n : Nat) (ts : List Token), ts.length < n →
    step^[n] deeper ts = p ts

/-! Recursion -/

theorem Recurs.ends (h : Recurs step p) : Ends step p where
  step_eq := funext fun ts => h p ts fun _ _ => rfl
  iterate_eq := by
    intro deeper n
    induction n with
    | zero =>
      intro ts hts
      cases hts
    | succ n ih =>
      intro ts hts
      rw [Function.iterate_succ_apply']
      exact h _ ts fun us hus => ih us (Nat.lt_of_lt_of_le hus (Nat.le_of_lt_succ hts))

/-- Recursion that is bounded by the tokens, when the bound makes no difference. -/
theorem recurs_of_bounds (bounded : List Token → Parser α)
    (hstep : ∀ b bound, bounded (b :: bound) = step (bounded bound))
    (hbound : ∀ bound ts : List Token, ts.length ≤ bound.length → bounded bound ts = p ts)
    (hnil : ∀ q, step q [] = p [])
    (hcons : ∀ q t ts, (∀ us : List Token, us.length ≤ ts.length → q us = p us) →
      step q (t :: ts) = step p (t :: ts)) : Recurs step p := by
  intro q ts hq
  cases ts with
  | nil => exact hnil q
  | cons t ts =>
    calc step q (t :: ts)
      _ = step p (t :: ts) := hcons q t ts fun us hus => hq us (Nat.lt_succ_of_le hus)
      _ = step (bounded ts) (t :: ts) := (hcons _ t ts (hbound ts)).symm
      _ = bounded (t :: ts) (t :: ts) := by rw [hstep]
      _ = p (t :: ts) := hbound (t :: ts) (t :: ts) (Nat.le_refl _)

theorem many_recurs (h : ItemsAdvance start?) : Recurs (round start?) (many start?) := by
  refine recurs_of_bounds (manyUpTo start?) (fun b bound => ?_)
    (fun bound ts => manyUpTo_eq_many h) (fun q => rfl) fun q t ts hq => ?_
  · funext ts
    cases ts <;> rfl
  · simp only [round]
    cases hi : start? t with
    | none => rfl
    | some item =>
      simp only [bind_apply]
      cases ha : item ts with
      | error e => rfl
      | ok r =>
        obtain ⟨a, mid⟩ := r
        have hmid := (h t item hi ts a mid ha).2
        simp only [hq mid (by omega)]

theorem Alike.congr_left {g : Texts α} {c : Token → Bool} (h : Alike n n' p p' g c)
    (hq : ∀ ts : List Token, ts.length < n → q ts = p ts) : Alike n n' q p' g c := by
  refine ⟨fun ts hts a rest => ?_, h.reads', fun ts hts e he => ?_, h.exists_text⟩
  · rw [hq ts hts]
    exact h.reads ts hts a rest
  · rw [hq ts hts] at he
    exact h.fails ts hts e he

theorem expression_recurs : Recurs (joined · 6) expression := by
  refine recurs_of_bounds expressionUpTo (fun b bound => rfl)
    (fun bound ts => expressionUpTo_eq) (fun q => rfl) fun q t ts hq => ?_
  have hsame : Alike (ts.length + 1) (ts.length + 1) q expression Expression (continues 6) :=
    (expression_alike _ _).congr_left fun us hus => hq us (Nat.le_of_lt_succ hus)
  have hstep := joined_alike startsExpressions_expression hsame (Nat.le_refl 6)
  exact hstep.eq (Nat.lt_succ_self _) (Nat.lt_succ_self _)

theorem statement_recurs : Recurs statementWith statement := by
  refine recurs_of_bounds statementUpTo (fun b bound => rfl)
    (fun bound ts => statementUpTo_eq) (fun q => rfl) fun q t ts hq => ?_
  have hsame : Alike (ts.length + 1) (ts.length + 1) q statement Statement never :=
    (statement_alike _ _).congr_left fun us hus => hq us (Nat.le_of_lt_succ hus)
  have hstep : Alike (ts.length + 2) (ts.length + 2) (statementWith q) (statementWith statement)
      Statement never :=
    ⟨statementWith_reads hsame.reads, statementWith_reads hsame.reads', statementWith_fails hsame,
      _, _, statement_ret⟩
  exact hstep.eq (Nat.lt_succ_self _) (Nat.lt_succ_self _)

/-! Modules -/

theorem parseModule_total (ts : List Token) :
    (∃ m, module ts = .ok (m, []) ∧ parseModule ts = .ok m) ∨
      ∃ e, parseModule ts = .error e ∧ ∃ k ≤ ts.length, e.rest = ts.drop k := by
  cases h : module ts with
  | ok r =>
    obtain ⟨m, rest⟩ := r
    obtain ⟨rfl, -⟩ := module_eq_ok_iff.mp h
    exact .inl ⟨m, rfl, by rw [parseModule, h]⟩
  | error e =>
    obtain ⟨k, hk, -, hrest⟩ := Part.module.proceeds.fails ts 0 (Nat.zero_le _) e h
    exact .inr ⟨e, parseModule_eq_error_iff.mpr h, k, hk, hrest⟩

/--
Every part of the grammar, wherever in a text it begins, moves on by the tokens that it reads at
least, never back and never past the end, also where it fails. The loops of the grammar end, and so
does its recursion, through nested expressions and through nested statements, in no more rounds and
levels than there are tokens, and one. Whatever the tokens, there is a module made of all of them,
or an error at a place among them.
-/
theorem grammar_progress :
    (∀ {α : Type} (k : Nat) (p : Parser α), Part k p → Proceeds k p) ∧
    (∀ {α : Type} (start? : Token → Option (Parser α)), Repeated start? →
      Ends (round start?) (many start?)) ∧
    Ends (joined · 6) expression ∧
    Ends statementWith statement ∧
    ∀ ts, (∃ m, module ts = .ok (m, []) ∧ parseModule ts = .ok m) ∨
      ∃ e, parseModule ts = .error e ∧ ∃ k ≤ ts.length, e.rest = ts.drop k :=
  ⟨fun _ _ h => h.proceeds, fun _ h => (many_recurs h.itemsAdvance).ends, expression_recurs.ends,
    statement_recurs.ends, parseModule_total⟩

end Parser

end ModuleScript
