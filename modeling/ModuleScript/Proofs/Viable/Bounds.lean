import ModuleScript.Proofs.Viable.Stmt

/-!
Bounds of nested parsers. A bound that is as long as the tokens makes no difference: what the parser
reads and where it fails has been told without the bound. Main statements: `expressionUpTo_eq` and
`statementUpTo_eq`.
-/

namespace ModuleScript

namespace Parser

open Grammar

variable {α : Type} {n n' : Nat} {p p' : Parser α} {g : Texts α} {c : Token → Bool}

theorem Alike.eq (h : Alike n n' p p' g c) {ts : List Token} (hn : ts.length < n)
    (hn' : ts.length < n') : p ts = p' ts := by
  cases hp : p ts with
  | ok r =>
    obtain ⟨a, rest⟩ := r
    have htext := (h.reads ts hn a rest).mp hp
    exact ((h.reads' ts hn' a rest).mpr htext).symm
  | error e =>
    obtain ⟨u, rfl, -, hlocal⟩ := h.fails ts hn e hp
    exact (hlocal e.rest rfl hn').symm

theorem expressionUpTo_eq {bound ts : List Token} (h : ts.length ≤ bound.length) :
    expressionUpTo bound ts = expression ts := by
  have halike : Alike (bound.length + 1) (ts.length + 1) (expressionUpTo bound)
      (expressionUpTo ts) Expression (continues 6) :=
    ⟨expressionUpTo_reads bound, expressionUpTo_reads ts, expressionUpTo_fails bound ts, _, _,
      expression_null⟩
  exact halike.eq (Nat.lt_succ_of_le h) (Nat.lt_succ_self _)

theorem statementUpTo_eq {bound ts : List Token} (h : ts.length ≤ bound.length) :
    statementUpTo bound ts = statement ts := by
  have halike : Alike (bound.length + 1) (ts.length + 1) (statementUpTo bound)
      (statementUpTo ts) Statement never :=
    ⟨statementUpTo_reads bound, statementUpTo_reads ts, statementUpTo_fails bound ts, _, _,
      statement_ret⟩
  exact halike.eq (Nat.lt_succ_of_le h) (Nat.lt_succ_self _)

end Parser

end ModuleScript
