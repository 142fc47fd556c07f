import ModuleScript.Proofs.Tandem.Stmt
import ModuleScript.Proofs.Viable.Module

/-!
Other payloads in the tokens. A parse goes the same way whatever names, numbers, strings and truth
values stand in the tokens. Main statement: `parseModule_relabelled`.
-/

namespace ModuleScript

namespace Parser

/-- The second tokens are the first ones with other payloads. -/
def Relabels (ρ : Payloads) (ts us : List Token) : Prop := us = ts.map ρ.token

variable {ρ : Payloads} {stmt : Parser (List Stmt)}

theorem relabels_tail {t : Token} {ts us : List Token}
    (h : Relabels ρ (t :: ts) (ρ.token t :: us)) : Relabels ρ ts us :=
  (List.cons.inj h).2

theorem relabels_pairing (ρ : Payloads) : Pairing ρ (Relabels ρ) where
  nil h := h
  cons h := ⟨_, h⟩
  tail _ h := relabels_tail h
  push t _ _ h := congrArg (ρ.token t :: ·) h

theorem InStepBehind.inStep {α β : Type} {φ : α → β} {p : Parser α} {q : Parser β}
    (h : InStepBehind (Relabels ρ) φ p q) : InStep (Relabels ρ) φ p q := by
  intro ts us hts
  refine h ts us hts ?_
  rw [Relabels, hts, List.map_tail]

theorem statements_relabelled (h : InStep (Relabels ρ) ρ.stmts stmt stmt)
    (hadvances : Advances 1 stmt) :
    InStep (Relabels ρ) ρ.stmts (statements stmt) (statements stmt) := by
  have hR := relabels_pairing ρ
  have hstart : StartsInStep ρ (Relabels ρ) ρ.stmts (startStatement? stmt)
      (startStatement? stmt) := by
    intro t
    simp only [startStatement?, ρ.token_eq_symbol_iff]
    split
    · exact .none
    · exact .some ⟨fun _ _ => relabels_tail, unread_inStep hR h.behind⟩
  have hitems := startStatement?_advances hadvances
  refine map_inStep (many_inStep hR hstart hitems hitems) fun bodies => ?_
  have hmap : ρ.stmts = List.map ρ.stmt := funext ρ.stmts_eq_map
  rw [hmap, List.map_flatten]

theorem statementUpTo_relabelled (ρ : Payloads) (bound : List Token) :
    InStep (Relabels ρ) ρ.stmts (statementUpTo bound) (statementUpTo bound) := by
  induction bound with
  | nil => exact fail_inStep ρ.stmts .operand
  | cons b bound ih =>
    have hadvances := statementUpTo_advances bound
    exact (statementWith_inStep (relabels_pairing ρ) ih.behind
      (statements_relabelled ih hadvances) hadvances).inStep

theorem module_relabelled (ρ : Payloads) : InStep (Relabels ρ) ρ.module module module := by
  have hstatement : InStep (Relabels ρ) ρ.stmts statement statement := by
    intro ts us hts
    refine matches_of_bounds (fun _ => statementUpTo_eq) (fun _ => statementUpTo_eq) ?_
    exact fun bound => statementUpTo_relabelled ρ bound ts us hts
  exact module_inStep (relabels_pairing ρ) (statements_relabelled hstatement statement_advances)

end Parser

/--
With other payloads in its tokens a module is read as the same module with these payloads. Tokens
that are refused are refused at the same place for the same reason, and the message names the token
that now stands there.
-/
theorem parseModule_relabelled (ρ : Payloads) (ts : List Token) :
    (∀ m, parseModule ts = .ok m → parseModule (ts.map ρ.token) = .ok (ρ.module m)) ∧
      ∀ e, parseModule ts = .error e → ∃ k ≤ ts.length, e.rest = ts.drop k ∧
        ∃ e', parseModule (ts.map ρ.token) = .error e' ∧ e'.rest = (ts.map ρ.token).drop k ∧
          e'.expected = e.expected ∧
            e'.message = "Expected " ++ e.expected.text ++ ", found " ++
              (match ts[k]? with
                | some t => (ρ.token t).text
                | none => "end of input") := by
  have hrelabels : Parser.Relabels ρ ts (ts.map ρ.token) := rfl
  rcases parseModule_inStep (Parser.module_relabelled ρ) hrelabels with
    ⟨m, hm, hm'⟩ | ⟨expected, rest, rest', he, he', rfl⟩
  · refine ⟨fun m' hok => ?_, fun e herror => ?_⟩
    · obtain rfl := Except.ok.inj (hm.symm.trans hok)
      exact hm'
    · cases hm.symm.trans herror
  · refine ⟨fun m hok => ?_, fun e herror => ?_⟩
    · cases he.symm.trans hok
    · obtain rfl := Except.error.inj (he.symm.trans herror)
      obtain ⟨u, rfl, -, -⟩ := Parser.module_eq_error (parseModule_eq_error_iff.mp herror)
      have hrest : ((u ++ rest).map ρ.token).drop u.length = rest.map ρ.token := by
        rw [← List.map_drop, List.drop_left]
      have hnext : (u ++ rest)[u.length]? = rest.head? := by
        rw [List.getElem?_append_right (Nat.le_refl _), Nat.sub_self, List.head?_eq_getElem?]
      refine ⟨u.length, by simp, List.drop_left.symm, _, he', hrest.symm, rfl, ?_⟩
      rw [hnext, ParseError.message, ParseError.found]
      cases rest <;> rfl

end ModuleScript
