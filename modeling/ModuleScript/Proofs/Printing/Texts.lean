import Mathlib.Data.List.Forall2
import ModuleScript.Proofs.Parser.Class
import ModuleScript.Proofs.Printing.Print

/-!
What is printed is a text of the grammar. Parentheses make a text of any level one that can stand
anywhere, and each place in the grammar takes the levels up to its limit. Main statements:
`expr_text` and `module_text`.
-/

namespace ModuleScript

namespace Printing

open Grammar ModuleScript.Parser

variable {u ts : List Token} {e : Expr}

def LevelText : Nat → Texts Expr
  | 0 => Trailed Expression
  | n + 1 => Joined Expression n

theorem LevelText.mono {n m : Nat} (h : LevelText n u e) (hnm : n ≤ m) : LevelText m u e := by
  induction hnm with
  | refl => exact h
  | @step m _ ih =>
    cases m with
    | zero => exact .signed (.trailed ih)
    | succ m => exact .tighter ih

theorem levelText_top_iff : LevelText top u e ↔ Expression u e := expression_iff.symm

theorem rank_le (op : BinaryOp) : op.rank ≤ 6 := by
  cases op <;> decide

theorem level_le_top (e : Expr) : level e ≤ top := by
  cases e with
  | unary op e => exact (by decide : 1 ≤ top)
  | binary op left right => exact Nat.succ_le_succ (rank_le op)
  | _ => exact Nat.zero_le top

theorem parens_text (h : Expression u e) (n : Nat) : Expression (parens n u) e ∧
    (n ≠ 0 → Trailed Expression (parens n u) e) := by
  induction n with
  | zero => exact ⟨h, fun hn => absurd rfl hn⟩
  | succ n ih =>
    have htrailed : Trailed Expression (parens (n + 1) u) e := .operand (.parenthesised ih.1)
    exact ⟨expression_of_trailed htrailed, fun _ => htrailed⟩

theorem upTo_text (limit : Nat) (extra : Extra)
    (h : LevelText (level e) ts e) : LevelText limit (upTo limit extra e ts) e := by
  have hwhole : Expression ts e := levelText_top_iff.mp (h.mono (level_le_top e))
  unfold upTo
  by_cases hpairs : extra [] + (if level e ≤ limit then 0 else 1) = 0
  · rw [hpairs]
    have hlevel : level e ≤ limit := by
      apply Decidable.of_not_not
      intro hnot
      rw [if_neg hnot] at hpairs
      omega
    exact h.mono hlevel
  · have htrailed : LevelText 0 _ e := (parens_text hwhole _).2 hpairs
    exact htrailed.mono (Nat.zero_le limit)

theorem commas_items {α : Type} {g : Texts α} {tss : List (List Token)} {as : List α}
    (h : List.Forall₂ g tss as) : Items g (commas tss) as := by
  induction h with
  | nil => exact .nil
  | @cons ts a tss as ha hs ih =>
    cases hs with
    | nil => exact .last ha
    | cons hb hs => exact .cons ha ih

theorem names_items (xs : List Name) : Items NameText (names xs) xs := by
  refine commas_items ?_
  induction xs with
  | nil => exact .nil
  | cons x xs ih => exact .cons (.mk x) ih

mutual

theorem expr_text (extra : Extra) (e : Expr) : LevelText (level e) (expr extra e) e := by
  cases e with
  | number x => exact .operand (.number x)
  | string s => exact .operand (.string s)
  | boolean b => exact .operand (.boolean b)
  | null => exact .operand .null
  | var x =>
    rw [expr, nameToken]
    split
    · rename_i hx
      rw [hx]
      exact .operand .this
    · exact .operand (.name x)
  | unary op e =>
    have he := upTo_text 1 (extra.part 0) (expr_text (extra.part 0) e)
    exact .signed (.sign op (joined_zero_iff.mp he))
  | binary op left right =>
    have hleft := upTo_text (op.rank + 1) (extra.part 0) (expr_text (extra.part 0) left)
    have hright := upTo_text op.rank (extra.part 1) (expr_text (extra.part 1) right)
    obtain ⟨k, hk⟩ : ∃ k, op.rank = k + 1 := by cases op <;> exact ⟨_, rfl⟩
    rw [level, expr]
    rw [hk] at hleft hright ⊢
    exact .binary op hk hleft hright
  | call callee args =>
    have hcallee := upTo_text 0 (extra.part 0) (expr_text (extra.part 0) callee)
    exact .call hcallee (commas_items (arguments_text extra 1 args))
  | object fields => exact .operand (.object (commas_items (entries_text extra 0 fields)))
  | get e x =>
    have he := upTo_text 0 (extra.part 0) (expr_text (extra.part 0) e)
    exact .get he

theorem arguments_text (extra : Extra) (i : Nat) (args : List Expr) :
    List.Forall₂ Expression (arguments extra i args) args := by
  cases args with
  | nil => exact .nil
  | cons e es =>
    have he := upTo_text top (extra.part i) (expr_text (extra.part i) e)
    exact .cons (levelText_top_iff.mp he) (arguments_text extra (i + 1) es)

theorem entries_text (extra : Extra) (i : Nat) (fields : List (Name × Expr)) :
    List.Forall₂ (Field Expression) (entries extra i fields) fields := by
  match fields with
  | [] => exact .nil
  | (x, e) :: fields =>
    have he := upTo_text top (extra.part i) (expr_text (extra.part i) e)
    exact .cons (.mk (levelText_top_iff.mp he)) (entries_text extra (i + 1) fields)

end

theorem whole_text (extra : Extra) (e : Expr) : Expression (whole extra e) e :=
  levelText_top_iff.mp (upTo_text top extra (expr_text extra e))

/-! Targets of assignments -/

theorem target_chain (extra : Extra) (e : Expr) (h : isChain e = true) :
    Chain (target extra e) e := by
  cases e with
  | var x => exact chain_iff.mpr ⟨expr_text extra (.var x), by
      show startsWithName [nameToken x] = true
      unfold nameToken
      split <;> rfl⟩
  | call callee args =>
    exact .call (target_chain (extra.part 0) callee h) (commas_items (arguments_text extra 1 args))
  | get e x => exact .get (target_chain (extra.part 0) e h)
  | _ => cases h

theorem callsThis_call {callee : Expr} {args : List Expr}
    (h : callsThis (.call callee args) = false) :
    callee ≠ .var thisName ∧ callsThis callee = false := by
  cases callee with
  | var x =>
    refine ⟨?_, rfl⟩
    rintro ⟨rfl⟩
    simp [callsThis] at h
  | _ => exact ⟨nofun, h⟩

/-- A dot follows `this` at the start of a target, if one follows the target that is only `this`. -/
theorem target_dotAfterThis (extra : Extra) (e : Expr) (h : isChain e = true)
    (hcalls : callsThis e = false) (w : List Token)
    (hw : e = .var thisName → w.head? = some (.symbol .dot)) :
    DotAfterThis (target extra e ++ w) := by
  cases e with
  | var x =>
    intro hfirst
    have hx : x = thisName := by
      apply Decidable.of_not_not
      intro hne
      simp [target, expr, nameToken, hne] at hfirst
    rw [← hw (by rw [hx]), List.head?_eq_getElem?]
    rfl
  | call callee args =>
    obtain ⟨hne, hcalls⟩ := callsThis_call hcalls
    rw [target, List.append_assoc]
    exact target_dotAfterThis (extra.part 0) callee h hcalls _ fun he => absurd he hne
  | get e x =>
    rw [target, List.append_assoc]
    exact target_dotAfterThis (extra.part 0) e h hcalls _ fun _ => rfl
  | _ => cases h

/-! Statements and modules -/

theorem blockText_of_many {ss : List Stmt} (h : Many Statement u (ss.map fun s => [s])) :
    BlockText Statement (inBraces u) ss := by
  have hblock := BlockText.mk h
  rwa [← List.flatMap_def, List.flatMap_singleton'] at hblock

mutual

theorem stmt_text (extra : Extra) (s : Stmt) (h : settable s = true) :
    Statement (stmt extra s) [s] := by
  refine .mk ?_
  cases s with
  | declare x => exact .declare x
  | assign x e => exact .assign x (whole_text (extra.part 0) e)
  | ret value =>
    cases value with
    | none => exact .ret
    | some e => exact .retValue (whole_text (extra.part 0) e)
  | eval e =>
    have he : Expression (inParens (whole (extra.part 0) e)) e :=
      expression_of_trailed (.operand (.parenthesised (whole_text (extra.part 0) e)))
    exact .eval he nofun
  | function x r => exact .function x (routine_text extra r h)
  | classDecl x construct ms =>
    obtain ⟨hconstruct, hms⟩ := Bool.and_eq_true_iff.mp h
    have hr := routine_text (extra.part 0) construct hconstruct
    obtain ⟨members, hm, hone, hc, hmethods⟩ := members_iff.mpr
      (.inr ⟨[], _, _, [], ms, rfl, .nil, hr, methods_text extra 1 ms hms, rfl⟩)
    have hclass := StatementWith.classDecl x hm hone
    rw [← hc, ← hmethods] at hclass
    exact hclass
  | ite condition yes no =>
    obtain ⟨hyes, hno⟩ := Bool.and_eq_true_iff.mp h
    exact .conditional (.plain (whole_text (extra.part 0) condition)
      (blockText_of_many (stmts_text (extra.part 1) 0 yes hyes))
      (blockText_of_many (stmts_text (extra.part 2) 0 no hno)))
  | loop condition body =>
    exact .loop (whole_text (extra.part 0) condition)
      (blockText_of_many (stmts_text (extra.part 1) 0 body h))
  | set object x e =>
    obtain ⟨hchain, hcalls⟩ := Bool.and_eq_true_iff.mp h
    have hdot := target_dotAfterThis (extra.part 0) object hchain
      (Bool.not_eq_true' _ ▸ hcalls) [.symbol .dot] fun _ => rfl
    exact .set x (target_chain (extra.part 0) object hchain) hdot (whole_text (extra.part 1) e)
  | importFrom source xs => exact .importFrom source (names_items xs)

theorem stmts_text (extra : Extra) (i : Nat) (ss : List Stmt) (h : settableAll ss = true) :
    Many Statement (stmts extra i ss) (ss.map fun s => [s]) := by
  cases ss with
  | nil => exact .nil
  | cons s ss =>
    obtain ⟨hs, hss⟩ := Bool.and_eq_true_iff.mp h
    exact .cons (stmt_text (extra.part i) s hs) (stmts_text extra (i + 1) ss hss)

theorem routine_text (extra : Extra) (r : Routine Stmt) (h : settableRoutine r = true) :
    RoutineText Statement (routine extra r) r := by
  obtain ⟨params, body⟩ := r
  exact .mk (names_items params) (blockText_of_many (stmts_text extra 0 body h))

theorem methods_text (extra : Extra) (i : Nat) (ms : List (Name × Routine Stmt))
    (h : settableMethods ms = true) : Many (MethodText Statement) (methods extra i ms) ms := by
  match ms, h with
  | [], _ => exact .nil
  | (x, r) :: ms, h =>
    obtain ⟨hr, hms⟩ := Bool.and_eq_true_iff.mp h
    exact .cons (.mk x (routine_text (extra.part i) r hr)) (methods_text extra (i + 1) ms hms)

end

theorem module_text (extra : Extra) (m : Module) (h : settableAll m.body = true) :
    ModuleText (module extra m) m := by
  obtain ⟨x, body, exports⟩ := m
  have hbody := blockText_of_many (stmts_text extra 0 body h)
  unfold module
  split
  · rename_i hnone
    obtain rfl : exports = [] := hnone
    rw [List.append_nil]
    exact .plain x hbody
  · have hmodule := ModuleText.exporting x hbody (names_items exports)
    rwa [List.append_assoc] at hmodule

end Printing

end ModuleScript
