import ModuleScript.Proofs.Parser.Stmt
import ModuleScript.Proofs.Printing.Texts

/-!
Parsing undoes printing. What can be printed is what the parser returns for tokens without an
identifier spelled like `this`. Main statement: `parseModule_print`.
-/

namespace ModuleScript

namespace Printing

open Grammar ModuleScript.Parser

def Plain (u : List Token) : Prop := .identifier thisName ∉ u

theorem plain_append {u v : List Token} : Plain (u ++ v) ↔ Plain u ∧ Plain v := by
  simp [Plain, not_or]

theorem plain_cons {t : Token} {u : List Token} (h : Plain (t :: u)) : Plain u :=
  fun hu => h (List.mem_cons_of_mem t hu)

theorem plain_inBraces {u : List Token} (h : Plain (inBraces u)) : Plain u :=
  (plain_append.mp (plain_cons h)).1

theorem isChain_of_chain {u : List Token} {e : Expr} (h : Chain u e) : isChain e = true := by
  induction h with
  | name x => rfl
  | this => rfl
  | call _ _ ih => exact ih
  | get _ ih => exact ih

/-- A call of `this` would start with the two tokens that may not start a statement. -/
theorem callsThis_of_chain {u : List Token} {e : Expr} (h : Chain u e) (hplain : Plain u)
    (w : List Token) (hdot : DotAfterThis (u ++ w)) : callsThis e = false := by
  induction h generalizing w with
  | name x => rfl
  | this => rfl
  | @call u v e args hu hv ih =>
    rw [List.append_assoc] at hdot
    have hcallee := ih (plain_append.mp hplain).1 _ hdot
    cases e with
    | var x =>
      rcases chain_var_iff.mp hu with rfl | ⟨rfl, rfl⟩
      · have hx : x ≠ thisName := by
          rintro rfl
          exact hplain (List.mem_cons_self ..)
        exact decide_eq_false hx
      · cases hdot rfl
    | _ => exact hcallee
  | @get u e x hu ih =>
    rw [List.append_assoc] at hdot
    exact ih (plain_append.mp hplain).1 _ hdot

theorem settableAll_append (ss ts : List Stmt) :
    settableAll (ss ++ ts) = (settableAll ss && settableAll ts) := by
  induction ss with
  | nil => rfl
  | cons s ss ih => rw [List.cons_append, settableAll, ih, settableAll, Bool.and_assoc]

theorem settableMethods_append (ms ns : List (Name × Routine Stmt)) :
    settableMethods (ms ++ ns) = (settableMethods ms && settableMethods ns) := by
  induction ms with
  | nil => rfl
  | cons m ms ih => rw [List.cons_append, settableMethods, ih, settableMethods, Bool.and_assoc]

section Nested

variable {n : Nat} {u : List Token}

/-- What the parser returns for fewer than `n` tokens can be printed. -/
def SettableBelow (n : Nat) : Prop :=
  ∀ (u : List Token) (body : List Stmt), u.length < n → Plain u → Statement u body →
    settableAll body = true

theorem settable_of_many (ih : SettableBelow n) {bodies : List (List Stmt)}
    (h : Many Statement u bodies) (hn : u.length < n) (hplain : Plain u) :
    settableAll bodies.flatten = true := by
  induction h with
  | nil => rfl
  | cons hbody _ ihm =>
    rw [List.length_append] at hn
    obtain ⟨hu, hv⟩ := plain_append.mp hplain
    rw [List.flatten_cons, settableAll_append, ih _ _ (by omega) hu hbody, ihm (by omega) hv]
    rfl

theorem settable_of_block (ih : SettableBelow n) {body : List Stmt} (h : BlockText Statement u body)
    (hn : u.length ≤ n) (hplain : Plain u) : settableAll body = true := by
  cases h with
  | @mk v bodies hm =>
    have hv : v.length < n := by
      simp only [List.cons_append, List.length_cons, List.length_append] at hn
      omega
    exact settable_of_many ih hm hv (plain_inBraces hplain)

theorem settable_of_routine (ih : SettableBelow n) {r : Routine Stmt}
    (h : RoutineText Statement u r) (hn : u.length ≤ n) (hplain : Plain u) :
    settableRoutine r = true := by
  cases h with
  | mk _ hbody =>
    rw [List.length_append] at hn
    exact settable_of_block ih hbody (by omega) (plain_append.mp hplain).2

theorem settable_of_methods (ih : SettableBelow n) {ms : List (Name × Routine Stmt)}
    (h : Many (MethodText Statement) u ms) (hn : u.length ≤ n) (hplain : Plain u) :
    settableMethods ms = true := by
  induction h with
  | nil => rfl
  | cons hm _ ihm =>
    cases hm with
    | mk x hr =>
      obtain ⟨hu, hv⟩ := plain_append.mp hplain
      rw [List.length_append, List.length_cons] at hn
      rw [settableMethods, settable_of_routine ih hr (by omega) (plain_cons hu), ihm (by omega) hv]
      rfl

theorem settable_of_class (ih : SettableBelow n) {x : Name} {members : List Member}
    (h : Many (MemberText Statement) u members)
    (hone : (members.filterMap Member.construct?).length ≤ 1) (hn : u.length ≤ n)
    (hplain : Plain u) :
    settable (.classDecl x ((members.filterMap Member.construct?).headD ⟨[], []⟩)
      (members.filterMap Member.method?)) = true := by
  rw [settable, Bool.and_eq_true_iff]
  rcases members_iff.mp ⟨members, h, hone, rfl, rfl⟩ with ⟨hm, hc⟩ |
    ⟨v, w, y, before, after, rfl, hv, hw, hy, hm⟩
  · rw [hc]
    exact ⟨rfl, settable_of_methods ih hm hn hplain⟩
  · simp only [List.length_append, List.length_cons] at hn
    obtain ⟨hplain, hplain_y⟩ := plain_append.mp hplain
    obtain ⟨hplain_v, hplain_w⟩ := plain_append.mp hplain
    have hbefore := settable_of_methods ih hv (by omega) hplain_v
    have hafter := settable_of_methods ih hy (by omega) hplain_y
    refine ⟨settable_of_routine ih hw (by omega) (plain_cons hplain_w), ?_⟩
    rw [hm, settableMethods_append, hbefore, hafter]
    rfl

theorem settable_of_conditional (ih : SettableBelow n) {s : Stmt}
    (h : Conditional Statement u s) (hn : u.length ≤ n) (hplain : Plain u) :
    settable s = true := by
  -- the lengths and the tokens of the two branches, which all forms of the statement share
  have hparts {v w x : List Token}
      (hn : (Token.keyword .if_ :: inParens v ++ w ++ .keyword .else_ :: x).length ≤ n)
      (hplain : Plain (Token.keyword .if_ :: inParens v ++ w ++ .keyword .else_ :: x)) :
      (w.length ≤ n ∧ Plain w) ∧ x.length ≤ n ∧ Plain x := by
    simp only [List.length_append, List.length_cons] at hn
    obtain ⟨hplain, hplain_x⟩ := plain_append.mp hplain
    obtain ⟨-, hplain_w⟩ := plain_append.mp hplain
    exact ⟨⟨by omega, hplain_w⟩, by omega, plain_cons hplain_x⟩
  induction h with
  | plain _ hyes hno =>
    obtain ⟨⟨hn_yes, hplain_yes⟩, hn_no, hplain_no⟩ := hparts hn hplain
    rw [settable, settable_of_block ih hyes hn_yes hplain_yes,
      settable_of_block ih hno hn_no hplain_no]
    rfl
  | elseIf _ hyes _ ihno =>
    obtain ⟨⟨hn_yes, hplain_yes⟩, hn_no, hplain_no⟩ := hparts hn hplain
    rw [settable, settable_of_block ih hyes hn_yes hplain_yes, settableAll,
      ihno hn_no hplain_no]
    rfl

theorem settableBelow (n : Nat) : SettableBelow n := by
  induction n with
  | zero =>
    intro u body hn
    exact absurd hn (Nat.not_lt_zero _)
  | succ n ih =>
    intro u body hn hplain h
    have hlength : u.length ≤ n := Nat.le_of_lt_succ hn
    cases statement_iff.mp h with
    | conditional hc =>
      rw [settableAll, settable_of_conditional ih hc hlength hplain]
      rfl
    | @loop v w condition inner hv hw =>
      obtain ⟨-, hplain_w⟩ := plain_append.mp hplain
      simp only [List.length_append, List.length_cons] at hlength
      rw [settableAll, settable, settable_of_block ih hw (by omega) hplain_w]
      rfl
    | @function v r x hv =>
      simp only [List.length_cons] at hlength
      have hrest := plain_cons (plain_cons hplain)
      rw [settableAll, settable, settable_of_routine ih hv (by omega) hrest]
      rfl
    | @classDecl v members x hm hone =>
      simp only [List.cons_append, List.length_append, List.length_cons] at hlength
      have hclass := settable_of_class ih (x := x) hm hone (by omega)
        (plain_inBraces (plain_cons (plain_cons hplain)))
      rw [settableAll, hclass]
      rfl
    | @set v w object e x hc hd hv =>
      obtain ⟨hplain_v, -⟩ := plain_append.mp (plain_append.mp hplain).1
      rw [settableAll, settable, isChain_of_chain hc, callsThis_of_chain hc hplain_v _ hd]
      rfl
    | _ => rfl

end Nested

theorem settable_of_module {u : List Token} {m : Module} (h : ModuleText u m) (hplain : Plain u) :
    settableAll m.body = true := by
  cases h with
  | plain x hu =>
    exact settable_of_block (settableBelow _) hu (Nat.le_refl _) (plain_cons (plain_cons hplain))
  | exporting x hu hv =>
    obtain ⟨hplain, -⟩ := plain_append.mp (plain_append.mp hplain).1
    exact settable_of_block (settableBelow _) hu (Nat.le_refl _) (plain_cons (plain_cons hplain))

end Printing

open Printing in
/--
Parsing gives back every module whose setters have objects that can be printed, however many
parentheses are printed beyond the required ones. The modules that the parser returns are such, if
no identifier in the tokens is spelled like `this`, so that they survive being printed.
-/
theorem parseModule_print :
    (∀ (extra : Extra) (m : Module), settableAll m.body = true →
      parseModule (Printing.module extra m) = .ok m) ∧
    (∀ (ts : List Token) (m : Module), parseModule ts = .ok m → .identifier thisName ∉ ts →
      settableAll m.body = true) ∧
    ∀ (extra : Extra) (ts : List Token) (m : Module), parseModule ts = .ok m →
      .identifier thisName ∉ ts → parseModule (Printing.module extra m) = parseModule ts := by
  have hprint (extra : Extra) (m : Module) (h : settableAll m.body = true) :
      parseModule (Printing.module extra m) = .ok m := by
    rw [parseModule, Parser.module_eq_ok_iff.mpr ⟨rfl, module_text extra m h⟩]
  have hparse (ts : List Token) (m : Module) (h : parseModule ts = .ok m)
      (hplain : .identifier thisName ∉ ts) : settableAll m.body = true := by
    unfold parseModule at h
    split at h
    · rename_i hm
      cases h
      exact settable_of_module (Parser.module_eq_ok_iff.mp hm).2 hplain
    · cases h
  refine ⟨hprint, hparse, fun extra ts m h hplain => ?_⟩
  rw [h]
  exact hprint extra m (hparse ts m h hplain)

open Printing in
/-- The statement `this.f(-a).x = (a - (b - c)) * d;`, with and without more parentheses. -/
theorem parseModule_print_setter :
    let object := Expr.call (.get (.var thisName) "f") [.unary .negate (.var "a")]
    let value := Expr.binary .multiply (.binary .subtract (.var "a")
      (.binary .subtract (.var "b") (.var "c"))) (.var "d")
    let m : Module := ⟨"m", [.set object "x" value], ["e"]⟩
    settableAll m.body = true ∧ parseModule (Printing.module (fun _ => 0) m) = .ok m ∧
      parseModule (Printing.module (fun _ => 2) m) = .ok m ∧
      .identifier thisName ∉ Printing.module (fun _ => 0) m ∧
      parseModule (Printing.module (fun _ => 2) m) =
        parseModule (Printing.module (fun _ => 0) m) := by
  intro object value m
  have hsettable : settableAll m.body = true := rfl
  have hplain : .identifier thisName ∉ Printing.module (fun _ => 0) m := by decide
  have hzero := parseModule_print.1 (fun _ => 0) m hsettable
  have htwo := parseModule_print.1 (fun _ => 2) m hsettable
  exact ⟨hsettable, hzero, htwo, hplain, parseModule_print.2.2 (fun _ => 2) _ m hzero hplain⟩

end ModuleScript
