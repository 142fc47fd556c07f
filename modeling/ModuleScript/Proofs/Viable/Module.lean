import ModuleScript.Proofs.Viable.Stmt

/-!
Errors of the module parser. Main statement: `parseModule_viable`, the token that an error names is
the first one with which the tokens stop being the beginning of a module.
-/

namespace ModuleScript

namespace Parser

open Grammar

variable {n n' : Nat}

theorem endOfInput_fails (n n' : Nat) :
    Fails n n' endOfInput endOfInput fun u _ => u = [] := by
  refine fails_of_first ⟨[], (), rfl⟩ fun ts e he => ?_
  unfold endOfInput at he
  split at he
  · cases he
  · rename_i hts
    cases he
    refine ⟨rfl, fun rest hrest => ?_⟩
    unfold endOfInput
    split
    · exact absurd (List.head?_eq_none_iff.mp hrest.symm) hts
    · rfl

theorem exports_bind {α : Type} (f : List Name → Parser α) :
    exports >>= f =
      (do if ← accept (.keyword .export_) then names (.symbol .semicolon) >>= f else f []) := by
  rw [exports, bind_bind]
  congr
  funext b
  cases b <;> rfl

theorem exports_fails (x : Name) (body : List Stmt) :
    Fails n n' (do let xs ← exports; endOfInput; pure (⟨x, body, xs⟩ : Module))
      (do let xs ← exports; endOfInput; pure (⟨x, body, xs⟩ : Module))
      fun u m => (u = [] ∧ m = ⟨x, body, []⟩) ∨
        ∃ v xs, u = .keyword .export_ :: v ++ [.symbol .semicolon] ∧ Items NameText v xs ∧
          m = ⟨x, body, xs⟩ := by
  have hclose : Closes (.symbol .semicolon) startName? never := ⟨by decide, rfl, rfl, rfl⟩
  have hend (xs : List Name) :=
    map_fails (endOfInput_fails n n') fun _ => (⟨x, body, xs⟩ : Module)
  have hnames := bind_fails (names_alike n n' hclose) hend fun xs => ⟨_, _, (), rfl, rfl⟩
  have hfails := accept_bind_fails (.keyword .export_) hnames
    ⟨_, _, _, _, _, rfl, ⟨[], rfl, .nil⟩, (), rfl, rfl⟩ (hend [])
  rw [exports_bind]
  refine hfails.imp ?_
  rintro w _ (⟨_, rfl, _, _, xs, rfl, ⟨v, rfl, hv⟩, _, rfl, rfl⟩ | ⟨_, rfl, rfl⟩)
  · exact ⟨_, .inr ⟨v, xs, by simp, hv, rfl⟩⟩
  · exact ⟨_, .inl ⟨rfl, rfl⟩⟩

theorem module_fails (n n' : Nat) : Fails (n + 1) (n' + 1) module module ModuleText := by
  have hrest (x : Name) := bind_fails (block_alike (statement_alike (n + 1) (n' + 1)))
    (exports_fails x) fun body => ⟨_, _, .inl ⟨rfl, rfl⟩⟩
  have hname := identifier_bind_fails hrest
    fun x => ⟨_, _, _, _, _, rfl, blockText_nil, .inl ⟨rfl, rfl⟩⟩
  have hfails := expect_bind_fails (.keyword .module_) hname
    ⟨_, _, "", _, rfl, _, _, _, rfl, blockText_nil, .inl ⟨rfl, rfl⟩⟩
  refine hfails.imp ?_
  rintro w _ ⟨_, rfl, x, _, rfl, u, _, body, rfl, hu, ⟨rfl, rfl⟩ | ⟨v, xs, rfl, hv, rfl⟩⟩
  · exact ⟨_, by simpa using ModuleText.plain x hu⟩
  · exact ⟨_, by simpa using ModuleText.exporting x hu hv⟩

theorem module_eq_error {ts : List Token} {e : ParseError} (h : module ts = .error e) :
    ∃ u, ts = u ++ e.rest ∧ Begins ModuleText u ∧
      ∀ rest : List Token, rest.head? = e.rest.head? →
        module (u ++ rest) = .error ⟨e.expected, rest⟩ := by
  have hfails (n' : Nat) := module_fails ts.length n' ts (Nat.lt_succ_self _) e h
  obtain ⟨u, hu, hbegins, -⟩ := hfails 0
  refine ⟨u, hu, hbegins, fun rest hrest => ?_⟩
  obtain ⟨u', hu', -, hlocal⟩ := hfails (u ++ rest).length
  obtain rfl : u = u' := List.append_cancel_right (hu.symm.trans hu')
  exact hlocal rest hrest (Nat.lt_succ_self _)

end Parser

theorem parseModule_eq_error_iff {ts : List Token} {e : ParseError} :
    parseModule ts = .error e ↔ Parser.module ts = .error e := by
  unfold parseModule
  cases Parser.module ts <;> simp

theorem exists_parseModule_eq_ok {u : List Token} (h : Parser.Begins Grammar.ModuleText u) :
    ∃ rest m, parseModule (u ++ rest) = .ok m := by
  obtain ⟨v, m, hm⟩ := h
  refine ⟨v, m, ?_⟩
  rw [parseModule, Parser.module_eq_ok_iff.mpr ⟨rfl, hm⟩]

/-- The tokens before the place `k` begin a module that is accepted. With the token at that place,
if there is one, they begin none. -/
def FirstWrong (ts : List Token) (k : Nat) : Prop :=
  (∃ rest m, parseModule (ts.take k ++ rest) = .ok m) ∧
    (k < ts.length → ∀ rest m, parseModule (ts.take (k + 1) ++ rest) ≠ .ok m)

/-- An error names the first token that is wrong. -/
theorem parseModule_viable (ts : List Token) (e : ParseError) (h : parseModule ts = .error e) :
    ∃ k ≤ ts.length, FirstWrong ts k ∧
      e.message = "Expected " ++ e.expected.text ++ ", found " ++
        (match ts[k]? with
          | some t => t.text
          | none => "end of input") := by
  obtain ⟨u, rfl, hbegins, hlocal⟩ := Parser.module_eq_error (parseModule_eq_error_iff.mp h)
  refine ⟨u.length, by simp, ⟨?_, fun hk rest m => ?_⟩, ?_⟩
  · rw [List.take_left]
    exact exists_parseModule_eq_ok hbegins
  · obtain ⟨t, r, hrest⟩ : ∃ t r, e.rest = t :: r := by
      refine List.exists_cons_of_ne_nil fun hnil => ?_
      simp [hnil] at hk
    have htake : (u ++ e.rest).take (u.length + 1) ++ rest = u ++ t :: rest := by
      rw [hrest, List.take_length_add_append]
      simp
    have herror := hlocal (t :: rest) (by rw [hrest]; rfl)
    rw [htake, parseModule_eq_error_iff.mpr herror]
    exact nofun
  · have hnext : (u ++ e.rest)[u.length]? = e.rest.head? := by
      rw [List.getElem?_append_right (Nat.le_refl _), Nat.sub_self, List.head?_eq_getElem?]
    rw [hnext, ParseError.message, ParseError.found]
    cases e.rest <;> rfl

/-- `this` cannot be assigned to, so that the sign of the assignment is wrong. -/
theorem parseModule_viable_assignThis :
    let ts := [.keyword .module_, .identifier "m", .symbol .openBrace, .keyword .this_,
      .symbol .assign, .keyword .null_]
    let e := ⟨.token (.symbol .dot), [.symbol .assign, .keyword .null_]⟩
    parseModule ts = .error e ∧ ∃ k ≤ ts.length, FirstWrong ts k ∧
      e.message = "Expected " ++ e.expected.text ++ ", found " ++
        (match ts[k]? with
          | some t => t.text
          | none => "end of input") :=
  ⟨rfl, parseModule_viable _ _ rfl⟩

end ModuleScript
