import ModuleScript.Proofs.Linking.Taking
import ModuleScript.Proofs.Machine.Evaluations

/-!
What imports come to. Main statement: `import_exact`, an import comes to an end exactly when there
is a verdict on it: it fails with the fault of the verdict, or succeeds, and binds the names that
have been taken and nothing else.
-/

namespace ModuleScript

inductive Supply where
  | nothing
  | natives
  | module (top : FrameId)

def Supply.Binds (f : FrameId) (taken : List Name) (s t : State) : Supply → Prop
  | nothing => t = s
  | natives => BindsNatives f taken s t
  | module source => BindsCells source f taken s t

namespace Machine

/--
The module `m` is found under `x`. It has been started, or its body is run now and comes to an end;
then `t` is the state from which names are taken and `source` the top frame.
-/
inductive Provides (p : Program) (s : State) (x : Name) (m : Module) : FrameId → State → Prop
  | started {source : FrameId} : s.loaded.find? x = some source → Provides p s x m source s
  | run {v : Value} {t : State} : s.loaded.find? x = none →
      Ends p ⟨.exec m.body s.nextFrame, [], s.startModule x⟩ ⟨.ok v, t⟩ →
      Provides p s x m s.nextFrame t

/--
The verdict on an import in the state `s`: the fault with which it fails, if it does, where names
come from, which of them are taken, and the state from which they are taken.
-/
inductive Verdict (p : Program) (s : State) (x : Name) (names : List Name) :
    Option Fault → Supply → List Name → State → Prop
  | natives {fault : Option Fault} {taken : List Name} : x = nativeModule →
      TakenInOrder (fun y => ∃ native, p.natives.find? y = some native)
        (fun y e => p.natives.find? y = none ∧ e = .noSuchExport y) names fault taken →
      Verdict p s x names fault .natives taken s
  | unknown : x ≠ nativeModule → (∀ m ∈ p.modules, m.name ≠ x) →
      Verdict p s x names (some (.noSuchModule x)) .nothing [] s
  | bodyFails {m : Module} {e : Fault} {t : State} : x ≠ nativeModule → p.module? x = some m →
      s.loaded.find? x = none →
      Ends p ⟨.exec m.body s.nextFrame, [], s.startModule x⟩ ⟨.error e, t⟩ →
      Verdict p s x names (some e) .nothing [] t
  | module {m : Module} {source : FrameId} {t : State} {fault : Option Fault}
      {taken : List Name} : x ≠ nativeModule → p.module? x = some m →
      Provides p s x m source t →
      TakenInOrder (t.scopes.Offers source m.exports) (t.scopes.Refuses source m.exports) names
        fault taken →
      Verdict p s x names fault (.module source) taken t

def importResult : Option Fault → Except Fault Value
  | none => .ok .null
  | some e => .error e

/--
What imports in the state `s` come to, on their own and as statements with work waiting below. The
frame into which names are imported may be any that there is, also one of the module itself, and the
module may still be running.
-/
structure ImportsExactly (p : Program) (s : State) : Prop where
  fails : ∀ {x names f e}, f < s.nextFrame →
    ((∃ u, Ends p (importFrom p x names f [] s) ⟨.error e, u⟩) ↔
      ∃ supply taken t, Verdict p s x names (some e) supply taken t)
  judged : ∀ {x names f o}, f < s.nextFrame → Ends p (importFrom p x names f [] s) o →
    ∃ fault supply taken t, Verdict p s x names fault supply taken t ∧
      o.result = importResult fault ∧ supply.Binds f taken t o.state
  settled : ∀ {x names f fault supply taken t}, f < s.nextFrame →
    Verdict p s x names fault supply taken t →
      ∃ u, Ends p (importFrom p x names f [] s) ⟨importResult fault, u⟩ ∧
        supply.Binds f taken t u
  executed : ∀ {c x names rest f o}, c.state = s →
    c.control = .exec (.importFrom x names :: rest) f →
    Ends p (importFrom p x names f [] s) o →
      ∃ k d, after p k c = some d ∧ Lands (.next rest f :: c.stack) o d
  isolated : ∀ {c x names rest f o}, c.state = s →
    c.control = .exec (.importFrom x names :: rest) f → Ends p c o →
      ∃ o', Ends p (importFrom p x names f [] s) o'

end Machine

namespace Machine

variable {p : Program} {s t : State} {x : Name} {names exports taken : List Name}
  {f source : FrameId} {c : Config} {o : Outcome} {m : Module} {fault : Option Fault}

theorem module?_eq_none_iff : p.module? x = none ↔ ∀ m ∈ p.modules, m.name ≠ x := by
  simp [Program.module?, List.find?_eq_none]

theorem ends_fault_iff {e : Fault} {stack : List Pending} :
    Ends p ⟨.fault e, stack, s⟩ o ↔ o = ⟨.error e, s⟩ :=
  ends_iff_of_done rfl

theorem ends_finishImport_iff {result : Option Fault × Scopes Value} :
    Ends p (finishImport result [] s) o ↔
      o = ⟨importResult result.1, { s with scopes := result.2 }⟩ := by
  obtain ⟨fault, scopes⟩ := result
  cases fault with
  | none => exact ends_iff_of_done rfl
  | some e => exact ends_fault_iff

theorem ends_over_imports_iff {v : Value} (h : Ends p c ⟨.ok v, t⟩) :
    Ends p (c.over [.imports source exports names f]) o ↔
      Ends p (finishImport (t.scopes.importNames source exports f names) [] t) o := by
  obtain ⟨k, d, hd, hlands⟩ := h.exists_after [.imports source exports names f]
  refine (ends_iff_of_after hd).trans ?_
  cases hlands with
  | value => exact ends_iff_of_next rfl
  | returned => exact ends_iff_of_next rfl

theorem ends_over_of_error {e : Fault} {below : List Pending} (h : Ends p c ⟨.error e, t⟩) :
    Ends p (c.over below) o ↔ o = ⟨.error e, t⟩ := by
  obtain ⟨k, d, hd, hlands⟩ := h.exists_after below
  cases hlands with
  | fault => exact (ends_iff_of_after hd).trans ends_fault_iff

theorem importFrom_native (names : List Name) (f : FrameId) (stack : List Pending) (s : State) :
    importFrom p nativeModule names f stack s =
      finishImport (s.scopes.importNatives p.natives f names) stack s := by
  rw [importFrom, if_pos rfl]

theorem importFrom_loaded (hx : x ≠ nativeModule) (hm : p.module? x = some m)
    (hl : s.loaded.find? x = some source) (stack : List Pending) :
    importFrom p x names f stack s =
      finishImport (s.scopes.importNames source m.exports f names) stack s := by
  rw [importFrom, if_neg hx]
  simp only [hm, hl]

theorem importFrom_unloaded (hx : x ≠ nativeModule) (hm : p.module? x = some m)
    (hl : s.loaded.find? x = none) :
    importFrom p x names f [] s =
      Config.over ⟨.exec m.body s.nextFrame, [], s.startModule x⟩
        [.imports s.nextFrame m.exports names f] := by
  rw [importFrom, if_neg hx]
  simp only [hm, hl]
  rfl

theorem importFrom_unknown (hx : x ≠ nativeModule) (hm : p.module? x = none)
    (stack : List Pending) :
    importFrom p x names f stack s = ⟨.fault (.noSuchModule x), stack, s⟩ := by
  rw [importFrom, if_neg hx]
  simp only [hm]

theorem ends_importFrom_iff_of_provides (hx : x ≠ nativeModule) (hm : p.module? x = some m)
    (h : Provides p s x m source t) :
    Ends p (importFrom p x names f [] s) o ↔
      Ends p (finishImport (t.scopes.importNames source m.exports f names) [] t) o := by
  cases h with
  | started hl => rw [importFrom_loaded hx hm hl]
  | run hl hbody =>
    rw [importFrom_unloaded hx hm hl]
    exact ends_over_imports_iff hbody

theorem Provides.nextFrame_le (h : Provides p s x m source t) : s.nextFrame ≤ t.nextFrame := by
  cases h with
  | started hl => exact Nat.le_refl _
  | run hl hbody =>
    have hstart : s.nextFrame ≤ (s.startModule x).nextFrame := by
      rw [State.startModule, State.nextFrame, State.nextFrame, Scopes.newRoot,
        Scopes.nextFrame_newFrame]
      exact Nat.le_succ _
    exact Nat.le_trans hstart hbody.nextFrame_le

/-- Whenever names can be taken from somewhere, there is a verdict. -/
theorem exists_verdict_of_provides (hf : f < s.nextFrame) (hx : x ≠ nativeModule)
    (hm : p.module? x = some m) (h : Provides p s x m source t) :
    ∃ fault supply taken t, Verdict p s x names fault supply taken t :=
  have hft : f < t.scopes.nextFrame := Nat.lt_of_lt_of_le hf h.nextFrame_le
  ⟨_, _, _, _, .module hx hm h (Scopes.importNames_taken hft source m.exports names)⟩

theorem exists_verdict_of_ends (hf : f < s.nextFrame)
    (h : Ends p (importFrom p x names f [] s) o) :
    ∃ fault supply taken t, Verdict p s x names fault supply taken t := by
  by_cases hx : x = nativeModule
  · exact ⟨_, _, _, _, .natives hx (Scopes.importNatives_taken p.natives f names s.scopes)⟩
  cases hm : p.module? x with
  | none => exact ⟨_, _, _, _, .unknown hx (module?_eq_none_iff.mp hm)⟩
  | some m =>
    cases hl : s.loaded.find? x with
    | some source => exact exists_verdict_of_provides hf hx hm (.started hl)
    | none =>
      rw [importFrom_unloaded hx hm hl] at h
      obtain ⟨⟨result, t⟩, hbody⟩ := h.of_over
      cases result with
      | error e => exact ⟨_, _, _, _, .bodyFails hx hm hl hbody⟩
      | ok v => exact exists_verdict_of_provides hf hx hm (.run hl hbody)

theorem Verdict.ends {supply : Supply} (h : Verdict p s x names fault supply taken t)
    (hf : f < s.nextFrame) :
    ∃ u, Ends p (importFrom p x names f [] s) ⟨importResult fault, u⟩ ∧
      supply.Binds f taken t u := by
  cases h with
  | natives hx htaken =>
    subst hx
    have hactual := Scopes.importNatives_taken p.natives f names s.scopes
    obtain ⟨rfl, rfl⟩ := htaken.unique
      (fun ⟨_, hsome⟩ hnone => by cases hsome.symm.trans hnone.1)
      (fun he he' => he.2.trans he'.2.symm) hactual
    refine ⟨_, ?_, importNatives_binds hf p.natives names⟩
    rw [importFrom_native]
    exact ends_finishImport_iff.mpr rfl
  | unknown hx hm =>
    refine ⟨s, ?_, rfl⟩
    rw [importFrom_unknown hx (module?_eq_none_iff.mpr hm)]
    exact ends_fault_iff.mpr rfl
  | bodyFails hx hm hl hbody =>
    refine ⟨t, ?_, rfl⟩
    rw [importFrom_unloaded hx hm hl]
    exact (ends_over_of_error hbody).mpr rfl
  | @module m source _ _ _ hx hm hprovides htaken =>
    have hft : f < t.nextFrame := Nat.lt_of_lt_of_le hf hprovides.nextFrame_le
    have hactual := Scopes.importNames_taken hft source m.exports names
    obtain ⟨rfl, rfl⟩ := htaken.unique Scopes.Offers.not_refuses Scopes.Refuses.unique hactual
    refine ⟨_, ?_, importNames_binds hft source m.exports names⟩
    exact (ends_importFrom_iff_of_provides hx hm hprovides).mpr (ends_finishImport_iff.mpr rfl)

theorem after_one_of_import {rest : List Stmt}
    (hcontrol : c.control = .exec (.importFrom x names :: rest) f) :
    after p 1 c = some ((importFrom p x names f [] c.state).over (.next rest f :: c.stack)) := by
  obtain ⟨control, stack, s⟩ := c
  obtain rfl : control = _ := hcontrol
  exact congrArg some (importFrom_over [] (.next rest f :: stack) s x names f)

/-- In every state, whether it is reached or not. -/
theorem import_exact (p : Program) (s : State) : ImportsExactly p s := by
  have hjudged {x : Name} {names : List Name} {f : FrameId} {o : Outcome} (hf : f < s.nextFrame)
      (ho : Ends p (importFrom p x names f [] s) o) :
      ∃ fault supply taken t, Verdict p s x names fault supply taken t ∧
        o.result = importResult fault ∧ supply.Binds f taken t o.state := by
    obtain ⟨fault, supply, taken, t, hverdict⟩ := exists_verdict_of_ends hf ho
    obtain ⟨u, hu, hbinds⟩ := hverdict.ends hf
    obtain rfl := ho.unique hu
    exact ⟨fault, supply, taken, t, hverdict, rfl, hbinds⟩
  constructor
  · intro x names f e hf
    constructor
    · rintro ⟨u, hu⟩
      obtain ⟨fault, supply, taken, t, hverdict, hresult, -⟩ := hjudged hf hu
      cases fault with
      | none => cases hresult
      | some e' =>
        obtain rfl : e = e' := Except.error.inj hresult
        exact ⟨supply, taken, t, hverdict⟩
    · rintro ⟨supply, taken, t, hverdict⟩
      obtain ⟨u, hu, -⟩ := hverdict.ends hf
      exact ⟨u, hu⟩
  · intro x names f o hf ho
    exact hjudged hf ho
  · intro x names f fault supply taken t hf hverdict
    exact hverdict.ends hf
  · intro c x names rest f o hs hcontrol ho
    subst hs
    obtain ⟨k, d, hd, hlands⟩ := ho.exists_after (.next rest f :: c.stack)
    refine ⟨1 + k, d, ?_, hlands⟩
    rw [after_add, after_one_of_import hcontrol]
    exact hd
  · intro c x names rest f o hs hcontrol ho
    subst hs
    exact ((ends_iff_of_after (after_one_of_import hcontrol)).mp ho).of_over

end Machine

end ModuleScript
