import Mathlib.Data.Option.Basic
import ModuleScript.Proofs.Parser.Progress
import ModuleScript.Proofs.Tandem.Payloads

/-!
Two parses in tandem. Their tokens are paired: they are the same up to payloads, and may differ in
number behind a `let`. Main statements: `bind_inStep`, `many_inStep` and `listUntil_inStep`, parsers
built from parsers that end in the same way on both do so too.
-/

namespace ModuleScript

namespace Parser

variable {α β γ δ : Type} {ρ : Payloads} {R : List Token → List Token → Prop}

/-- Relations of the tokens of two parses. Behind any token but a `let` they stay related. -/
structure Pairing (ρ : Payloads) (R : List Token → List Token → Prop) : Prop where
  nil : ∀ {us}, R [] us → us = []
  cons : ∀ {t ts us}, R (t :: ts) us → ∃ vs, us = ρ.token t :: vs
  tail : ∀ {t ts us}, t ≠ .keyword .let_ → R (t :: ts) (ρ.token t :: us) → R ts us
  push : ∀ t {ts us}, R ts us → R (t :: ts) (ρ.token t :: us)

/-- Two parses end in the same way. What is read first is `φ` of what is read second, or the same is
expected. -/
inductive Matches (R : List Token → List Token → Prop) (φ : α → β) :
    Except ParseError (α × List Token) → Except ParseError (β × List Token) → Prop
  | ok {a : α} {b : β} {rest rest' : List Token} : b = φ a → R rest rest' →
      Matches R φ (.ok (a, rest)) (.ok (b, rest'))
  | error {expected : Expected} {rest rest' : List Token} : R rest rest' →
      Matches R φ (.error ⟨expected, rest⟩) (.error ⟨expected, rest'⟩)

/-- On paired tokens the parsers end in the same way. -/
def InStep (R : List Token → List Token → Prop) (φ : α → β) (p : Parser α) (q : Parser β) : Prop :=
  ∀ ts us, R ts us → Matches R φ (p ts) (q us)

def InStepBehind (R : List Token → List Token → Prop) (φ : α → β) (p : Parser α) (q : Parser β) :
    Prop :=
  ∀ ts us, R ts us → R ts.tail us.tail → Matches R φ (p ts) (q us)

theorem InStep.behind {φ : α → β} {p : Parser α} {q : Parser β} (h : InStep R φ p q) :
    InStepBehind R φ p q :=
  fun ts us hts _ => h ts us hts

/-! Sequences -/

section Sequences

variable {φ : α → β} {ψ : γ → δ} {p : Parser α} {q : Parser β}

theorem Matches.bind {ts us : List Token} {f : α → Parser γ} {g : β → Parser δ}
    (hp : Matches R φ (p ts) (q us))
    (hf : ∀ a rest rest', p ts = .ok (a, rest) → R rest rest' →
      Matches R ψ (f a rest) (g (φ a) rest')) :
    Matches R ψ ((p >>= f) ts) ((q >>= g) us) := by
  rw [bind_apply, bind_apply]
  generalize p ts = r at hp hf ⊢
  generalize q us = r' at hp ⊢
  cases hp with
  | ok hb hrest =>
    subst hb
    exact hf _ _ _ rfl hrest
  | error hrest => exact .error hrest

theorem bind_inStep {f : α → Parser γ} {g : β → Parser δ} (hp : InStep R φ p q)
    (hf : ∀ a, InStep R ψ (f a) (g (φ a))) : InStep R ψ (p >>= f) (q >>= g) :=
  fun ts us h => (hp ts us h).bind fun a rest rest' _ hrest => hf a rest rest' hrest

/-- Where every bound that is long enough does the same, one bound can be taken for both lists. -/
theorem matches_of_bounds {p' : List Token → Parser α} {q' : List Token → Parser β}
    {ts us : List Token} (hp : ∀ bound, ts.length ≤ bound.length → p' bound ts = p ts)
    (hq : ∀ bound, us.length ≤ bound.length → q' bound us = q us)
    (h : ∀ bound, Matches R φ (p' bound ts) (q' bound us)) : Matches R φ (p ts) (q us) := by
  rw [← hp (ts ++ us) (by simp), ← hq (ts ++ us) (by simp)]
  exact h (ts ++ us)

theorem pure_inStep {a : α} {b : β} (h : b = φ a) : InStep R φ (pure a) (pure b) :=
  fun _ _ hts => .ok h hts

theorem map_inStep {f : α → γ} {g : β → δ} (hp : InStep R φ p q) (h : ∀ a, g (φ a) = ψ (f a)) :
    InStep R ψ (do let a ← p; pure (f a)) (do let b ← q; pure (g b)) :=
  bind_inStep hp fun a => pure_inStep (h a)

theorem fail_inStep (φ : α → β) (expected : Expected) :
    InStep R φ (fail expected) (fail expected) :=
  fun _ _ h => .error h

theorem ite_inStep {b : Bool} {p' : Parser α} {q' : Parser β} (h : InStep R φ p q)
    (h' : InStep R φ p' q') : InStep R φ (if b then p else p') (if b then q else q') := by
  cases b with
  | true => exact h
  | false => exact h'

end Sequences

/-! Parsers that look at the next token -/

section Next

variable (hR : Pairing ρ R)

include hR

theorem inStep_of_next {φ : α → β} {p : Parser α} {q : Parser β}
    (hnil : R [] [] → Matches R φ (p []) (q []))
    (hcons : ∀ t ts us, R (t :: ts) (ρ.token t :: us) → (t ≠ .keyword .let_ → R ts us) →
      Matches R φ (p (t :: ts)) (q (ρ.token t :: us))) : InStep R φ p q := by
  intro ts us h
  cases ts with
  | nil =>
    obtain rfl := hR.nil h
    exact hnil h
  | cons t ts =>
    obtain ⟨us, rfl⟩ := hR.cons h
    exact hcons t ts us h fun ht => hR.tail ht h

theorem expect_inStep {t : Token} (ht : ∀ u, ρ.token u = t ↔ u = t) (hlet : t ≠ .keyword .let_) :
    InStep R id (expect t) (expect t) := by
  refine inStep_of_next hR (fun h => .error h) fun u ts us h htail => ?_
  simp only [expect, ht u]
  split
  · rename_i hu
    exact .ok rfl (htail (hu ▸ hlet))
  · exact .error h

theorem accept_inStep {t : Token} (ht : ∀ u, ρ.token u = t ↔ u = t) (hlet : t ≠ .keyword .let_) :
    InStep R id (accept t) (accept t) := by
  refine inStep_of_next hR (fun h => .ok rfl h) fun u ts us h htail => ?_
  simp only [accept, ht u]
  split
  · rename_i hu
    exact .ok rfl (htail (hu ▸ hlet))
  · exact .ok rfl h

theorem symbol_inStep (s : Symbol) : InStep R id (symbol s) (symbol s) :=
  expect_inStep hR (ρ.token_eq_symbol_iff s) nofun

theorem word_inStep {k : Keyword} (hk : k ≠ .let_) : InStep R id (word k) (word k) :=
  expect_inStep hR (ρ.token_eq_keyword_iff k) fun h => hk (Token.keyword.inj h)

theorem accept_symbol_bind_inStep (s : Symbol) {φ : α → β} {p p' : Parser α} {q q' : Parser β}
    (h : InStep R φ p q) (h' : InStep R φ p' q') :
    InStep R φ (do if ← accept (.symbol s) then p else p')
      (do if ← accept (.symbol s) then q else q') :=
  bind_inStep (accept_inStep hR (ρ.token_eq_symbol_iff s) nofun) fun _ => ite_inStep h h'

theorem accept_word_bind_inStep {k : Keyword} (hk : k ≠ .let_) {φ : α → β} {p p' : Parser α}
    {q q' : Parser β} (h : InStep R φ p q) (h' : InStep R φ p' q') :
    InStep R φ (do if ← accept (.keyword k) then p else p')
      (do if ← accept (.keyword k) then q else q') :=
  bind_inStep (accept_inStep hR (ρ.token_eq_keyword_iff k) fun h => hk (Token.keyword.inj h))
    fun _ => ite_inStep h h'

theorem identifier_inStep : InStep R ρ.name identifier identifier := by
  refine inStep_of_next hR (fun h => .error h) fun t ts us h htail => ?_
  cases t with
  | identifier x => exact .ok rfl (htail nofun)
  | _ => exact .error h

theorem separator_inStep {closing : Token} (ht : ∀ u, ρ.token u = closing ↔ u = closing) :
    InStep R id (separator closing) (separator closing) := by
  refine inStep_of_next hR (fun h => .error h) fun t ts us h htail => ?_
  simp only [separator, ht t, ρ.token_eq_symbol_iff]
  split
  · rename_i hcomma
    exact .ok rfl (htail (by simp [hcomma]))
  · split
    · exact .ok rfl h
    · exact .error h

theorem unread_inStep {φ : α → β} {p : Parser α} {q : Parser β} {t : Token}
    (h : InStepBehind R φ p q) : InStep R φ (unread t p) (unread (ρ.token t) q) :=
  fun _ _ hts => h _ _ (hR.push t hts) hts

end Next

/-! Repetition -/

section Repetition

variable {φ : α → β} {start? : Token → Option (Parser α)} {start?' : Token → Option (Parser β)}

def Passes (ρ : Payloads) (R : List Token → List Token → Prop) (t : Token) : Prop :=
  ∀ ts us, R (t :: ts) (ρ.token t :: us) → R ts us

def StartsInStep (ρ : Payloads) (R : List Token → List Token → Prop) (φ : α → β)
    (start? : Token → Option (Parser α)) (start?' : Token → Option (Parser β)) : Prop :=
  ∀ t, Option.Rel (fun p q => Passes ρ R t ∧ InStep R φ p q) (start? t) (start?' (ρ.token t))

theorem Pairing.passes (hR : Pairing ρ R) {t : Token} (ht : t ≠ .keyword .let_) : Passes ρ R t :=
  fun _ _ h => hR.tail ht h

variable (hR : Pairing ρ R)

include hR

theorem manyUpTo_inStep (h : StartsInStep ρ R φ start? start?') (bound : List Token) :
    InStep R (List.map φ) (manyUpTo start? bound) (manyUpTo start?' bound) := by
  induction bound with
  | nil => exact fun _ _ hts => .ok rfl hts
  | cons b bound ih =>
    refine inStep_of_next hR (fun hnil => .ok rfl hnil) fun t ts us hts _ => ?_
    have ht := h t
    simp only [manyUpTo]
    generalize start? t = first at ht ⊢
    generalize start?' (ρ.token t) = second at ht ⊢
    cases ht with
    | none => exact .ok rfl hts
    | some hitem =>
      obtain ⟨hpass, hitem⟩ := hitem
      refine bind_inStep hitem (fun a => ?_) ts us (hpass ts us hts)
      exact map_inStep ih fun as => rfl

theorem many_inStep (h : StartsInStep ρ R φ start? start?') (hfirst : ItemsAdvance start?)
    (hsecond : ItemsAdvance start?') : InStep R (List.map φ) (many start?) (many start?') := by
  intro ts us hts
  refine matches_of_bounds (fun _ => manyUpTo_eq_many hfirst) (fun _ => manyUpTo_eq_many hsecond) ?_
  exact fun bound => manyUpTo_inStep hR h bound ts us hts

theorem listUntil_inStep {closing : Token} (ht : ∀ u, ρ.token u = closing ↔ u = closing)
    (hlet : closing ≠ .keyword .let_) (h : StartsInStep ρ R φ start? start?')
    (hfirst : ItemsAdvance start?) (hsecond : ItemsAdvance start?') :
    InStep R (List.map φ) (listUntil closing start?) (listUntil closing start?') := by
  have hseparated : StartsInStep ρ R φ (fun t => (start? t).map (separated closing))
      fun t => (start?' t).map (separated closing) := by
    intro t
    have hstart := h t
    dsimp only
    generalize start? t = first at hstart ⊢
    generalize start?' (ρ.token t) = second at hstart ⊢
    cases hstart with
    | none => exact .none
    | some hitem =>
      refine .some ⟨hitem.1, bind_inStep hitem.2 fun a => ?_⟩
      exact map_inStep (separator_inStep hR ht) fun _ => rfl
  refine bind_inStep (many_inStep hR hseparated (separated_advance closing hfirst)
    (separated_advance closing hsecond)) fun as => ?_
  exact map_inStep (expect_inStep hR ht hlet) fun _ => rfl

end Repetition

end Parser

end ModuleScript
