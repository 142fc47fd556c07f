import ModuleScript.Proofs.Grammar

/-!
What it means for a parser to read the texts of a grammar. A parser of expressions must know where
they end: it stops in front of a token that cannot continue one. Main statements: `many_eq_ok_iff`
and `listUntil_reads`, repetition reads the repeated texts.
-/

namespace ModuleScript

namespace Parser

open Grammar

variable {α : Type}

def Stops (c : Token → Bool) : List Token → Prop
  | [] => True
  | t :: _ => c t = false

def never (_ : Token) : Bool := false

/-- Fewer than `n` tokens: `p` reads a text of `g` in front of tokens that do not continue it. -/
def Reads (n : Nat) (p : Parser α) (g : Texts α) (c : Token → Bool) : Prop :=
  ∀ ts : List Token, ts.length < n → ∀ (a : α) (rest : List Token),
    p ts = .ok (a, rest) ↔ ∃ u, ts = u ++ rest ∧ g u a ∧ Stops c rest

@[simp] theorem stops_nil (c : Token → Bool) : Stops c [] := trivial

@[simp] theorem stops_cons (c : Token → Bool) (t : Token) (ts : List Token) :
    Stops c (t :: ts) ↔ c t = false := Iff.rfl

@[simp] theorem stops_never (ts : List Token) : Stops never ts := by
  cases ts with
  | nil => trivial
  | cons t ts => rfl

/-! The basic parsers -/

theorem expect_eq_ok_iff {t : Token} {ts rest : List Token} {a : Unit} :
    expect t ts = .ok (a, rest) ↔ ts = t :: rest := by
  cases ts with
  | nil => simp [expect]
  | cons u ts =>
    by_cases h : u = t
    · simp [expect, h]
    · simp [expect, h]

theorem identifier_eq_ok_iff {ts rest : List Token} {x : Name} :
    identifier ts = .ok (x, rest) ↔ ts = .identifier x :: rest := by
  constructor
  · intro h
    unfold identifier at h
    split at h
    · cases h
      rfl
    · cases h
  · rintro rfl
    rfl

theorem pure_eq_ok_iff {a b : α} {ts rest : List Token} :
    (pure a : Parser α) ts = .ok (b, rest) ↔ a = b ∧ ts = rest := by
  simp [pure_apply]

theorem expect_bind_eq_ok_iff {t : Token} {f : Unit → Parser α} {ts rest : List Token} {a : α} :
    (expect t >>= f) ts = .ok (a, rest) ↔ ∃ mid, ts = t :: mid ∧ f () mid = .ok (a, rest) := by
  simp only [bind_eq_ok_iff, expect_eq_ok_iff]
  exact ⟨fun ⟨_, mid, h⟩ => ⟨mid, h⟩, fun ⟨mid, h⟩ => ⟨(), mid, h⟩⟩

theorem identifier_bind_eq_ok_iff {f : Name → Parser α} {ts rest : List Token} {a : α} :
    (identifier >>= f) ts = .ok (a, rest) ↔
      ∃ x mid, ts = .identifier x :: mid ∧ f x mid = .ok (a, rest) := by
  simp only [bind_eq_ok_iff, identifier_eq_ok_iff]

theorem accept_eq_ok_true_iff {t : Token} {ts rest : List Token} :
    accept t ts = .ok (true, rest) ↔ ts = t :: rest := by
  cases ts with
  | nil => simp [accept]
  | cons u ts =>
    by_cases h : u = t
    · simp [accept, h]
    · simp [accept, h]

theorem accept_eq_ok_false_iff {t : Token} {ts rest : List Token} :
    accept t ts = .ok (false, rest) ↔ ts = rest ∧ Stops (· = t) rest := by
  constructor
  · intro h
    cases ts with
    | nil =>
      cases h
      exact ⟨rfl, trivial⟩
    | cons u ts =>
      rw [accept] at h
      split at h
      · cases h
      · rename_i hu
        cases h
        exact ⟨rfl, decide_eq_false hu⟩
  · rintro ⟨rfl, h⟩
    cases ts with
    | nil => rfl
    | cons u ts =>
      have hu : u ≠ t := of_decide_eq_false h
      simp [accept, hu]

theorem separator_eq_ok_iff {closing : Token} (hclosing : closing ≠ .symbol .comma)
    {ts rest : List Token} {a : Unit} :
    separator closing ts = .ok (a, rest) ↔
      ts = .symbol .comma :: rest ∨ ∃ mid, ts = closing :: mid ∧ rest = closing :: mid := by
  constructor
  · intro h
    cases ts with
    | nil => cases h
    | cons t ts =>
      rw [separator] at h
      split at h
      · rename_i ht
        cases h
        exact .inl (by rw [ht])
      · split at h
        · rename_i ht
          cases h
          exact .inr ⟨ts, by rw [ht], by rw [ht]⟩
        · cases h
  · rintro (rfl | ⟨mid, rfl, rfl⟩)
    · simp [separator]
    · simp [separator, hclosing]

/-! Repetition -/

section Repetition

variable {n : Nat} {start? : Token → Option (Parser α)} {g : Texts α} {c : Token → Bool}
  {closing : Token}

def starts (start? : Token → Option (Parser α)) (t : Token) : Bool := (start? t).isSome

/-- After its first token every text of `g` is read by what `start?` makes of that token. -/
structure StartReads (n : Nat) (start? : Token → Option (Parser α)) (g : Texts α)
    (c : Token → Bool) : Prop where
  reads : ∀ t p, start? t = some p → Reads n p (fun u a => g (t :: u) a) c
  starts : ∀ u a, g u a → ∃ t v, u = t :: v ∧ starts start? t = true

/-- The token ends a list and is told from its items and from what separates them. -/
structure Closes (closing : Token) (start? : Token → Option (Parser α)) (c : Token → Bool) :
    Prop where
  ne_comma : closing ≠ .symbol .comma
  start_eq_none : start? closing = none
  stops : c closing = false
  comma_stops : c (.symbol .comma) = false

theorem stops_append_of_many (hg : StartReads n start? g c)
    (hfree : ∀ t, starts start? t = true → c t = false) {u rest : List Token} {as : List α}
    (h : Many g u as) (hrest : Stops c rest) : Stops c (u ++ rest) := by
  cases h with
  | nil => exact hrest
  | cons hu _ =>
    obtain ⟨t, v, rfl, ht⟩ := hg.starts _ _ hu
    exact hfree t ht

theorem many_append_iff_of_stops (hg : StartReads n start? g c) {ts rest : List Token}
    {as : List α} (hts : Stops c ts) (h : Stops (starts start?) ts) :
    (∃ u, ts = u ++ rest ∧ Many g u as ∧ Stops c rest ∧ Stops (starts start?) rest) ↔
      [] = as ∧ ts = rest := by
  constructor
  · rintro ⟨u, rfl, hm, -, -⟩
    rcases many_iff.1 hm with ⟨rfl, rfl⟩ | ⟨v, w, a, bs, rfl, rfl, hv, -⟩
    · exact ⟨rfl, rfl⟩
    · obtain ⟨t, v, rfl, ht⟩ := hg.starts _ _ hv
      exact absurd (h.symm.trans ht) Bool.false_ne_true
  · rintro ⟨rfl, rfl⟩
    exact ⟨[], rfl, .nil, hts, h⟩

theorem manyUpTo_of_start_eq_none {t : Token} (h : start? t = none) (bound ts : List Token) :
    manyUpTo start? bound (t :: ts) = .ok ([], t :: ts) := by
  cases bound with
  | nil => rfl
  | cons b bound => simp [manyUpTo, h]

theorem manyUpTo_cons_eq_ok_iff {t b : Token} {item : Parser α} (h : start? t = some item)
    {bound ts rest : List Token} {as : List α} :
    manyUpTo start? (b :: bound) (t :: ts) = .ok (as, rest) ↔
      ∃ a mid bs, item ts = .ok (a, mid) ∧ manyUpTo start? bound mid = .ok (bs, rest) ∧
        as = a :: bs := by
  have hunfold : manyUpTo start? (b :: bound) (t :: ts) =
      (do let a ← item; let bs ← manyUpTo start? bound; pure (a :: bs)) ts := by
    simp [manyUpTo, h]
  rw [hunfold, bind_eq_ok_iff]
  constructor
  · rintro ⟨a, mid, ha, hrest⟩
    obtain ⟨bs, mid', hbs, hp⟩ := bind_eq_ok_iff.1 hrest
    cases hp
    exact ⟨a, mid, bs, ha, hbs, rfl⟩
  · rintro ⟨a, mid, bs, ha, hbs, rfl⟩
    exact ⟨a, mid, ha, bind_eq_ok_iff.2 ⟨bs, rest, hbs, rfl⟩⟩

theorem manyUpTo_eq_ok_iff (hg : StartReads n start? g c)
    (hfree : ∀ t, starts start? t = true → c t = false) {bound ts rest : List Token} {as : List α}
    (hbound : ts.length ≤ bound.length) (hn : ts.length ≤ n) (hts : Stops c ts) :
    manyUpTo start? bound ts = .ok (as, rest) ↔
      ∃ u, ts = u ++ rest ∧ Many g u as ∧ Stops c rest ∧ Stops (starts start?) rest := by
  induction bound generalizing ts as with
  | nil =>
    obtain rfl : ts = [] := List.length_eq_zero_iff.1 (Nat.le_zero.1 hbound)
    rw [many_append_iff_of_stops hg hts trivial]
    simp [manyUpTo]
  | cons b bound ih =>
    cases ts with
    | nil =>
      rw [many_append_iff_of_stops hg hts trivial]
      simp [manyUpTo]
    | cons t ts =>
      have hlen : ts.length < n := hn
      have hrest : ts.length ≤ bound.length := Nat.le_of_succ_le_succ hbound
      cases hi : start? t with
      | none =>
        rw [manyUpTo_of_start_eq_none hi, many_append_iff_of_stops hg hts (by simp [starts, hi])]
        simp
      | some item =>
        have hread := hg.reads t item hi
        rw [manyUpTo_cons_eq_ok_iff hi]
        constructor
        · rintro ⟨a, mid, bs, ha, hbs, rfl⟩
          obtain ⟨v, rfl, hv, hmid⟩ := (hread ts hlen a mid).1 ha
          rw [List.length_append] at hlen hrest
          obtain ⟨w, rfl, hw, hc, hs⟩ := (ih (by omega) (by omega) hmid).1 hbs
          exact ⟨t :: v ++ w, by simp, .cons hv hw, hc, hs⟩
        · rintro ⟨u, hu, hm, hc, hs⟩
          rcases many_iff.1 hm with ⟨rfl, rfl⟩ | ⟨v, w, a, bs, rfl, rfl, hv, hw⟩
          · obtain rfl : t :: ts = rest := hu
            simp [starts, hi] at hs
          · obtain ⟨t', v, rfl, ht⟩ := hg.starts _ _ hv
            obtain ⟨rfl, rfl⟩ : t = t' ∧ ts = v ++ (w ++ rest) := by simpa using hu
            -- the item ends here, because what starts the next one does not continue it
            have hmid : Stops c (w ++ rest) := stops_append_of_many hg hfree hw hc
            have ha := (hread _ hlen a _).2 ⟨v, rfl, hv, hmid⟩
            rw [List.length_append] at hlen hrest
            have hbs := (ih (by omega) (by omega) hmid).2 ⟨w, rfl, hw, hc, hs⟩
            exact ⟨a, w ++ rest, bs, ha, hbs, rfl⟩

theorem many_eq_ok_iff (hg : StartReads n start? g c)
    (hfree : ∀ t, starts start? t = true → c t = false) {c' : Token → Bool}
    (hc' : ∀ ts, Stops c' ts ↔ Stops c ts ∧ Stops (starts start?) ts) {ts : List Token}
    (hn : ts.length ≤ n) (hts : Stops c ts) (as : List α) (rest : List Token) :
    many start? ts = .ok (as, rest) ↔ ∃ u, ts = u ++ rest ∧ Many g u as ∧ Stops c' rest := by
  simp only [hc']
  exact manyUpTo_eq_ok_iff hg hfree (Nat.le_refl _) hn hts

theorem startReads_of_unread {p : Parser α} (h : Reads n p g c)
    (hunread : ∀ t q, start? t = some q → q = unread t p)
    (hstarts : ∀ u a, g u a → ∃ t v, u = t :: v ∧ starts start? t = true) :
    StartReads (n - 1) start? g c where
  reads := by
    intro t q hq ts hn a rest
    rw [hunread t q hq, unread, h (t :: ts) (Nat.add_lt_of_lt_sub hn)]
    constructor
    · rintro ⟨u, hu, hg, hr⟩
      obtain ⟨t', v, rfl, -⟩ := hstarts _ _ hg
      obtain ⟨rfl, rfl⟩ := List.cons.inj hu
      exact ⟨v, rfl, hg, hr⟩
    · rintro ⟨u, rfl, hg, hr⟩
      exact ⟨t :: u, rfl, hg, hr⟩
  starts := hstarts

def separated (closing : Token) (item : Parser α) : Parser α := do
  let a ← item
  separator closing
  pure a

theorem separated_eq_ok_iff {item : Parser α} (hitem : Reads n item g c)
    (hclose : Closes closing start? c) {ts : List Token} (hn : ts.length < n) (a : α)
    (rest : List Token) :
    separated closing item ts = .ok (a, rest) ↔ ∃ u, g u a ∧
      (ts = u ++ .symbol .comma :: rest ∨
        ∃ mid, ts = u ++ closing :: mid ∧ rest = closing :: mid) := by
  rw [separated, bind_eq_ok_iff]
  constructor
  · rintro ⟨a', mid, ha, h⟩
    obtain ⟨_, mid', hsep, hp⟩ := bind_eq_ok_iff.1 h
    cases hp
    obtain ⟨u, rfl, hu, -⟩ := (hitem ts hn _ _).1 ha
    refine ⟨u, hu, ?_⟩
    rcases (separator_eq_ok_iff hclose.ne_comma).1 hsep with rfl | ⟨m, rfl, rfl⟩
    · exact .inl rfl
    · exact .inr ⟨m, rfl, rfl⟩
  · rintro ⟨u, hu, rfl | ⟨m, rfl, rfl⟩⟩
    · have ha := (hitem _ hn a _).2 ⟨u, rfl, hu, hclose.comma_stops⟩
      refine ⟨a, _, ha, bind_eq_ok_iff.2 ⟨(), rest, ?_, rfl⟩⟩
      exact (separator_eq_ok_iff hclose.ne_comma).2 (.inl rfl)
    · have ha := (hitem _ hn a _).2 ⟨u, rfl, hu, hclose.stops⟩
      refine ⟨a, _, ha, bind_eq_ok_iff.2 ⟨(), _, ?_, rfl⟩⟩
      exact (separator_eq_ok_iff hclose.ne_comma).2 (.inr ⟨m, rfl, rfl⟩)

theorem manyUpTo_separated_eq_ok_iff (hg : StartReads n start? g c)
    (hclose : Closes closing start? c) {bound ts rest : List Token} {as : List α}
    (hbound : ts.length ≤ bound.length) (hn : ts.length ≤ n) :
    manyUpTo (fun t => (start? t).map (separated closing)) bound ts = .ok (as, closing :: rest) ↔
      ∃ u, ts = u ++ closing :: rest ∧ Items g u as := by
  have hend (bound ts : List Token) :
      manyUpTo (fun t => (start? t).map (separated closing)) bound (closing :: ts) =
        .ok ([], closing :: ts) :=
    manyUpTo_of_start_eq_none (by rw [hclose.start_eq_none, Option.map_none]) bound ts
  induction bound generalizing ts as with
  | nil =>
    obtain rfl : ts = [] := List.length_eq_zero_iff.1 (Nat.le_zero.1 hbound)
    simp [manyUpTo]
  | cons b bound ih =>
    cases ts with
    | nil => simp [manyUpTo]
    | cons t ts =>
      have hlen : ts.length < n := hn
      have hrest : ts.length ≤ bound.length := Nat.le_of_succ_le_succ hbound
      cases hi : start? t with
      | none =>
        rw [manyUpTo_of_start_eq_none (by rw [hi, Option.map_none])]
        constructor
        · intro h
          cases h
          exact ⟨[], rfl, .nil⟩
        · rintro ⟨u, hu, hm⟩
          rcases items_iff.1 hm with ⟨rfl, rfl⟩ | ⟨a, rfl, hv⟩ | ⟨v, w, a, bs, rfl, rfl, hv, -⟩
          · rw [hu, List.nil_append]
          all_goals
            obtain ⟨t', v, rfl, ht⟩ := hg.starts _ _ hv
            obtain ⟨rfl, -⟩ := List.cons.inj hu
            simp [starts, hi] at ht
      | some item =>
        have hread := separated_eq_ok_iff (hg.reads t item hi) hclose hlen
        rw [manyUpTo_cons_eq_ok_iff (by rw [hi, Option.map_some])]
        constructor
        · rintro ⟨a, mid, bs, ha, hbs, rfl⟩
          -- behind the item there is a comma, or the closing token at once
          obtain ⟨v, hv, rfl | ⟨m, rfl, rfl⟩⟩ := (hread a mid).1 ha
          · rw [List.length_append, List.length_cons] at hlen hrest
            obtain ⟨w, rfl, hw⟩ := (ih (by omega) (by omega)).1 hbs
            exact ⟨(t :: v) ++ .symbol .comma :: w, by simp, .cons hv hw⟩
          · rw [hend] at hbs
            cases hbs
            exact ⟨t :: v, rfl, .last hv⟩
        · rintro ⟨u, hu, hm⟩
          rcases items_iff.1 hm with ⟨rfl, rfl⟩ | ⟨a, rfl, hv⟩ | ⟨v, w, a, bs, rfl, rfl, hv, hw⟩
          · obtain ⟨rfl, -⟩ := List.cons.inj hu
            rw [hclose.start_eq_none] at hi
            cases hi
          · obtain ⟨t', v, rfl, -⟩ := hg.starts _ _ hv
            obtain ⟨rfl, rfl⟩ := List.cons.inj hu
            have ha := (hread a _).2 ⟨v, hv, .inr ⟨rest, rfl, rfl⟩⟩
            exact ⟨a, _, [], ha, hend bound rest, rfl⟩
          · obtain ⟨t', v, rfl, -⟩ := hg.starts _ _ hv
            obtain ⟨rfl, rfl⟩ : t = t' ∧ ts = v ++ .symbol .comma :: (w ++ closing :: rest) := by
              simpa using hu
            have ha := (hread a _).2 ⟨v, hv, .inl rfl⟩
            rw [List.length_append, List.length_cons] at hlen hrest
            have hbs := (ih (by omega) (by omega)).2 ⟨w, rfl, hw⟩
            exact ⟨a, _, bs, ha, hbs, rfl⟩

theorem listUntil_reads (hg : StartReads n start? g c) (hclose : Closes closing start? c) :
    Reads (n + 1) (listUntil closing start?) (fun w as => ∃ u, w = u ++ [closing] ∧ Items g u as)
      never := by
  intro ts hn as rest
  have hmany : many (fun t => (start? t).map (separated closing)) ts = .ok (as, closing :: rest) ↔
      ∃ u, ts = u ++ closing :: rest ∧ Items g u as :=
    manyUpTo_separated_eq_ok_iff hg hclose (Nat.le_refl _) (Nat.le_of_lt_succ hn)
  rw [listUntil, bind_eq_ok_iff]
  constructor
  · rintro ⟨items, mid, hm, h⟩
    obtain ⟨_, mid', he, hp⟩ := bind_eq_ok_iff.1 h
    cases hp
    rw [expect_eq_ok_iff.1 he] at hm
    obtain ⟨u, rfl, hu⟩ := hmany.1 hm
    exact ⟨u ++ [closing], by simp, ⟨u, rfl, hu⟩, stops_never _⟩
  · rintro ⟨w, rfl, ⟨u, rfl, hu⟩, -⟩
    refine ⟨as, closing :: rest, hmany.2 ⟨u, by simp, hu⟩, ?_⟩
    exact expect_bind_eq_ok_iff.2 ⟨rest, rfl, rfl⟩

end Repetition

theorem Reads.congr {n : Nat} {p : Parser α} {g g' : Texts α} {c : Token → Bool}
    (h : Reads n p g c) (hg : ∀ u a, g' u a ↔ g u a) : Reads n p g' c := by
  intro ts hn a rest
  simp only [hg]
  exact h ts hn a rest

/-- One thing after another. The second need only be read where the first one stops. -/
theorem andThen_reads {β γ : Type} {n : Nat} {p : Parser α} {q : Parser β} {g : Texts α}
    {h : Texts β} {c c' : Token → Bool} (hp : Reads n p g c)
    (hq : ∀ ts, ts.length < n → Stops c ts → ∀ b rest,
      q ts = .ok (b, rest) ↔ ∃ v, ts = v ++ rest ∧ h v b ∧ Stops c' rest)
    (hstop : ∀ v b rest, h v b → Stops c' rest → Stops c (v ++ rest)) (f : α → β → γ) :
    Reads n (do let a ← p; let b ← q; pure (f a b))
      (fun w e => ∃ u v a b, w = u ++ v ∧ g u a ∧ h v b ∧ e = f a b) c' := by
  intro ts hn e rest
  rw [bind_eq_ok_iff]
  constructor
  · rintro ⟨a, mid, ha, hb⟩
    obtain ⟨b, rest', hb, he⟩ := bind_eq_ok_iff.1 hb
    cases he
    obtain ⟨u, rfl, hu, hmid⟩ := (hp ts hn a mid).1 ha
    rw [List.length_append] at hn
    obtain ⟨v, rfl, hv, hrest⟩ := (hq mid (by omega) hmid b _).1 hb
    exact ⟨u ++ v, by simp, ⟨u, v, a, b, rfl, hu, hv, rfl⟩, hrest⟩
  · rintro ⟨w, rfl, ⟨u, v, a, b, rfl, hu, hv, rfl⟩, hrest⟩
    have hmid : Stops c (v ++ rest) := hstop v b rest hv hrest
    have ha := (hp _ hn a (v ++ rest)).2 ⟨u, by simp, hu, hmid⟩
    rw [List.append_assoc, List.length_append] at hn
    have hb := (hq (v ++ rest) (by omega) hmid b rest).2 ⟨v, rfl, hv, hrest⟩
    exact ⟨a, _, ha, bind_eq_ok_iff.2 ⟨b, rest, hb, rfl⟩⟩

section Sequences

variable {β : Type} {n : Nat} {c : Token → Bool}

theorem reads_mono {m : Nat} {p : Parser α} {g : Texts α} (h : Reads n p g c) (hmn : m ≤ n) :
    Reads m p g c :=
  fun ts hm => h ts (Nat.lt_of_lt_of_le hm hmn)

theorem pure_reads (n : Nat) (a : α) : Reads n (pure a) (fun u b => u = [] ∧ b = a) never := by
  intro ts _ b rest
  rw [pure_eq_ok_iff]
  constructor
  · rintro ⟨rfl, rfl⟩
    exact ⟨[], rfl, ⟨rfl, rfl⟩, stops_never _⟩
  · rintro ⟨u, rfl, ⟨rfl, rfl⟩, -⟩
    exact ⟨rfl, rfl⟩

theorem fail_reads (n : Nat) (expected : Expected) :
    Reads n (fail expected : Parser α) (fun _ _ => False) c := by
  intro ts _ a rest
  constructor
  · intro h
    cases h
  · rintro ⟨_, _, h, -⟩
    exact h.elim

theorem map_reads {p : Parser α} {g : Texts α} (hp : Reads n p g c) (f : α → β) :
    Reads n (do let a ← p; pure (f a)) (fun u b => ∃ a, g u a ∧ b = f a) c := by
  intro ts hn b rest
  rw [bind_eq_ok_iff]
  constructor
  · rintro ⟨a, mid, ha, hb⟩
    cases hb
    obtain ⟨u, rfl, hu, hrest⟩ := (hp ts hn a rest).1 ha
    exact ⟨u, rfl, ⟨a, hu, rfl⟩, hrest⟩
  · rintro ⟨u, rfl, ⟨a, hu, rfl⟩, hrest⟩
    exact ⟨a, rest, (hp _ hn a rest).2 ⟨u, rfl, hu, hrest⟩, rfl⟩

theorem bind_reads_of_stops {p : Parser α} {f : α → Parser β} {g : Texts α} {h : α → Texts β}
    {c' : Token → Bool} (hp : Reads n p g c) (hf : ∀ a, Reads n (f a) (h a) c')
    (hstop : ∀ a v b rest, h a v b → Stops c' rest → Stops c (v ++ rest)) :
    Reads n (p >>= f) (fun w b => ∃ u v a, w = u ++ v ∧ g u a ∧ h a v b) c' := by
  intro ts hn b rest
  rw [bind_eq_ok_iff]
  constructor
  · rintro ⟨a, mid, ha, hb⟩
    obtain ⟨u, rfl, hu, -⟩ := (hp ts hn a mid).1 ha
    rw [List.length_append] at hn
    obtain ⟨v, rfl, hv, hrest⟩ := (hf a mid (by omega) b rest).1 hb
    exact ⟨u ++ v, by simp, ⟨u, v, a, rfl, hu, hv⟩, hrest⟩
  · rintro ⟨w, rfl, ⟨u, v, a, rfl, hu, hv⟩, hrest⟩
    have ha := (hp _ hn a (v ++ rest)).2 ⟨u, by simp, hu, hstop a v b rest hv hrest⟩
    rw [List.append_assoc, List.length_append] at hn
    exact ⟨a, _, ha, (hf a (v ++ rest) (by omega) b rest).2 ⟨v, rfl, hv, hrest⟩⟩

theorem bind_reads {p : Parser α} {f : α → Parser β} {g : Texts α} {h : α → Texts β}
    (hp : Reads n p g never) (hf : ∀ a, Reads n (f a) (h a) c) :
    Reads n (p >>= f) (fun w b => ∃ u v a, w = u ++ v ∧ g u a ∧ h a v b) c :=
  bind_reads_of_stops hp hf fun _ _ _ _ _ _ => stops_never _

theorem expect_bind_reads {p : Parser α} {g : Texts α} (t : Token) (hp : Reads n p g c) :
    Reads (n + 1) (expect t >>= fun _ => p) (fun w a => ∃ u, w = t :: u ∧ g u a) c := by
  intro ts hn a rest
  rw [expect_bind_eq_ok_iff]
  constructor
  · rintro ⟨mid, rfl, ha⟩
    obtain ⟨u, rfl, hu, hrest⟩ := (hp mid (Nat.lt_of_succ_lt_succ hn) a rest).1 ha
    exact ⟨t :: u, rfl, ⟨u, rfl, hu⟩, hrest⟩
  · rintro ⟨w, rfl, ⟨u, rfl, hu⟩, hrest⟩
    exact ⟨_, rfl, (hp _ (Nat.lt_of_succ_lt_succ hn) a rest).2 ⟨u, rfl, hu, hrest⟩⟩

theorem identifier_bind_reads {f : Name → Parser α} {h : Name → Texts α}
    (hf : ∀ x, Reads n (f x) (h x) c) :
    Reads (n + 1) (identifier >>= f) (fun w a => ∃ x u, w = .identifier x :: u ∧ h x u a) c := by
  intro ts hn a rest
  rw [identifier_bind_eq_ok_iff]
  constructor
  · rintro ⟨x, mid, rfl, ha⟩
    obtain ⟨u, rfl, hu, hrest⟩ := (hf x mid (Nat.lt_of_succ_lt_succ hn) a rest).1 ha
    exact ⟨.identifier x :: u, rfl, ⟨x, u, rfl, hu⟩, hrest⟩
  · rintro ⟨w, rfl, ⟨x, u, rfl, hu⟩, hrest⟩
    exact ⟨x, _, rfl, (hf x _ (Nat.lt_of_succ_lt_succ hn) a rest).2 ⟨u, rfl, hu, hrest⟩⟩

/-- A choice by the next token. What is read without it does not begin with it. -/
theorem accept_bind_reads {p q : Parser α} {g h : Texts α} (t : Token) (hp : Reads n p g never)
    (hq : Reads n q h never) (hne : ∀ w a, h w a → ∃ s v, w = s :: v ∧ s ≠ t) :
    Reads n (do if ← accept t then p else q)
      (fun w a => (∃ u, w = t :: u ∧ g u a) ∨ h w a) never := by
  intro ts hn a rest
  rw [bind_eq_ok_iff]
  constructor
  · rintro ⟨b, mid, hb, ha⟩
    cases b with
    | true =>
      obtain rfl := accept_eq_ok_true_iff.1 hb
      obtain ⟨u, rfl, hu, -⟩ := (hp mid (Nat.lt_of_succ_lt hn) a rest).1 ha
      exact ⟨t :: u, rfl, .inl ⟨u, rfl, hu⟩, stops_never _⟩
    | false =>
      obtain ⟨rfl, -⟩ := accept_eq_ok_false_iff.1 hb
      obtain ⟨u, rfl, hu, -⟩ := (hq ts hn a rest).1 ha
      exact ⟨u, rfl, .inr hu, stops_never _⟩
  · rintro ⟨w, rfl, ⟨u, rfl, hu⟩ | hw, -⟩
    · have ha := (hp _ (Nat.lt_of_succ_lt hn) a rest).2 ⟨u, rfl, hu, stops_never _⟩
      exact ⟨true, _, accept_eq_ok_true_iff.2 rfl, ha⟩
    · obtain ⟨s, v, rfl, hs⟩ := hne w a hw
      have ha := (hq _ hn a rest).2 ⟨_, rfl, hw, stops_never _⟩
      exact ⟨false, _, accept_eq_ok_false_iff.2 ⟨rfl, decide_eq_false hs⟩, ha⟩

theorem followedBy_reads {p : Parser α} {g : Texts α} (hp : Reads n p g c) (t : Token)
    (ht : c t = false) (f : α → β) :
    Reads n (do let a ← p; expect t; pure (f a))
      (fun w b => ∃ u a, w = u ++ [t] ∧ g u a ∧ b = f a) never := by
  intro ts hn b rest
  rw [bind_eq_ok_iff]
  constructor
  · rintro ⟨a, mid, ha, h⟩
    obtain ⟨rest', he, hb⟩ := expect_bind_eq_ok_iff.1 h
    cases hb
    obtain ⟨u, rfl, hu, -⟩ := (hp ts hn a mid).1 ha
    exact ⟨u ++ [t], by simp [he], ⟨u, a, rfl, hu, rfl⟩, stops_never _⟩
  · rintro ⟨w, rfl, ⟨u, a, rfl, hu, rfl⟩, -⟩
    have ha := (hp _ hn a (t :: rest)).2 ⟨u, by simp, hu, ht⟩
    exact ⟨a, _, ha, expect_bind_eq_ok_iff.2 ⟨rest, rfl, rfl⟩⟩

end Sequences

end Parser

end ModuleScript
