import ModuleScript.Proofs.Parser.Reading

/-!
Where parsers fail: the tokens in front of a failure begin a text, and the failure depends on these
tokens and the next one only. Two parsers are looked at together, because the bounds of nested
parsers grow with the tokens. Main statements: `bind_fails`, `many_fails`, `listUntil_fails`.
-/

namespace ModuleScript

namespace Parser

open Grammar

variable {α β : Type} {n n' : Nat} {p p' : Parser α} {g : Texts α} {c : Token → Bool}

def Begins (g : Texts α) (u : List Token) : Prop := ∃ v a, g (u ++ v) a

/-- The tokens before the failure begin a text, and on fewer than `n` tokens that agree with `ts` up
to the next one `p` fails in the same way. -/
abbrev FailsAt (n : Nat) (p : Parser α) (g : Texts α) (ts : List Token) (e : ParseError) : Prop :=
  ∃ u, ts = u ++ e.rest ∧ Begins g u ∧ ∀ rest : List Token, rest.head? = e.rest.head? →
    (u ++ rest).length < n → p (u ++ rest) = .error ⟨e.expected, rest⟩

/-- Where `p` fails on fewer than `n` tokens, `p'` fails on fewer than `n'` tokens. -/
def Fails (n n' : Nat) (p p' : Parser α) (g : Texts α) : Prop :=
  ∀ ts : List Token, ts.length < n → ∀ e, p ts = .error e → FailsAt n' p' g ts e

/-- Two parsers read the same texts and fail in the same places. -/
structure Alike (n n' : Nat) (p p' : Parser α) (g : Texts α) (c : Token → Bool) : Prop where
  reads : Reads n p g c
  reads' : Reads n' p' g c
  fails : Fails n n' p p' g
  exists_text : ∃ u a, g u a

theorem Begins.imp {g' : Texts β} {u : List Token} (h : Begins g u)
    (hg : ∀ w a, g w a → ∃ b, g' w b) : Begins g' u := by
  obtain ⟨v, a, ha⟩ := h
  obtain ⟨b, hb⟩ := hg _ a ha
  exact ⟨v, b, hb⟩

theorem Fails.imp {g' : Texts α} (h : Fails n n' p p' g) (hg : ∀ w a, g w a → ∃ b, g' w b) :
    Fails n n' p p' g' := by
  intro ts hts e he
  obtain ⟨u, hu, hbegins, hlocal⟩ := h ts hts e he
  exact ⟨u, hu, hbegins.imp hg, hlocal⟩

theorem Fails.mono {m m' : Nat} (h : Fails n n' p p' g) (hm : m ≤ n) (hm' : m' ≤ n') :
    Fails m m' p p' g := by
  intro ts hts e he
  obtain ⟨u, hu, hbegins, hlocal⟩ := h ts (Nat.lt_of_lt_of_le hts hm) e he
  refine ⟨u, hu, hbegins, fun rest hrest hlength => ?_⟩
  exact hlocal rest hrest (Nat.lt_of_lt_of_le hlength hm')

theorem Alike.mono {m m' : Nat} (h : Alike n n' p p' g c) (hm : m ≤ n) (hm' : m' ≤ n') :
    Alike m m' p p' g c :=
  ⟨reads_mono h.reads hm, reads_mono h.reads' hm', h.fails.mono hm hm', h.exists_text⟩

theorem head?_append_congr (u : List Token) {v w : List Token} (h : v.head? = w.head?) :
    (u ++ v).head? = (u ++ w).head? := by
  rw [List.head?_append, List.head?_append, h]

theorem stops_congr {v w : List Token} (h : v.head? = w.head?) : Stops c v ↔ Stops c w := by
  cases v with
  | nil =>
    obtain rfl : w = [] := List.head?_eq_none_iff.mp h.symm
    rfl
  | cons t v =>
    obtain ⟨w, rfl⟩ := List.head?_eq_some_iff.mp h.symm
    rfl

theorem fails_of_first (hg : ∃ u a, g u a)
    (h : ∀ ts e, p ts = .error e → e.rest = ts ∧
      ∀ rest : List Token, rest.head? = ts.head? → p rest = .error ⟨e.expected, rest⟩) :
    Fails n n' p p g := by
  intro ts _ e he
  obtain ⟨hrest, hlocal⟩ := h ts e he
  refine ⟨[], hrest.symm, hg, fun rest hhead _ => ?_⟩
  exact hlocal rest (hhead.trans (congrArg _ hrest))

theorem expect_fails (n n' : Nat) (t : Token) :
    Fails n n' (expect t) (expect t) fun u _ => u = [t] := by
  refine fails_of_first ⟨[t], (), rfl⟩ fun ts e he => ?_
  cases ts with
  | nil =>
    cases he
    refine ⟨rfl, fun rest hrest => ?_⟩
    obtain rfl := List.head?_eq_none_iff.mp hrest
    rfl
  | cons s ts =>
    rw [expect] at he
    split at he
    · cases he
    · rename_i hs
      cases he
      refine ⟨rfl, fun rest hrest => ?_⟩
      obtain ⟨r, rfl⟩ := List.head?_eq_some_iff.mp hrest
      rw [expect, if_neg hs]

theorem identifier_fails : Fails n n' identifier identifier NameText := by
  refine fails_of_first ⟨_, _, .mk ""⟩ fun ts e he => ?_
  unfold identifier at he
  split at he
  · cases he
  · rename_i hts
    cases he
    refine ⟨rfl, fun rest hrest => ?_⟩
    unfold identifier
    split
    · obtain ⟨r, rfl⟩ := List.head?_eq_some_iff.mp hrest.symm
      exact absurd rfl (hts _ _)
    · rfl

theorem pure_fails (n n' : Nat) (a : α) (g : Texts α) : Fails n n' (pure a) (pure a) g := by
  intro ts _ e he
  cases he

/-- One after the other, where the second part need only be known on what the first one leaves. The
second part always has a text. -/
theorem bind_fails_of_length {m m' : Nat} {f f' : α → Parser β} {h : α → Texts β}
    (hp : Alike n n' p p' g c) (hf : ∀ a, Fails m m' (f a) (f' a) (h a))
    (hh : ∀ a, ∃ v b, h a v b)
    (hm : ∀ u a, g u a → n ≤ u.length + m ∧ n' ≤ u.length + m') :
    Fails n n' (p >>= f) (p' >>= f') fun w b => ∃ u v a, w = u ++ v ∧ g u a ∧ h a v b := by
  intro ts hts e he
  rcases bind_eq_error_iff.mp he with hfirst | ⟨a, mid, ha, hq⟩
  · obtain ⟨u, hu, ⟨v, a, hv⟩, hlocal⟩ := hp.fails ts hts e hfirst
    obtain ⟨w, b, hw⟩ := hh a
    refine ⟨u, hu, ⟨v ++ w, b, u ++ v, w, a, by simp, hv, hw⟩, fun rest hrest hlength => ?_⟩
    exact bind_eq_error_iff.mpr (.inl (hlocal rest hrest hlength))
  · obtain ⟨u, rfl, hu, hstop⟩ := (hp.reads ts hts a mid).mp ha
    obtain ⟨hn, hn'⟩ := hm u a hu
    have hmid : mid.length < m := by
      rw [List.length_append] at hts
      omega
    obtain ⟨v, hv, ⟨w, b, hw⟩, hlocal⟩ := hf a mid hmid e hq
    refine ⟨u ++ v, by rw [List.append_assoc, ← hv], ⟨w, b, u, v ++ w, a, by simp, hu, hw⟩,
      fun rest hrest hlength => ?_⟩
    -- the first part is read as before, because the token behind it is the same
    rw [hv, ← stops_congr (head?_append_congr v hrest)] at hstop
    rw [List.append_assoc] at hlength ⊢
    have ha' := (hp.reads' _ hlength a (v ++ rest)).mpr ⟨u, rfl, hu, hstop⟩
    rw [List.length_append] at hlength
    exact bind_eq_error_iff.mpr (.inr ⟨a, v ++ rest, ha', hlocal rest hrest (by omega)⟩)

theorem bind_fails {f f' : α → Parser β} {h : α → Texts β} (hp : Alike n n' p p' g c)
    (hf : ∀ a, Fails n n' (f a) (f' a) (h a)) (hh : ∀ a, ∃ v b, h a v b) :
    Fails n n' (p >>= f) (p' >>= f') fun w b => ∃ u v a, w = u ++ v ∧ g u a ∧ h a v b :=
  bind_fails_of_length hp hf hh fun _ _ _ => ⟨Nat.le_add_left _ _, Nat.le_add_left _ _⟩

theorem map_fails (hfails : Fails n n' p p' g) (f : α → β) :
    Fails n n' (do let a ← p; pure (f a)) (do let a ← p'; pure (f a))
      fun u b => ∃ a, g u a ∧ b = f a := by
  intro ts hts e he
  rcases bind_eq_error_iff.mp he with he | ⟨a, mid, _, he⟩
  · obtain ⟨u, hu, hbegins, hlocal⟩ := hfails ts hts e he
    refine ⟨u, hu, hbegins.imp fun w a ha => ⟨f a, a, ha, rfl⟩, fun rest hrest hlength => ?_⟩
    exact bind_eq_error_iff.mpr (.inl (hlocal rest hrest hlength))
  · cases he

theorem Fails.cons {q q' : Parser β} {h : Texts β} (hq : Fails n n' q q' h) {t : Token}
    {ts : List Token} {e : ParseError} (hts : (t :: ts).length < n + 1) (he : q ts = .error e)
    (hp : ∀ ts e, q' ts = .error e → p (t :: ts) = .error e)
    (hg : ∀ u b, h u b → ∃ a, g (t :: u) a) : FailsAt (n' + 1) p g (t :: ts) e := by
  obtain ⟨u, hu, ⟨v, b, hv⟩, hlocal⟩ := hq ts (Nat.lt_of_succ_lt_succ hts) e he
  obtain ⟨a, ha⟩ := hg (u ++ v) b hv
  refine ⟨t :: u, by rw [hu, List.cons_append], ⟨v, a, ha⟩, fun rest hrest hlength => ?_⟩
  exact hp _ _ (hlocal rest hrest (Nat.lt_of_succ_lt_succ hlength))

theorem expect_alike (n n' : Nat) (t : Token) :
    Alike n n' (expect t) (expect t) (fun u _ => u = [t]) never := by
  have hreads (n : Nat) : Reads n (expect t) (fun u _ => u = [t]) never := by
    intro ts _ a rest
    simp [expect_eq_ok_iff]
  exact ⟨hreads n, hreads n', expect_fails n n' t, [t], (), rfl⟩

theorem identifier_alike (n n' : Nat) : Alike n n' identifier identifier NameText never := by
  have hreads (n : Nat) : Reads n identifier NameText never := by
    intro ts _ x rest
    rw [identifier_eq_ok_iff]
    constructor
    · rintro rfl
      exact ⟨_, rfl, .mk x, stops_never _⟩
    · rintro ⟨u, rfl, hu, -⟩
      cases hu
      rfl
  exact ⟨hreads n, hreads n', identifier_fails, _, _, .mk ""⟩

theorem expect_bind_fails (t : Token) {q q' : Parser β} {h : Texts β} (hq : Fails n n' q q' h)
    (hh : ∃ v b, h v b) :
    Fails n n' (expect t >>= fun _ => q) (expect t >>= fun _ => q')
      fun w b => ∃ u, w = t :: u ∧ h u b := by
  have hbind := bind_fails (expect_alike n n' t) (fun _ => hq) fun _ => hh
  refine hbind.imp ?_
  rintro w b ⟨u, v, -, rfl, rfl, hv⟩
  exact ⟨b, v, rfl, hv⟩

theorem identifier_bind_fails {f f' : Name → Parser β} {h : Name → Texts β}
    (hf : ∀ x, Fails n n' (f x) (f' x) (h x)) (hh : ∀ x, ∃ v b, h x v b) :
    Fails n n' (identifier >>= f) (identifier >>= f')
      fun w b => ∃ x u, w = .identifier x :: u ∧ h x u b := by
  have hbind := bind_fails (identifier_alike n n') hf hh
  refine hbind.imp ?_
  rintro w b ⟨u, v, x, rfl, ⟨x⟩, hv⟩
  exact ⟨b, x, v, rfl, hv⟩

theorem expect_pure_fails (n n' : Nat) (t : Token) (b : β) :
    Fails n n' (do expect t; pure b) (do expect t; pure b) fun u b' => u = [t] ∧ b' = b := by
  have hmap := map_fails (expect_fails n n' t) fun _ => b
  refine hmap.imp ?_
  rintro w _ ⟨_, rfl, rfl⟩
  exact ⟨_, rfl, rfl⟩

theorem followedBy_fails (hp : Alike n n' p p' g c) (t : Token) (f : α → β) :
    Fails n n' (do let a ← p; expect t; pure (f a)) (do let a ← p'; expect t; pure (f a))
      fun w b => ∃ u a, w = u ++ [t] ∧ g u a ∧ b = f a := by
  have hbind := bind_fails hp
    (fun a => expect_pure_fails n n' t (f a)) fun a => ⟨[t], f a, rfl, rfl⟩
  refine hbind.imp ?_
  rintro w b ⟨u, _, a, rfl, hu, rfl, rfl⟩
  exact ⟨f a, u, a, rfl, hu, rfl⟩

/-- A choice that the next token makes, for `q` between `p` and `r`. -/
structure Chooses (n : Nat) (c : Token → Bool) (q p r : Parser α) : Prop where
  yes : ∀ ts : List Token, ts.length < n → ¬Stops c ts → q ts = p ts
  no : ∀ ts : List Token, ts.length < n → Stops c ts → q ts = r ts

theorem choice_fails {q q' r r' : Parser α} (hq : Chooses n c q p r) (hq' : Chooses n' c q' p' r')
    (hp : Fails n n' p p' g) (hr : Fails n n' r r' g) : Fails n n' q q' g := by
  intro ts hts e he
  -- the next token is the same on both sides, also where the failure is right in front of it
  have hnext {u rest : List Token} (hu : ts = u ++ e.rest) (hrest : rest.head? = e.rest.head?) :
      Stops c (u ++ rest) ↔ Stops c ts := by
    rw [hu]
    exact stops_congr (head?_append_congr u hrest)
  by_cases hstops : Stops c ts
  · rw [hq.no ts hts hstops] at he
    obtain ⟨u, hu, hbegins, hlocal⟩ := hr ts hts e he
    refine ⟨u, hu, hbegins, fun rest hrest hlength => ?_⟩
    rw [hq'.no _ hlength ((hnext hu hrest).mpr hstops)]
    exact hlocal rest hrest hlength
  · rw [hq.yes ts hts hstops] at he
    obtain ⟨u, hu, hbegins, hlocal⟩ := hp ts hts e he
    refine ⟨u, hu, hbegins, fun rest hrest hlength => ?_⟩
    rw [hq'.yes _ hlength (mt (hnext hu hrest).mp hstops)]
    exact hlocal rest hrest hlength

theorem accept_bind_chooses {q : Parser α} (t : Token) :
    Chooses n (· = t) (do if ← accept t then p else q) (expect t >>= fun _ => p) q where
  yes := by
    intro ts _ hts
    cases ts with
    | nil => exact absurd trivial hts
    | cons s ts =>
      obtain rfl : s = t := by simpa using hts
      simp [bind_apply, accept, expect]
  no := by
    intro ts _ hts
    have haccept : accept t ts = .ok (false, ts) := accept_eq_ok_false_iff.mpr ⟨rfl, hts⟩
    rw [bind_apply, haccept]
    rfl

theorem accept_bind_fails {q q' : Parser α} {h : Texts α} (t : Token) (hp : Fails n n' p p' g)
    (hg : ∃ u a, g u a) (hq : Fails n n' q q' h) :
    Fails n n' (do if ← accept t then p else q) (do if ← accept t then p' else q')
      fun w a => (∃ u, w = t :: u ∧ g u a) ∨ h w a :=
  choice_fails (accept_bind_chooses t) (accept_bind_chooses t)
    ((expect_bind_fails t hp hg).imp fun _ a hw => ⟨a, .inl hw⟩)
    (hq.imp fun _ a hw => ⟨a, .inr hw⟩)

theorem fails_of_bounds (q q' : List Token → Parser α)
    (h : ∀ bound bound' : List Token, bound.length ≤ n → bound'.length ≤ n' →
      Fails (bound.length + 1) (bound'.length + 1) (q bound) (q' bound') g) :
    Fails (n + 1) (n' + 1) (fun ts => q ts ts) (fun ts => q' ts ts) g := by
  intro ts hts e he
  have hat (bound' : List Token) (hbound' : bound'.length ≤ n') :=
    h ts bound' (Nat.le_of_lt_succ hts) hbound' ts (Nat.lt_succ_self _) e he
  obtain ⟨u, hu, hbegins, -⟩ := hat [] (Nat.zero_le n')
  refine ⟨u, hu, hbegins, fun rest hrest hlength => ?_⟩
  obtain ⟨u', hu', -, hlocal⟩ := hat (u ++ rest) (Nat.le_of_lt_succ hlength)
  obtain rfl : u = u' := List.append_cancel_right (hu.symm.trans hu')
  exact hlocal rest hrest (Nat.lt_succ_self _)

/-- A loop whose bounds get shorter. A round may rely on the rounds behind it. -/
theorem fails_of_rounds (q q' : List Token → Parser α)
    (h : ∀ bound bound' : List Token, bound.length ≤ n → bound'.length ≤ n' →
      Fails bound.length (bound'.tail.length + 1) (q bound.tail) (q' bound'.tail) g →
        Fails (bound.length + 1) (bound'.length + 1) (q bound) (q' bound') g) :
    Fails (n + 1) (n' + 1) (fun ts => q ts ts) (fun ts => q' ts ts) g := by
  refine fails_of_bounds q q' fun bound bound' hn hn' => ?_
  induction bound generalizing bound' with
  | nil => exact h [] bound' hn hn' fun ts hts => absurd hts (Nat.not_lt_zero _)
  | cons b bound ih =>
    have htail : bound'.tail.length ≤ n' := by
      rw [List.length_tail]
      omega
    exact h (b :: bound) bound' hn hn' (ih bound'.tail (Nat.le_of_succ_le hn) htail)

theorem nested_fails {q : List Token → Parser α} (step : Parser α → Parser α)
    (hnil : q [] = fail .operand) (hcons : ∀ b bound, q (b :: bound) = step (q bound))
    (hend : ∀ p, step p [] = .error ⟨.operand, []⟩) (hg : ∃ u a, g u a)
    (hreads : ∀ bound, Reads (bound.length + 1) (q bound) g c)
    (hstep : ∀ {n n' p p'}, Alike (n + 1) (n' + 1) p p' g c →
      Fails (n + 2) (n' + 2) (step p) (step p') g) (bound bound' : List Token) :
    Fails (bound.length + 1) (bound'.length + 1) (q bound) (q bound') g := by
  have hq (bound : List Token) : q bound [] = .error ⟨.operand, []⟩ := by
    cases bound with
    | nil => rw [hnil, fail]
    | cons b bound => rw [hcons, hend]
  -- without tokens there is nothing to nest
  have hempty (bound' : List Token) {e : ParseError} (he : q [] [] = .error e) :
      FailsAt (bound'.length + 1) (q bound') g [] e := by
    rw [hq] at he
    cases he
    refine ⟨[], rfl, hg, fun rest hrest _ => ?_⟩
    obtain rfl := List.head?_eq_none_iff.mp hrest
    exact hq bound'
  induction bound generalizing bound' with
  | nil =>
    intro ts hts e he
    obtain rfl : ts = [] := List.length_eq_zero_iff.mp (Nat.lt_one_iff.mp hts)
    exact hempty bound' he
  | cons b bound ih =>
    cases bound' with
    | nil =>
      intro ts hts e he
      rw [hcons] at he
      have hfails := hstep ⟨hreads bound, hreads [], ih [], hg⟩ ts hts e he
      obtain ⟨u, hu, hbegins, hlocal⟩ := hfails
      refine ⟨u, hu, hbegins, fun rest hrest hlength => ?_⟩
      have hnone : u ++ rest = [] := List.length_eq_zero_iff.mp (Nat.lt_one_iff.mp hlength)
      have hfail := hlocal rest hrest (by rw [hnone]; exact Nat.zero_lt_succ 1)
      rw [hnone, hend] at hfail
      rw [hnone, hq, hfail]
    | cons b' bound' =>
      rw [hcons, hcons]
      exact hstep ⟨hreads bound, hreads bound', ih bound', hg⟩

/-! Repetition -/

section Repetition

variable {start? start?' : Token → Option (Parser α)} {closing : Token}

def one (start? : Token → Option (Parser α)) : Parser α
  | [] => .error ⟨.operand, []⟩
  | t :: ts =>
    match start? t with
    | some item => item ts
    | none => .error ⟨.operand, t :: ts⟩

structure StartAlike (n n' : Nat) (start? start?' : Token → Option (Parser α)) (g : Texts α)
    (c : Token → Bool) : Prop where
  reads : StartReads n start? g c
  reads' : StartReads n' start?' g c
  starts : starts start? = starts start?'
  fails : Fails (n + 1) (n' + 1) (one start?) (one start?') g
  exists_text : ∃ u a, g u a

theorem one_cons {t : Token} {item : Parser α} (h : start? t = some item) (ts : List Token) :
    one start? (t :: ts) = item ts := by
  simp [one, h]

theorem one_reads (hg : StartReads n start? g c) : Reads (n + 1) (one start?) g c := by
  intro ts hts a rest
  constructor
  · intro h
    cases ts with
    | nil => cases h
    | cons t ts =>
      cases hi : start? t with
      | none => simp [one, hi] at h
      | some item =>
        rw [one_cons hi] at h
        have hread := hg.reads t item hi ts (Nat.lt_of_succ_lt_succ hts) a rest
        obtain ⟨u, rfl, hu, hrest⟩ := hread.mp h
        exact ⟨t :: u, rfl, hu, hrest⟩
  · rintro ⟨u, rfl, hu, hrest⟩
    obtain ⟨t, v, rfl, ht⟩ := hg.starts u a hu
    obtain ⟨item, hi⟩ := Option.isSome_iff_exists.mp ht
    rw [List.cons_append, one_cons hi]
    exact (hg.reads t item hi _ (Nat.lt_of_succ_lt_succ hts) a rest).mpr ⟨v, rfl, hu, hrest⟩

theorem one_alike (h : StartAlike n n' start? start?' g c) :
    Alike (n + 1) (n' + 1) (one start?) (one start?') g c :=
  ⟨one_reads h.reads, one_reads h.reads', h.fails, h.exists_text⟩

theorem manyUpTo_chooses (start? : Token → Option (Parser α)) (bound : List Token) :
    Chooses (bound.length + 1) (starts start?) (manyUpTo start? bound)
      (do let a ← one start?; let bs ← manyUpTo start? bound.tail; pure (a :: bs)) (pure []) where
  yes := by
    intro ts hts ht
    cases ts with
    | nil => exact absurd trivial ht
    | cons t ts =>
      obtain ⟨item, hi⟩ := Option.isSome_iff_exists.mp (eq_true_of_ne_false ht)
      rw [bind_apply, one_cons hi, ← bind_apply]
      cases bound with
      | nil => simp at hts
      | cons b bound => simp [manyUpTo, hi]
  no := by
    intro ts _ hts
    cases ts with
    | nil => cases bound <;> rfl
    | cons t ts =>
      have ht : start? t = none := Option.not_isSome_iff_eq_none.mp (ne_true_of_eq_false hts)
      exact manyUpTo_of_start_eq_none ht bound ts

theorem one_bind_fails {bound bound' : List Token} {f f' : α → Parser β} {h : α → Texts β}
    (hg : StartAlike n n' start? start?' g c) (hn : bound.length ≤ n) (hn' : bound'.length ≤ n')
    (hf : ∀ a, Fails bound.length (bound'.tail.length + 1) (f a) (f' a) (h a))
    (hh : ∀ a, ∃ v b, h a v b) :
    Fails (bound.length + 1) (bound'.length + 1) (one start? >>= f) (one start?' >>= f')
      fun w b => ∃ u v a, w = u ++ v ∧ g u a ∧ h a v b := by
  have hone := (one_alike hg).mono (Nat.succ_le_succ hn) (Nat.succ_le_succ hn')
  refine bind_fails_of_length hone hf hh fun u a hu => ?_
  have hpos : 0 < u.length := by
    obtain ⟨t, v, rfl, -⟩ := hg.reads.starts u a hu
    exact Nat.succ_pos v.length
  rw [List.length_tail]
  omega

theorem many_fails (hg : StartAlike n n' start? start?' g c) :
    Fails (n + 1) (n' + 1) (many start?) (many start?') (Many g) := by
  refine fails_of_rounds (manyUpTo start?) (manyUpTo start?') fun bound bound' hn hn' htail => ?_
  have hchooses' := manyUpTo_chooses start?' bound'
  rw [← hg.starts] at hchooses'
  have hcons := one_bind_fails hg hn hn' (fun a => map_fails htail (a :: ·))
    fun a => ⟨[], [a], [], .nil, rfl⟩
  refine choice_fails (manyUpTo_chooses start? bound) hchooses' (hcons.imp ?_)
    (pure_fails _ _ [] _)
  rintro w as ⟨u, v, a, rfl, hu, bs, hv, rfl⟩
  exact ⟨_, .cons hu hv⟩

theorem many_alike (hg : StartAlike n n' start? start?' g never) :
    Alike (n + 1) (n' + 1) (many start?) (many start?') (Many g) (starts start?) := by
  have hreads {n : Nat} {start? : Token → Option (Parser α)} (h : StartReads n start? g never) :
      Reads (n + 1) (many start?) (Many g) (starts start?) := by
    intro ts hts
    exact many_eq_ok_iff h (fun _ _ => rfl) (by simp) (Nat.le_of_lt_succ hts) (stops_never ts)
  refine ⟨hreads hg.reads, ?_, many_fails hg, [], [], .nil⟩
  rw [hg.starts]
  exact hreads hg.reads'

def listUpTo (closing : Token) (start? : Token → Option (Parser α)) (bound : List Token) :
    Parser (List α) := do
  let items ← manyUpTo (fun t => (start? t).map (separated closing)) bound
  expect closing
  pure items

def listAfterItem (closing : Token) (start? : Token → Option (Parser α)) (bound : List Token) :
    Parser (List α) := do
  separator closing
  listUpTo closing start? bound

theorem bind_bind {γ : Type} (p : Parser α) (f : α → Parser β) (h : β → Parser γ) :
    (p >>= f) >>= h = p >>= fun a => f a >>= h := by
  funext ts
  simp only [bind_apply]
  cases p ts <;> rfl

theorem pure_bind (a : α) (f : α → Parser β) : pure a >>= f = f a := rfl

theorem starts_separated (closing : Token) (start? : Token → Option (Parser α)) :
    starts (fun t => (start? t).map (separated closing)) = starts start? := by
  funext t
  exact Option.isSome_map

theorem one_separated (closing : Token) (start? : Token → Option (Parser α)) :
    one (fun t => (start? t).map (separated closing)) = separated closing (one start?) := by
  funext ts
  cases ts with
  | nil => rfl
  | cons t ts =>
    simp only [one, separated, bind_apply]
    cases start? t <;> rfl

theorem listUpTo_chooses (closing : Token) (start? : Token → Option (Parser α))
    (bound : List Token) :
    Chooses (bound.length + 1) (starts start?) (listUpTo closing start? bound)
      (do let a ← one start?; let as ← listAfterItem closing start? bound.tail; pure (a :: as))
      (do expect closing; pure []) where
  yes := by
    intro ts hts ht
    have hmany := (manyUpTo_chooses _ bound).yes ts hts (by rwa [starts_separated closing start?])
    rw [listUpTo, bind_apply, hmany, one_separated, ← bind_apply]
    simp only [separated, listAfterItem, listUpTo, bind_bind, pure_bind]
  no := by
    intro ts hts hstops
    have hmany := (manyUpTo_chooses _ bound).no ts hts (by rwa [starts_separated closing start?])
    rw [listUpTo, bind_apply, hmany]
    rfl

theorem separator_eq_error_iff {ts : List Token} {e : ParseError} :
    separator closing ts = .error e ↔
      e = ⟨.separator closing, ts⟩ ∧ Stops (fun t => t = .symbol .comma || t = closing) ts := by
  cases ts with
  | nil => simp [separator, eq_comm]
  | cons t ts =>
    rw [separator]
    split
    · simp [*]
    · split
      · simp [*]
      · rename_i hcomma hclosing
        simpa [hcomma, hclosing] using eq_comm

theorem separator_fails :
    Fails n n' (separator closing) (separator closing) fun u _ => u = [closing] := by
  refine fails_of_first ⟨_, (), rfl⟩ fun ts e he => ?_
  obtain ⟨rfl, hstop⟩ := separator_eq_error_iff.mp he
  refine ⟨rfl, fun rest hrest => ?_⟩
  exact separator_eq_error_iff.mpr ⟨rfl, (stops_congr hrest).mpr hstop⟩

theorem listAfterItem_fails {bound bound' : List Token} (hclose : Closes closing start? c)
    (hn : n ≤ bound.length + 1)
    (h : Fails n n' (listUpTo closing start? bound) (listUpTo closing start?' bound')
      fun w as => ∃ u, w = u ++ [closing] ∧ Items g u as) :
    Fails n n' (listAfterItem closing start? bound) (listAfterItem closing start?' bound')
      fun w as => (∃ u, w = .symbol .comma :: u ++ [closing] ∧ Items g u as) ∨
        w = [closing] ∧ as = [] := by
  intro ts hts e he
  rcases bind_eq_error_iff.mp he with hseparator | ⟨_, mid, hseparator, hlist⟩
  · obtain ⟨u, hu, ⟨v, _, hv⟩, hlocal⟩ := separator_fails ts hts e hseparator
    refine ⟨u, hu, ⟨v, [], .inr ⟨hv, rfl⟩⟩, fun rest hrest hlength => ?_⟩
    exact bind_eq_error_iff.mpr (.inl (hlocal rest hrest hlength))
  · rcases (separator_eq_ok_iff hclose.ne_comma).mp hseparator with rfl | ⟨mid, rfl, rfl⟩
    · obtain ⟨u, hu, ⟨v, as, w, hv, hw⟩, hlocal⟩ := h mid (Nat.lt_of_succ_lt hts) e hlist
      refine ⟨.symbol .comma :: u, by rw [hu, List.cons_append],
        ⟨v, as, .inl ⟨w, by rw [List.cons_append, hv, List.cons_append], hw⟩⟩,
        fun rest hrest hlength => ?_⟩
      have hlist' := hlocal rest hrest (Nat.lt_of_succ_lt hlength)
      have hcomma : separator closing (.symbol .comma :: u ++ rest) = .ok ((), u ++ rest) :=
        (separator_eq_ok_iff hclose.ne_comma).mpr (.inl rfl)
      exact bind_eq_error_iff.mpr (.inr ⟨(), u ++ rest, hcomma, hlist'⟩)
    · have hstops : Stops (starts start?) (closing :: mid) := by
        simp [starts, hclose.start_eq_none]
      have hexpect : expect closing (closing :: mid) = .ok ((), mid) := expect_eq_ok_iff.mpr rfl
      have hlength := Nat.lt_of_lt_of_le hts hn
      rw [(listUpTo_chooses closing start? bound).no _ hlength hstops, bind_apply, hexpect] at hlist
      cases hlist

theorem listUntil_fails (hg : StartAlike n n' start? start?' g c)
    (hclose : Closes closing start? c) :
    Fails (n + 1) (n' + 1) (listUntil closing start?) (listUntil closing start?')
      fun w as => ∃ u, w = u ++ [closing] ∧ Items g u as := by
  refine fails_of_rounds (listUpTo closing start?) (listUpTo closing start?')
    fun bound bound' hn hn' htail => ?_
  have hchooses' := listUpTo_chooses closing start?' bound'
  rw [← hg.starts] at hchooses'
  have hlength : bound.length ≤ bound.tail.length + 1 := by
    rw [List.length_tail]
    omega
  have hcons := one_bind_fails hg hn hn'
    (fun a => map_fails (listAfterItem_fails hclose hlength htail) (a :: ·))
    fun a => ⟨_, _, _, .inr ⟨rfl, rfl⟩, rfl⟩
  have hend := expect_pure_fails (bound.length + 1) (bound'.length + 1) closing ([] : List α)
  refine choice_fails (listUpTo_chooses closing start? bound) hchooses' (hcons.imp ?_)
    (hend.imp ?_)
  · rintro w as ⟨v, x, a, rfl, hv, bs, ⟨y, rfl, hy⟩ | ⟨rfl, rfl⟩, rfl⟩
    · exact ⟨_, v ++ .symbol .comma :: y, by simp, .cons hv hy⟩
    · exact ⟨_, v, rfl, .last hv⟩
  · rintro w as ⟨rfl, rfl⟩
    exact ⟨[], [], rfl, .nil⟩

theorem fail_fails (n n' : Nat) (expected : Expected) (hg : ∃ u a, g u a) :
    Fails n n' (fail expected) (fail expected) g := by
  refine fails_of_first hg fun ts e he => ?_
  cases he
  exact ⟨rfl, fun rest _ => rfl⟩

theorem one_of_stops {ts : List Token} (h : Stops (starts start?) ts) :
    one start? ts = .error ⟨.operand, ts⟩ := by
  cases ts with
  | nil => rfl
  | cons t ts =>
    have ht : start? t = none := Option.not_isSome_iff_eq_none.mp (ne_true_of_eq_false h)
    simp [one, ht]

theorem startAlike_of_some (hreads : StartReads n start? g c) (hreads' : StartReads n' start?' g c)
    (hstarts : starts start? = starts start?') (hg : ∃ u a, g u a)
    (h : ∀ t item item', start? t = some item → start?' t = some item' →
      Fails n n' item item' fun u a => g (t :: u) a) : StartAlike n n' start? start?' g c := by
  refine ⟨hreads, hreads', hstarts, fun ts hts e he => ?_, hg⟩
  by_cases hstops : Stops (starts start?) ts
  · rw [one_of_stops hstops] at he
    cases he
    refine ⟨[], rfl, hg, fun rest hrest _ => one_of_stops ?_⟩
    rw [← hstarts]
    exact (stops_congr hrest).mpr hstops
  · cases ts with
    | nil => exact absurd trivial hstops
    | cons t ts =>
      have ht : starts start? t = true := eq_true_of_ne_false hstops
      obtain ⟨item, hi⟩ := Option.isSome_iff_exists.mp ht
      obtain ⟨item', hi'⟩ := Option.isSome_iff_exists.mp ((congrFun hstarts t).symm.trans ht)
      rw [one_cons hi] at he
      have hitem := h t item item' hi hi' ts (Nat.lt_of_succ_lt_succ hts) e he
      obtain ⟨u, hu, ⟨v, a, hv⟩, hlocal⟩ := hitem
      refine ⟨t :: u, by rw [hu, List.cons_append], ⟨v, a, hv⟩, fun rest hrest hlength => ?_⟩
      rw [List.cons_append, one_cons hi']
      exact hlocal rest hrest (Nat.lt_of_succ_lt_succ hlength)

theorem startAlike_of_unread (s : Token → Bool)
    (hstart : ∀ t, start? t = if s t then some (unread t p) else none)
    (hstart' : ∀ t, start?' t = if s t then some (unread t p') else none)
    (hs : ∀ u a, g u a → ∃ t v, u = t :: v ∧ s t = true)
    (h : Alike (n + 1) (n' + 1) p p' g c) : StartAlike n n' start? start?' g c := by
  have hstarts {start? : Token → Option (Parser α)} {p : Parser α}
      (hstart : ∀ t, start? t = if s t then some (unread t p) else none) : starts start? = s := by
    funext t
    rw [starts, hstart]
    cases s t <;> rfl
  have hreads {n : Nat} {start? : Token → Option (Parser α)} {p : Parser α}
      (hstart : ∀ t, start? t = if s t then some (unread t p) else none)
      (h : Reads (n + 1) p g c) : StartReads n start? g c := by
    refine startReads_of_unread h (fun t q hq => ?_) (by rwa [hstarts hstart])
    rw [hstart] at hq
    split at hq
    · exact (Option.some.inj hq).symm
    · cases hq
  have hchooses {start? : Token → Option (Parser α)} {p : Parser α} (n : Nat)
      (hstart : ∀ t, start? t = if s t then some (unread t p) else none) :
      Chooses n s (one start?) p (fail .operand) := by
    refine ⟨fun ts _ hts => ?_, fun ts _ hts => one_of_stops (by rwa [hstarts hstart])⟩
    cases ts with
    | nil => exact absurd trivial hts
    | cons t ts => exact one_cons ((hstart t).trans (if_pos (eq_true_of_ne_false hts))) ts
  refine ⟨hreads hstart h.reads, hreads hstart' h.reads', ?_, ?_, h.exists_text⟩
  · rw [hstarts hstart, hstarts hstart']
  · exact choice_fails (hchooses _ hstart) (hchooses _ hstart') h.fails
      (fail_fails _ _ .operand h.exists_text)

end Repetition

end Parser

end ModuleScript
