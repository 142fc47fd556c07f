import ModuleScript.Proofs.Source.Scan

/-!
Texts written from tokens. Between two tokens stand blanks and comments, a blank first, so that
every token ends where its lexeme ends. Main statement: `scan_written`, scanning such a text gives
the tokens back, and whatever scanning gives can be written so.
-/

namespace ModuleScript

namespace Lexical

open Piece

def IsWritable : Token → Prop
  | .identifier x => Word x.toList ∧ (∀ k : Keyword, x ≠ k.spelling) ∧ x ≠ "true" ∧ x ≠ "false"
  | .string s => '"' ∉ s.toList
  | .number x => ∃ u, Numeral u ∧ readNumber? u = some x
  | _ => True

/-- Blanks, and comments with the ends of their lines. -/
inductive Layout : List Char → Prop
  | nil : Layout []
  | blank {c : Char} {cs : List Char} : isBlank c = true → Layout cs → Layout (c :: cs)
  | comment {u cs : List Char} : '\n' ∉ u → Layout cs → Layout ('/' :: '/' :: u ++ '\n' :: cs)

def Separator (cs : List Char) : Prop := Layout cs ∧ ∃ c, cs.head? = some c ∧ isBlank c = true

/-- The tokens, each by one of its lexemes, with the separators between them. -/
inductive Written : List Token → List (List Char) → List Char → Prop
  | nil : Written [] [] []
  | last {u : List Char} {t : Token} : Lexeme u t → Written [t] [] u
  | cons {u sep cs : List Char} {t next : Token} {ts : List Token} {seps : List (List Char)} :
      Lexeme u t → Separator sep → Written (next :: ts) seps cs →
        Written (t :: next :: ts) (sep :: seps) (u ++ (sep ++ cs))

variable {c : Char} {u v cs rest sep : List Char} {t : Token} {ts : List Token}
  {seps : List (List Char)} {ps : List Piece} {p : Piece}

theorem isWritable_iff : IsWritable t ↔ ∃ u, Lexeme u t := by
  constructor
  · intro h
    cases t with
    | symbol s => exact ⟨_, .symbol s⟩
    | keyword k => exact ⟨_, .keyword k⟩
    | number x =>
      obtain ⟨u, hu, hx⟩ := h
      exact ⟨u, .number hu hx⟩
    | string s => exact ⟨_, .string h⟩
    | boolean b =>
      cases b with
      | true => exact ⟨_, .true⟩
      | false => exact ⟨_, .false⟩
    | identifier x =>
      obtain ⟨hword, hkeyword, htrue, hfalse⟩ := h
      exact ⟨_, .identifier hword hkeyword htrue hfalse⟩
  · rintro ⟨u, hu⟩
    cases hu with
    | identifier hword hkeyword htrue hfalse => exact ⟨hword, hkeyword, htrue, hfalse⟩
    | number hu hx => exact ⟨_, hu, hx⟩
    | string hs => exact hs
    | _ => exact trivial

/-- Tokens can be written in a layout just when each can be written and the separators fit. -/
theorem exists_written_iff : (∃ cs, Written ts seps cs) ↔
    (∀ t ∈ ts, IsWritable t) ∧ (∀ sep ∈ seps, Separator sep) ∧ seps.length = ts.length - 1 := by
  constructor
  · rintro ⟨cs, h⟩
    induction h with
    | nil => exact ⟨List.forall_mem_nil _, List.forall_mem_nil _, rfl⟩
    | last hu =>
      exact ⟨List.forall_mem_singleton.mpr (isWritable_iff.mpr ⟨_, hu⟩), List.forall_mem_nil _, rfl⟩
    | cons hu hsep _ ih =>
      obtain ⟨hts, hseps, hlength⟩ := ih
      refine ⟨List.forall_mem_cons.mpr ⟨isWritable_iff.mpr ⟨_, hu⟩, hts⟩,
        List.forall_mem_cons.mpr ⟨hsep, hseps⟩, ?_⟩
      rw [List.length_cons, hlength]
      rfl
  · rintro ⟨hts, hseps, hlength⟩
    induction ts generalizing seps with
    | nil =>
      obtain rfl := List.length_eq_zero_iff.mp hlength
      exact ⟨[], .nil⟩
    | cons t ts ih =>
      obtain ⟨ht, hts⟩ := List.forall_mem_cons.mp hts
      obtain ⟨u, hu⟩ := isWritable_iff.mp ht
      cases ts with
      | nil =>
        obtain rfl := List.length_eq_zero_iff.mp hlength
        exact ⟨u, .last hu⟩
      | cons next ts =>
        obtain ⟨sep, seps, rfl⟩ := List.exists_cons_of_length_eq_add_one hlength
        obtain ⟨hsep, hseps⟩ := List.forall_mem_cons.mp hseps
        obtain ⟨cs, hcs⟩ := ih hts hseps (Nat.succ.inj hlength)
        exact ⟨_, .cons hu hsep hcs⟩

/-! Lexemes in front of blanks -/

theorem not_isBlank_of_isWordChar (hc : isWordChar c = true) : isBlank c = false := by
  unfold isWordChar at hc
  simp only [Bool.or_eq_true, decide_eq_true_eq] at hc
  rcases hc with (hletter | hdigit) | rfl
  · exact not_blank_of_isLetter hletter
  · exact not_blank_of_isDigit hdigit
  · rfl

theorem Numeral.not_isBlank (h : Numeral u) : ∀ d ∈ u, isBlank d = false := by
  cases h with
  | whole _ hu => exact fun d hd => not_blank_of_isDigit (hu d hd)
  | fraction _ hu _ hmore =>
    refine List.forall_mem_append.mpr ⟨fun d hd => not_blank_of_isDigit (hu d hd), ?_⟩
    exact List.forall_mem_cons.mpr ⟨rfl, fun d hd => not_blank_of_isDigit (hmore d hd)⟩

theorem Shape.not_isBlank_of_mem (h : Shape c v t) (hc : c ≠ '"') :
    ∀ d ∈ c :: v, isBlank d = false := by
  refine List.forall_mem_cons.mpr ⟨h.not_isBlank, ?_⟩
  cases h with
  | single _ hv => exact hv ▸ List.forall_mem_nil _
  | @pair d s hs hv =>
    subst hv
    refine List.forall_mem_singleton.mpr ?_
    unfold Symbol.ofPair? at hs
    split at hs <;> first | rfl | cases hs
  | word hword =>
    cases hword with
    | mk _ hv => exact fun d hd => not_isBlank_of_isWordChar (hv d hd)
  | number _ hnumeral _ => exact (List.forall_mem_cons.mp hnumeral.not_isBlank).2
  | string hquote _ _ => exact absurd hquote hc

theorem exists_mem_of_isPrefix (hfront : v <+: u ++ rest) (hlonger : u.length < v.length) :
    ∃ d ∈ v, rest.head? = some d := by
  have hu : u <+: v :=
    List.prefix_of_prefix_length_le (List.prefix_append u rest) hfront (Nat.le_of_lt hlonger)
  obtain ⟨w, rfl⟩ := hu
  have hw : w <+: rest := (List.prefix_append_right_inj u).mp hfront
  cases w with
  | nil =>
    rw [List.append_nil] at hlonger
    exact absurd hlonger (Nat.lt_irrefl _)
  | cons d w =>
    obtain ⟨r, rfl⟩ := hw
    exact ⟨d, List.mem_append_right u List.mem_cons_self, rfl⟩

theorem pieceAt_of_lexeme (h : Lexeme u t)
    (hrest : ∀ d, rest.head? = some d → isBlank d = true) : PieceAt (.token t) u rest := by
  obtain ⟨c, w, rfl, hshape⟩ := exists_shape h
  refine .token h (fun v t' hv hfront => ?_) fun hslash => ?_
  · obtain ⟨w', rfl, hw', hshape'⟩ := exists_shape_of_isPrefix hv hfront
    by_cases hc : c = '"'
    · subst hc
      obtain ⟨s, hs, rfl, rfl⟩ := hshape.of_quote
      obtain ⟨s', hs', rfl, rfl⟩ := hshape'.of_quote
      obtain ⟨r, hr⟩ := hw'
      have heq : s'.toList ++ '"' :: r = s.toList ++ '"' :: rest := by simpa using hr
      rw [eq_of_quote hs' hs heq]
    · by_contra hlonger
      obtain ⟨d, hd, hhead⟩ :=
        exists_mem_of_isPrefix (u := c :: w) hfront (Nat.lt_of_not_le hlonger)
      cases (hshape'.not_isBlank_of_mem hc d hd).symm.trans (hrest d hhead)
  · rw [List.cons_append] at hslash
    obtain ⟨rfl, hsecond⟩ := List.cons_prefix_cons.mp hslash
    obtain ⟨s, rfl, hs⟩ := hshape.of_symbol rfl
    cases w with
    | nil =>
      obtain ⟨r, rfl⟩ := hsecond
      cases hrest '/' rfl
    | cons d w =>
      rw [List.cons_append] at hsecond
      obtain ⟨rfl, -⟩ := List.cons_prefix_cons.mp hsecond
      cases s <;> cases hs

/-! Splitting what is written -/

theorem Layout.splits (h : Layout sep) (hcs : Splits cs ps) :
    ∃ qs, Splits (sep ++ cs) (qs ++ ps) ∧ ∀ q ∈ qs, isBad q.kind = false ∧ q.token? = none := by
  induction h with
  | nil => exact ⟨[], hcs, List.forall_mem_nil _⟩
  | @blank c rest hc _ ih =>
    obtain ⟨qs, hqs, hnone⟩ := ih
    have hblank : PieceAt .blank [c] (rest ++ cs) := .blank hc
    have hsplits := Splits.cons (p := ⟨.blank, c, []⟩) hblank hqs
    exact ⟨⟨.blank, c, []⟩ :: qs, hsplits, List.forall_mem_cons.mpr ⟨⟨rfl, rfl⟩, hnone⟩⟩
  | @comment u rest hu _ ih =>
    obtain ⟨qs, hqs, hnone⟩ := ih
    have hline : PieceAt .blank ['\n'] (rest ++ cs) := .blank rfl
    have hcomment : PieceAt .comment ('/' :: '/' :: u) ('\n' :: (rest ++ cs)) :=
      .comment hu fun d hd => (Option.some.inj hd).symm
    have hsplits := Splits.cons (p := ⟨.comment, '/', '/' :: u⟩) hcomment
      (.cons (p := ⟨.blank, '\n', []⟩) hline hqs)
    refine ⟨⟨.comment, '/', '/' :: u⟩ :: ⟨.blank, '\n', []⟩ :: qs, ?_, ?_⟩
    · simpa [Piece.text] using hsplits
    · exact List.forall_mem_cons.mpr ⟨⟨rfl, rfl⟩, List.forall_mem_cons.mpr ⟨⟨rfl, rfl⟩, hnone⟩⟩

theorem Written.splits (h : Written ts seps cs) :
    ∃ ps, Splits cs ps ∧ (∀ p ∈ ps, isBad p.kind = false) ∧ ps.filterMap Piece.token? = ts := by
  induction h with
  | nil => exact ⟨[], .nil, List.forall_mem_nil _, rfl⟩
  | @last u t hu =>
    obtain ⟨c, w, rfl, -⟩ := exists_shape hu
    have hpiece : PieceAt (.token t) (c :: w) [] := pieceAt_of_lexeme hu fun d hd => nomatch hd
    have hsplits := Splits.cons (p := ⟨.token t, c, w⟩) hpiece .nil
    rw [List.append_nil] at hsplits
    exact ⟨_, hsplits, List.forall_mem_singleton.mpr rfl, rfl⟩
  | @cons u sep cs t next ts seps hu hsep _ ih =>
    obtain ⟨ps, hps, hgood, htokens⟩ := ih
    obtain ⟨hlayout, c₀, hhead, hblank⟩ := hsep
    obtain ⟨qs, hqs, hnone⟩ := hlayout.splits hps
    obtain ⟨c, w, rfl, -⟩ := exists_shape hu
    have hfollower : ∀ d, (sep ++ cs).head? = some d → isBlank d = true := by
      intro d hd
      rw [List.head?_append, hhead, Option.some_or] at hd
      exact Option.some.inj hd ▸ hblank
    have hsplits := Splits.cons (p := ⟨.token t, c, w⟩) (pieceAt_of_lexeme hu hfollower) hqs
    refine ⟨⟨.token t, c, w⟩ :: (qs ++ ps), hsplits, ?_, ?_⟩
    · exact List.forall_mem_cons.mpr
        ⟨rfl, List.forall_mem_append.mpr ⟨fun q hq => (hnone q hq).1, hgood⟩⟩
    · have hlayout : qs.filterMap Piece.token? = [] :=
        List.filterMap_eq_nil_iff.mpr fun q hq => (hnone q hq).2
      have htoken : Piece.token? ⟨.token t, c, w⟩ = some t := rfl
      rw [List.filterMap_cons_some htoken, List.filterMap_append, hlayout, htokens,
        List.nil_append]

theorem scan_eq_ok_iff {source : String} : scan source = .ok ts ↔
    ∃ ps, Splits source.toList ps ∧ (∀ p ∈ ps, isBad p.kind = false) ∧
      ps.filterMap Piece.token? = ts := by
  simp only [splits_iff, exists_eq_left, scan, scanErrors_eq_reports, ← reports_eq_nil_iff]
  split
  · rename_i hnone
    simp [hnone, scanTokens]
  · rename_i hsome
    exact iff_of_false nofun fun h => hsome h.1

theorem pieceAt_of_mem (h : Splits cs ps) (hp : p ∈ ps) : ∃ rest, PieceAt p.kind p.text rest := by
  induction h with
  | nil => cases hp
  | @cons q rest _ hq _ ih =>
    rcases List.mem_cons.mp hp with rfl | hmem
    · exact ⟨rest, hq⟩
    · exact ih hmem

theorem isWritable_of_scan {source : String} (h : scan source = .ok ts) :
    ∀ t ∈ ts, IsWritable t := by
  obtain ⟨ps, hps, -, rfl⟩ := scan_eq_ok_iff.mp h
  intro t ht
  obtain ⟨p, hp, htoken⟩ := List.mem_filterMap.mp ht
  obtain ⟨rest, hpiece⟩ := pieceAt_of_mem hps hp
  have hkind : p.kind = .token t := by
    unfold Piece.token? at htoken
    split at htoken
    · rename_i hk
      exact hk.trans (congrArg _ (Option.some.inj htoken))
    · cases htoken
  rw [hkind] at hpiece
  generalize p.text = u at hpiece
  cases hpiece with
  | token hu _ _ => exact isWritable_iff.mpr ⟨u, hu⟩

/--
Tokens that texts can spell can be written with any separators between them, and scanning the text
gives just these tokens. Scanning any text gives tokens that can be written; so, written out in
whatever layout, they are what scanning gives again.
-/
theorem scan_written :
    (∀ ts seps, (∃ cs, Written ts seps cs) ↔ (∀ t ∈ ts, IsWritable t) ∧
      (∀ sep ∈ seps, Separator sep) ∧ seps.length = ts.length - 1) ∧
    (∀ ts seps source, Written ts seps source.toList → scan source = .ok ts) ∧
    (∀ source ts, scan source = .ok ts → ∀ t ∈ ts, IsWritable t) ∧
    ∀ source ts, scan source = .ok ts → ∀ seps, (∀ sep ∈ seps, Separator sep) →
      seps.length = ts.length - 1 → (∃ cs, Written ts seps cs) ∧
        ∀ again, Written ts seps again.toList → scan again = scan source := by
  have hscan {ts : List Token} {seps : List (List Char)} {source : String}
      (h : Written ts seps source.toList) : scan source = .ok ts :=
    scan_eq_ok_iff.mpr h.splits
  refine ⟨fun ts seps => exists_written_iff, fun ts seps source => hscan,
    fun source ts => isWritable_of_scan, ?_⟩
  intro source ts h seps hseps hlength
  refine ⟨exists_written_iff.mpr ⟨isWritable_of_scan h, hseps, hlength⟩, fun again hagain => ?_⟩
  rw [hscan hagain, h]

end Lexical

end ModuleScript
