import ModuleScript.Proofs.Source.Lexemes

/-!
The piece at the front of a text, apart from any scanner. A token is the longest lexeme at its
place; what is not blank and starts no lexeme is invalid. Main statements: `pieceAt_cut` and
`cut_eq_of_pieceAt`, at the front of a text stands one piece, the one that `Piece.cut` finds.
-/

namespace ModuleScript

namespace Lexical

open Piece

/-- The text `u` is a piece of the given kind in front of `rest`. -/
inductive PieceAt : PieceKind → List Char → List Char → Prop
  | blank {c : Char} {rest : List Char} : isBlank c = true → PieceAt .blank [c] rest
  | comment {u rest : List Char} : '\n' ∉ u → (∀ d, rest.head? = some d → d = '\n') →
      PieceAt .comment ('/' :: '/' :: u) rest
  | token {u rest : List Char} {t : Token} : Lexeme u t →
      (∀ v t', Lexeme v t' → v <+: u ++ rest → v.length ≤ u.length) →
      ¬['/', '/'] <+: u ++ rest → PieceAt (.token t) u rest
  | invalid {c : Char} {u rest : List Char} : isBlank c = false →
      (∀ v t, Lexeme v t → v.head? ≠ some c) → (∀ d ∈ u, isBlank d = false) →
      (∀ d, rest.head? = some d → isBlank d = true) → PieceAt .invalid (c :: u) rest
  | unterminated {u : List Char} : '"' ∉ u → PieceAt .unterminated ('"' :: u) []

variable {c : Char} {cs u v rest : List Char} {t : Token} {k : PieceKind}

theorem exists_shape_of_isPrefix (h : Lexeme v t) (hfront : v <+: c :: cs) :
    ∃ w, v = c :: w ∧ w <+: cs ∧ Shape c w t := by
  obtain ⟨d, w, rfl, hshape⟩ := exists_shape h
  obtain ⟨rfl, hw⟩ := List.cons_prefix_cons.mp hfront
  exact ⟨w, rfl, hw, hshape⟩

theorem Shape.not_isBlank (h : Shape c v t) : isBlank c = false := by
  cases h with
  | single hs _ => exact (of_ofChar?_eq_some hs).1
  | pair hs _ =>
    obtain ⟨s, hs⟩ := exists_ofChar?_of_ofPair? hs
    exact (of_ofChar?_eq_some hs).1
  | word hw =>
    cases hw with
    | mk hc _ => exact not_blank_of_isLetter hc
  | number hc _ _ => exact not_blank_of_isDigit hc
  | string hc _ _ =>
    subst hc
    rfl

theorem eq_of_ofChar?_eq_some {s : Symbol} (hs : Symbol.ofChar? c = some s) (hv : Lexeme v t)
    (hfront : v <+: c :: cs) :
    v = [c] ∨ ∃ d s, cs.head? = some d ∧ v = [c, d] ∧ Symbol.ofPair? c d = some s := by
  obtain ⟨w, rfl, hw, hshape⟩ := exists_shape_of_isPrefix hv hfront
  obtain ⟨-, hletter, hdigit, hquote⟩ := of_ofChar?_eq_some hs
  cases hshape with
  | single _ hw => exact .inl (hw ▸ rfl)
  | @pair d s hs hnil =>
    subst hnil
    obtain ⟨r, rfl⟩ := hw
    exact .inr ⟨d, s, rfl, rfl, hs⟩
  | word hword =>
    cases hword with
    | mk hc _ => cases hletter.symm.trans hc
  | number hc _ _ => cases hdigit.symm.trans hc
  | string hc _ _ => exact absurd hc hquote

theorem symbol?_eq_some (h : symbol? c cs = some (k, u)) :
    ∃ s, k = .token (.symbol s) ∧ Lexeme (c :: u) (.symbol s) ∧
      ∀ v t, Lexeme v t → v <+: c :: cs → v.length ≤ (c :: u).length := by
  unfold symbol? at h
  split at h
  · rename_i s hpair
    obtain ⟨rfl, rfl⟩ := Prod.mk.inj (Option.some.inj h)
    obtain ⟨d, hd, hs⟩ := Option.bind_eq_some_iff.mp hpair
    obtain ⟨r, rfl⟩ := List.head?_eq_some_iff.mp hd
    obtain ⟨s', hs'⟩ := exists_ofChar?_of_ofPair? hs
    have hspelling := ofPair?_eq_some_iff.mp hs
    refine ⟨s, rfl, hspelling ▸ .symbol s, fun v t hv hfront => ?_⟩
    rcases eq_of_ofChar?_eq_some hs' hv hfront with rfl | ⟨e, s, -, rfl, -⟩
    · exact Nat.le_succ 1
    · exact Nat.le_refl 2
  · rename_i hpair
    obtain ⟨s, hs, hku⟩ := Option.map_eq_some_iff.mp h
    obtain ⟨rfl, rfl⟩ := Prod.mk.inj hku
    have hspelling := ofChar?_eq_some_iff.mp hs
    refine ⟨s, rfl, hspelling ▸ .symbol s, fun v t hv hfront => ?_⟩
    rcases eq_of_ofChar?_eq_some hs hv hfront with rfl | ⟨d, s, hd, rfl, hpair'⟩
    · exact Nat.le_refl 1
    · rw [hd, Option.bind_some, hpair'] at hpair
      cases hpair

theorem symbol?_eq_none (h : symbol? c cs = none) : Symbol.ofChar? c = none := by
  unfold symbol? at h
  split at h
  · cases h
  · exact Option.map_eq_none_iff.mp h

theorem head?_ne_of_lexeme (hsymbol : Symbol.ofChar? c = none) (hquote : c ≠ '"')
    (hdigit : isDigit c = false) (hletter : isLetter c = false) (h : Lexeme v t) :
    v.head? ≠ some c := by
  obtain ⟨d, w, rfl, hshape⟩ := exists_shape h
  intro hd
  obtain rfl : d = c := Option.some.inj hd
  cases hshape with
  | single hs _ => cases hsymbol.symm.trans hs
  | pair hs _ =>
    obtain ⟨s, hs⟩ := exists_ofChar?_of_ofPair? hs
    cases hsymbol.symm.trans hs
  | word hw =>
    cases hw with
    | mk hc _ => cases hletter.symm.trans hc
  | number hc _ _ => cases hdigit.symm.trans hc
  | string hc _ _ => exact hquote hc

theorem not_isPrefix_comment (hslash : ¬(c = '/' ∧ cs.head? = some '/')) :
    ¬['/', '/'] <+: c :: cs := by
  intro h
  obtain ⟨rfl, hcs⟩ := List.cons_prefix_cons.mp h
  obtain ⟨r, rfl⟩ := hcs
  exact hslash ⟨rfl, rfl⟩

theorem pieceAt_comment (hc : c = '/' ∧ cs.head? = some '/') (hcs : cs = (comment cs).2 ++ rest) :
    PieceAt .comment (c :: (comment cs).2) rest := by
  obtain ⟨rfl, hhead⟩ := hc
  obtain ⟨r, rfl⟩ := List.head?_eq_some_iff.mp hhead
  have hstop := stop_of_takeWhile_append (p := (· ≠ '\n')) hcs
  have hbody : (comment ('/' :: r)).2 = '/' :: r.takeWhile (· ≠ '\n') := by simp [comment]
  rw [hbody]
  refine .comment (fun hmem => ?_) fun d hd => ?_
  · simpa using List.mem_takeWhile_imp hmem
  · simpa using hstop d hd

theorem takeWhile_quote (hu : '"' ∉ u) (rest : List Char) :
    (u ++ '"' :: rest).takeWhile (· ≠ '"') = u := by
  refine (takeWhile_append_of_stop (fun d hd => ?_) fun d hd => ?_).1
  · have hne : d ≠ '"' := fun e => hu (e ▸ hd)
    exact decide_eq_true hne
  · obtain rfl := Option.some.inj hd
    rfl

/-- The first quote behind the opening one closes every string here. -/
theorem eq_of_quote {u v rest rest' : List Char} (hu : '"' ∉ u) (hv : '"' ∉ v)
    (h : u ++ '"' :: rest = v ++ '"' :: rest') : u = v := by
  have hsame := congrArg (List.takeWhile (· ≠ '"')) h
  rw [takeWhile_quote hu, takeWhile_quote hv] at hsame
  exact hsame

theorem pieceAt_quoted (hcs : cs = (quoted cs).2 ++ rest) :
    PieceAt (quoted cs).1 ('"' :: (quoted cs).2) rest := by
  by_cases hmem : '"' ∈ cs
  · obtain ⟨body, r, rfl, hbody⟩ := List.eq_append_cons_of_mem hmem
    have hquoted : quoted (body ++ '"' :: r) =
        (.token (.string (String.ofList body)), body ++ ['"']) := by
      simp only [quoted, if_pos hmem, takeWhile_quote hbody]
    rw [hquoted] at hcs ⊢
    have hlexeme : Lexeme ('"' :: body ++ ['"']) (.string (String.ofList body)) := by
      have h := Lexeme.string (s := String.ofList body) (by rwa [String.toList_ofList])
      rwa [String.toList_ofList] at h
    refine .token hlexeme (fun v t hv hfront => ?_) fun hslash => ?_
    · obtain ⟨w, rfl, ⟨r', hr'⟩, hshape⟩ := exists_shape_of_isPrefix hv hfront
      obtain ⟨s, hs, rfl, rfl⟩ := hshape.of_quote
      have heq : s.toList ++ '"' :: r' = body ++ '"' :: rest := by simpa using hr'
      rw [eq_of_quote hs hbody heq]
    · exact absurd (List.cons_prefix_cons.mp hslash).1 (by decide)
  · have hquoted : quoted cs = (.unterminated, cs) := by simp [quoted, hmem]
    rw [hquoted] at hcs ⊢
    obtain rfl : rest = [] := by simpa using hcs
    exact .unterminated hmem

theorem pieceAt_word (hc : isLetter c = true) (hslash : ¬['/', '/'] <+: c :: cs)
    (hcs : cs = (word c cs).2 ++ rest) : PieceAt (word c cs).1 (c :: (word c cs).2) rest := by
  have hword : Word (c :: cs.takeWhile isWordChar) :=
    .mk hc fun d hd => List.mem_takeWhile_imp hd
  have htext : c :: (word c cs).2 ++ rest = c :: cs := by rw [List.cons_append, ← hcs]
  refine .token (lexeme_of_word hword) (fun v t hv hfront => ?_) ?_
  · rw [htext] at hfront
    obtain ⟨w, rfl, hw, hshape⟩ := exists_shape_of_isPrefix hv hfront
    obtain ⟨r, hr⟩ := hw
    have hchars := (hshape.of_letter hc).1
    rw [← hr, word, List.takeWhile_append_of_pos hchars]
    simp
  · rw [htext]
    exact hslash

theorem pieceAt_number (hc : isDigit c = true) (hslash : ¬['/', '/'] <+: c :: cs)
    (hcs : cs = (number c cs).2 ++ rest) :
    PieceAt (number c cs).1 (c :: (number c cs).2) rest := by
  have htext : c :: (number c cs).2 ++ rest = c :: cs := by rw [List.cons_append, ← hcs]
  obtain ⟨x, hx, hlexeme, hlongest⟩ := lexeme_number hc cs
  rw [hx]
  refine .token hlexeme (fun v t hv hfront => ?_) ?_
  · rw [htext] at hfront
    obtain ⟨w, rfl, -, hshape⟩ := exists_shape_of_isPrefix hv hfront
    exact hlongest _ (hshape.of_digit hc).1 hfront
  · rw [htext]
    exact hslash

theorem pieceAt_invalid (hblank : ¬isBlank c = true) (hnone : ∀ v t, Lexeme v t → v.head? ≠ some c)
    (hcs : cs = (invalid cs).2 ++ rest) :
    PieceAt (invalid cs).1 (c :: (invalid cs).2) rest := by
  have hstop := stop_of_takeWhile_append (p := fun d => !isBlank d) hcs
  refine .invalid (Bool.eq_false_iff.mpr hblank) hnone (fun d hd => ?_) fun d hd => ?_
  · simpa using List.mem_takeWhile_imp hd
  · simpa using hstop d hd

theorem pieceAt_cut (hcs : cs = (cut c cs).2 ++ rest) :
    PieceAt (cut c cs).1 (c :: (cut c cs).2) rest := by
  unfold cut at hcs ⊢
  split
  · rename_i hslash
    rw [if_pos hslash] at hcs
    exact pieceAt_comment hslash hcs
  · rename_i hslash
    rw [if_neg hslash] at hcs
    have hslash := not_isPrefix_comment hslash
    split
    · rename_i p hp
      rw [hp] at hcs
      obtain ⟨s, hk, hlexeme, hlongest⟩ := symbol?_eq_some hp
      have htext : c :: p.2 ++ rest = c :: cs := by rw [List.cons_append, ← hcs]
      rw [hk]
      exact .token hlexeme (htext ▸ hlongest) (htext ▸ hslash)
    · rename_i hnone
      have hsymbol := symbol?_eq_none hnone
      simp only [hnone] at hcs
      split
      · rename_i hblank
        exact .blank hblank
      · rename_i hblank
        rw [if_neg hblank] at hcs
        split
        · rename_i hquote
          subst hquote
          exact pieceAt_quoted hcs
        · rename_i hquote
          rw [if_neg hquote] at hcs
          split
          · rename_i hdigit
            rw [if_pos hdigit] at hcs
            exact pieceAt_number hdigit hslash hcs
          · rename_i hdigit
            rw [if_neg hdigit] at hcs
            split
            · rename_i hletter
              rw [if_pos hletter] at hcs
              exact pieceAt_word hletter hslash hcs
            · rename_i hletter
              rw [if_neg hletter] at hcs
              refine pieceAt_invalid hblank (fun v t hv => ?_) hcs
              exact head?_ne_of_lexeme hsymbol hquote (Bool.eq_false_iff.mpr hdigit)
                (Bool.eq_false_iff.mpr hletter) hv

theorem symbol?_eq_none_of_ofChar? (h : Symbol.ofChar? c = none) (cs : List Char) :
    symbol? c cs = none := by
  have hpair : cs.head?.bind (Symbol.ofPair? c) = none := by
    rw [Option.bind_eq_none_iff]
    intro d _
    rw [Option.eq_none_iff_forall_ne_some]
    intro s hs
    obtain ⟨s', hs'⟩ := exists_ofChar?_of_ofPair? hs
    cases h.symm.trans hs'
  simp [symbol?, hpair, h]

theorem cut_of_ofChar?_eq_none (h : Symbol.ofChar? c = none) (cs : List Char) :
    cut c cs = if isBlank c then (.blank, [])
      else if c = '"' then quoted cs
      else if isDigit c then number c cs
      else if isLetter c then word c cs
      else invalid cs := by
  have hslash : ¬(c = '/' ∧ cs.head? = some '/') := by
    rintro ⟨rfl, -⟩
    cases h
  rw [cut, if_neg hslash, symbol?_eq_none_of_ofChar? h]

theorem ofChar?_eq_none_of (h : ∀ s, Symbol.ofChar? c = some s → False) :
    Symbol.ofChar? c = none :=
  Option.eq_none_iff_forall_ne_some.mpr h

theorem cut_eq_of_lexeme (hu : Lexeme (c :: u) t)
    (hlongest : ∀ v t', Lexeme v t' → v <+: c :: u ++ rest → v.length ≤ (c :: u).length)
    (hslash : ¬['/', '/'] <+: c :: u ++ rest) : cut c (u ++ rest) = (.token t, u) := by
  obtain ⟨rest₀, hrest₀⟩ := cut_isPrefix c (u ++ rest)
  have hcut := pieceAt_cut hrest₀.symm
  generalize cut c (u ++ rest) = p at hcut hrest₀ ⊢
  obtain ⟨k₀, u₀⟩ := p
  obtain ⟨_, _, hcons, hshape⟩ := exists_shape hu
  obtain ⟨rfl, rfl⟩ := List.cons.inj hcons
  cases hcut with
  | blank hblank => cases hshape.not_isBlank.symm.trans hblank
  | comment _ _ => exact absurd ⟨_, congrArg ('/' :: ·) hrest₀⟩ hslash
  | token hu₀ hlongest₀ _ =>
    -- two longest lexemes at one place have the same length
    have htext : c :: u₀ ++ rest₀ = c :: u ++ rest := congrArg (c :: ·) hrest₀
    have hle := hlongest _ _ hu₀ ⟨rest₀, htext⟩
    have hge := hlongest₀ _ _ hu ⟨rest, htext.symm⟩
    obtain ⟨hsame, -⟩ := List.append_inj htext (Nat.le_antisymm hle hge)
    rw [hsame] at hu₀
    rw [hu₀.unique hu, (List.cons.inj hsame).2]
  | invalid _ hnone _ _ => exact absurd rfl (hnone _ _ hu)
  | unterminated hnone =>
    obtain ⟨s, -, rfl, -⟩ := hshape.of_quote
    obtain rfl : u₀ = s.toList ++ ['"'] ++ rest := by simpa using hrest₀
    exact absurd (by simp) hnone

/-- A piece at the front of a text is the one that is cut off. -/
theorem cut_eq_of_pieceAt (h : PieceAt k (c :: u) rest) : cut c (u ++ rest) = (k, u) := by
  cases h with
  | blank hblank =>
    have hsymbol := ofChar?_eq_none_of fun s hs => by
      cases (of_ofChar?_eq_some hs).1.symm.trans hblank
    rw [cut_of_ofChar?_eq_none hsymbol, if_pos hblank]
  | @comment u _ hu hrest =>
    have hline : ('/' :: u ++ rest).takeWhile (· ≠ '\n') = '/' :: u := by
      refine (takeWhile_append_of_stop (fun d hd => ?_) fun d hd => ?_).1
      · have hne : d ≠ '\n' := by
          rintro rfl
          exact hu (by simpa using hd)
        exact decide_eq_true hne
      · rw [hrest d hd]
        rfl
    rw [cut, if_pos ⟨rfl, rfl⟩, comment, hline]
  | token hu hlongest hslash => exact cut_eq_of_lexeme hu hlongest hslash
  | invalid hblank hnone hu hrest =>
    have hsymbol := ofChar?_eq_none_of fun s hs => by
      have hspelling := ofChar?_eq_some_iff.mp hs
      exact hnone _ _ (.symbol s) (hspelling ▸ rfl)
    have hquote : c ≠ '"' := by
      rintro rfl
      exact hnone _ _ (.string (s := "") (by simp)) rfl
    have hdigit : ¬isDigit c = true := by
      intro hc
      have hnumeral : Numeral [c] :=
        .whole (List.cons_ne_nil c []) (List.forall_mem_singleton.mpr hc)
      obtain ⟨x, hx⟩ := hnumeral.exists_readNumber?
      exact hnone _ _ (.number hnumeral hx) rfl
    have hletter : ¬isLetter c = true := by
      intro hc
      exact hnone _ _ (lexeme_of_word (.mk hc (List.forall_mem_nil _))) rfl
    have htake : (u ++ rest).takeWhile (fun d => !isBlank d) = u := by
      refine (takeWhile_append_of_stop (fun d hd => ?_) fun d hd => ?_).1
      · rw [hu d hd]
        rfl
      · rw [hrest d hd]
        rfl
    have hblank' : ¬isBlank c = true := Bool.eq_false_iff.mp hblank
    rw [cut_of_ofChar?_eq_none hsymbol, if_neg hblank', if_neg hquote, if_neg hdigit,
      if_neg hletter, invalid, htake]
  | unterminated hu =>
    rw [cut_of_ofChar?_eq_none rfl, List.append_nil]
    simp [quoted, hu, show isBlank '"' = false from rfl]

end Lexical

end ModuleScript
