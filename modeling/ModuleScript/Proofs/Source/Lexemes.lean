import Mathlib.Data.List.TakeWhile
import ModuleScript.Source.Piece

/-!
Lexemes, apart from any scanner: which texts spell which tokens. The first character of a lexeme
tells whether it is a symbol, a word, a numeral or a string (`exists_shape`), and a text spells at
most one token (`Lexeme.unique`).
-/

namespace ModuleScript

namespace Lexical

open Piece

/-- Digits, perhaps with a point and more digits behind them. -/
inductive Numeral : List Char → Prop
  | whole {digits : List Char} : digits ≠ [] → (∀ d ∈ digits, isDigit d = true) → Numeral digits
  | fraction {digits more : List Char} :
      digits ≠ [] → (∀ d ∈ digits, isDigit d = true) →
      more ≠ [] → (∀ d ∈ more, isDigit d = true) → Numeral (digits ++ '.' :: more)

inductive Word : List Char → Prop
  | mk {c : Char} {cs : List Char} :
      isLetter c = true → (∀ d ∈ cs, isWordChar d = true) → Word (c :: cs)

inductive Lexeme : List Char → Token → Prop
  | symbol (s : Symbol) : Lexeme s.spelling.toList (.symbol s)
  | keyword (k : Keyword) : Lexeme k.spelling.toList (.keyword k)
  | true : Lexeme "true".toList (.boolean true)
  | false : Lexeme "false".toList (.boolean false)
  | identifier {x : Name} : Word x.toList → (∀ k : Keyword, x ≠ k.spelling) →
      x ≠ "true" → x ≠ "false" → Lexeme x.toList (.identifier x)
  | number {u : List Char} {x : Float} :
      Numeral u → readNumber? u = some x → Lexeme u (.number x)
  | string {s : String} : '"' ∉ s.toList → Lexeme ('"' :: s.toList ++ ['"']) (.string s)

/-! Classes of characters -/

section Classes

variable {c : Char}

theorem isDigit_iff : isDigit c = true ↔ 48 ≤ c.toNat ∧ c.toNat ≤ 57 := by
  simp [isDigit, Char.le_def, UInt32.le_iff_toNat_le]

theorem isLetter_iff : isLetter c = true ↔
    97 ≤ c.toNat ∧ c.toNat ≤ 122 ∨ 65 ≤ c.toNat ∧ c.toNat ≤ 90 := by
  simp [isLetter, Char.le_def, UInt32.le_iff_toNat_le]

theorem ofChar?_eq_some_iff {s : Symbol} : Symbol.ofChar? c = some s ↔ s.spelling.toList = [c] := by
  constructor
  · intro h
    unfold Symbol.ofChar? at h
    split at h <;> cases h <;> rfl
  · cases s <;> simp [Symbol.spelling] <;> rintro rfl <;> rfl

theorem ofPair?_eq_some_iff {d : Char} {s : Symbol} :
    Symbol.ofPair? c d = some s ↔ s.spelling.toList = [c, d] := by
  constructor
  · intro h
    unfold Symbol.ofPair? at h
    split at h <;> cases h <;> rfl
  · cases s <;> simp [Symbol.spelling] <;> rintro rfl rfl <;> rfl

theorem of_ofChar?_eq_some {s : Symbol} (h : Symbol.ofChar? c = some s) :
    isBlank c = false ∧ isLetter c = false ∧ isDigit c = false ∧ c ≠ '"' := by
  unfold Symbol.ofChar? at h
  split at h <;> first | decide | cases h

theorem not_blank_of_isLetter (h : isLetter c = true) : isBlank c = false := by
  have hc := isLetter_iff.mp h
  simp [isBlank, blankRanges]
  omega

theorem not_digit_of_isLetter (h : isLetter c = true) : isDigit c = false := by
  have hc := isLetter_iff.mp h
  rw [Bool.eq_false_iff]
  intro hd
  have := isDigit_iff.mp hd
  omega

theorem not_blank_of_isDigit (h : isDigit c = true) : isBlank c = false := by
  have hc := isDigit_iff.mp h
  simp [isBlank, blankRanges]
  omega

theorem exists_ofChar?_of_ofPair? {d : Char} {s : Symbol} (h : Symbol.ofPair? c d = some s) :
    ∃ s', Symbol.ofChar? c = some s' := by
  unfold Symbol.ofPair? at h
  split at h
  all_goals first | exact ⟨_, rfl⟩ | cases h

end Classes

/-! Lexemes by their first character -/

section First

variable {c : Char} {u v : List Char} {t : Token}

theorem word_toList_spelling (k : Keyword) : Word k.spelling.toList := by
  cases k <;> exact .mk (by decide) (List.all_eq_true.mp rfl)

theorem lexeme_of_word (h : Word u) : Lexeme u (.ofWord (String.ofList u)) := by
  have hu : u = (String.ofList u).toList := String.toList_ofList.symm
  generalize String.ofList u = x at hu
  subst hu
  unfold Token.ofWord
  split
  · rename_i k hk
    have hx : k.spelling = x := by simpa using List.find?_some hk
    exact hx ▸ .keyword k
  · rename_i hnone
    have hk (k : Keyword) : x ≠ k.spelling := by
      rintro rfl
      cases (Keyword.ofSpelling?_spelling k).symm.trans hnone
    split
    · rename_i hx
      exact hx ▸ .true
    · split
      · rename_i hx
        exact hx ▸ .false
      · rename_i htrue hfalse
        exact .identifier h hk htrue hfalse

theorem ofWord_of_lexeme_word {x : Name} (hk : ∀ k : Keyword, x ≠ k.spelling) (htrue : x ≠ "true")
    (hfalse : x ≠ "false") : Token.ofWord x = .identifier x := by
  have hnone : Keyword.ofSpelling? x = none := by
    rw [Keyword.ofSpelling?, List.find?_eq_none]
    intro k _
    simpa using (hk k).symm
  simp [Token.ofWord, hnone, htrue, hfalse]

theorem Word.exists_cons (h : Word u) : ∃ c v, u = c :: v := by
  cases h
  exact ⟨_, _, rfl⟩

theorem head_isDigit_of_numeral (h : Numeral u) : ∃ c v, u = c :: v ∧ isDigit c = true := by
  cases h with
  | whole hne hd =>
    obtain ⟨c, v, rfl⟩ := List.exists_cons_of_ne_nil hne
    exact ⟨c, v, rfl, hd c List.mem_cons_self⟩
  | fraction hne hd _ _ =>
    obtain ⟨c, v, rfl⟩ := List.exists_cons_of_ne_nil hne
    exact ⟨c, _, rfl, hd c List.mem_cons_self⟩

/-- The lexemes that begin with `c`, by the class of `c`. -/
inductive Shape (c : Char) (v : List Char) : Token → Prop
  | single {s : Symbol} : Symbol.ofChar? c = some s → v = [] → Shape c v (.symbol s)
  | pair {d : Char} {s : Symbol} : Symbol.ofPair? c d = some s → v = [d] → Shape c v (.symbol s)
  | word : Word (c :: v) → Shape c v (.ofWord (String.ofList (c :: v)))
  | number {x : Float} : isDigit c = true → Numeral (c :: v) → readNumber? (c :: v) = some x →
      Shape c v (.number x)
  | string {s : String} : c = '"' → '"' ∉ s.toList → v = s.toList ++ ['"'] → Shape c v (.string s)

theorem exists_shape (h : Lexeme u t) : ∃ c v, u = c :: v ∧ Shape c v t := by
  cases h with
  | symbol s =>
    have hs : (∃ c, s.spelling.toList = [c]) ∨ ∃ c d, s.spelling.toList = [c, d] := by
      cases s <;> first | exact .inl ⟨_, rfl⟩ | exact .inr ⟨_, _, rfl⟩
    rcases hs with ⟨c, hc⟩ | ⟨c, d, hc⟩
    · exact ⟨c, [], hc, .single (ofChar?_eq_some_iff.mpr hc) rfl⟩
    · exact ⟨c, [d], hc, .pair (ofPair?_eq_some_iff.mpr hc) rfl⟩
  | keyword k =>
    have hw := word_toList_spelling k
    have hk : Token.ofWord k.spelling = .keyword k := by
      simp [Token.ofWord, Keyword.ofSpelling?_spelling]
    obtain ⟨c, v, hu⟩ := hw.exists_cons
    have hshape := Shape.word (hu ▸ hw)
    rw [← hu, String.ofList_toList, hk] at hshape
    exact ⟨c, v, hu, hshape⟩
  | true => exact ⟨'t', ['r', 'u', 'e'], rfl, .word (.mk (by decide) (List.all_eq_true.mp rfl))⟩
  | false =>
    exact ⟨'f', ['a', 'l', 's', 'e'], rfl, .word (.mk (by decide) (List.all_eq_true.mp rfl))⟩
  | @identifier x hw hk htrue hfalse =>
    obtain ⟨c, v, hu⟩ := hw.exists_cons
    have hshape := Shape.word (hu ▸ hw)
    rw [← hu, String.ofList_toList, ofWord_of_lexeme_word hk htrue hfalse] at hshape
    exact ⟨c, v, hu, hshape⟩
  | number hu hx =>
    obtain ⟨c, v, rfl, hc⟩ := head_isDigit_of_numeral hu
    exact ⟨c, v, rfl, .number hc hu hx⟩
  | string hs => exact ⟨'"', _, rfl, .string rfl hs rfl⟩

theorem Shape.of_symbol {s : Symbol} (h : Shape c v t) (hc : Symbol.ofChar? c = some s) :
    ∃ s', t = .symbol s' ∧ s'.spelling.toList = c :: v := by
  obtain ⟨-, hletter, hdigit, hquote⟩ := of_ofChar?_eq_some hc
  cases h with
  | single hs hv => exact ⟨_, rfl, hv ▸ ofChar?_eq_some_iff.mp hs⟩
  | pair hs hv => exact ⟨_, rfl, hv ▸ ofPair?_eq_some_iff.mp hs⟩
  | word hw =>
    cases hw with
    | mk hc' _ => cases hletter.symm.trans hc'
  | number hc' _ _ => cases hdigit.symm.trans hc'
  | string hc' _ _ => exact absurd hc' hquote

theorem Shape.of_letter (h : Shape c v t) (hc : isLetter c = true) :
    (∀ d ∈ v, isWordChar d = true) ∧ t = .ofWord (String.ofList (c :: v)) := by
  cases h with
  | single hs _ => cases (of_ofChar?_eq_some hs).2.1.symm.trans hc
  | pair hs _ =>
    obtain ⟨s, hs⟩ := exists_ofChar?_of_ofPair? hs
    cases (of_ofChar?_eq_some hs).2.1.symm.trans hc
  | word hw =>
    cases hw with
    | mk _ hv => exact ⟨hv, rfl⟩
  | number hc' _ _ => cases (not_digit_of_isLetter hc).symm.trans hc'
  | string hc' _ _ =>
    subst hc'
    cases hc

theorem Shape.of_digit (h : Shape c v t) (hc : isDigit c = true) :
    Numeral (c :: v) ∧ ∃ x, readNumber? (c :: v) = some x ∧ t = .number x := by
  cases h with
  | single hs _ => cases (of_ofChar?_eq_some hs).2.2.1.symm.trans hc
  | pair hs _ =>
    obtain ⟨s, hs⟩ := exists_ofChar?_of_ofPair? hs
    cases (of_ofChar?_eq_some hs).2.2.1.symm.trans hc
  | word hw =>
    cases hw with
    | mk hc' _ => cases (not_digit_of_isLetter hc').symm.trans hc
  | number _ hn hx => exact ⟨hn, _, hx, rfl⟩
  | string hc' _ _ =>
    subst hc'
    cases hc

theorem Shape.of_quote (h : Shape '"' v t) :
    ∃ s : String, '"' ∉ s.toList ∧ v = s.toList ++ ['"'] ∧ t = .string s := by
  cases h with
  | single hs _ => cases hs
  | pair hs _ => cases (exists_ofChar?_of_ofPair? hs).choose_spec
  | word hw =>
    cases hw with
    | mk hc _ => cases hc
  | number hc _ _ => cases hc
  | string _ hs hv => exact ⟨_, hs, hv, rfl⟩

/-- A text spells at most one token. -/
theorem Lexeme.unique {t' : Token} (h : Lexeme u t) (h' : Lexeme u t') : t = t' := by
  obtain ⟨c, v, rfl, hs⟩ := exists_shape h
  obtain ⟨_, _, hu, hs'⟩ := exists_shape h'
  obtain ⟨rfl, rfl⟩ := List.cons.inj hu
  have hsymbol {s : Symbol} (hc : Symbol.ofChar? c = some s) : t = t' := by
    obtain ⟨s₁, rfl, h₁⟩ := hs.of_symbol hc
    obtain ⟨s₂, rfl, h₂⟩ := hs'.of_symbol hc
    have hspelling : s₁.spelling = s₂.spelling := String.toList_inj.mp (h₁.trans h₂.symm)
    revert hspelling
    cases s₁ <;> cases s₂ <;> decide
  cases hs with
  | single hc _ => exact hsymbol hc
  | pair hc _ =>
    obtain ⟨s, hs⟩ := exists_ofChar?_of_ofPair? hc
    exact hsymbol hs
  | word hw =>
    cases hw with
    | mk hc _ => exact (hs'.of_letter hc).2.symm
  | number hc _ hx =>
    obtain ⟨-, x, hx', rfl⟩ := hs'.of_digit hc
    exact congrArg Token.number (Option.some.inj (hx.symm.trans hx'))
  | @string s hc _ hv =>
    subst hc
    obtain ⟨s', -, hv', rfl⟩ := hs'.of_quote
    have hlist : s.toList = s'.toList := List.append_cancel_right (hv.symm.trans hv')
    exact congrArg Token.string (String.toList_inj.mp hlist)

end First

/-! Reading numerals -/

section Numerals

variable {c : Char} {p : Char → Bool} {u cs rest : List Char}

theorem takeWhile_append_of_stop (hu : ∀ d ∈ u, p d = true)
    (hrest : ∀ d, rest.head? = some d → p d = false) :
    (u ++ rest).takeWhile p = u ∧ (u ++ rest).dropWhile p = rest := by
  rw [List.takeWhile_append_of_pos hu, List.dropWhile_append_of_pos hu]
  cases rest with
  | nil => simp
  | cons d ds => simp [hrest d rfl]

theorem stop_of_takeWhile_append (h : u = u.takeWhile p ++ rest) :
    ∀ d, rest.head? = some d → p d = false := by
  intro d hd
  have hrest : u.dropWhile p = rest :=
    List.append_cancel_left (List.takeWhile_append_dropWhile.trans h)
  have hstop := List.head?_dropWhile_not p u
  rw [hrest, hd] at hstop
  simpa using hstop

theorem splitSign_of_head? (h : ∀ c, cs.head? = some c → c ≠ '+' ∧ c ≠ '-') :
    splitSign cs = (false, cs) := by
  unfold splitSign
  split
  · exact absurd rfl (h '+' rfl).1
  · exact absurd rfl (h '-' rfl).2
  · rfl

theorem ne_sign_of_isDigit (hc : isDigit c = true) : c ≠ '+' ∧ c ≠ '-' := by
  refine ⟨?_, ?_⟩
  · rintro rfl
    cases hc
  · rintro rfl
    cases hc

theorem splitSign_of_isDigit (hc : isDigit c = true) (u : List Char) :
    splitSign (c :: u) = (false, c :: u) :=
  splitSign_of_head? fun _ hd => Option.some.inj hd ▸ ne_sign_of_isDigit hc

theorem toLower_of_isDigit (hc : isDigit c = true) : c.toLower = c := by
  have hn := isDigit_iff.mp hc
  have hne : ¬(c.val ≥ 'A'.val ∧ c.val ≤ 'Z'.val) := by
    simp only [ge_iff_le, UInt32.le_iff_toNat_le, Char.toNat_val]
    have hA : 'A'.toNat = 65 := rfl
    omega
  unfold Char.toLower
  rw [dif_neg hne]

theorem readUnsigned?_of_toLower_ne (hi : c.toLower ≠ 'i') (hn : c.toLower ≠ 'n') (u : List Char) :
    readUnsigned? (c :: u) = (readDecimal? (c :: u)).map Decimal.toNumber := by
  have hword (word : List Char) (hw : word.head? = some 'i' ∨ word.head? = some 'n') :
      (c :: u).map Char.toLower ≠ word := by
    intro hmap
    rw [← hmap, List.map_cons, List.head?_cons] at hw
    rcases hw with hw | hw
    · exact hi (Option.some.inj hw)
    · exact hn (Option.some.inj hw)
  unfold readUnsigned?
  have hinf := hword "inf".toList (.inl rfl)
  have hinfinity := hword "infinity".toList (.inl rfl)
  have hnan := hword "nan".toList (.inr rfl)
  rw [if_neg (not_or.mpr ⟨hinf, hinfinity⟩), if_neg hnan]

theorem readUnsigned?_of_isDigit (hc : isDigit c = true) (u : List Char) :
    readUnsigned? (c :: u) = (readDecimal? (c :: u)).map Decimal.toNumber := by
  refine readUnsigned?_of_toLower_ne ?_ ?_ u
  · rw [toLower_of_isDigit hc]
    rintro rfl
    cases hc
  · rw [toLower_of_isDigit hc]
    rintro rfl
    cases hc

theorem readNumber?_of_isDigit (hc : isDigit c = true) (u : List Char) :
    readNumber? (c :: u) = (readDecimal? (c :: u)).map Decimal.toNumber := by
  unfold readNumber?
  rw [splitSign_of_isDigit hc]
  simp only [readUnsigned?_of_isDigit hc, Bool.false_eq_true, if_false, Option.map_map]
  rfl

theorem not_isDigit_of_head?_point (more : List Char) :
    ∀ d, ('.' :: more).head? = some d → isDigit d = false := by
  intro d hd
  obtain rfl := Option.some.inj hd
  rfl

theorem readNumber?_whole (hne : u ≠ []) (hu : ∀ d ∈ u, isDigit d = true) :
    readNumber? u = some (Decimal.ofDigits u [] 0).toNumber := by
  obtain ⟨c, v, rfl⟩ := List.exists_cons_of_ne_nil hne
  have htake := List.takeWhile_eq_self_iff.mpr hu
  have hdrop := List.dropWhile_eq_nil_iff.mpr hu
  rw [readNumber?_of_isDigit (hu c List.mem_cons_self)]
  simp [readDecimal?, splitDigits, htake, hdrop, splitFraction, readExponent?]

theorem readNumber?_fraction {more : List Char} (hne : u ≠ []) (hu : ∀ d ∈ u, isDigit d = true)
    (hmore : ∀ d ∈ more, isDigit d = true) :
    readNumber? (u ++ '.' :: more) = some (Decimal.ofDigits u more 0).toNumber := by
  obtain ⟨c, v, rfl⟩ := List.exists_cons_of_ne_nil hne
  have hsplit := takeWhile_append_of_stop hu (not_isDigit_of_head?_point more)
  have htake := List.takeWhile_eq_self_iff.mpr hmore
  have hdrop := List.dropWhile_eq_nil_iff.mpr hmore
  rw [List.cons_append, readNumber?_of_isDigit (hu c List.mem_cons_self), ← List.cons_append]
  simp only [readDecimal?, splitDigits, hsplit, splitFraction, htake, hdrop, readExponent?]
  simp

theorem Numeral.exists_readNumber? (h : Numeral u) : ∃ x, readNumber? u = some x := by
  cases h with
  | whole hne hu => exact ⟨_, readNumber?_whole hne hu⟩
  | fraction hne hu _ hmore => exact ⟨_, readNumber?_fraction hne hu hmore⟩

theorem length_le_of_isPrefix (hu : ∀ d ∈ u, isDigit d = true) (hfront : u <+: cs) :
    u.length ≤ (cs.takeWhile isDigit).length := by
  obtain ⟨w, hw⟩ := hfront
  rw [← hw, List.takeWhile_append_of_pos hu, List.length_append]
  exact Nat.le_add_right _ _

theorem eq_takeWhile_of_isPrefix {more : List Char} (hu : ∀ d ∈ u, isDigit d = true)
    (hmore : ∀ d ∈ more, isDigit d = true) (hfront : u ++ '.' :: more <+: cs) :
    u = cs.takeWhile isDigit ∧ more <+: (splitFraction (cs.dropWhile isDigit)).1 := by
  obtain ⟨w, hw⟩ := hfront
  rw [List.append_assoc, List.cons_append] at hw
  have hsplit := takeWhile_append_of_stop hu (not_isDigit_of_head?_point (more ++ w))
  rw [hw] at hsplit
  refine ⟨hsplit.1.symm, ?_⟩
  rw [hsplit.2, splitFraction, splitDigits, List.takeWhile_append_of_pos hmore]
  exact List.prefix_append _ _

theorem isDigit_of_mem_splitFraction (cs : List Char) :
    ∀ d ∈ (splitFraction cs).1, isDigit d = true := by
  intro d hd
  unfold splitFraction at hd
  split at hd
  · exact List.mem_takeWhile_imp hd
  · cases hd

/-- The number that is cut off is a lexeme, and no longer numeral stands at the front. -/
theorem lexeme_number (hc : isDigit c = true) (cs : List Char) :
    ∃ x, (number c cs).1 = .token (.number x) ∧ Lexeme (c :: (number c cs).2) (.number x) ∧
      ∀ v, Numeral v → v <+: c :: cs → v.length ≤ (c :: (number c cs).2).length := by
  have htake : (c :: cs).takeWhile isDigit = c :: cs.takeWhile isDigit := by simp [hc]
  have hdrop : (c :: cs).dropWhile isDigit = cs.dropWhile isDigit := by simp [hc]
  have hdigits : ∀ d ∈ c :: cs.takeWhile isDigit, isDigit d = true := by
    rw [← htake]
    exact fun d hd => List.mem_takeWhile_imp hd
  have hwhole (v : List Char) (hv : ∀ d ∈ v, isDigit d = true) (hfront : v <+: c :: cs) :
      v.length ≤ (c :: cs.takeWhile isDigit).length :=
    htake ▸ length_le_of_isPrefix hv hfront
  have hfraction (ds es : List Char) (hds : ∀ d ∈ ds, isDigit d = true)
      (hes : ∀ d ∈ es, isDigit d = true) (hfront : ds ++ '.' :: es <+: c :: cs) :
      ds = c :: cs.takeWhile isDigit ∧ es <+: (splitFraction (cs.dropWhile isDigit)).1 := by
    rw [← htake, ← hdrop]
    exact eq_takeWhile_of_isPrefix hds hes hfront
  have hnumber : number c cs = (.token (.number (Decimal.ofDigits (c :: cs.takeWhile isDigit)
      (splitFraction (cs.dropWhile isDigit)).1 0).toNumber),
      if (splitFraction (cs.dropWhile isDigit)).1 = [] then cs.takeWhile isDigit
      else cs.takeWhile isDigit ++ '.' :: (splitFraction (cs.dropWhile isDigit)).1) := rfl
  have hmore := isDigit_of_mem_splitFraction (cs.dropWhile isDigit)
  rw [hnumber]
  generalize (splitFraction (cs.dropWhile isDigit)).1 = more at hfraction hmore
  by_cases hnone : more = []
  · subst hnone
    have hx := readNumber?_whole (List.cons_ne_nil c _) hdigits
    refine ⟨_, rfl, .number (.whole (List.cons_ne_nil c _) hdigits) hx, fun v hv hfront => ?_⟩
    cases hv with
    | whole _ hv => exact hwhole v hv hfront
    | fraction _ hds hne hes =>
      obtain ⟨-, hnil⟩ := hfraction _ _ hds hes hfront
      exact absurd (List.prefix_nil.mp hnil) hne
  · have hx := readNumber?_fraction (List.cons_ne_nil c _) hdigits hmore
    simp only [if_neg hnone]
    refine ⟨_, rfl, .number (.fraction (List.cons_ne_nil c _) hdigits hnone hmore) hx,
      fun v hv hfront => ?_⟩
    cases hv with
    | whole _ hv =>
      have hle := hwhole v hv hfront
      simp only [List.length_cons, List.length_append] at hle ⊢
      omega
    | fraction _ hds _ hes =>
      obtain ⟨rfl, hpre⟩ := hfraction _ _ hds hes hfront
      have hle := hpre.length_le
      simp only [List.length_cons, List.length_append]
      omega

end Numerals

end Lexical

end ModuleScript
