import Mathlib.Data.List.Forall2
import ModuleScript.Proofs.Source.Lexemes

/-!
Spellings of numbers, apart from any reader: a sign that may be missing, and then a word, or a
decimal that may have an exponent. Main statement: `readNumber?_eq_some_iff`, the texts that can be
read are the spellings, each as the number that it spells.
-/

namespace ModuleScript

namespace Numeric

open Lexical

inductive Sign : List Char → Bool → Prop
  | none : Sign [] false
  | plus : Sign ['+'] false
  | minus : Sign ['-'] true

/-- Digits before a point and behind it, at least one in all. The point may be missing when no digit
stands behind it. -/
inductive Positional : List Char → List Char → List Char → Prop
  | whole {digits : List Char} :
      digits ≠ [] → (∀ d ∈ digits, isDigit d = true) → Positional digits digits []
  | point {whole fraction : List Char} :
      (∀ d ∈ whole, isDigit d = true) → (∀ d ∈ fraction, isDigit d = true) →
        whole ≠ [] ∨ fraction ≠ [] → Positional (whole ++ '.' :: fraction) whole fraction

inductive Exponent : List Char → Int → Prop
  | none : Exponent [] 0
  | power {e : Char} {sign digits : List Char} {negative : Bool} :
      e = 'e' ∨ e = 'E' → Sign sign negative → digits ≠ [] → (∀ d ∈ digits, isDigit d = true) →
        Exponent (e :: (sign ++ digits))
          (if negative then -(digitsValue digits : Int) else digitsValue digits)

/-- The small letters of the word, each of them perhaps as a capital. -/
def InAnyCase (word u : List Char) : Prop :=
  List.Forall₂ (fun letter c => c = letter ∨ c = letter.toUpper) word u

inductive Unsigned : List Char → Float → Prop
  | infinity {u : List Char} : InAnyCase "inf".toList u ∨ InAnyCase "infinity".toList u →
      Unsigned u Decimal.infinity
  | notANumber {u : List Char} : InAnyCase "nan".toList u → Unsigned u Decimal.notANumber
  | decimal {u v whole fraction : List Char} {shift : Int} :
      Positional u whole fraction → Exponent v shift →
        Unsigned (u ++ v) (Decimal.ofDigits whole fraction shift).toNumber

inductive Spells : List Char → Float → Prop
  | mk {u v : List Char} {negative : Bool} {x : Float} :
      Sign u negative → Unsigned v x → Spells (u ++ v) (if negative then -x else x)

variable {c : Char} {cs u v whole fraction word : List Char} {negative : Bool} {shift : Int}
  {x : Float}

/-! Signs and exponents -/

theorem sign_splitSign (cs : List Char) :
    ∃ u, cs = u ++ (splitSign cs).2 ∧ Sign u (splitSign cs).1 := by
  unfold splitSign
  split
  · exact ⟨['+'], rfl, .plus⟩
  · exact ⟨['-'], rfl, .minus⟩
  · exact ⟨[], rfl, .none⟩

theorem splitSign_of_sign (hu : Sign u negative)
    (hv : ∀ c, v.head? = some c → c ≠ '+' ∧ c ≠ '-') : splitSign (u ++ v) = (negative, v) := by
  cases hu with
  | none => exact splitSign_of_head? hv
  | plus => rfl
  | minus => rfl

theorem readExponent?_eq_some_iff : readExponent? cs = some shift ↔ Exponent cs shift := by
  constructor
  · intro h
    cases cs with
    | nil =>
      cases h
      exact .none
    | cons e cs =>
      obtain ⟨u, hu, hsign⟩ := sign_splitSign cs
      have hread : readExponent? (e :: cs) =
          if (e = 'e' ∨ e = 'E') ∧ (splitSign cs).2 ≠ [] ∧ (splitSign cs).2.all isDigit then
            some (if (splitSign cs).1 then -(digitsValue (splitSign cs).2 : Int)
              else digitsValue (splitSign cs).2)
          else none := rfl
      rw [hread] at h
      generalize splitSign cs = split at h hu hsign
      obtain ⟨⟨he, hne, hdigits⟩, hshift⟩ := Option.ite_none_right_eq_some.mp h
      obtain rfl := Option.some.inj hshift
      rw [hu]
      exact .power he hsign hne (List.all_eq_true.mp hdigits)
  · intro h
    cases h with
    | none => rfl
    | @power e sign digits negative he hsign hne hdigits =>
      have hhead : ∀ c, digits.head? = some c → c ≠ '+' ∧ c ≠ '-' := fun c hc =>
        ne_sign_of_isDigit (hdigits c (List.mem_of_mem_head? hc))
      simp only [readExponent?, splitSign_of_sign hsign hhead]
      exact if_pos ⟨he, hne, List.all_eq_true.mpr hdigits⟩

theorem Exponent.head?_eq (h : Exponent v shift) (hc : v.head? = some c) : c = 'e' ∨ c = 'E' := by
  cases h with
  | none => cases hc
  | power he _ _ _ => exact Option.some.inj hc ▸ he

theorem Exponent.stop (h : Exponent v shift) : ∀ d, v.head? = some d → isDigit d = false := by
  intro d hd
  rcases h.head?_eq hd with rfl | rfl <;> rfl

/-! Decimals -/

theorem splitFraction_of_head? (h : cs.head? ≠ some '.') : splitFraction cs = ([], cs) := by
  unfold splitFraction
  split
  · exact absurd rfl h
  · rfl

theorem positional_readDecimal? {d : Decimal} (h : readDecimal? cs = some d) :
    ∃ u v whole fraction shift, cs = u ++ v ∧ Positional u whole fraction ∧ Exponent v shift ∧
      d = .ofDigits whole fraction shift := by
  have hread : readDecimal? cs =
      if cs.takeWhile isDigit = [] ∧ (splitFraction (cs.dropWhile isDigit)).1 = [] then none
      else (readExponent? (splitFraction (cs.dropWhile isDigit)).2).map
        (.ofDigits (cs.takeWhile isDigit) (splitFraction (cs.dropWhile isDigit)).1) := rfl
  rw [hread] at h
  obtain ⟨hne, hexponent⟩ := Option.ite_none_left_eq_some.mp h
  obtain ⟨shift, hshift, rfl⟩ := Option.map_eq_some_iff.mp hexponent
  have hsplit : cs = cs.takeWhile isDigit ++ cs.dropWhile isDigit :=
    List.takeWhile_append_dropWhile.symm
  have hwhole : ∀ d ∈ cs.takeWhile isDigit, isDigit d = true := fun d hd =>
    List.mem_takeWhile_imp hd
  clear hread h hexponent
  generalize cs.takeWhile isDigit = whole at hne hsplit hwhole ⊢
  generalize cs.dropWhile isDigit = rest at hne hshift hsplit ⊢
  subst hsplit
  by_cases hpoint : rest.head? = some '.'
  · obtain ⟨behind, rfl⟩ := List.head?_eq_some_iff.mp hpoint
    refine ⟨whole ++ '.' :: behind.takeWhile isDigit, behind.dropWhile isDigit, whole, _, shift,
      ?_, .point hwhole (fun d hd => List.mem_takeWhile_imp hd) ?_,
      readExponent?_eq_some_iff.mp hshift, rfl⟩
    · rw [List.append_assoc, List.cons_append, List.takeWhile_append_dropWhile]
    · exact not_and_or.mp hne
  · rw [splitFraction_of_head? hpoint] at hne hshift ⊢
    exact ⟨whole, rest, whole, [], shift, rfl, .whole (fun h => hne ⟨h, rfl⟩) hwhole,
      readExponent?_eq_some_iff.mp hshift, rfl⟩

theorem readDecimal?_of_positional (hu : Positional u whole fraction) (hv : Exponent v shift) :
    readDecimal? (u ++ v) = some (.ofDigits whole fraction shift) := by
  have hshift := readExponent?_eq_some_iff.mpr hv
  cases hu with
  | whole hne hdigits =>
    have hhead : v.head? ≠ some '.' := fun h => by rcases hv.head?_eq h with h | h <;> cases h
    have hsplit := takeWhile_append_of_stop hdigits hv.stop
    simp only [readDecimal?, splitDigits, hsplit, splitFraction_of_head? hhead, hshift]
    exact if_neg fun h => hne h.1
  | point hwhole hfraction hne =>
    rw [List.append_assoc, List.cons_append]
    have hsplit := takeWhile_append_of_stop hwhole (not_isDigit_of_head?_point (fraction ++ v))
    have hbehind := takeWhile_append_of_stop hfraction hv.stop
    simp only [readDecimal?, splitDigits, hsplit, splitFraction, hbehind, hshift]
    exact if_neg (not_and_or.mpr hne)

/-! Words -/

theorem between_iff {a b : UInt32} :
    a ≤ c.val ∧ c.val ≤ b ↔ a.toNat ≤ c.toNat ∧ c.toNat ≤ b.toNat := by
  rw [UInt32.le_iff_toNat_le, UInt32.le_iff_toNat_le]
  exact Iff.rfl

theorem isLower_iff : c.isLower = true ↔ 97 ≤ c.toNat ∧ c.toNat ≤ 122 := by
  have h : c.isLower = (decide ('a'.val ≤ c.val) && decide (c.val ≤ 'z'.val)) := rfl
  rw [h, Bool.and_eq_true, decide_eq_true_iff, decide_eq_true_iff]
  exact between_iff

theorem toNat_toLower (c : Char) :
    c.toLower.toNat = if 65 ≤ c.toNat ∧ c.toNat ≤ 90 then c.toNat + 32 else c.toNat := by
  by_cases h : 'A'.val ≤ c.val ∧ c.val ≤ 'Z'.val
  · have hc : 65 ≤ c.toNat ∧ c.toNat ≤ 90 := between_iff.mp h
    have hlower : c.toLower.toNat = (c.val + 32).toNat := congrArg Char.toNat (dif_pos h)
    have hsum : (c.val + 32).toNat = (c.toNat + 32) % 2 ^ 32 := UInt32.toNat_add _ _
    rw [if_pos hc, hlower, hsum]
    omega
  · have hc : ¬(65 ≤ c.toNat ∧ c.toNat ≤ 90) := fun hc => h (between_iff.mpr hc)
    have hlower : c.toLower = c := dif_neg h
    rw [if_neg hc, hlower]

theorem toNat_toUpper (h : c.isLower = true) : c.toUpper.toNat + 32 = c.toNat := by
  have hc := isLower_iff.mp h
  have hval : 'a'.val ≤ c.val ∧ c.val ≤ 'z'.val := between_iff.mpr hc
  have hshift : ('A'.val - 'a'.val).toNat = 2 ^ 32 - 32 := by decide
  have hupper := congrArg Char.val (show c.toUpper = _ from dif_pos hval)
  rw [← Char.toNat_val, hupper, UInt32.toNat_add, hshift, Char.toNat_val]
  omega

theorem toLower_eq_iff {letter : Char} (h : letter.isLower = true) :
    c.toLower = letter ↔ c = letter ∨ c = letter.toUpper := by
  have hletter := isLower_iff.mp h
  have hupper := toNat_toUpper h
  rw [← Char.toNat_inj, ← Char.toNat_inj, ← Char.toNat_inj, toNat_toLower]
  split <;> omega

theorem map_toLower_eq_iff (h : ∀ letter ∈ word, letter.isLower = true) :
    u.map Char.toLower = word ↔ InAnyCase word u := by
  rw [InAnyCase]
  induction word generalizing u with
  | nil => simp
  | cons letter word ih =>
    obtain ⟨hletter, hword⟩ := List.forall_mem_cons.mp h
    cases u with
    | nil => simp
    | cons c u =>
      rw [List.map_cons, List.cons_eq_cons, List.forall₂_cons, toLower_eq_iff hletter, ih hword]

theorem readUnsigned?_of_positional (hu : Positional u whole fraction) (v : List Char) :
    readUnsigned? (u ++ v) = (readDecimal? (u ++ v)).map Decimal.toNumber := by
  have hpoint (w : List Char) :
      readUnsigned? ('.' :: w) = (readDecimal? ('.' :: w)).map Decimal.toNumber :=
    readUnsigned?_of_toLower_ne (by decide) (by decide) w
  cases hu with
  | whole hne hdigits =>
    obtain ⟨c, w, rfl⟩ := List.exists_cons_of_ne_nil hne
    exact readUnsigned?_of_isDigit (hdigits c List.mem_cons_self) (w ++ v)
  | point hwhole _ _ =>
    cases whole with
    | nil => exact hpoint (fraction ++ v)
    | cons c w =>
      rw [List.append_assoc]
      exact readUnsigned?_of_isDigit (hwhole c List.mem_cons_self) _

/-! Numbers -/

theorem readUnsigned?_eq_some_iff : readUnsigned? cs = some x ↔ Unsigned cs x := by
  have hinf : cs.map Char.toLower = "inf".toList ↔ InAnyCase "inf".toList cs :=
    map_toLower_eq_iff (List.all_eq_true.mp rfl)
  have hinfinity : cs.map Char.toLower = "infinity".toList ↔ InAnyCase "infinity".toList cs :=
    map_toLower_eq_iff (List.all_eq_true.mp rfl)
  have hnan : cs.map Char.toLower = "nan".toList ↔ InAnyCase "nan".toList cs :=
    map_toLower_eq_iff (List.all_eq_true.mp rfl)
  constructor
  · intro h
    dsimp only [readUnsigned?] at h
    split at h
    · rename_i hword
      obtain rfl := Option.some.inj h
      exact .infinity (hword.imp hinf.mp hinfinity.mp)
    · split at h
      · rename_i hword
        obtain rfl := Option.some.inj h
        exact .notANumber (hnan.mp hword)
      · obtain ⟨d, hd, rfl⟩ := Option.map_eq_some_iff.mp h
        obtain ⟨u, v, whole, fraction, shift, rfl, hu, hv, rfl⟩ := positional_readDecimal? hd
        exact .decimal hu hv
  · intro h
    cases h with
    | infinity hword =>
      unfold readUnsigned?
      rw [if_pos (hword.imp hinf.mpr hinfinity.mpr)]
    | notANumber hword =>
      unfold readUnsigned?
      rw [hnan.mpr hword]
      rfl
    | decimal hu hv =>
      rw [readUnsigned?_of_positional hu, readDecimal?_of_positional hu hv, Option.map_some]

theorem Unsigned.head?_ne (h : Unsigned cs x) :
    ∀ c, cs.head? = some c → c ≠ '+' ∧ c ≠ '-' := by
  intro c hc
  obtain ⟨u, rfl⟩ := List.head?_eq_some_iff.mp hc
  have hread := readUnsigned?_eq_some_iff.mpr h
  have hne {d : Char} (hi : d.toLower ≠ 'i') (hn : d.toLower ≠ 'n')
      (hd : readDecimal? (d :: u) = none) : c ≠ d := by
    rintro rfl
    rw [readUnsigned?_of_toLower_ne hi hn, hd] at hread
    cases hread
  exact ⟨hne (by decide) (by decide) rfl, hne (by decide) (by decide) rfl⟩

theorem readNumber?_eq_some_iff : readNumber? cs = some x ↔ Spells cs x := by
  constructor
  · intro h
    obtain ⟨u, hu, hsign⟩ := sign_splitSign cs
    have hread : readNumber? cs = (readUnsigned? (splitSign cs).2).map fun x =>
        if (splitSign cs).1 then -x else x := rfl
    rw [hread] at h
    generalize splitSign cs = split at h hu hsign
    obtain ⟨y, hy, rfl⟩ := Option.map_eq_some_iff.mp h
    rw [hu]
    exact .mk hsign (readUnsigned?_eq_some_iff.mp hy)
  · intro h
    cases h with
    | mk hu hv =>
      simp only [readNumber?, splitSign_of_sign hu hv.head?_ne,
        readUnsigned?_eq_some_iff.mpr hv, Option.map_some]

example : ∀ cs ∈ [".", "+", "--1", "e5", "1e", "1 2"].map String.toList, ¬∃ x, Spells cs x := by
  have hnone : ∀ cs ∈ [".", "+", "--1", "e5", "1e", "1 2"].map String.toList,
      (readNumber? cs).isNone = true := by decide
  intro cs hcs
  simp [← readNumber?_eq_some_iff, Option.isNone_iff_eq_none.mp (hnone cs hcs)]

end Numeric

end ModuleScript
