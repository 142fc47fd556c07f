import Mathlib
import ModuleScript.Number.Display

/-!
Equality of numbers. Main statements: `beq_iff`, numbers that compare equal are one double, other
than not-a-number, or zeros of whatever sign, and `numberText_eq_of_beq`, they are written the same
when neither is a negative zero.
-/

namespace ModuleScript

open Float.Model Float.Model.UnpackedFloat

theorem compare_eq_iff {x y : UnpackedFloat} :
    x.compare y = some .eq ↔
      x = y ∧ x ≠ .notANumber ∨ (∃ s, x = .zero s) ∧ ∃ s, y = .zero s := by
  cases x with
  | notANumber => simp [UnpackedFloat.compare]
  | infinity s =>
    cases y with
    | infinity t => cases s <;> cases t <;> simp [UnpackedFloat.compare, compare]
    | _ => cases s <;> simp [UnpackedFloat.compare]
  | zero s =>
    cases y with
    | infinity t => cases t <;> simp [UnpackedFloat.compare]
    | finite t m e hm => cases t <;> simp [UnpackedFloat.compare]
    | _ => simp [UnpackedFloat.compare]
  | finite s m e hm =>
    cases y with
    | infinity t => cases t <;> simp [UnpackedFloat.compare]
    | finite t n d hn =>
      have hthen : (compare e d).then (compare m n) = .eq ↔ m = n ∧ e = d := by
        rw [Ordering.then_eq_eq, Std.LawfulEqOrd.compare_eq_iff_eq,
          Std.LawfulEqOrd.compare_eq_iff_eq]
        exact and_comm
      cases s <;> cases t <;> simp [UnpackedFloat.compare, hthen]
    | zero t => cases s <;> simp [UnpackedFloat.compare]
    | notANumber => simp [UnpackedFloat.compare]

section Bits

variable {b : BitVec Format.binary64.numBits}

theorem packComponents_eq {exponent : BitVec Format.binary64.exponentBits}
    {mantissa : BitVec Format.binary64.mantissaBitsWithoutImplicit}
    (hexponent : exponent = unpackExponent b) (hmantissa : mantissa = unpackMantissa b) :
    packComponents Format.binary64 (Sign.ofBitVec (unpackSign b)) exponent mantissa = b := by
  have hsign (s : BitVec 1) : (Sign.ofBitVec s).toBitVec = s := by
    revert s
    decide
  rw [hexponent, hmantissa, packComponents, hsign, unpackSign, unpackExponent, unpackMantissa]
  simp only [BitVec.extractLsb]
  ext i hi
  grind

theorem pack_subnormal {m : BitVec 52} (s : Sign) (hm : 0 < m.toNat) :
    UnpackedFloat.pack Format.binary64 (.finite s m.toNat (-1074) hm) =
      packComponents Format.binary64 s 0#11 m := by
  have hlog : m.toNat.log2 + 1 ≠ Format.binary64.mantissaBits := by
    have hlt : m.toNat.log2 < 52 := (Nat.log2_lt (Nat.ne_of_gt hm)).mpr m.isLt
    simp only [Format.mantissaBits]
    omega
  have hbiased : (-1074 + (Format.binary64.exponentBias : Int) + (52 : Nat)).toNat = 1 := by decide
  rw [UnpackedFloat.pack]
  simp only [hbiased]
  rw [if_neg (by decide), if_neg hlog, BitVec.ofNat_toNat, BitVec.setWidth_eq]

theorem pack_normal {m : BitVec 52} {e : BitVec 11} (s : Sign) (he : e ≠ -1#11)
    (hm : 0 < (1#1 ++ m).toNat) :
    UnpackedFloat.pack Format.binary64 (.finite s (1#1 ++ m).toNat ((e.toNat : Int) - 1075) hm) =
      packComponents Format.binary64 s e m := by
  -- the leading bit stands for itself and is not kept
  have hleading : (1#1 ++ m).toNat = 2 ^ 52 + m.toNat := by
    rw [BitVec.toNat_append, ← Nat.shiftLeft_add_eq_or_of_lt m.isLt]
    rfl
  have hfraction := m.isLt
  have hlog : (1#1 ++ m).toNat.log2 + 1 = Format.binary64.mantissaBits := by
    have h52 : (1#1 ++ m).toNat.log2 = 52 := (Nat.log2_eq_iff (Nat.ne_of_gt hm)).mpr (by omega)
    rw [h52]
    rfl
  have hbiased :
      ((e.toNat : Int) - 1075 + (Format.binary64.exponentBias : Int) + (52 : Nat)).toNat =
        e.toNat := by
    have hbias : (Format.binary64.exponentBias : Int) = 1023 := rfl
    omega
  have hmax : e.toNat + 1 < 2 ^ 11 := by
    have hne : e.toNat ≠ 2047 := fun h => he (BitVec.eq_of_toNat_eq h)
    have hlt := e.isLt
    omega
  have hrest : BitVec.ofNat 52 (1#1 ++ m).toNat = m := by
    apply BitVec.eq_of_toNat_eq
    rw [BitVec.toNat_ofNat, hleading]
    omega
  rw [UnpackedFloat.pack]
  simp only [hbiased]
  rw [if_neg (Nat.not_le_of_lt hmax), if_pos hlog, hrest, BitVec.ofNat_toNat, BitVec.setWidth_eq]

/-- No bits are lost in taking a double apart. -/
theorem pack_unpack (hb : Format.binary64.Valid b) :
    UnpackedFloat.pack Format.binary64 (UnpackedFloat.unpack Format.binary64 b) = b := by
  fun_cases UnpackedFloat.unpack with
  | case1 m e signBit s he hm => exact packComponents_eq he.symm hm.symm
  | case2 m e he hm => exact (hb.eq_packedNaN he hm).symm
  | case3 m e signBit s he hzero hm => exact packComponents_eq hzero.symm hm.symm
  | case4 m e exponent signBit s he hzero hm =>
    have hexponent : exponent + 1 = -1074 := by
      simp only [exponent, hzero]
      rfl
    simp only [hexponent]
    exact (pack_subnormal s _).trans (packComponents_eq hzero.symm rfl)
  | case5 m e exponent signBit s he hzero =>
    exact (pack_normal s he _).trans (packComponents_eq rfl rfl)

end Bits

variable {x y : Float}

theorem eq_of_unpack_eq (h : x.toModel.unpack = y.toModel.unpack) : x = y := by
  have hbits (m : Float.Model) :
      UnpackedFloat.pack Format.binary64 m.unpack = m.toBits.toBitVec :=
    pack_unpack m.valid
  have hsame : x.toModel.toBits.toBitVec = y.toModel.toBits.toBitVec := by
    rw [← hbits, ← hbits, h]
  obtain ⟨⟨bits, hvalid⟩⟩ := x
  obtain ⟨⟨bits', hvalid'⟩⟩ := y
  obtain rfl : bits = bits' := UInt64.toBitVec_inj.mp hsame
  rfl

theorem beq_iff :
    (x == y) = true ↔ x = y ∧ x.isNaN = false ∨
      (∃ s, x.toModel.unpack = .zero s) ∧ ∃ s, y.toModel.unpack = .zero s := by
  have hnan : x.toModel.unpack ≠ .notANumber ↔ x.isNaN = false := by
    rw [Float.isNaN, Float.Model.isNaN]
    cases x.toModel.unpack <;> simp [UnpackedFloat.isNaN]
  have hsame : x.toModel.unpack = y.toModel.unpack ↔ x = y :=
    ⟨eq_of_unpack_eq, fun h => h ▸ rfl⟩
  have hbeq : (x == y) = (x.toModel.unpack.compare y.toModel.unpack == some .eq) := rfl
  rw [← hnan, ← hsame, ← compare_eq_iff, hbeq, beq_iff_eq]

theorem beq_symm (h : (x == y) = true) : (y == x) = true := by
  rcases beq_iff.mp h with ⟨rfl, -⟩ | ⟨hx, hy⟩
  · exact h
  · exact beq_iff.mpr (.inr ⟨hy, hx⟩)

theorem beq_self_of_not_nan (h : x.isNaN = false) : (x == x) = true := beq_iff.mpr (.inl ⟨rfl, h⟩)

theorem eq_of_unpack_zero {s : Sign} (h : x.toModel.unpack = .zero s) : x = 0.0 ∨ x = -0.0 := by
  cases s with
  | negative => exact .inr (eq_of_unpack_eq h)
  | positive => exact .inl (eq_of_unpack_eq h)

theorem eq_of_beq (h : (x == y) = true) (hx : x ≠ -0.0) (hy : y ≠ -0.0) : x = y := by
  rcases beq_iff.mp h with ⟨hxy, -⟩ | ⟨⟨s, hxs⟩, t, hyt⟩
  · exact hxy
  · have hx0 := (eq_of_unpack_zero hxs).resolve_right hx
    have hy0 := (eq_of_unpack_zero hyt).resolve_right hy
    rw [hx0, hy0]

theorem numberText_eq_of_beq (h : (x == y) = true) (hx : x ≠ -0.0) (hy : y ≠ -0.0) :
    numberText x = numberText y := by
  rw [eq_of_beq h hx hy]

end ModuleScript
