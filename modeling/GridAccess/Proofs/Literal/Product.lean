import GridAccess.Proofs.Literal.Congruence
import GridAccess.Proofs.Literal.Exact
import Mathlib.Algebra.Order.Ring.Nat
import Mathlib.Tactic.Positivity

/-!
Products of integers other than zero are not zero, also when they do not fit the word and are
rounded. The numbers that stand for integers have a full fraction and no small exponent, and the
machine's product of two of them is such a number again or infinite.
-/

namespace GridAccess

open Float.Model (UnpackedFloat Format totalExponent)
open Float.Model.UnpackedFloat (Accuracy ExtendedMantissa Sign roundWithAccuracy
  shiftToTargetExponent)

namespace Binary64

/-- At least 1 in size: infinite, or with all bits of the fraction and so large an exponent. -/
inductive Large : UnpackedFloat → Prop
  | infinity (s : Sign) : Large (.infinity s)
  | finite (s : Sign) {m : Nat} {e : Int} (h : 0 < m) : m.log2 = 52 → -52 ≤ e →
      Large (.finite s m e h)

/-! ### Rounding -/

theorem mantissa_shiftRight (em : ExtendedMantissa) (n : Nat) :
    (em >>> n).mantissa = em.mantissa / 2 ^ n := by
  induction n with
  | zero => exact (Nat.div_one _).symm
  | succ n ih =>
      show (em >>> n).mantissa / 2 = _
      rw [ih, Nat.div_div_eq_div_mul, pow_succ]

theorem le_roundedMantissa (em : ExtendedMantissa) : em.mantissa ≤ em.roundedMantissa := by
  obtain ⟨m, roundBit, stickyBit⟩ := em
  cases roundBit <;> cases stickyBit <;>
    simp [ExtendedMantissa.roundedMantissa, ExtendedMantissa.accuracy, Accuracy.roundToNearestEven]

theorem targetExponent_binary64 (exponent : Int) :
    Format.binary64.targetExponent exponent = max (exponent - 53) (-1074) := rfl

/-- A mantissa that is long enough is cut down to 53 bits. -/
theorem shiftToTargetExponent_of_le {m : Nat} {e : Int} (hm : 52 ≤ m.log2) (he : 0 ≤ m.log2 + e) :
    ∃ em : ExtendedMantissa, shiftToTargetExponent .binary64 m e .exact = (em, m.log2 + e - 52) ∧
      em.mantissa.log2 = 52 := by
  have htarget : Format.binary64.targetExponent (totalExponent m e) = m.log2 + e - 52 := by
    rw [targetExponent_binary64, totalExponent]
    omega
  have hshift : (m.log2 + e - 52 - e).toNat = m.log2 - 52 := by omega
  have hne : m ≠ 0 := by
    rintro rfl
    simp at hm
  refine ⟨ExtendedMantissa.mk m false false >>> (m.log2 - 52), ?_, ?_⟩
  · rw [shiftToTargetExponent, htarget]
    simp only [UnpackedFloat.shiftToExponent, hshift, ExtendedMantissa.ofMantissaAndAccuracy]
    congr 1
    omega
  · have hlow : 2 ^ m.log2 ≤ m := Nat.log2_self_le hne
    have hhigh : m < 2 ^ (m.log2 + 1) := Nat.lt_log2_self
    have hsplit : m.log2 = 52 + (m.log2 - 52) := by omega
    have hdiv : 2 ^ 52 ≤ m / 2 ^ (m.log2 - 52) := by
      rw [Nat.le_div_iff_mul_le (by positivity), ← pow_add, ← hsplit]
      exact hlow
    have hdivne : m / 2 ^ (m.log2 - 52) ≠ 0 := by omega
    rw [mantissa_shiftRight, Nat.log2_eq_iff hdivne]
    refine ⟨hdiv, ?_⟩
    rw [Nat.div_lt_iff_lt_mul (by positivity), ← pow_add]
    rwa [show 52 + 1 + (m.log2 - 52) = m.log2 + 1 by omega]

theorem large_roundWithAccuracy (s : Sign) {m : Nat} {e : Int} (hm : 52 ≤ m.log2)
    (he : 0 ≤ m.log2 + e) : Large (roundWithAccuracy .binary64 s m e .exact) := by
  obtain ⟨em, hshift, hlog⟩ := shiftToTargetExponent_of_le hm he
  -- The fraction may be rounded up to the next power of two, and is cut once more.
  have hrounded : 52 ≤ em.roundedMantissa.log2 := by
    have hne : em.mantissa ≠ 0 := by
      intro hzero
      simp [hzero] at hlog
    have hpow := Nat.log2_self_le hne
    have hle := le_roundedMantissa em
    rw [Nat.le_log2 (by omega), ← hlog]
    omega
  obtain ⟨em', hshift', hlog'⟩ := shiftToTargetExponent_of_le (e := m.log2 + e - 52) hrounded
    (by omega)
  have hne : em'.mantissa ≠ 0 := by
    intro hzero
    simp [hzero] at hlog'
  unfold roundWithAccuracy
  rw [hshift]
  dsimp only
  rw [hshift']
  dsimp only
  rw [dif_neg hne]
  exact .finite s _ hlog' (by omega)

/-! ### Numbers for integers -/

theorem log2_shiftLeft {m : Nat} (hm : m ≠ 0) (k : Nat) : (m <<< k).log2 = m.log2 + k := by
  induction k with
  | zero => rfl
  | succ k ih =>
      have hne : m <<< k ≠ 0 := by
        rw [Nat.shiftLeft_eq]
        positivity
      rw [Nat.shiftLeft_succ, Nat.log2_two_mul hne, ih, Nat.add_assoc]

theorem large_round (s : Sign) {m : Nat} (hm : m ≠ 0) :
    Large (UnpackedFloat.round .binary64 s m 0) := by
  have htarget : Format.binary64.targetExponent (totalExponent m 0) = m.log2 - 52 := by
    rw [targetExponent_binary64, totalExponent]
    omega
  have hshift : ((0 : Int) - (m.log2 - 52)).toNat = 52 - m.log2 := by omega
  have hlog := log2_shiftLeft hm (52 - m.log2)
  unfold UnpackedFloat.round UnpackedFloat.decreaseExponent
  simp only [htarget, hshift]
  exact large_roundWithAccuracy s (by omega) (by omega)

theorem large_ofInt {n : Int} (hn : n ≠ 0) : Large (UnpackedFloat.ofInt .binary64 n) := by
  unfold UnpackedFloat.ofInt UnpackedFloat.normalize
  split
  · next h =>
      have hneg := Int.compare_eq_lt.mp h
      exact large_round _ (by omega)
  · next h => exact (hn (Int.compare_eq_eq.mp h)).elim
  · next h =>
      have hpos := Int.compare_eq_gt.mp h
      exact large_round _ (by omega)

/-! ### Words -/

theorem large_packedInfinity (s : Sign) :
    Large (UnpackedFloat.unpack .binary64 (UnpackedFloat.packedInfinity .binary64 s)) := by
  unfold UnpackedFloat.unpack UnpackedFloat.packedInfinity
  simp only [UnpackedFloat.unpackExponent_packComponents,
    UnpackedFloat.unpackMantissa_packComponents, ↓reduceIte]
  exact .infinity _

theorem log2_one_append (m : BitVec 52) : (1#1 ++ m).toNat.log2 = 52 := by
  have hm := m.isLt
  have happend : (1#1 ++ m).toNat = 2 ^ 52 + m.toNat := by
    rw [BitVec.toNat_append, ← Nat.shiftLeft_add_eq_or_of_lt hm]
    rfl
  rw [happend, Nat.log2_eq_iff (by omega)]
  omega

/-- A word with neither the smallest nor the largest exponent. -/
theorem large_unpack {word : BitVec Format.binary64.numBits} {exponent : BitVec 11}
    (hexponent : UnpackedFloat.unpackExponent word = exponent) (hlow : 1023 ≤ exponent.toNat)
    (hhigh : exponent.toNat < 2047) : Large (UnpackedFloat.unpack .binary64 word) := by
  have hones : exponent ≠ -1#11 := by
    rintro rfl
    simp at hhigh
  have hzero : exponent ≠ 0#11 := by
    rintro rfl
    simp at hlow
  have hbias : Format.binary64.exponentBias = 1023 := rfl
  unfold UnpackedFloat.unpack
  rw [hexponent]
  dsimp only
  rw [if_neg hones, if_neg hzero]
  exact .finite _ _ (log2_one_append _) (by omega)

theorem Large.unpack_pack {u : UnpackedFloat} (h : Large u) :
    Large (UnpackedFloat.unpack .binary64 (UnpackedFloat.pack .binary64 u)) := by
  cases h with
  | infinity s => exact large_packedInfinity s
  | @finite s m e hpos hlog he =>
      unfold UnpackedFloat.pack
      dsimp only
      split
      · exact large_packedInfinity s
      · next hexponent =>
          have hbias : Format.binary64.exponentBias = 1023 := rfl
          have hmantissa : m.log2 + 1 = Format.binary64.mantissaBits := by rw [hlog]; rfl
          rw [if_pos hmantissa]
          simp only [hbias] at hexponent ⊢
          have hexponent : (e + (1023 : Nat) + (52 : Nat)).toNat + 1 < 2 ^ 11 := by omega
          have htoNat : (BitVec.ofNat 11 (e + (1023 : Nat) + (52 : Nat)).toNat).toNat =
              (e + (1023 : Nat) + (52 : Nat)).toNat := by
            rw [BitVec.toNat_ofNat, Nat.mod_eq_of_lt (by omega)]
          exact large_unpack UnpackedFloat.unpackExponent_packComponents (by omega) (by omega)

theorem Large.mul {u v : UnpackedFloat} (hu : Large u) (hv : Large v) :
    Large (UnpackedFloat.mul .binary64 u v) := by
  cases hu with
  | infinity s => cases hv <;> exact .infinity _
  | @finite s m e hpos hlog he =>
      cases hv with
      | infinity t => exact .infinity _
      | @finite t n e' hpos' hlog' he' =>
          have hm := Nat.log2_self_le (Nat.ne_of_gt hpos)
          have hn := Nat.log2_self_le (Nat.ne_of_gt hpos')
          have hprod : 104 ≤ (m * n).log2 := by
            rw [Nat.le_log2 (Nat.ne_of_gt (Nat.mul_pos hpos hpos'))]
            rw [hlog] at hm
            rw [hlog'] at hn
            calc 2 ^ 104 = 2 ^ 52 * 2 ^ 52 := pow_add 2 52 52
              _ ≤ m * n := Nat.mul_le_mul hm hn
          exact large_roundWithAccuracy _ (by omega) (by omega)

/-- Words are unpacked, packed and unpacked again before the machine computes with them. -/
theorem Large.parts_ofFloat {u : UnpackedFloat} (h : Large u) :
    Large (ofFloat (.ofModel (.pack u))).parts :=
  h.unpack_pack.unpack_pack

theorem large_parts_ofInt64 {n : Int64} (hn : n ≠ 0) : Large (ofInt64 n).parts := by
  have hne : n.toInt ≠ 0 := by simpa [← Int64.toInt_inj] using hn
  exact (large_ofInt hne).parts_ofFloat

theorem isZero_mul {x y : Binary64} (hx : Large x.parts) (hy : Large y.parts) :
    (x.mul y).isZero = false := by
  have hlarge : Large (x.mul y).parts := (hx.mul hy).parts_ofFloat
  refine decide_eq_false fun hzero => ?_
  obtain ⟨s, hs⟩ := parts_of_magnitude_eq_zero hzero
  rw [hs] at hlarge
  cases hlarge

end Binary64

/-- The product of two integers other than zero is not zero, rounded or not. -/
theorem Literal.isZero_mul_int {m n : Int64} (hm : m ≠ 0) (hn : n ≠ 0) :
    ((int m).mul (.int n)).isZero = false := by
  have hm' : m.toInt ≠ 0 := by simpa [← Int64.toInt_inj] using hm
  have hn' : n.toInt ≠ 0 := by simpa [← Int64.toInt_inj] using hn
  cases hfits : wordOf? (m.toInt * n.toInt) with
  | some k =>
      have hint : ((int m).mul (.int n)).isInt = true := by simp [mul, combine, hfits]
      obtain ⟨-, -, hexact⟩ := mul_exact hint
      rw [Bool.eq_false_iff]
      intro hzero
      exact mul_ne_zero hm' hn' (hexact.symm.trans (toInt_of_isZero hzero))
  | none =>
      have hfloat : (int m).mul (.int n) = .float ((Binary64.ofInt64 m).mul (.ofInt64 n)) := by
        simp only [mul, combine, hfits, toBinary64]
      rw [hfloat]
      exact Binary64.isZero_mul (Binary64.large_parts_ofInt64 hm) (Binary64.large_parts_ofInt64 hn)

end GridAccess
