import GridAccess.Proofs.Literal.Exact
import Mathlib.Algebra.Order.Ring.Nat

/-!
When arithmetic on integer literals gives an integer literal: exactly if the result fits in a word.
A power has to fit at every step of the chain that computes it, and it does, since the powers of a
base other than -1, 0 and 1 only grow. Those of -1, 0 and 1 always fit; with an exponent from the
limit on they are rounded nevertheless.
-/

namespace GridAccess.Literal

/-! ### Words -/

/-- The integers of 64 bits with a sign. -/
def Fits (n : Int) : Prop := -0x8000000000000000 ≤ n ∧ n < 0x8000000000000000

instance (n : Int) : Decidable (Fits n) := inferInstanceAs (Decidable (_ ∧ _))

theorem fits_toInt (w : Int64) : Fits w.toInt := ⟨w.le_toInt, w.toInt_lt⟩

theorem wordOf?_eq_some_iff {n : Int} {w : Int64} : wordOf? n = some w ↔ w.toInt = n := by
  constructor
  · exact toInt_of_wordOf?
  · rintro rfl
    exact wordOf?_toInt w

theorem exists_wordOf? {n : Int} (h : Fits n) : ∃ w, wordOf? n = some w :=
  ⟨_, if_pos h⟩

theorem fits_of_natAbs_lt {n : Int} (h : n.natAbs < 0x8000000000000000) : Fits n := by
  unfold Fits
  omega

/-! ### Powers -/

theorem fits_pow_of_natAbs_le_one {b : Int} (hb : b.natAbs ≤ 1) (n : Nat) : Fits (b ^ n) := by
  refine fits_of_natAbs_lt ?_
  rw [Int.natAbs_pow]
  have hpow := pow_le_one₀ (Nat.zero_le b.natAbs) hb (n := n)
  omega

/-- A smaller power is at most half as large. -/
theorem fits_pow_of_le {b : Int} (hb : 1 < b.natAbs) {k n : Nat} (hk : k ≤ n)
    (h : Fits (b ^ n)) : Fits (b ^ k) := by
  rcases Nat.lt_or_eq_of_le hk with hlt | rfl
  · have hsize : (b ^ n).natAbs ≤ 0x8000000000000000 := by
      unfold Fits at h
      omega
    have hdouble : 2 * b.natAbs ^ k ≤ b.natAbs ^ n :=
      calc 2 * b.natAbs ^ k ≤ b.natAbs * b.natAbs ^ k := Nat.mul_le_mul_right _ hb
        _ = b.natAbs ^ (k + 1) := (pow_succ' _ _).symm
        _ ≤ b.natAbs ^ n := Nat.pow_le_pow_right (by omega) hlt
    refine fits_of_natAbs_lt ?_
    rw [Int.natAbs_pow] at hsize ⊢
    omega
  · exact h

theorem lt_of_fits_pow {b : Int} (hb : 1 < b.natAbs) {n : Nat} (h : Fits (b ^ n)) : n < 64 := by
  by_contra hn
  have hsize : (b ^ n).natAbs ≤ 0x8000000000000000 := by
    unfold Fits at h
    omega
  have hlarge : 2 ^ 64 ≤ b.natAbs ^ n :=
    calc 2 ^ 64 ≤ 2 ^ n := Nat.pow_le_pow_right (by omega) (by omega)
      _ ≤ b.natAbs ^ n := Nat.pow_le_pow_left hb n
  rw [Int.natAbs_pow] at hsize
  omega

theorem exists_chain? {base : Int64} {n : Nat} (h : ∀ k ≤ n, Fits (base.toInt ^ k)) :
    ∃ w, chain? base n = some w := by
  induction n with
  | zero => exact ⟨1, rfl⟩
  | succ n ih =>
      obtain ⟨v, hv⟩ := ih fun k hk => h k (Nat.le_succ_of_le hk)
      obtain ⟨w, hw⟩ := exists_wordOf? (h (n + 1) le_rfl)
      rw [pow_succ, ← toInt_of_chain? hv] at hw
      exact ⟨w, Option.bind_eq_some_iff.mpr ⟨v, hv, hw⟩⟩

theorem exists_intPow? {base : Int64} {n : Nat} (h : Fits (base.toInt ^ n)) :
    ∃ w, intPow? base n = some w := by
  unfold intPow?
  split
  · next hsmall => exact exists_chain? fun k _ => fits_pow_of_natAbs_le_one hsmall k
  · next hlarge =>
      have hbase : 1 < base.toInt.natAbs := by omega
      rw [if_pos (lt_of_fits_pow hbase h)]
      exact exists_chain? fun k hk => fits_pow_of_le hbase hk h

theorem intPow?_eq_some_iff {base w : Int64} {n : Nat} :
    intPow? base n = some w ↔ w.toInt = base.toInt ^ n := by
  constructor
  · exact toInt_of_intPow?
  · intro hw
    obtain ⟨v, hv⟩ := exists_intPow? (hw ▸ fits_toInt w)
    rw [hv, ← Int64.toInt_inj.mp (hw.trans (toInt_of_intPow? hv).symm)]

/-! ### Results -/

/-- An integer results exactly if the number fits, and it is that number. What results otherwise is
a float or, for lack of a finite number, nothing. -/
structure IntegerIfFits (result : Option Literal) (n : Int) : Prop where
  eq_int_iff : ∀ w, result = some (.int w) ↔ w.toInt = n
  exists_iff : (∃ w, result = some (.int w)) ↔ Fits n

theorem IntegerIfFits.of_eq_int_iff {result : Option Literal} {n : Int}
    (h : ∀ w, result = some (.int w) ↔ w.toInt = n) : IntegerIfFits result n := by
  refine ⟨h, ?_⟩
  simp only [h]
  constructor
  · rintro ⟨w, rfl⟩
    exact fits_toInt w
  · intro hfits
    obtain ⟨w, hw⟩ := exists_wordOf? hfits
    exact ⟨w, toInt_of_wordOf? hw⟩

/-- An integer where there is a word for the result, and a float elsewhere. -/
theorem IntegerIfFits.of_wordOf? {n : Int} {x : Binary64} {result : Literal}
    (h : result = (match wordOf? n with | some w => .int w | none => .float x)) :
    IntegerIfFits (some result) n := by
  refine .of_eq_int_iff fun w => ?_
  rw [h, ← wordOf?_eq_some_iff]
  cases wordOf? n <;> simp

theorem integerIfFits_combine (exactly : Int → Int → Int) (rounded : Binary64 → Binary64 → Binary64)
    (a b : Int64) :
    IntegerIfFits (some (combine exactly rounded (.int a) (.int b))) (exactly a.toInt b.toInt) :=
  .of_wordOf? rfl

/-- A power of integers that is not computed exactly is a float or not finite. -/
theorem pow?_eq_int_iff {b e w : Int64} :
    (int b).pow? (.int e) = some (.int w) ↔
      (0 ≤ e.toInt ∧ e.toInt < exponentLimit) ∧ w.toInt = b.toInt ^ e.toInt.toNat := by
  have hfloat (power : Binary64) :
      (if power.isFinite then some (float power) else none) ≠ some (.int w) := by
    split <;> simp
  rw [← intPow?_eq_some_iff]
  by_cases he : 0 ≤ e.toInt ∧ e.toInt < exponentLimit
  · simp only [pow?, he, and_self, if_true, true_and]
    cases intPow? b e.toInt.toNat with
    | some v => simp
    | none => exact iff_of_false (hfloat _) (by simp)
  · simp only [pow?, he, if_false, false_and, iff_false]
    exact hfloat _

/-- From the limit on no power of -1, 0 or 1 is an integer, although all of them fit. -/
theorem integerIfFits_pow?_iff {b e : Int64} (he : 0 ≤ e.toInt) :
    IntegerIfFits ((int b).pow? (.int e)) (b.toInt ^ e.toInt.toNat) ↔
      e.toInt < exponentLimit ∨ 1 < b.toInt.natAbs := by
  constructor
  · intro h
    by_contra hlimit
    obtain ⟨hlimit, hbase⟩ := not_or.mp hlimit
    obtain ⟨w, hw⟩ := h.exists_iff.mpr (fits_pow_of_natAbs_le_one (not_lt.mp hbase) _)
    exact hlimit (pow?_eq_int_iff.mp hw).1.2
  · intro hlimit
    refine .of_eq_int_iff fun w => ?_
    rw [pow?_eq_int_iff, and_iff_right_iff_imp]
    intro hw
    refine ⟨he, hlimit.elim id fun hbase => ?_⟩
    -- With an exponent so large no power of the base fits.
    have hlt := lt_of_fits_pow hbase (hw ▸ fits_toInt w)
    simp only [exponentLimit]
    omega

/-- Sums, products and opposites of integers are integers exactly if they fit in a word, and then
they are exact, for all words. A power that is an integer is exact too. That powers are integers
exactly if they fit holds up to a limit for the exponent, and beyond it if the base is not one of
-1, 0 and 1, whose powers are left to floating point there although they fit. -/
theorem integer_arithmetic_exact (a b : Int64) :
    IntegerIfFits (some ((int a).add (.int b))) (a.toInt + b.toInt) ∧
    IntegerIfFits (some ((int a).mul (.int b))) (a.toInt * b.toInt) ∧
    IntegerIfFits (some (int a).neg) (-a.toInt) ∧
    (∀ w, (int a).pow? (.int b) = some (.int w) → w.toInt = a.toInt ^ b.toInt.toNat) ∧
    (0 ≤ b.toInt →
      (IntegerIfFits ((int a).pow? (.int b)) (a.toInt ^ b.toInt.toNat) ↔
        b.toInt < exponentLimit ∨ 1 < a.toInt.natAbs)) :=
  ⟨integerIfFits_combine _ _ a b, integerIfFits_combine _ _ a b, .of_wordOf? rfl,
    fun _ hw => (pow?_eq_int_iff.mp hw).2, integerIfFits_pow?_iff⟩

/-- The last power of -2 that fits, the first power of 2 that does not, the power of zero that is
one, and a power of -1 whose exponent is beyond the limit. -/
theorem integer_arithmetic_exact_extremes :
    (int (-2)).pow? (.int 63) = some (.int Int64.minValue) ∧
    (¬ ∃ w, (int 2).pow? (.int 63) = some (.int w)) ∧
    (∀ w, (int 0).pow? (.int 0) = some (.int w) ↔ w.toInt = 1) ∧
    ¬ IntegerIfFits ((int (-1)).pow? (.int 0x20000000000001))
      ((-1 : Int64).toInt ^ (0x20000000000001 : Int64).toInt.toNat) := by
  have hpow {a b : Int64} (hb : 0 ≤ b.toInt) := (integer_arithmetic_exact a b).2.2.2.2 hb
  refine ⟨?_, ?_, ?_, ?_⟩
  · have hfits := (@hpow (-2) 63 (by decide)).mpr (.inl (by decide))
    exact (hfits.eq_int_iff _).mpr (by decide)
  · have hfits := (@hpow 2 63 (by decide)).mpr (.inl (by decide))
    rw [hfits.exists_iff]
    decide
  · exact ((@hpow 0 0 (by decide)).mpr (.inl (by decide))).eq_int_iff
  · rw [hpow (by decide)]
    decide

/-- One to a power is one, but with an exponent of more than 32 bits it is no integer. -/
theorem one_pow_exponentLimit_rounded :
    Fits (1 ^ 0x100000000) ∧ ∀ w, (int 1).pow? (.int 0x100000000) ≠ some (.int w) := by
  constructor
  · rw [one_pow]
    decide
  · intro w hw
    exact absurd (pow?_eq_int_iff.mp hw).1.2 (by decide)

end GridAccess.Literal
