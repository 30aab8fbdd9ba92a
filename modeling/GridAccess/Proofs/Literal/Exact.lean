import GridAccess.Literal
import Mathlib.Algebra.Ring.Parity
import Mathlib.Tactic.Ring

/-!
Literals as integers. An operation that returns an integer literal was given integer literals and
is exact, so that a fold whose results are all integers computes the integer it stands for.
-/

namespace GridAccess.Literal

def isInt : Literal → Bool
  | .int _ => true
  | .float _ => false

/-- The integer that a literal stands for. A float stands for none and counts as 0. -/
def toInt : Literal → Int
  | .int n => n.toInt
  | .float _ => 0

@[simp] theorem isInt_int (n : Int64) : (int n).isInt = true := rfl

@[simp] theorem isInt_float (x : Binary64) : (float x).isInt = false := rfl

@[simp] theorem toInt_int (n : Int64) : (int n).toInt = n.toInt := rfl

@[simp] theorem toInt_float (x : Binary64) : (float x).toInt = 0 := rfl

theorem exists_of_isInt {m : Literal} (h : m.isInt = true) : ∃ n, m = .int n := by
  cases m with
  | int n => exact ⟨n, rfl⟩
  | float x => simp at h

theorem toInt_eq_of_same {m n : Literal} (h : m.same n = true) : m.toInt = n.toInt := by
  cases m <;> cases n <;> simp_all [same]

theorem toInt_of_isZero {m : Literal} (h : m.isZero = true) : m.toInt = 0 := by
  cases m with
  | int n =>
      have hn : n = 0 := by simpa [isZero] using h
      simp [hn]
  | float x => rfl

theorem toInt_of_isOne {m : Literal} (hint : m.isInt = true) (h : m.isOne = true) :
    m.toInt = 1 := by
  obtain ⟨n, rfl⟩ := exists_of_isInt hint
  have hn : n = 1 := by simpa [isOne] using h
  simp [hn]

theorem toInt_ne_zero {m : Literal} (hint : m.isInt = true) (h : m.isZero = false) :
    m.toInt ≠ 0 := by
  obtain ⟨n, rfl⟩ := exists_of_isInt hint
  have hn : n ≠ 0 := by simpa [isZero] using h
  rwa [toInt_int, ne_eq, ← Int64.toInt_zero, Int64.toInt_inj]

theorem toInt_ne_one {m : Literal} (hint : m.isInt = true) (h : m.isOne = false) :
    m.toInt ≠ 1 := by
  obtain ⟨n, rfl⟩ := exists_of_isInt hint
  have hn : n ≠ 1 := by simpa [isOne] using h
  simpa [← Int64.toInt_inj] using hn

theorem eq_of_toInt_eq {m n : Literal} (hm : m.isInt = true) (hn : n.isInt = true)
    (h : m.toInt = n.toInt) : m = n := by
  obtain ⟨a, rfl⟩ := exists_of_isInt hm
  obtain ⟨b, rfl⟩ := exists_of_isInt hn
  exact congrArg int (Int64.toInt_inj.mp h)

theorem toInt_of_wordOf? {n : Int} {w : Int64} (h : wordOf? n = some w) : w.toInt = n := by
  unfold wordOf? at h
  split at h
  · next hrange =>
      have hw : Int64.ofInt n = w := by simpa using h
      rw [← hw, Int64.toInt_ofInt_of_le (by omega) (by omega)]
  · simp at h

theorem wordOf?_toInt (n : Int64) : wordOf? n.toInt = some n := by
  have hlow := n.le_toInt
  have hhigh := n.toInt_lt
  rw [wordOf?, if_pos (by omega), Int64.ofInt_toInt]

/-- A float operand makes the result a float, and so does an exact result that does not fit. -/
theorem combine_exact {exactly : Int → Int → Int} {rounded : Binary64 → Binary64 → Binary64}
    {m n : Literal} (h : (combine exactly rounded m n).isInt = true) :
    m.isInt = true ∧ n.isInt = true ∧
      (combine exactly rounded m n).toInt = exactly m.toInt n.toInt := by
  cases m with
  | float x => simp [combine] at h
  | int a =>
      cases n with
      | float y => simp [combine] at h
      | int b =>
          refine ⟨rfl, rfl, ?_⟩
          cases hw : wordOf? (exactly a.toInt b.toInt) with
          | none => simp [combine, hw] at h
          | some w => simp [combine, hw, toInt_of_wordOf? hw]

theorem add_exact {m n : Literal} (h : (m.add n).isInt = true) :
    m.isInt = true ∧ n.isInt = true ∧ (m.add n).toInt = m.toInt + n.toInt :=
  combine_exact h

theorem mul_exact {m n : Literal} (h : (m.mul n).isInt = true) :
    m.isInt = true ∧ n.isInt = true ∧ (m.mul n).toInt = m.toInt * n.toInt :=
  combine_exact h

theorem toInt_of_chain? {base w : Int64} {n : Nat} (h : chain? base n = some w) :
    w.toInt = base.toInt ^ n := by
  induction n generalizing w with
  | zero =>
      have hw : 1 = w := by simpa [chain?] using h
      simp [← hw]
  | succ n ih =>
      obtain ⟨v, hv, hw⟩ := Option.bind_eq_some_iff.mp h
      rw [toInt_of_wordOf? hw, ih hv, pow_succ]

/-- Among the powers of -1, 0 and 1 those with exponents 0, 1 and 2 stand for all. -/
theorem small_pow {b : Int} (hb : b.natAbs ≤ 1) (n : Nat) :
    b ^ (if n = 0 then 0 else 2 - n % 2) = b ^ n := by
  obtain rfl | rfl | rfl : b = -1 ∨ b = 0 ∨ b = 1 := by omega
  · rcases Nat.even_or_odd n with heven | hodd
    · rw [heven.neg_one_pow]
      split
      · rfl
      · rw [show 2 - n % 2 = 2 by have := Nat.even_iff.mp heven; omega]
        rfl
    · have hmod := Nat.odd_iff.mp hodd
      rw [if_neg (by omega), show 2 - n % 2 = 1 by omega, hodd.neg_one_pow]
      rfl
  · by_cases hn : n = 0
    · simp [hn]
    · rw [if_neg hn, zero_pow hn, zero_pow (by omega)]
  · simp

theorem toInt_of_intPow? {base w : Int64} {n : Nat} (h : intPow? base n = some w) :
    w.toInt = base.toInt ^ n := by
  unfold intPow? at h
  split at h
  · next hsmall => rw [toInt_of_chain? h, small_pow hsmall]
  · split at h
    · exact toInt_of_chain? h
    · simp at h

/-- A power that is an integer literal is one of integer literals with an exponent that is not
negative, and is exact. -/
theorem pow?_exact {m n r : Literal} (h : m.pow? n = some r) (hr : r.isInt = true) :
    0 ≤ n.toInt ∧ r.toInt = m.toInt ^ n.toInt.toNat := by
  -- With a float operand, and where no word holds the power, a float is the only result.
  have hfloat (power : Binary64) :
      (if power.isFinite then some (float power) else none) = some r → False := by
    intro h
    simp only [Option.ite_none_right_eq_some, Option.some.injEq] at h
    simp [← h.2] at hr
  cases m with
  | float x => exact (hfloat _ h).elim
  | int b =>
      cases n with
      | float y => exact (hfloat _ h).elim
      | int e =>
          by_cases he : 0 ≤ e.toInt ∧ e.toInt < exponentLimit
          · cases hw : intPow? b e.toInt.toNat with
            | none =>
                simp only [pow?, he, hw] at h
                exact (hfloat _ h).elim
            | some w =>
                have hrw : int w = r := by
                  simpa only [pow?, he, and_self, if_true, hw, Option.some.injEq] using h
                exact ⟨he.1, by simp [← hrw, toInt_of_intPow? hw]⟩
          · simp only [pow?, he] at h
            exact (hfloat _ h).elim

end GridAccess.Literal
