import GridAccess.Proofs.Expr.Equality

/-!
Arithmetic does not tell equal literals apart. Equal numbers that are not one word are zeros or
NaNs. The machine sees only one NaN, and what it makes of the two zeros is equal again, except for
the sign of an infinity in a power of zero, which is not a finite result.
-/

namespace GridAccess

open Float.Model (UnpackedFloat Format)

namespace Binary64

/-- The number as the operations of the machine take it apart. -/
def parts (x : Binary64) : UnpackedFloat := x.toFloat.toModel.unpack

/-- Equal up to the sign of a zero. -/
inductive SameParts : UnpackedFloat → UnpackedFloat → Prop
  | refl (u : UnpackedFloat) : SameParts u u
  | zeros (s t : UnpackedFloat.Sign) : SameParts (.zero s) (.zero t)

/-! ### Words and their parts -/

theorem eq_zero_of_magnitude_eq_zero {x : Binary64} (h : x.magnitude = 0) :
    x = ⟨0⟩ ∨ x = ⟨0x8000000000000000⟩ := by
  have hlt := x.bits.toNat_lt
  have hbits : x.bits.toNat = 0 ∨ x.bits.toNat = 0x8000000000000000 := by
    simp only [magnitude, signBit] at h
    omega
  cases x
  rcases hbits with hbits | hbits
  · left
    congr 1
    exact UInt64.toNat_inj.mp hbits
  · right
    congr 1
    exact UInt64.toNat_inj.mp hbits

theorem parts_of_magnitude_eq_zero {x : Binary64} (h : x.magnitude = 0) :
    ∃ s, x.parts = .zero s := by
  rcases eq_zero_of_magnitude_eq_zero h with rfl | rfl
  · exact ⟨.positive, rfl⟩
  · exact ⟨.negative, rfl⟩

theorem unpack_of_isNaN {x : Binary64} (h : x.isNaN = true) :
    UnpackedFloat.unpack Format.binary64 x.bits.toBitVec = .notANumber := by
  have hlt := x.bits.toNat_lt
  have h : infinity < x.bits.toNat % signBit := of_decide_eq_true h
  simp only [infinity, signBit] at h
  have hexponent :
      @UnpackedFloat.unpackExponent Format.binary64 x.bits.toBitVec = -1#_ := by
    apply BitVec.eq_of_toNat_eq
    simp [UnpackedFloat.unpackExponent, Nat.shiftRight_eq_div_pow]
    omega
  have hmantissa :
      @UnpackedFloat.unpackMantissa Format.binary64 x.bits.toBitVec ≠ 0#_ := by
    intro hzero
    have htoNat := congrArg BitVec.toNat hzero
    simp [UnpackedFloat.unpackMantissa, Nat.shiftRight_eq_div_pow] at htoNat
    omega
  exact (if_pos hexponent).trans (if_neg hmantissa)

theorem toFloat_of_isNaN {x y : Binary64} (hx : x.isNaN = true) (hy : y.isNaN = true) :
    x.toFloat = y.toFloat := by
  show Float.ofModel (.pack (UnpackedFloat.unpack Format.binary64 x.bits.toBitVec)) =
    Float.ofModel (.pack (UnpackedFloat.unpack Format.binary64 y.bits.toBitVec))
  rw [unpack_of_isNaN hx, unpack_of_isNaN hy]

theorem sameParts_of_same {x y : Binary64} (h : x.same y = true) : SameParts x.parts y.parts := by
  rcases same_iff.mp h with ⟨hx, hy⟩ | ⟨hx, hy⟩ | rfl
  · rw [parts, parts, toFloat_of_isNaN hx hy]
    exact .refl _
  · obtain ⟨s, hs⟩ := parts_of_magnitude_eq_zero hx
    obtain ⟨t, ht⟩ := parts_of_magnitude_eq_zero hy
    rw [hs, ht]
    exact .zeros s t
  · exact .refl _

theorem same_pack {u v : UnpackedFloat} (h : SameParts u v) :
    (ofFloat (.ofModel (.pack u))).same (ofFloat (.ofModel (.pack v))) = true := by
  cases h with
  | refl => exact same_refl _
  | zeros s t => cases s <;> cases t <;> rfl

/-! ### Operations -/

theorem SameParts.add {u u' v v' : UnpackedFloat} (hu : SameParts u u') (hv : SameParts v v') :
    SameParts (UnpackedFloat.add Format.binary64 u v)
      (UnpackedFloat.add Format.binary64 u' v') := by
  have hzero (s t : UnpackedFloat.Sign) :
      ∃ r, UnpackedFloat.add Format.binary64 (.zero s) (.zero t) = .zero r := by
    cases s <;> cases t <;> exact ⟨_, rfl⟩
  have hzeros (s t s' t' : UnpackedFloat.Sign) :
      SameParts (UnpackedFloat.add Format.binary64 (.zero s) (.zero t))
        (UnpackedFloat.add Format.binary64 (.zero s') (.zero t')) := by
    obtain ⟨r, hr⟩ := hzero s t
    obtain ⟨r', hr'⟩ := hzero s' t'
    rw [hr, hr']
    exact .zeros r r'
  cases hu with
  | refl =>
      cases hv with
      | refl => exact .refl _
      | zeros t t' =>
          cases u with
          | zero s => exact hzeros s t s t'
          | _ => exact .refl _
  | zeros s s' =>
      cases hv with
      | refl =>
          cases v with
          | zero t => exact hzeros s t s' t
          | _ => exact .refl _
      | zeros t t' => exact hzeros s t s' t'

theorem SameParts.mul {u u' v v' : UnpackedFloat} (hu : SameParts u u') (hv : SameParts v v') :
    SameParts (UnpackedFloat.mul Format.binary64 u v)
      (UnpackedFloat.mul Format.binary64 u' v') := by
  cases hu with
  | refl =>
      cases hv with
      | refl => exact .refl _
      | zeros t t' =>
          cases u with
          | zero s => exact .zeros _ _
          | finite => exact .zeros _ _
          | _ => exact .refl _
  | zeros s s' =>
      cases hv with
      | refl =>
          cases v with
          | zero t => exact .zeros _ _
          | finite => exact .zeros _ _
          | _ => exact .refl _
      | zeros t t' => exact .zeros _ _

theorem add_congr {x x' y y' : Binary64} (hx : x.same x' = true) (hy : y.same y' = true) :
    (x.add y).same (x'.add y') = true :=
  same_pack ((sameParts_of_same hx).add (sameParts_of_same hy))

theorem mul_congr {x x' y y' : Binary64} (hx : x.same x' = true) (hy : y.same y' = true) :
    (x.mul y).same (x'.mul y') = true :=
  same_pack ((sameParts_of_same hx).mul (sameParts_of_same hy))

theorem isZero_of_isNaN {x : Binary64} (h : x.isNaN = true) : x.isZero = false := by
  have h : infinity < x.magnitude := of_decide_eq_true h
  apply decide_eq_false
  omega

theorem isZero_congr {x y : Binary64} (h : x.same y = true) : x.isZero = y.isZero := by
  rcases same_iff.mp h with ⟨hx, hy⟩ | ⟨hx, hy⟩ | rfl
  · rw [isZero_of_isNaN hx, isZero_of_isNaN hy]
  · rw [isZero, isZero, hx, hy]
  · rfl

theorem isNaN_congr {x y : Binary64} (h : x.same y = true) : x.isNaN = y.isNaN := by
  rcases same_iff.mp h with ⟨hx, hy⟩ | ⟨hx, hy⟩ | rfl
  · rw [hx, hy]
  · rw [not_isNaN_of_magnitude_eq_zero hx, not_isNaN_of_magnitude_eq_zero hy]
  · rfl

/-- Only zeros and NaNs are equal to other words. -/
theorem eq_of_same {x y : Binary64} (h : x.same y = true) (hNaN : x.isNaN = false)
    (hzero : x.isZero = false) : x = y := by
  rcases same_iff.mp h with ⟨hx, -⟩ | ⟨hx, -⟩ | hxy
  · simp [hx] at hNaN
  · exact absurd hx (of_decide_eq_false hzero)
  · exact hxy

theorem isOne_of_same {x y : Binary64} (h : x.same y = true) (hx : x.isOne = true) :
    y.isOne = true := by
  have hone : x = ⟨0x3ff0000000000000⟩ := by
    cases x
    congr 1
    exact of_decide_eq_true hx
  subst hone
  rw [← eq_of_same h (by decide) (by decide)]
  exact hx

theorem isOne_congr {x y : Binary64} (h : x.same y = true) : x.isOne = y.isOne :=
  Bool.eq_iff_iff.mpr ⟨isOne_of_same h, isOne_of_same (same_symm h)⟩

/-! ### Powers -/

theorem same_withMagnitude_zero (x y : Binary64) :
    (x.withMagnitude 0).same (y.withMagnitude 0) = true := by
  rw [withMagnitude, withMagnitude]
  split <;> split <;> rfl

theorem not_isFinite_withMagnitude {x : Binary64} {m : UInt64}
    (h : m = 0x7ff8000000000000 ∨ m = 0x7ff0000000000000) :
    (x.withMagnitude m).isFinite = false := by
  rw [withMagnitude]
  rcases h with rfl | rfl
  · split <;> rfl
  · split <;> rfl

theorem zeroPower_cases (y : Binary64) :
    y.zeroPower = 0 ∨ y.zeroPower = 0x7ff8000000000000 ∨ y.zeroPower = 0x7ff0000000000000 := by
  unfold zeroPower
  split
  · exact .inr (.inl rfl)
  · split
    · exact .inr (.inr rfl)
    · exact .inl rfl

/-- Equal, or none of them a finite number. -/
def Indistinct (x y : Binary64) : Prop :=
  x.same y = true ∨ (x.isFinite = false ∧ y.isFinite = false)

theorem pow_congr {x x' y y' : Binary64} (hx : x.same x' = true) (hy : y.same y' = true) :
    Indistinct (x.pow y) (x'.pow y') := by
  rw [pow, pow, ← isZero_congr hx, ← isZero_congr hy]
  by_cases hyzero : y.isZero = true
  · rw [if_pos hyzero, if_pos hyzero]
    exact .inl (same_refl _)
  · -- Equal exponents other than the zeros are one exponent for the machine.
    have hexponent : y.toFloat = y'.toFloat ∧ y.zeroPower = y'.zeroPower := by
      by_cases hyNaN : y.isNaN = true
      · have hyNaN' : y'.isNaN = true := by rw [← isNaN_congr hy, hyNaN]
        refine ⟨toFloat_of_isNaN hyNaN hyNaN', ?_⟩
        rw [zeroPower, zeroPower, if_pos hyNaN, if_pos hyNaN']
      · have hyy : y = y' := eq_of_same hy (by simpa using hyNaN) (by simpa using hyzero)
        rw [hyy]
        exact ⟨rfl, rfl⟩
    rw [if_neg hyzero, if_neg hyzero, ← hexponent.1, ← hexponent.2]
    by_cases hxzero : x.isZero = true
    · rw [if_pos hxzero, if_pos hxzero]
      rcases zeroPower_cases y with hpower | hpower
      · rw [hpower]
        exact .inl (same_withMagnitude_zero _ _)
      · -- The sign of a zero base shows in infinities, which fold to nothing.
        exact .inr ⟨not_isFinite_withMagnitude hpower, not_isFinite_withMagnitude hpower⟩
    · have hbase : x.toFloat = x'.toFloat := by
        by_cases hxNaN : x.isNaN = true
        · exact toFloat_of_isNaN hxNaN (by rw [← isNaN_congr hx, hxNaN])
        · rw [eq_of_same hx (by simpa using hxNaN) (by simpa using hxzero)]
      rw [if_neg hxzero, if_neg hxzero, hbase]
      exact .inl (same_refl _)

theorem isFinite_congr {x y : Binary64} (h : x.same y = true) : x.isFinite = y.isFinite := by
  rcases same_iff.mp h with ⟨hx, hy⟩ | ⟨hx, hy⟩ | rfl
  · have hfinite {z : Binary64} (hz : z.isNaN = true) : z.isFinite = false := by
      have hz : infinity < z.magnitude := of_decide_eq_true hz
      apply decide_eq_false
      omega
    rw [hfinite hx, hfinite hy]
  · rw [isFinite, isFinite, hx, hy]
  · rfl

end Binary64

namespace Literal

/-- Equal literals are one integer or equal floats. -/
theorem same_cases {m n : Literal} (h : m.same n = true) :
    m = n ∨ ∃ x y, m = .float x ∧ n = .float y ∧ x.same y = true := by
  cases m with
  | int a =>
      cases n with
      | int b =>
          left
          congr 1
          exact of_decide_eq_true h
      | float y => exact absurd h Bool.false_ne_true
  | float x =>
      cases n with
      | int b => exact absurd h Bool.false_ne_true
      | float y => exact .inr ⟨x, y, rfl, rfl, h⟩

theorem toBinary64_congr {m n : Literal} (h : m.same n = true) :
    m.toBinary64.same n.toBinary64 = true := by
  rcases same_cases h with rfl | ⟨x, y, rfl, rfl, h⟩
  · exact Binary64.same_refl _
  · exact h

theorem isZero_congr {m n : Literal} (h : m.same n = true) : m.isZero = n.isZero := by
  rcases same_cases h with rfl | ⟨x, y, rfl, rfl, h⟩
  · rfl
  · exact Binary64.isZero_congr h

theorem isOne_congr {m n : Literal} (h : m.same n = true) : m.isOne = n.isOne := by
  rcases same_cases h with rfl | ⟨x, y, rfl, rfl, h⟩
  · rfl
  · exact Binary64.isOne_congr h

theorem combine_congr {exactly : Int → Int → Int} {rounded : Binary64 → Binary64 → Binary64}
    (hrounded : ∀ {x x' y y' : Binary64}, x.same x' = true → y.same y' = true →
      (rounded x y).same (rounded x' y') = true)
    {m m' n n' : Literal} (hm : m.same m' = true) (hn : n.same n' = true) :
    (combine exactly rounded m n).same (combine exactly rounded m' n') = true := by
  have hfloat := hrounded (toBinary64_congr hm) (toBinary64_congr hn)
  rcases same_cases hm with rfl | ⟨x, x', rfl, rfl, -⟩
  · rcases same_cases hn with rfl | ⟨y, y', rfl, rfl, -⟩
    · exact same_refl _
    · cases m <;> exact hfloat
  · exact hfloat

theorem add_congr {m m' n n' : Literal} (hm : m.same m' = true) (hn : n.same n' = true) :
    (m.add n).same (m'.add n') = true :=
  combine_congr Binary64.add_congr hm hn

theorem mul_congr {m m' n n' : Literal} (hm : m.same m' = true) (hn : n.same n' = true) :
    (m.mul n).same (m'.mul n') = true :=
  combine_congr Binary64.mul_congr hm hn

/-- Powers of equal literals are equal or none of them is finite. -/
theorem pow?_congr {m m' n n' : Literal} (hm : m.same m' = true) (hn : n.same n' = true) :
    Option.Rel (fun p q => p.same q = true) (m.pow? n) (m'.pow? n') := by
  have hfloat : Option.Rel (fun p q => p.same q = true)
      (if (m.toBinary64.pow n.toBinary64).isFinite then
        some (float (m.toBinary64.pow n.toBinary64)) else none)
      (if (m'.toBinary64.pow n'.toBinary64).isFinite then
        some (float (m'.toBinary64.pow n'.toBinary64)) else none) := by
    rcases Binary64.pow_congr (toBinary64_congr hm) (toBinary64_congr hn) with h | ⟨h, h'⟩
    · rw [← Binary64.isFinite_congr h]
      split
      · exact .some h
      · exact .none
    · rw [h, h']
      exact .none
  rcases same_cases hm with rfl | ⟨x, x', rfl, rfl, -⟩
  · rcases same_cases hn with rfl | ⟨y, y', rfl, rfl, -⟩
    · cases m.pow? n with
      | none => exact .none
      | some p => exact .some p.same_refl
    · cases m <;> exact hfloat
  · exact hfloat

end Literal

end GridAccess
