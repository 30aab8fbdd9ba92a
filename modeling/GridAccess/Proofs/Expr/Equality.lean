import GridAccess.Proofs.Expr.Structure
import GridAccess.Proofs.Order
import Mathlib.Data.List.Forall2

/-!
Equality of expressions is an equivalence, and the order does not tell equal expressions apart.
The two differ from identity only at floating point literals: the zeros are equal, and every NaN
equals every other one.
-/

namespace GridAccess

open Std

namespace Binary64

theorem not_isNaN_of_magnitude_eq_zero {x : Binary64} (h : x.magnitude = 0) :
    x.isNaN = false := by
  simp [isNaN, h]

theorem same_iff {x y : Binary64} : x.same y = true ↔
    (x.isNaN = true ∧ y.isNaN = true) ∨ (x.magnitude = 0 ∧ y.magnitude = 0) ∨ x = y := by
  have hbits : x.bits = y.bits ↔ x = y := by
    cases x
    cases y
    simp
  unfold same
  split
  · next hx =>
      have hmagnitude : x.magnitude ≠ 0 := by
        intro h
        simp [not_isNaN_of_magnitude_eq_zero h] at hx
      constructor
      · intro hy
        exact .inl ⟨hx, hy⟩
      · rintro (h | h | rfl)
        · exact h.2
        · exact (hmagnitude h.1).elim
        · exact hx
  · next hx =>
      split
      · next hzero =>
          simp only [decide_eq_true_eq, hx, hzero, false_and, true_and, false_or,
            Bool.false_eq_true]
          constructor
          · exact .inl
          · rintro (h | rfl)
            · exact h
            · exact hzero
      · next hzero => simp [hx, hzero, hbits]

theorem same_refl (x : Binary64) : x.same x = true := same_iff.mpr (.inr (.inr rfl))

theorem same_symm {x y : Binary64} (h : x.same y = true) : y.same x = true := by
  rcases same_iff.mp h with h | h | rfl
  · exact same_iff.mpr (.inl h.symm)
  · exact same_iff.mpr (.inr (.inl h.symm))
  · exact h

theorem same_trans {x y z : Binary64} (hxy : x.same y = true) (hyz : y.same z = true) :
    x.same z = true := by
  rcases same_iff.mp hxy with h | h | rfl
  · rcases same_iff.mp hyz with h' | h' | rfl
    · exact same_iff.mpr (.inl ⟨h.1, h'.2⟩)
    · simp [not_isNaN_of_magnitude_eq_zero h'.1] at h
    · exact hxy
  · rcases same_iff.mp hyz with h' | h' | rfl
    · simp [not_isNaN_of_magnitude_eq_zero h.2] at h'
    · exact same_iff.mpr (.inr (.inl ⟨h.1, h'.2⟩))
    · exact hxy
  · exact hyz

theorem rank_eq_of_same {x y : Binary64} (h : x.same y = true) : x.rank = y.rank := by
  rcases same_iff.mp h with h | h | rfl
  · simp [rank, h.1, h.2]
  · simp [rank, not_isNaN_of_magnitude_eq_zero h.1, not_isNaN_of_magnitude_eq_zero h.2, h.1, h.2]
  · rfl

/-- The sign bit and the bits below it are all there is. -/
theorem eq_of_magnitude_eq {x y : Binary64} (hsign : x.isSigned = y.isSigned)
    (hmagnitude : x.magnitude = y.magnitude) : x = y := by
  have hx := x.bits.toNat_lt
  have hy := y.bits.toNat_lt
  have hsign : signBit ≤ x.bits.toNat ↔ signBit ≤ y.bits.toNat := by
    simpa [isSigned] using hsign
  have hbits : x.bits.toNat = y.bits.toNat := by
    simp only [magnitude, signBit] at hsign hmagnitude
    omega
  cases x
  cases y
  simpa [UInt64.toNat_inj] using hbits

theorem same_of_rank_eq {x y : Binary64} (h : x.rank = y.rank) : x.same y = true := by
  have hle {z : Binary64} (hz : ¬ z.isNaN = true) : z.magnitude ≤ infinity := by
    simpa [isNaN] using hz
  rw [same_iff]
  unfold rank at h
  by_cases hx : x.isNaN = true <;> by_cases hy : y.isNaN = true
  · exact .inl ⟨hx, hy⟩
  · have := hle hy
    rw [if_pos hx, if_neg hy] at h
    split at h <;> omega
  · have := hle hx
    rw [if_neg hx, if_pos hy] at h
    split at h <;> omega
  · rw [if_neg hx, if_neg hy] at h
    by_cases hsign : x.isSigned = y.isSigned
    · refine .inr (.inr (eq_of_magnitude_eq hsign ?_))
      rw [hsign] at h
      split at h <;> omega
    · refine .inr (.inl ?_)
      split at h <;> split at h <;> first | omega | simp_all

end Binary64

namespace Literal

theorem same_refl (m : Literal) : m.same m = true := by
  cases m with
  | int n => simp [same]
  | float x => exact x.same_refl

theorem same_symm {m n : Literal} (h : m.same n = true) : n.same m = true := by
  cases m <;> cases n <;> simp_all [same]
  exact Binary64.same_symm h

theorem same_trans {k m n : Literal} (hkm : k.same m = true) (hmn : m.same n = true) :
    k.same n = true := by
  cases k <;> cases m <;> cases n <;> simp_all [same]
  exact Binary64.same_trans hkm hmn

theorem cmp_congr {m m' n n' : Literal} (hm : m.same m' = true) (hn : n.same n' = true) :
    compare m n = compare m' n' := by
  show m.cmp n = m'.cmp n'
  cases m <;> cases m' <;> cases n <;> cases n' <;> simp_all [same, cmp]
  next x x' y y' =>
    show compare x.rank y.rank = compare x'.rank y'.rank
    rw [Binary64.rank_eq_of_same hm, Binary64.rank_eq_of_same hn]

theorem same_of_compare_eq {m n : Literal} (h : compare m n = .eq) : m.same n = true := by
  change m.cmp n = .eq at h
  cases m <;> cases n <;> simp_all [same, cmp, Int64.toInt_inj]
  exact Binary64.same_of_rank_eq (LawfulEqOrd.eq_of_compare h)

end Literal

theorem map_eq_map_iff_forall₂ {α β γ : Type} {f : α → γ} {g : β → γ} {as : List α}
    {bs : List β} : as.map f = bs.map g ↔ List.Forall₂ (fun a b => f a = g b) as bs := by
  rw [← List.forall₂_eq_eq_eq, List.forall₂_map_left_iff, List.forall₂_map_right_iff]

namespace Expr

/-- Equal expressions at the same places of two lists. -/
abbrev Alike (as bs : List Expr) : Prop := List.Forall₂ (fun a b => a.same b = true) as bs

theorem sameList_iff {as bs : List Expr} : sameList as bs = true ↔ Alike as bs := by
  induction as generalizing bs with
  | nil =>
      cases bs with
      | nil => exact iff_of_true rfl .nil
      | cons b bs => exact iff_of_false Bool.false_ne_true (by simp)
  | cons a as ih =>
      cases bs with
      | nil => exact iff_of_false Bool.false_ne_true (by simp)
      | cons b bs =>
          show (a.same b && sameList as bs) = true ↔ _
          rw [Bool.and_eq_true, ih]
          exact (List.forall₂_cons (R := fun (a b : Expr) => a.same b = true)).symm

/-! ### What is equal to an expression of a given shape -/

theorem same_lit_iff {m : Literal} {b : Expr} :
    (lit m).same b = true ↔ ∃ n, b = .lit n ∧ m.same n = true := by
  cases b with
  | lit n =>
      show m.same n = true ↔ _
      simp
  | _ => exact iff_of_false Bool.false_ne_true (by simp)

theorem same_sym_iff {s : Symbol} {b : Expr} : (sym s).same b = true ↔ b = .sym s := by
  cases b with
  | sym t =>
      show decide (s = t) = true ↔ _
      simp [eq_comm]
  | _ => exact iff_of_false Bool.false_ne_true (by simp)

theorem same_dim_iff {d : Dimension} {b : Expr} : (dim d).same b = true ↔ b = .dim d := by
  cases b with
  | dim c =>
      show decide (d = c) = true ↔ _
      simp [eq_comm]
  | _ => exact iff_of_false Bool.false_ne_true (by simp)

theorem same_call_iff {f : Field} {as : List Expr} {b : Expr} :
    (call f as).same b = true ↔ ∃ bs, b = .call f bs ∧ Alike as bs := by
  cases b with
  | call g bs =>
      show (decide (f = g) && sameList as bs) = true ↔ _
      simp [sameList_iff, eq_comm (a := f)]
  | _ => exact iff_of_false Bool.false_ne_true (by simp)

theorem same_access_iff {f : Field} {as : List Expr} {b : Expr} :
    (access f as).same b = true ↔ ∃ bs, b = .access f bs ∧ Alike as bs := by
  cases b with
  | access g bs =>
      show (decide (f = g) && sameList as bs) = true ↔ _
      simp [sameList_iff, eq_comm (a := f)]
  | _ => exact iff_of_false Bool.false_ne_true (by simp)

theorem same_sum_iff {as : List Expr} {b : Expr} :
    (sum as).same b = true ↔ ∃ bs, b = .sum bs ∧ Alike as bs := by
  cases b with
  | sum bs =>
      show sameList as bs = true ↔ _
      simp [sameList_iff]
  | _ => exact iff_of_false Bool.false_ne_true (by simp)

theorem same_prod_iff {as : List Expr} {b : Expr} :
    (prod as).same b = true ↔ ∃ bs, b = .prod bs ∧ Alike as bs := by
  cases b with
  | prod bs =>
      show sameList as bs = true ↔ _
      simp [sameList_iff]
  | _ => exact iff_of_false Bool.false_ne_true (by simp)

theorem same_pow_iff {base exponent b : Expr} :
    (pow base exponent).same b = true ↔
      ∃ c x, b = .pow c x ∧ base.same c = true ∧ exponent.same x = true := by
  cases b with
  | pow c x =>
      show (base.same c && exponent.same x) = true ↔ _
      simp
  | _ => exact iff_of_false Bool.false_ne_true (by simp)

/-! ### Making and taking apart equal expressions -/

theorem same_lit {m n : Literal} (h : m.same n = true) : (lit m).same (.lit n) = true :=
  same_lit_iff.mpr ⟨n, rfl, h⟩

theorem same_call (f : Field) {as bs : List Expr} (h : Alike as bs) :
    (call f as).same (.call f bs) = true :=
  same_call_iff.mpr ⟨bs, rfl, h⟩

theorem same_access (f : Field) {as bs : List Expr} (h : Alike as bs) :
    (access f as).same (.access f bs) = true :=
  same_access_iff.mpr ⟨bs, rfl, h⟩

theorem same_sum {as bs : List Expr} (h : Alike as bs) : (sum as).same (.sum bs) = true :=
  same_sum_iff.mpr ⟨bs, rfl, h⟩

theorem same_prod {as bs : List Expr} (h : Alike as bs) : (prod as).same (.prod bs) = true :=
  same_prod_iff.mpr ⟨bs, rfl, h⟩

theorem same_pow {a b c d : Expr} (hac : a.same c = true) (hbd : b.same d = true) :
    (pow a b).same (.pow c d) = true :=
  same_pow_iff.mpr ⟨c, d, rfl, hac, hbd⟩

/-- Induction along the proof that two expressions are equal. -/
theorem sameInduction {motive : Expr → Expr → Prop}
    (lit : ∀ {m n : Literal}, m.same n = true → motive (.lit m) (.lit n))
    (sym : ∀ s, motive (.sym s) (.sym s))
    (dim : ∀ d, motive (.dim d) (.dim d))
    (call : ∀ f {as bs}, Alike as bs → List.Forall₂ motive as bs →
      motive (.call f as) (.call f bs))
    (access : ∀ f {as bs}, Alike as bs → List.Forall₂ motive as bs →
      motive (.access f as) (.access f bs))
    (sum : ∀ {as bs}, Alike as bs → List.Forall₂ motive as bs → motive (.sum as) (.sum bs))
    (prod : ∀ {as bs}, Alike as bs → List.Forall₂ motive as bs → motive (.prod as) (.prod bs))
    (pow : ∀ {a b c d : Expr}, a.same c = true → b.same d = true → motive a c → motive b d →
      motive (.pow a b) (.pow c d))
    {a b : Expr} (h : a.same b = true) : motive a b := by
  have hlist {as bs : List Expr} (ih : ∀ a ∈ as, ∀ {b}, a.same b = true → motive a b)
      (hs : Alike as bs) : List.Forall₂ motive as bs := by
    induction hs with
    | nil => exact .nil
    | cons hab _ ih' =>
        exact .cons (ih _ List.mem_cons_self hab)
          (ih' fun a ha => ih a (List.mem_cons_of_mem _ ha))
  induction a generalizing b with
  | lit m =>
      obtain ⟨n, rfl, hmn⟩ := same_lit_iff.mp h
      exact lit hmn
  | sym s =>
      obtain rfl := same_sym_iff.mp h
      exact sym s
  | dim d =>
      obtain rfl := same_dim_iff.mp h
      exact dim d
  | call f as ih =>
      obtain ⟨bs, rfl, hs⟩ := same_call_iff.mp h
      exact call f hs (hlist (fun a ha b => @ih a ha b) hs)
  | access f as ih =>
      obtain ⟨bs, rfl, hs⟩ := same_access_iff.mp h
      exact access f hs (hlist (fun a ha b => @ih a ha b) hs)
  | sum as ih =>
      obtain ⟨bs, rfl, hs⟩ := same_sum_iff.mp h
      exact sum hs (hlist (fun a ha b => @ih a ha b) hs)
  | prod as ih =>
      obtain ⟨bs, rfl, hs⟩ := same_prod_iff.mp h
      exact prod hs (hlist (fun a ha b => @ih a ha b) hs)
  | pow base exponent ihb ihe =>
      obtain ⟨c, x, rfl, hb, he⟩ := same_pow_iff.mp h
      exact pow hb he (ihb hb) (ihe he)

/-! ### Equality is an equivalence -/

theorem same_refl (e : Expr) : e.same e = true := by
  induction e with
  | lit n => exact same_lit_iff.mpr ⟨n, rfl, n.same_refl⟩
  | sym s => exact same_sym_iff.mpr rfl
  | dim d => exact same_dim_iff.mpr rfl
  | call f es ih => exact same_call_iff.mpr ⟨es, rfl, List.forall₂_same.mpr ih⟩
  | access f es ih => exact same_access_iff.mpr ⟨es, rfl, List.forall₂_same.mpr ih⟩
  | sum es ih => exact same_sum_iff.mpr ⟨es, rfl, List.forall₂_same.mpr ih⟩
  | prod es ih => exact same_prod_iff.mpr ⟨es, rfl, List.forall₂_same.mpr ih⟩
  | pow base exponent ihb ihe => exact same_pow_iff.mpr ⟨base, exponent, rfl, ihb, ihe⟩

theorem same_symm {a b : Expr} (h : a.same b = true) : b.same a = true := by
  apply sameInduction (motive := fun a b => b.same a = true) (h := h)
  case lit => exact fun hmn => same_lit (Literal.same_symm hmn)
  case sym => exact fun s => same_refl _
  case dim => exact fun d => same_refl _
  case call => exact fun f _ _ _ ih => same_call f ih.flip
  case access => exact fun f _ _ _ ih => same_access f ih.flip
  case sum => exact fun _ ih => same_sum ih.flip
  case prod => exact fun _ ih => same_prod ih.flip
  case pow => exact fun _ _ hca hdb => same_pow hca hdb

theorem same_trans {a b c : Expr} (hab : a.same b = true) (hbc : b.same c = true) :
    a.same c = true := by
  have hlist {as bs cs : List Expr}
      (ih : ∀ a ∈ as, ∀ {b c}, a.same b = true → b.same c = true → a.same c = true)
      (hab : Alike as bs) (hbc : Alike bs cs) : Alike as cs := by
    induction hab generalizing cs with
    | nil => exact hbc
    | cons hab _ ih' =>
        cases hbc with
        | cons hbc htail =>
            exact .cons (ih _ List.mem_cons_self hab hbc)
              (ih' (fun a ha => ih a (List.mem_cons_of_mem _ ha)) htail)
  induction a generalizing b c with
  | lit k =>
      obtain ⟨m, rfl, hkm⟩ := same_lit_iff.mp hab
      obtain ⟨n, rfl, hmn⟩ := same_lit_iff.mp hbc
      exact same_lit_iff.mpr ⟨n, rfl, Literal.same_trans hkm hmn⟩
  | sym s =>
      obtain rfl := same_sym_iff.mp hab
      exact hbc
  | dim d =>
      obtain rfl := same_dim_iff.mp hab
      exact hbc
  | call f as ih =>
      obtain ⟨bs, rfl, habs⟩ := same_call_iff.mp hab
      obtain ⟨cs, rfl, hbcs⟩ := same_call_iff.mp hbc
      exact same_call_iff.mpr ⟨cs, rfl, hlist (fun a ha b c => @ih a ha b c) habs hbcs⟩
  | access f as ih =>
      obtain ⟨bs, rfl, habs⟩ := same_access_iff.mp hab
      obtain ⟨cs, rfl, hbcs⟩ := same_access_iff.mp hbc
      exact same_access_iff.mpr ⟨cs, rfl, hlist (fun a ha b c => @ih a ha b c) habs hbcs⟩
  | sum as ih =>
      obtain ⟨bs, rfl, habs⟩ := same_sum_iff.mp hab
      obtain ⟨cs, rfl, hbcs⟩ := same_sum_iff.mp hbc
      exact same_sum_iff.mpr ⟨cs, rfl, hlist (fun a ha b c => @ih a ha b c) habs hbcs⟩
  | prod as ih =>
      obtain ⟨bs, rfl, habs⟩ := same_prod_iff.mp hab
      obtain ⟨cs, rfl, hbcs⟩ := same_prod_iff.mp hbc
      exact same_prod_iff.mpr ⟨cs, rfl, hlist (fun a ha b c => @ih a ha b c) habs hbcs⟩
  | pow base exponent ihb ihe =>
      obtain ⟨c, x, rfl, hb, he⟩ := same_pow_iff.mp hab
      obtain ⟨c', x', rfl, hb', he'⟩ := same_pow_iff.mp hbc
      exact same_pow_iff.mpr ⟨c', x', rfl, ihb hb hb', ihe he he'⟩

instance : EquivBEq Expr where
  rfl := same_refl _
  symm := same_symm
  trans := same_trans

/-! ### The order and equality -/

theorem shape_eq_of_same {a b : Expr} (h : a.same b = true) : a.shape = b.shape := by
  apply sameInduction (motive := fun a b => a.shape = b.shape) (h := h)
  all_goals intros; rfl

theorem cmp_of_shape_ne {a b : Expr} (h : a.shape ≠ b.shape) :
    a.cmp b = compare a.shape b.shape := by
  cases a <;> cases b <;> simp_all [cmp, shape]

theorem cmp_congr {a a' b b' : Expr} (ha : a.same a' = true) (hb : b.same b' = true) :
    a.cmp b = a'.cmp b' := by
  have hlist {as as' bs bs' : List Expr}
      (ih : ∀ a ∈ as, ∀ {a' b b'}, a.same a' = true → b.same b' = true → a.cmp b = a'.cmp b')
      (has : Alike as as') (hbs : Alike bs bs') : cmpList as bs = cmpList as' bs' := by
    induction has generalizing bs bs' with
    | nil => cases hbs <;> rfl
    | cons ha _ ih' =>
        cases hbs with
        | nil => rfl
        | cons hb hbs =>
            simp only [cmpList]
            rw [ih _ List.mem_cons_self ha hb,
              ih' (fun a ha => ih a (List.mem_cons_of_mem _ ha)) hbs]
  -- Of different shapes only these are compared.
  have hdiffer {a a' b b' : Expr} (ha : a.same a' = true) (hb : b.same b' = true)
      (h : a.shape ≠ b.shape) : a.cmp b = a'.cmp b' := by
    have h' : a'.shape ≠ b'.shape := by rwa [← shape_eq_of_same ha, ← shape_eq_of_same hb]
    rw [cmp_of_shape_ne h, cmp_of_shape_ne h', shape_eq_of_same ha, shape_eq_of_same hb]
  induction a generalizing a' b b' with
  | lit m =>
      cases b with
      | lit n =>
          obtain ⟨m', rfl, hm⟩ := same_lit_iff.mp ha
          obtain ⟨n', rfl, hn⟩ := same_lit_iff.mp hb
          exact Literal.cmp_congr hm hn
      | _ => exact hdiffer ha hb (by simp [shape])
  | sym s =>
      cases b with
      | sym t => rw [same_sym_iff.mp ha, same_sym_iff.mp hb]
      | _ => exact hdiffer ha hb (by simp [shape])
  | dim c =>
      cases b with
      | dim d => rw [same_dim_iff.mp ha, same_dim_iff.mp hb]
      | _ => exact hdiffer ha hb (by simp [shape])
  | call f as ih =>
      cases b with
      | call g bs =>
          obtain ⟨as', rfl, has⟩ := same_call_iff.mp ha
          obtain ⟨bs', rfl, hbs⟩ := same_call_iff.mp hb
          simp only [cmp, hlist (fun a ha a' b b' => @ih a ha a' b b') has hbs]
      | _ => exact hdiffer ha hb (by simp [shape])
  | access f as ih =>
      cases b with
      | access g bs =>
          obtain ⟨as', rfl, has⟩ := same_access_iff.mp ha
          obtain ⟨bs', rfl, hbs⟩ := same_access_iff.mp hb
          simp only [cmp, hlist (fun a ha a' b b' => @ih a ha a' b b') has hbs]
      | _ => exact hdiffer ha hb (by simp [shape])
  | sum as ih =>
      cases b with
      | sum bs =>
          obtain ⟨as', rfl, has⟩ := same_sum_iff.mp ha
          obtain ⟨bs', rfl, hbs⟩ := same_sum_iff.mp hb
          simp only [cmp, hlist (fun a ha a' b b' => @ih a ha a' b b') has hbs]
      | _ => exact hdiffer ha hb (by simp [shape])
  | prod as ih =>
      cases b with
      | prod bs =>
          obtain ⟨as', rfl, has⟩ := same_prod_iff.mp ha
          obtain ⟨bs', rfl, hbs⟩ := same_prod_iff.mp hb
          simp only [cmp, hlist (fun a ha a' b b' => @ih a ha a' b b') has hbs]
      | _ => exact hdiffer ha hb (by simp [shape])
  | pow base exponent ihb ihe =>
      cases b with
      | pow c x =>
          obtain ⟨base', exponent', rfl, hbase, hexponent⟩ := same_pow_iff.mp ha
          obtain ⟨c', x', rfl, hc, hx⟩ := same_pow_iff.mp hb
          simp only [cmp, ihb hbase hc, ihe hexponent hx]
      | _ => exact hdiffer ha hb (by simp [shape])

theorem compare_congr {a a' b b' : Expr} (ha : a.same a' = true) (hb : b.same b' = true) :
    compare a b = compare a' b' :=
  cmp_congr ha hb

theorem shape_eq_of_cmp_eq {a b : Expr} (h : a.cmp b = .eq) : a.shape = b.shape := by
  by_contra hne
  rw [cmp_of_shape_ne hne] at h
  exact hne (LawfulEqOrd.eq_of_compare h)

theorem same_of_compare_eq {a b : Expr} (h : compare a b = .eq) : a.same b = true := by
  have hlist {as bs : List Expr} (ih : ∀ a ∈ as, ∀ {b}, a.cmp b = .eq → a.same b = true)
      (h : cmpList as bs = .eq) : Alike as bs := by
    induction as generalizing bs with
    | nil => cases bs <;> simp_all [cmpList]
    | cons a as ih' =>
        cases bs with
        | nil => simp [cmpList] at h
        | cons b bs =>
            simp only [cmpList, Ordering.then_eq_eq] at h
            exact .cons (ih a List.mem_cons_self h.1)
              (ih' (fun a ha => ih a (List.mem_cons_of_mem _ ha)) h.2)
  change a.cmp b = .eq at h
  induction a generalizing b with
  | lit m =>
      cases b with
      | lit n => exact same_lit_iff.mpr ⟨n, rfl, Literal.same_of_compare_eq h⟩
      | _ => exact absurd (shape_eq_of_cmp_eq h) (by simp [shape])
  | sym s =>
      cases b with
      | sym t => exact same_sym_iff.mpr (by rw [LawfulEqOrd.eq_of_compare (a := s) h])
      | _ => exact absurd (shape_eq_of_cmp_eq h) (by simp [shape])
  | dim c =>
      cases b with
      | dim d => exact same_dim_iff.mpr (by rw [LawfulEqOrd.eq_of_compare (a := c) h])
      | _ => exact absurd (shape_eq_of_cmp_eq h) (by simp [shape])
  | call f as ih =>
      cases b with
      | call g bs =>
          simp only [cmp, Ordering.then_eq_eq, LawfulEqOrd.compare_eq_iff_eq] at h
          exact same_call_iff.mpr ⟨bs, by rw [h.1], hlist (fun a ha b => @ih a ha b) h.2⟩
      | _ => exact absurd (shape_eq_of_cmp_eq h) (by simp [shape])
  | access f as ih =>
      cases b with
      | access g bs =>
          simp only [cmp, Ordering.then_eq_eq, LawfulEqOrd.compare_eq_iff_eq] at h
          exact same_access_iff.mpr ⟨bs, by rw [h.1], hlist (fun a ha b => @ih a ha b) h.2⟩
      | _ => exact absurd (shape_eq_of_cmp_eq h) (by simp [shape])
  | sum as ih =>
      cases b with
      | sum bs => exact same_sum_iff.mpr ⟨bs, rfl, hlist (fun a ha b => @ih a ha b) h⟩
      | _ => exact absurd (shape_eq_of_cmp_eq h) (by simp [shape])
  | prod as ih =>
      cases b with
      | prod bs => exact same_prod_iff.mpr ⟨bs, rfl, hlist (fun a ha b => @ih a ha b) h⟩
      | _ => exact absurd (shape_eq_of_cmp_eq h) (by simp [shape])
  | pow base exponent ihb ihe =>
      cases b with
      | pow c x =>
          simp only [cmp, Ordering.then_eq_eq] at h
          exact same_pow_iff.mpr ⟨c, x, rfl, ihb h.1, ihe h.2⟩
      | _ => exact absurd (shape_eq_of_cmp_eq h) (by simp [shape])

end Expr

end GridAccess
