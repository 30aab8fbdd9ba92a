import GridAccess.Field

/-!
The orders of dimensions and fields are lawful: comparing dimensions is comparing their chains of
parents link by link, comparing fields is comparing what they are made of, and what compares as
equal is equal.
-/

namespace GridAccess

open Std

/-- A comparison of images is transitive if the comparison of the images is. -/
theorem transCmp_of_image {α β : Type} {cmp : α → α → Ordering} {cmp' : β → β → Ordering}
    [TransCmp cmp'] (f : α → β) (h : ∀ a b, cmp a b = cmp' (f a) (f b)) : TransCmp cmp where
  eq_swap := by
    intro a b
    rw [h a b, h b a]
    exact OrientedCmp.eq_swap
  isLE_trans := by
    intro a b c hab hbc
    rw [h] at hab hbc ⊢
    exact TransCmp.isLE_trans hab hbc

instance : TransOrd Symbol := inferInstanceAs (TransCmp (compareOn Symbol.name))

instance : LawfulEqOrd Symbol where
  compare_self := by
    intro s
    exact ReflOrd.compare_self (a := s.name)
  eq_of_compare := by
    intro s t h
    have hname : s.name = t.name := LawfulEqOrd.eq_of_compare h
    cases s
    cases t
    simpa using hname

/-! ### Dimensions -/

theorem Thickness.key_injective {s t : Thickness} (h : s.key = t.key) : s = t := by
  cases s <;> cases t <;> simp_all [Thickness.key, UInt32.toNat_inj]

theorem RootKind.key_injective {k l : RootKind} (h : k.key = l.key) : k = l := by
  cases k <;> cases l <;> simp_all [RootKind.key]

theorem DerivedKind.key_injective {k l : DerivedKind} (h : k.key = l.key) : k = l := by
  cases k <;> cases l <;> simp_all [DerivedKind.key, UInt32.toNat_inj]
  exact Thickness.key_injective h

theorem RootKind.key_ne_key (k : RootKind) (l : DerivedKind) : k.key ≠ l.key := by
  cases k <;> cases l <;> simp [RootKind.key, DerivedKind.key]

namespace Dimension

/-- The names and kinds from a dimension up to its root. -/
def chain : Dimension → List (String × List Nat)
  | .root name kind => [(name, kind.key)]
  | .derived name kind parent => (name, kind.key) :: parent.chain

/-- By name, then by kind. -/
def linkCmp : String × List Nat → String × List Nat → Ordering :=
  compareLex (compareOn Prod.fst) (compareOn Prod.snd)

instance : TransCmp linkCmp :=
  inferInstanceAs (TransCmp (compareLex (compareOn Prod.fst) (compareOn Prod.snd)))

instance : LawfulEqCmp linkCmp where
  compare_self := ReflCmp.compare_self
  eq_of_compare := by
    intro a b h
    obtain ⟨hfst, hsnd⟩ := Ordering.then_eq_eq.mp h
    exact Prod.ext (LawfulEqOrd.eq_of_compare hfst) (LawfulEqOrd.eq_of_compare hsnd)

theorem cmp_eq_chain (d e : Dimension) : d.cmp e = List.compareLex linkCmp d.chain e.chain := by
  induction d generalizing e with
  | root n k =>
      cases e with
      | root m l =>
          simp [cmp, name, kindKey, chain, linkCmp, compareLex, compareOn,
            List.compareLex_cons_cons, List.compareLex_nil_nil]
      | derived m l q =>
          have hkey : compare k.key l.key ≠ .eq := by
            intro h
            exact RootKind.key_ne_key k l (LawfulEqOrd.eq_of_compare h)
          cases hname : compare n m <;> cases hkind : compare k.key l.key <;>
            simp_all [cmp, name, kindKey, chain, linkCmp, compareLex, compareOn,
              List.compareLex_cons_cons]
  | derived n k p ih =>
      cases e with
      | root m l =>
          simp [cmp, name, kindKey, chain, linkCmp, compareLex, compareOn,
            List.compareLex_cons_cons]
          cases p <;> simp [chain, List.compareLex_cons_nil]
      | derived m l q =>
          simp [cmp, name, kindKey, chain, linkCmp, compareLex, compareOn,
            List.compareLex_cons_cons, ih]

theorem chain_injective {d e : Dimension} (h : d.chain = e.chain) : d = e := by
  induction d generalizing e with
  | root n k =>
      cases e with
      | root m l =>
          simp only [chain, List.cons.injEq, Prod.mk.injEq, and_true] at h
          rw [h.1, RootKind.key_injective h.2]
      | derived m l q =>
          simp only [chain, List.cons.injEq, Prod.mk.injEq] at h
          exact (RootKind.key_ne_key k l h.1.2).elim
  | derived n k p ih =>
      cases e with
      | root m l =>
          simp only [chain, List.cons.injEq, Prod.mk.injEq] at h
          exact (RootKind.key_ne_key l k h.1.2.symm).elim
      | derived m l q =>
          simp only [chain, List.cons.injEq, Prod.mk.injEq] at h
          rw [h.1.1, DerivedKind.key_injective h.1.2, ih h.2]

instance : TransOrd Dimension := transCmp_of_image chain cmp_eq_chain

instance : LawfulEqOrd Dimension where
  compare_self := ReflCmp.compare_self
  eq_of_compare := by
    intro d e h
    change d.cmp e = .eq at h
    rw [cmp_eq_chain] at h
    exact chain_injective (LawfulEqCmp.eq_of_compare h)

end Dimension

/-! ### Fields -/

theorem FieldKind.key_injective {k l : FieldKind} (h : k.key = l.key) : k = l := by
  cases k <;> cases l <;> simp_all [FieldKind.key]

instance : TransOrd FieldKind := inferInstanceAs (TransCmp (compareOn FieldKind.key))

instance : TransOrd Margin := inferInstanceAs (TransCmp (compareOn Margin.key))

instance : LawfulEqOrd FieldKind where
  compare_self := by
    intro k
    exact ReflOrd.compare_self (a := k.key)
  eq_of_compare := fun h => FieldKind.key_injective (LawfulEqOrd.eq_of_compare h)

instance : LawfulEqOrd Margin where
  compare_self := by
    intro m
    exact ReflOrd.compare_self (a := m.key)
  eq_of_compare := by
    intro m n h
    have hkey : m.key = n.key := LawfulEqOrd.eq_of_compare h
    cases m
    cases n
    simpa [Margin.key, UInt32.toNat_inj] using hkey

namespace Field

theorem axes_injective {as bs : List Axis}
    (hdimension : as.map Axis.dimension = bs.map Axis.dimension)
    (hhalo : as.map Axis.halo = bs.map Axis.halo)
    (hpadding : as.map Axis.padding = bs.map Axis.padding) : as = bs := by
  induction as generalizing bs with
  | nil => simpa using hdimension.symm
  | cons a as ih =>
      cases bs with
      | nil => simp at hdimension
      | cons b bs =>
          simp only [List.map_cons, List.cons.injEq] at hdimension hhalo hpadding
          have hab : a = b := by
            cases a
            cases b
            simp_all
          rw [hab, ih hdimension.2 hhalo.2 hpadding.2]

instance : TransOrd Field :=
  inferInstanceAs (TransCmp (compareLex (compareOn Field.name) (compareLex (compareOn Field.kind)
    (compareLex (compareOn Field.dimensions)
      (compareLex (compareOn Field.halo) (compareOn Field.padding))))))

instance : LawfulEqOrd Field where
  compare_self := by
    intro f
    show f.cmp f = .eq
    simp [cmp, ReflCmp.compare_self]
  eq_of_compare := by
    intro f g h
    change f.cmp g = .eq at h
    simp only [cmp, Ordering.then_eq_eq] at h
    obtain ⟨hname, hkind, hdimension, hhalo, hpadding⟩ := h
    have hname : f.name = g.name := LawfulEqOrd.eq_of_compare hname
    have hkind : f.kind = g.kind := LawfulEqOrd.eq_of_compare hkind
    have haxes : f.axes = g.axes :=
      axes_injective (LawfulEqOrd.eq_of_compare hdimension) (LawfulEqOrd.eq_of_compare hhalo)
        (LawfulEqOrd.eq_of_compare hpadding)
    cases f
    cases g
    simp_all

end Field

end GridAccess
