import GridAccess.Proofs.Alignment.Recursion

/-!
Where the spacing of an axis counts as 1, the index on an axis is free of the axis's own spacing.
It is replaced in the argument before the uses of fields in it are aligned, so that aligning, moving
and restricting must not bring it back. They put in offsets and dimensions, and what is stored for
other uses, which are parts of the argument.
-/

namespace GridAccess

open GridAccess.Expr (AllNodes EveryAccess)

/-! ### Symbols -/

namespace Expr

def SymbolFree (x : Symbol) (e : Expr) : Prop := AllNodes (· ≠ .sym x) e

end Expr

/-- Nothing but dimensions and literals is put in. -/
def Substitution.PutsLeaves (s : Substitution) : Prop :=
  ∀ e r, s.find? e = some r → (∃ d, r = .dim d) ∨ ∃ n, r = .lit n

namespace Substitution.PutsLeaves

theorem empty : Substitution.empty.PutsLeaves := fun _ _ hfind => by cases hfind

theorem spacing (x : Symbol) : PutsLeaves ⟨[(.sym x, .int 1)]⟩ :=
  fun _ _ hfind => .inr ⟨_, (Alignment.find?_spacing hfind).2⟩

theorem restriction (eq : Equation) : eq.restriction.PutsLeaves := by
  unfold Equation.restriction
  cases eq.subdomain with
  | none => exact empty
  | some s =>
      intro e r hfind
      obtain ⟨-, d, -, -, rfl⟩ := Subdomain.exists_dim_of_find? hfind
      exact .inl ⟨d, rfl⟩

variable {s : Substitution} (hs : s.PutsLeaves) {e : Expr}
include hs

end Substitution.PutsLeaves

namespace Alignment

/-! ### Symbols in indices -/

section

variable {restriction : Substitution} (hr : restriction.PutsLeaves)
include hr

end

/-! ### Accesses that are written -/

/-- Axis by axis there are no symbols in `after` that are not in `before`. -/
def NoNewSymbols (before after : List Expr) : Prop :=
  ∀ (axis : Nat) (index' : Expr), after[axis]? = some index' → ∃ index, before[axis]? = some index ∧
    ∀ x, index.SymbolFree x → index'.SymbolFree x

theorem NoNewSymbols.refl (indices : List Expr) : NoNewSymbols indices indices :=
  fun _ index hindex => ⟨index, hindex, fun _ h => h⟩

theorem NoNewSymbols.trans {before between after : List Expr} (h : NoNewSymbols before between)
    (h' : NoNewSymbols between after) : NoNewSymbols before after := by
  intro axis index'' hindex''
  obtain ⟨index', hindex', hfree'⟩ := h' axis index'' hindex''
  obtain ⟨index, hindex, hfree⟩ := h axis index' hindex'
  exact ⟨index, hindex, fun x hx => hfree' x (hfree x hx)⟩

section

variable {written : List Expr} {f : Field} {before after : List Expr}

end

section

variable {written : List Expr} {depth : Nat}

end

end Alignment

end GridAccess
