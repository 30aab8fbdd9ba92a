import GridAccess.Proofs.Ascending
import GridAccess.Proofs.Expr.Inheritance
import GridAccess.Proofs.Order
import GridAccess.Subdomain

/-!
The substitution of a subdomain replaces the dimensions that the subdomain restricts and nothing
else. Afterwards none of them is left.
-/

namespace GridAccess.Subdomain

open Std

theorem find?_substitution_dim (s : Subdomain) (d : Dimension) :
    s.substitution.find? (.dim d) = (s.get? d).map .dim := by
  obtain ⟨name, table⟩ := s
  simp only [substitution, Substitution.find?, get?]
  induction table with
  | nil => rfl
  | cons entry table ih =>
      obtain ⟨a, substitute⟩ := entry
      by_cases hd : d = a
      · subst hd
        simp [Ascending.get?, ReflCmp.compare_self]
      · have hne : (Expr.dim d == Expr.dim a) = false := by
          rw [Bool.eq_false_iff]
          intro h
          exact hd (Expr.dim.inj (Expr.same_dim_iff.mp h)).symm
        have hcmp : compare d a ≠ .eq := fun h => hd (LawfulEqCmp.eq_of_compare h)
        rw [List.map_cons, List.find?_cons_of_neg (by simp [hne]), ih]
        cases h : compare d a <;> simp_all [Ascending.get?]

theorem exists_dim_of_find? {s : Subdomain} {e r : Expr} (h : s.substitution.find? e = some r) :
    ∃ d d', e = .dim d ∧ s.get? d = some d' ∧ r = .dim d' := by
  obtain ⟨entry, hentry, hsame, -⟩ := Substitution.exists_entry_of_find? h
  obtain ⟨⟨d, substitute⟩, -, rfl⟩ := List.mem_map.mp hentry
  obtain rfl := Expr.same_dim_iff.mp (Expr.same_symm hsame)
  rw [find?_substitution_dim] at h
  obtain ⟨d', hd', rfl⟩ := Option.map_eq_some_iff.mp h
  exact ⟨d, d', rfl, hd', rfl⟩

def restricted (s : Subdomain) : List Dimension := s.substitutes.map Prod.fst

def introduced (s : Subdomain) : List Dimension := s.substitutes.map Prod.snd

end GridAccess.Subdomain

namespace GridAccess.Expr

/-- None of the dimensions occurs at any depth. -/
def Avoids (ds : List Dimension) (e : Expr) : Prop := ∀ d ∈ ds, .dim d ∉ e.nodes

theorem headProperty_ne_dim (ds : List Dimension) : HeadProperty fun n => ∀ d ∈ ds, n ≠ .dim d where
  lit := nofun
  sum := nofun
  prod := nofun
  call := nofun
  access := nofun

theorem avoids_iff {ds : List Dimension} {e : Expr} :
    e.Avoids ds ↔ AllNodes (fun n => ∀ d ∈ ds, n ≠ .dim d) e := by
  constructor
  · rintro h n hn d hd rfl
    exact h d hd hn
  · exact fun h d hd hn => h _ hn d hd rfl

/-- Replacing the restricted dimensions takes them out, if none of them is introduced. -/
theorem avoids_substFold {s : Subdomain} (h : ∀ d ∈ s.introduced, d ∉ s.restricted) (e : Expr) :
    (e.substFold s.substitution).Avoids s.restricted := by
  refine avoids_iff.mpr (AllNodes.substFold (headProperty_ne_dim _) (fun _ => nofun) ?_ ?_)
  · intro e r hfind n hn d hd hdim
    obtain ⟨d', substitute, -, hget, rfl⟩ := Subdomain.exists_dim_of_find? hfind
    obtain rfl := dim.inj ((mem_nodes_dim.mp hn).symm.trans hdim)
    exact h _ (List.mem_map_of_mem (Ascending.mem_of_get?_eq_some hget)) hd
  · rintro n - hfind d hd rfl
    rw [Subdomain.find?_substitution_dim, Option.map_eq_none_iff] at hfind
    exact Ascending.get?_eq_none_iff.mp hfind hd

end GridAccess.Expr
