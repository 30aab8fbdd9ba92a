import GridAccess.Proofs.Expr.Occurrence
import GridAccess.Proofs.Expr.Replacement

/-!
Replacement against plain recursion from the root down. What passes changes up as options agrees
with building every node again where the shape is kept. Where nodes are built canonically it agrees
with building those above a match, and only those: a sum without a match in it need not be canonical
and is not made so.
-/

namespace GridAccess

/-- What becomes of a node: the replacement if it is a key, the node built again if there is a key
inside it, and otherwise the node as it is written. -/
def Substitution.atNode (s : Substitution) (e rebuilt : Expr) : Expr :=
  (s.find? e).getD (if s.touches e then rebuilt else e)

namespace Expr

/-- The recursion that replaces keys and builds every other node again, over its operands in their
order. It does not enter a replacement. -/
def rebuilt (s : Substitution) : Expr → Expr
  | .lit n => (s.find? (.lit n)).getD (.lit n)
  | .sym x => (s.find? (.sym x)).getD (.sym x)
  | .dim d => (s.find? (.dim d)).getD (.dim d)
  | .call f args => (s.find? (.call f args)).getD (.call f (args.map fun arg => rebuilt s arg))
  | .access f indices =>
    (s.find? (.access f indices)).getD (.access f (indices.map fun index => rebuilt s index))
  | .sum terms => (s.find? (.sum terms)).getD (.sum (terms.map fun term => rebuilt s term))
  | .prod factors =>
    (s.find? (.prod factors)).getD (.prod (factors.map fun factor => rebuilt s factor))
  | .pow base exponent =>
    (s.find? (.pow base exponent)).getD (.pow (rebuilt s base) (rebuilt s exponent))

/-- The recursion that replaces keys and builds canonically what is above a match. Uses of fields
keep their field and the order of their operands. -/
def refolded (s : Substitution) : Expr → Expr
  | .lit n => s.atNode (.lit n) (.lit n)
  | .sym x => s.atNode (.sym x) (.sym x)
  | .dim d => s.atNode (.dim d) (.dim d)
  | .call f args => s.atNode (.call f args) (.call f (args.map fun arg => refolded s arg))
  | .access f indices =>
    s.atNode (.access f indices) (.access f (indices.map fun index => refolded s index))
  | .sum terms => s.atNode (.sum terms) (sumOf (terms.map fun term => refolded s term))
  | .prod factors =>
    s.atNode (.prod factors) (productOf (factors.map fun factor => refolded s factor))
  | .pow base exponent =>
    s.atNode (.pow base exponent) (power (refolded s base) (refolded s exponent))

variable {s : Substitution}

theorem subst_eq_getD {e node : Expr} (h : s.find? e = none → e.subst s = node) :
    e.subst s = (s.find? e).getD node := by
  cases hfind : s.find? e with
  | none => exact h hfind
  | some r => exact subst_of_find? hfind

theorem subst_eq_rebuilt (e : Expr) : e.subst s = e.rebuilt s := by
  induction e with
  | lit | sym | dim =>
      rw [rebuilt]
      exact subst_eq_getD fun hfind => by simp [subst, replace?, hfind]
  | call f es ih =>
      rw [rebuilt, ← List.map_congr_left ih]
      exact subst_eq_getD subst_call
  | access f es ih =>
      rw [rebuilt, ← List.map_congr_left ih]
      exact subst_eq_getD subst_access
  | sum es ih =>
      rw [rebuilt, ← List.map_congr_left ih]
      exact subst_eq_getD subst_sum
  | prod es ih =>
      rw [rebuilt, ← List.map_congr_left ih]
      exact subst_eq_getD subst_prod
  | pow base exponent ihb ihe =>
      rw [rebuilt, ← ihb, ← ihe]
      exact subst_eq_getD subst_pow

theorem substFold_eq_atNode {e node : Expr}
    (h : s.find? e = none → e.children.any s.touches = true → e.substFold s = node) :
    e.substFold s = s.atNode e node := by
  unfold Substitution.atNode
  cases hfind : s.find? e with
  | some r => exact substFold_of_find? hfind
  | none =>
      cases htouches : s.touches e with
      | false => exact substFold_eq_self htouches
      | true => exact h hfind (any_touches_children hfind htouches)

theorem substFold_eq_refolded (e : Expr) : e.substFold s = e.refolded s := by
  induction e with
  | lit | sym | dim =>
      rw [refolded]
      exact substFold_eq_atNode fun _ hchildren => by simp [children] at hchildren
  | call f es ih =>
      rw [refolded, ← List.map_congr_left ih]
      exact substFold_eq_atNode fun hfind _ => substFold_call hfind
  | access f es ih =>
      rw [refolded, ← List.map_congr_left ih]
      exact substFold_eq_atNode fun hfind _ => substFold_access hfind
  | sum es ih =>
      rw [refolded, ← List.map_congr_left ih]
      exact substFold_eq_atNode substFold_sum
  | prod es ih =>
      rw [refolded, ← List.map_congr_left ih]
      exact substFold_eq_atNode substFold_prod
  | pow base exponent ihb ihe =>
      rw [refolded, ← ihb, ← ihe]
      exact substFold_eq_atNode fun hfind hchildren =>
        substFold_pow hfind (by simpa [children] using hchildren)

/-- No node is equal to a key. -/
def Apart (s : Substitution) (e : Expr) : Prop :=
  ∀ n, Occurs n e → ∀ entry ∈ s.entries, (n == entry.1) = false

theorem touches_eq_false_iff {e : Expr} : s.touches e = false ↔ Apart s e := by
  simp only [Substitution.touches, List.any_eq_false, mem_nodes_iff_occurs,
    Option.not_isSome_iff_eq_none, Substitution.find?_eq_none_iff]
  rfl

/-- Both replacements are recursions from the root down, on trees of any shape: the one that keeps
shapes builds each node again, and the one that folds builds again what is above a match,
canonically, and leaves every other subtree as it is written. Neither changes an expression without
a key in it. -/
theorem replacement_touches_only_matches :
    (∀ s e, subst e s = rebuilt s e) ∧ (∀ s e, substFold e s = refolded s e) ∧
      ∀ s e, Apart s e → subst e s = e ∧ substFold e s = e := by
  refine ⟨fun _ => subst_eq_rebuilt, fun _ => substFold_eq_refolded, fun s e hapart => ?_⟩
  have htouches := touches_eq_false_iff.mpr hapart
  exact ⟨subst_eq_self htouches, substFold_eq_self htouches⟩

def rawSum : Expr := .sum [.sym ⟨"x"⟩, int 1, int 2]

/-- The call `f(x + 1 + 2, 3*h)` as it is written. -/
def rawCall : Expr := .call ⟨"f", .function, []⟩ [rawSum, .prod [int 3, .sym ⟨"h"⟩]]

/-- Of two arguments the one with the key in it is built again. The other one is a sum that is not
canonical, and is not made so. -/
theorem replacement_touches_only_matches_raw :
    rebuilt ⟨[(.sym ⟨"h"⟩, int 2)]⟩ rawCall =
        .call ⟨"f", .function, []⟩ [rawSum, .prod [int 3, int 2]] ∧
      refolded ⟨[(.sym ⟨"h"⟩, int 2)]⟩ rawCall = .call ⟨"f", .function, []⟩ [rawSum, int 6] ∧
      Apart ⟨[(.sym ⟨"h"⟩, int 2)]⟩ rawSum ∧
      subst rawSum ⟨[(.sym ⟨"h"⟩, int 2)]⟩ = rawSum ∧
      substFold rawSum ⟨[(.sym ⟨"h"⟩, int 2)]⟩ = rawSum := by
  obtain ⟨hsubst, hfold, huntouched⟩ := replacement_touches_only_matches
  have hapart : Apart ⟨[(.sym ⟨"h"⟩, int 2)]⟩ rawSum := touches_eq_false_iff.mp (by decide)
  exact ⟨(hsubst _ _).symm.trans rfl, (hfold _ _).symm.trans rfl, hapart, huntouched _ _ hapart⟩

end Expr

end GridAccess
