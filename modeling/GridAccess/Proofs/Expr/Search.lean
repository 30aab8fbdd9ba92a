import GridAccess.Proofs.Expr.Equality

/-!
The calls and accesses that are found among nodes: each of them is one of the nodes, and every
use of a field among the nodes is equal to one that is found. Both kinds of uses are searched for
in the same way.
-/

namespace GridAccess

/-! ### Lists without repetitions -/

/-- Induction along the heads, where a head is followed by what is left of the tail. -/
theorem filterInduction {α : Type} (keep : α → α → Bool) {motive : List α → Prop} (nil : motive [])
    (cons : ∀ x xs, motive (xs.filter (keep x)) → motive (x :: xs)) (xs : List α) : motive xs := by
  induction hn : xs.length using Nat.strongRecOn generalizing xs with
  | ind n ih =>
      cases xs with
      | nil => exact nil
      | cons x xs =>
          have hlength := List.length_filter_le (keep x) xs
          exact cons x xs (ih _ (by grind) _ rfl)

theorem mem_of_mem_eraseDupsBy {α : Type} {r : α → α → Bool} {a : α} {xs : List α}
    (h : a ∈ xs.eraseDupsBy r) : a ∈ xs := by
  induction xs using filterInduction fun x b => r b x = false with
  | nil => exact h
  | cons x xs ih =>
      rw [List.eraseDupsBy_cons] at h
      rcases List.mem_cons.mp h with rfl | h
      · exact List.mem_cons_self
      · exact List.mem_cons_of_mem _ (List.mem_of_mem_filter (ih h))

/-- Related lists keep related elements if the relation respects what counts as a repetition. -/
theorem rel_eraseDupsBy {α β : Type} {R : α → β → Prop} {r : α → α → Bool} {s : β → β → Bool}
    (hrs : ∀ {a b a' b'}, R a a' → R b b' → r a b = s a' b') {xs : List α} {ys : List β}
    (h : List.Forall₂ R xs ys) : List.Forall₂ R (xs.eraseDupsBy r) (ys.eraseDupsBy s) := by
  induction xs using filterInduction (fun x b => r b x = false) generalizing ys with
  | nil =>
      obtain rfl := List.forall₂_nil_left_iff.mp h
      exact .nil
  | cons x xs ih =>
      obtain ⟨y, ys, hxy, htail, rfl⟩ := List.forall₂_cons_left_iff.mp h
      rw [List.eraseDupsBy_cons, List.eraseDupsBy_cons]
      refine .cons hxy (ih (List.rel_filter ?_ htail))
      intro a a' haa'
      show decide (r a x = false) = true ↔ decide (s a' y = false) = true
      rw [hrs haa' hxy]

section

variable {α : Type} [BEq α]

theorem mem_of_mem_eraseDups {a : α} {xs : List α} (h : a ∈ xs.eraseDups) : a ∈ xs :=
  mem_of_mem_eraseDupsBy h

theorem exists_mem_eraseDups [ReflBEq α] {a : α} {xs : List α} (h : a ∈ xs) :
    ∃ b ∈ xs.eraseDups, (a == b) = true := by
  induction xs using filterInduction fun x b : α => !b == x with
  | nil => cases h
  | cons x xs ih =>
      rw [List.eraseDups_cons]
      by_cases hax : (a == x) = true
      · exact ⟨x, List.mem_cons_self, hax⟩
      · have hmem : a ∈ xs.filter fun b => !b == x := by
          rcases List.mem_cons.mp h with rfl | h
          · simp at hax
          · exact List.mem_filter.mpr ⟨h, by simpa using hax⟩
        obtain ⟨b, hb, hab⟩ := ih hmem
        exact ⟨b, List.mem_cons_of_mem _ hb, hab⟩

theorem pairwise_eraseDups [PartialEquivBEq α] (xs : List α) :
    xs.eraseDups.Pairwise fun a b => (a == b) = false := by
  induction xs using filterInduction fun x b : α => !b == x with
  | nil => exact .nil
  | cons x xs ih =>
      rw [List.eraseDups_cons]
      refine .cons (fun b hb => ?_) ih
      have hbx := (List.mem_filter.mp (mem_of_mem_eraseDups hb)).2
      rw [BEq.comm]
      simpa using hbx

/-- What stands in the list before an element that is kept is kept before it. -/
theorem exists_split_of_eraseDups [ReflBEq α] {xs before after : List α} {a : α}
    (h : xs.eraseDups = before ++ a :: after) :
    ∃ before' after', xs = before' ++ a :: after' ∧
      ∀ b ∈ before', ∃ c ∈ before, (b == c) = true := by
  induction xs using filterInduction (fun x b : α => !b == x) generalizing before with
  | nil => simp at h
  | cons x xs ih =>
      rw [List.eraseDups_cons] at h
      rcases List.cons_eq_append_iff.mp h with ⟨rfl, heq⟩ | ⟨rest, rfl, heq⟩
      · obtain ⟨rfl, -⟩ := List.cons.inj heq
        exact ⟨[], xs, rfl, by simp⟩
      · obtain ⟨before', after', hsplit, hkept⟩ := ih heq
        obtain ⟨m, m', rfl, rfl, hm'⟩ := List.filter_eq_append_iff.mp hsplit
        obtain ⟨k, k', rfl, hk, -, -⟩ := List.filter_eq_cons_iff.mp hm'
        refine ⟨x :: m ++ k, k', by simp, fun b hb => ?_⟩
        -- What is left out from here on is equal to the head, which is kept.
        by_cases hbx : (b == x) = true
        · exact ⟨x, List.mem_cons_self, hbx⟩
        · rcases List.mem_append.mp hb with hb | hb
          · rcases List.mem_cons.mp hb with rfl | hb
            · simp at hbx
            · obtain ⟨c, hc, hbc⟩ := hkept b (List.mem_filter.mpr ⟨hb, by simpa using hbx⟩)
              exact ⟨c, List.mem_cons_of_mem _ hc, hbc⟩
          · exact absurd (hk b hb) (by simpa using hbx)

theorem filter_eraseDups {p : α → Bool} (hp : ∀ {a b : α}, (a == b) = true → p a = p b)
    (xs : List α) : xs.eraseDups.filter p = (xs.filter p).eraseDups := by
  induction xs using filterInduction fun x b : α => !b == x with
  | nil => rfl
  | cons x xs ih =>
      rw [List.eraseDups_cons]
      by_cases hx : p x = true
      · rw [List.filter_cons_of_pos hx, List.filter_cons_of_pos hx, List.eraseDups_cons, ih,
          List.filter_filter, List.filter_filter]
        simp only [Bool.and_comm]
      · rw [List.filter_cons_of_neg hx, List.filter_cons_of_neg hx, ih, List.filter_filter]
        refine congrArg List.eraseDups (List.filter_congr fun b _ => ?_)
        by_cases hbx : (b == x) = true
        · simp [hp hbx, hx]
        · simp [hbx]

/-- The elements of a list and then those of another one that are not among them. -/
def merge (xs ys : List α) : List α := xs ++ ys.filter fun b => !xs.contains b

theorem eraseDups_append [EquivBEq α] (xs ys : List α) :
    (xs ++ ys).eraseDups = merge xs.eraseDups ys.eraseDups := by
  induction xs using filterInduction (fun x b : α => !b == x) generalizing ys with
  | nil => simp [merge]
  | cons x xs ih =>
      have hys := filter_eraseDups (p := fun b => !b == x)
        (fun {a b} hab => by rw [BEq.congr_left hab]) ys
      rw [List.cons_append, List.eraseDups_cons, List.filter_append, ih, ← hys, merge, merge,
        List.filter_filter, List.eraseDups_cons, List.cons_append]
      congr 2
      refine List.filter_congr fun b _ => ?_
      rw [List.contains_cons, Bool.not_or, Bool.and_comm]

end

/-! ### Calls and accesses -/

namespace Expr

theorem beq_call_eq_same (c d : Call) : (c == d) = c.toExpr.same d.toExpr := by
  rw [Call.toExpr, Call.toExpr, same]
  rfl

theorem beq_access_eq_same (a b : Access) : (a == b) = a.toExpr.same b.toExpr := by
  rw [Access.toExpr, Access.toExpr, same]
  rfl

theorem access?_eq_some_iff {e : Expr} {a : Access} : e.access? = some a ↔ e = a.toExpr := by
  obtain ⟨g, es⟩ := a
  cases e <;> simp [access?, Access.toExpr]

theorem call?_eq_some_iff {e : Expr} {c : Call} : e.call? = some c ↔ e = c.toExpr := by
  obtain ⟨g, es⟩ := c
  cases e <;> simp [call?, Call.toExpr]

end Expr

/-- A kind of use of a field: how it is recognised and how it is written as an expression. Uses are
equal if what is written is. -/
structure UseKind (α : Type) [BEq α] where
  ofExpr? : Expr → Option α
  toExpr : α → Expr
  ofExpr?_eq_some_iff : ∀ {e a}, ofExpr? e = some a ↔ e = toExpr a
  beq_eq_same : ∀ a b, (a == b) = (toExpr a).same (toExpr b)

namespace UseKind

def calls : UseKind Call where
  ofExpr? := Expr.call?
  toExpr := Call.toExpr
  ofExpr?_eq_some_iff := Expr.call?_eq_some_iff
  beq_eq_same := Expr.beq_call_eq_same

def accesses : UseKind Access where
  ofExpr? := Expr.access?
  toExpr := Access.toExpr
  ofExpr?_eq_some_iff := Expr.access?_eq_some_iff
  beq_eq_same := Expr.beq_access_eq_same

section

variable {α : Type} [BEq α]

theorem equivBEq (kind : UseKind α) : EquivBEq α where
  rfl {a} := by
    rw [kind.beq_eq_same]
    exact Expr.same_refl _
  symm {a b} := by
    rw [kind.beq_eq_same, kind.beq_eq_same]
    exact Expr.same_symm
  trans {a b c} := by
    rw [kind.beq_eq_same, kind.beq_eq_same, kind.beq_eq_same]
    exact Expr.same_trans

variable (kind : UseKind α) {ns : List Expr}

theorem toExpr_mem {a : α} (h : a ∈ (ns.filterMap kind.ofExpr?).eraseDups) :
    kind.toExpr a ∈ ns := by
  obtain ⟨n, hn, ha⟩ := List.mem_filterMap.mp (mem_of_mem_eraseDups h)
  exact kind.ofExpr?_eq_some_iff.mp ha ▸ hn

theorem exists_same_of_mem (a : α) (h : kind.toExpr a ∈ ns) :
    ∃ b ∈ (ns.filterMap kind.ofExpr?).eraseDups,
      (kind.toExpr a).same (kind.toExpr b) = true := by
  have := kind.equivBEq
  have hmem : a ∈ ns.filterMap kind.ofExpr? :=
    List.mem_filterMap.mpr ⟨_, h, kind.ofExpr?_eq_some_iff.mpr rfl⟩
  obtain ⟨b, hb, hab⟩ := exists_mem_eraseDups hmem
  exact ⟨b, hb, (kind.beq_eq_same a b).symm.trans hab⟩

end

end UseKind

instance : EquivBEq Call := UseKind.calls.equivBEq

instance : EquivBEq Access := UseKind.accesses.equivBEq

end GridAccess
