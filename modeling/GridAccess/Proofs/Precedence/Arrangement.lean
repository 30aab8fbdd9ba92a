import GridAccess.Precedence.Arrangement
import GridAccess.Proofs.Precedence.Linearization
import Mathlib.Data.List.Pairwise

/-!
Arrangements. There is one unless the relations have a cycle, and it depends on which items and
relations there are but not on how they are listed.

An arrangement respects those relations that can be added to it without changing its order. The
positions in the order decide this alone: a relation that agrees with them rules out no item that
was taken, so that the smallest items that may be taken remain the same.
-/

namespace GridAccess.Arrangement

open Std

section

variable {α : Type} [Ord α] [ToString α] [TransOrd α] [LawfulEqOrd α]

theorem build_eq_ok_or_circular (items : List α) (relations : List (List α)) :
    (∃ order, build items relations = .ok ⟨order, Ascending.ofList relations⟩ ∧
      IsExtension (Mentioned items (Ascending.ofList relations))
        (Precedes (Ascending.ofList relations)) order) ∨
      (∃ culprits, build items relations = .error (.circular culprits)) ∧
        ¬ Acyclic (Precedes (Ascending.ofList relations)) := by
  rcases linearize_eq_ok_or_error items (Ascending.ofList relations) with
    ⟨order, hok, hext, -⟩ | ⟨⟨culprits, herror⟩, hcycle⟩
  · exact .inl ⟨order, by simp only [build, hok], hext⟩
  · exact .inr ⟨⟨culprits.map toString, by simp only [build, herror]⟩, hcycle⟩

theorem build_congr {items items' : List α} {relations relations' : List (List α)}
    (hitems : ∀ a, a ∈ items ↔ a ∈ items') (hrelations : ∀ r, r ∈ relations ↔ r ∈ relations') :
    build items relations = build items' relations' := by
  have hset : Ascending.ofList relations = Ascending.ofList relations' := by
    apply (Ascending.strict_ofList relations).ext (Ascending.strict_ofList relations')
    intro r
    rw [Ascending.mem_ofList, Ascending.mem_ofList, hrelations]
  have horder : linearize items (Ascending.ofList relations') =
      linearize items' (Ascending.ofList relations') := by
    refine linearize_congr ?_ fun _ _ => Iff.rfl
    intro a
    rw [Mentioned, Mentioned, hitems]
  simp only [build, hset, horder]

end

/-! ### Positions -/

theorem isMonotone_iff (positions : List Nat) :
    isMonotone positions = true ↔ positions.Pairwise (· ≤ ·) := by
  rw [← List.isChain_iff_pairwise]
  induction positions with
  | nil => simp [isMonotone]
  | cons i rest ih =>
      cases rest with
      | nil => simp [isMonotone]
      | cons j rest => simp [isMonotone, ih]

section

variable {α : Type} [BEq α] [LawfulBEq α]

/-- In a list without repetitions the positions tell which of two elements comes first. -/
theorem idxOf_le_idxOf_iff {items : List α} (hnodup : items.Nodup) {b c : α} (hbc : b ≠ c)
    (hb : b ∈ items) (hc : c ∈ items) :
    items.idxOf b ≤ items.idxOf c ↔ [b, c].Sublist items := by
  induction items with
  | nil => cases hb
  | cons x items ih =>
      obtain ⟨hx, hitems⟩ := List.nodup_cons.mp hnodup
      rw [pair_sublist_cons_iff]
      by_cases hbx : b = x
      · subst hbx
        have hc' : c ∈ items := (List.mem_cons.mp hc).resolve_left hbc.symm
        simp [hc']
      · have hb' : b ∈ items := (List.mem_cons.mp hb).resolve_left hbx
        rw [List.idxOf_cons_ne _ (Ne.symm hbx)]
        by_cases hcx : c = x
        · subst hcx
          have hnot : ¬ [b, c].Sublist items := fun h => hx (h.mem (by simp))
          simp [hbx, hnot]
        · have hc' : c ∈ items := (List.mem_cons.mp hc).resolve_left hcx
          rw [List.idxOf_cons_ne _ (Ne.symm hcx), Nat.succ_le_succ_iff, ih hitems hb' hc']
          simp [hbx]

theorem findIdx?_eq_some_iff {items : List α} {b : α} {i : Nat} :
    items.findIdx? (· == b) = some i ↔ b ∈ items ∧ items.idxOf b = i := by
  rw [List.findIdx?_eq_guard_findIdx_lt, Option.guard_eq_some_iff, decide_eq_true_eq]
  show items.idxOf b = i ∧ items.idxOf b < items.length ↔ _
  rw [List.idxOf_lt_length_iff, and_comm]

theorem mapM_findIdx?_eq_some_iff {items relation : List α} {positions : List Nat} :
    (relation.mapM fun b => items.findIdx? (· == b)) = some positions ↔
      (∀ b ∈ relation, b ∈ items) ∧ relation.map (items.idxOf ·) = positions := by
  induction relation generalizing positions with
  | nil => simp
  | cons b relation ih =>
      simp only [List.mapM_cons, Option.bind_eq_bind, Option.bind_eq_some_iff,
        findIdx?_eq_some_iff, ih, Option.pure_def, Option.some.injEq, List.forall_mem_cons,
        List.map_cons]
      constructor
      · rintro ⟨i, ⟨hb, rfl⟩, rest, ⟨hrest, rfl⟩, rfl⟩
        exact ⟨⟨hb, hrest⟩, rfl⟩
      · rintro ⟨⟨hb, hrest⟩, rfl⟩
        exact ⟨_, ⟨hb, rfl⟩, _, ⟨hrest, rfl⟩, rfl⟩

/-- A relation is respected if what it lists is arranged, different elements in its order. -/
theorem respects_iff [Ord α] {a : Arrangement α} (hnodup : a.items.Nodup) (relation : List α) :
    a.respects relation = true ↔
      (∀ b ∈ relation, b ∈ a.items) ∧
        ∀ b c, b ≠ c → [b, c].Sublist relation → [b, c].Sublist a.items := by
  have hpositions : a.respects relation = true ↔ (∀ b ∈ relation, b ∈ a.items) ∧
      (relation.map (a.items.idxOf ·)).Pairwise (· ≤ ·) := by
    unfold respects
    split
    · next positions h =>
        obtain ⟨hmem, rfl⟩ := mapM_findIdx?_eq_some_iff.mp h
        rw [isMonotone_iff, and_iff_right hmem]
    · next h =>
        refine iff_of_false Bool.false_ne_true fun hmem => ?_
        rw [mapM_findIdx?_eq_some_iff.mpr ⟨hmem.1, rfl⟩] at h
        cases h
  rw [hpositions, List.pairwise_map, List.pairwise_iff_forall_sublist]
  refine and_congr_right fun hmem => ⟨?_, ?_⟩
  · intro h b c hbc hsub
    exact (idxOf_le_idxOf_iff hnodup hbc (hmem b (hsub.mem (by simp)))
      (hmem c (hsub.mem (by simp)))).mp (h hsub)
  · intro h b c hsub
    by_cases hbc : b = c
    · subst hbc
      exact Nat.le_refl _
    · exact (idxOf_le_idxOf_iff hnodup hbc (hmem b (hsub.mem (by simp)))
        (hmem c (hsub.mem (by simp)))).mpr (h b c hbc hsub)

end

/-! ### One relation more -/

section

variable {α : Type} [Ord α]

theorem build_eq_ok_iff [ToString α] {items : List α} {relations : List (List α)}
    {a : Arrangement α} :
    build items relations = .ok a ↔
      linearize items (Ascending.ofList relations) = .ok a.items ∧
        a.relations = Ascending.ofList relations := by
  obtain ⟨order, set⟩ := a
  cases h : linearize items (Ascending.ofList relations) with
  | ok order' => simp [build, h, eq_comm]
  | error culprits => simp [build, h]

variable [LawfulEqOrd α] {items relation : List α} {relations : List (List α)}

theorem mentioned_insert {b : α} :
    Mentioned items (Ascending.ofList (Ascending.insert relation relations)) b ↔
      b ∈ relation ∨ Mentioned items relations b := by
  simp [Mentioned, or_left_comm]

theorem precedes_insert {b c : α} :
    Precedes (Ascending.ofList (Ascending.insert relation relations)) b c ↔
      (b ≠ c ∧ [b, c].Sublist relation) ∨ Precedes relations b c := by
  simp [Precedes, and_or_left]

/-- An arrangement respects a relation if its order would do for that relation as well. -/
theorem respects_iff_isExtension [BEq α] [LawfulBEq α] {a : Arrangement α}
    (h : IsExtension (Mentioned items a.relations) (Precedes a.relations) a.items) :
    a.respects relation = true ↔
      IsExtension (Mentioned a.items (Ascending.ofList (Ascending.insert relation a.relations)))
        (Precedes (Ascending.ofList (Ascending.insert relation a.relations))) a.items := by
  rw [respects_iff h.nodup]
  constructor
  · rintro ⟨hmem, hordered⟩
    refine ⟨h.nodup, ?_, ?_⟩
    · intro b
      refine ⟨fun hb => .inl hb, fun hb => ?_⟩
      rcases mentioned_insert.mp hb with hb | hb | hb
      · exact hmem b hb
      · exact hb
      · exact (h.mem_iff b).mpr (.inr hb)
    · intro b c hbc
      rcases precedes_insert.mp hbc with ⟨hne, hsub⟩ | hbc
      · exact hordered b c hne hsub
      · exact h.ordered b c hbc
  · intro hext
    refine ⟨fun b hb => ?_, fun b c hne hsub => ?_⟩
    · exact (hext.mem_iff b).mpr (mentioned_insert.mpr (.inl hb))
    · exact hext.ordered b c (precedes_insert.mpr (.inl ⟨hne, hsub⟩))

variable [TransOrd α] [ToString α] [BEq α] [LawfulBEq α]

/-- The relations that an arrangement respects are those that can be added to it without changing
its order, the ones it was built from among them. -/
theorem respects_iff_build {a : Arrangement α} (h : build items relations = .ok a) :
    (∀ relation, a.respects relation = true ↔
      ∃ a', build a.items (Ascending.insert relation a.relations) = .ok a' ∧
        a'.items = a.items) ∧
    ∀ relation ∈ relations, a.respects relation = true := by
  obtain ⟨horder, hset⟩ := build_eq_ok_iff.mp h
  rw [← hset] at horder
  obtain ⟨hext, hgreedy⟩ := linearize_eq_ok_iff.mp horder
  refine ⟨fun relation => ⟨?_, ?_⟩, ?_⟩
  · intro hrespects
    have hext' := (respects_iff_isExtension hext).mp hrespects
    refine ⟨⟨a.items, Ascending.ofList (Ascending.insert relation a.relations)⟩, ?_, rfl⟩
    refine build_eq_ok_iff.mpr ⟨linearize_eq_ok_iff.mpr ⟨hext', ?_⟩, rfl⟩
    -- Whatever may come next with the new relation might have come next without it.
    refine hgreedy.of_isExtension hext' fun {done b} hb => ?_
    refine ⟨?_, hb.not_done, fun p hp => hb.done_of_pred p (precedes_insert.mpr (.inr hp))⟩
    exact (hext.mem_iff b).mp ((hext'.mem_iff b).mpr hb.mem)
  · rintro ⟨a', hbuild, hitems⟩
    obtain ⟨horder', -⟩ := build_eq_ok_iff.mp hbuild
    rw [hitems] at horder'
    exact (respects_iff_isExtension hext).mpr (linearize_eq_ok_iff.mp horder').1
  · intro relation hrelation
    have hmem : relation ∈ a.relations := by
      rw [hset]
      exact Ascending.mem_ofList.mpr hrelation
    refine (respects_iff hext.nodup relation).mpr ⟨fun b hb => ?_, fun b c hne hsub => ?_⟩
    · exact (hext.mem_iff b).mpr (.inr ⟨relation, hmem, hb⟩)
    · exact hext.ordered b c ⟨hne, relation, hmem, hsub⟩

end

/-- Three items in a row respect the first before the last, but neither the converse nor an
unknown item. -/
theorem respects_iff_build_row :
    build ["y", "x", "t"] [["x", "y"], ["t", "x"]] =
        .ok ⟨["t", "x", "y"], [["t", "x"], ["x", "y"]]⟩ ∧
      (∃ a', build ["t", "x", "y"] (Ascending.insert ["t", "y"] [["t", "x"], ["x", "y"]]) = .ok a' ∧
        a'.items = ["t", "x", "y"]) ∧
      ∀ relation ∈ [["y", "t"], ["t", "q"]],
        ¬ ∃ a',
          build ["t", "x", "y"] (Ascending.insert relation [["t", "x"], ["x", "y"]]) = .ok a' ∧
            a'.items = ["t", "x", "y"] := by
  let row : Arrangement String := ⟨["t", "x", "y"], [["t", "x"], ["x", "y"]]⟩
  have hbuild : build ["y", "x", "t"] [["x", "y"], ["t", "x"]] = .ok row := by decide +kernel
  have hnone : ∀ relation ∈ [["y", "t"], ["t", "q"]], row.respects relation = false := by
    decide +kernel
  obtain ⟨hrespects, -⟩ := respects_iff_build hbuild
  refine ⟨hbuild, (hrespects ["t", "y"]).mp (by decide +kernel), fun relation hrelation h => ?_⟩
  rw [← hrespects relation, hnone relation hrelation] at h
  cases h

end GridAccess.Arrangement
