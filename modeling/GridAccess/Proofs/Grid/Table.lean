import GridAccess.Proofs.Grid.Dimensions

/-!
Tables that grow by what is new. A table of dimensions is closed if it has every dimension under
the name of the dimension, and with it the parent; new dimensions with parents in the table keep
it closed.
-/

namespace GridAccess

open Ascending Std
open scoped List

/-! ### Adding under new names -/

section

variable {α β : Type} {step : List (String × β) → α → Except Error (List (String × β))}
  {key : α → String} {value : α → Except Error β}

/-- A step adds the value of what it is given under its key, which must be new. -/
def AddsNew (step : List (String × β) → α → Except Error (List (String × β))) (key : α → String)
    (value : α → Except Error β) : Prop :=
  ∀ table a after, step table a = .ok after ↔
    get? (key a) table = none ∧ ∃ v, value a = .ok v ∧ after = put (key a) v table

/-- The second table is the first one with the values of the elements under their keys. -/
structure Added (key : α → String) (value : α → Except Error β) (table : List (String × β))
    (xs : List α) (after : List (String × β)) : Prop where
  strict : Strict (after.map Prod.fst)
  within : Within table after
  keys : after.map Prod.fst ~ xs.map key ++ table.map Prod.fst
  added : ∀ a ∈ xs, ∃ v, value a = .ok v ∧ get? (key a) after = some v
  origin : ∀ k v, get? k after = some v → get? k table = some v ∨
    ∃ a ∈ xs, key a = k ∧ value a = .ok v

variable (hstep : AddsNew step key value)
include hstep

theorem AddsNew.added {xs : List α} {table after : List (String × β)}
    (hstrict : Strict (table.map Prod.fst)) (h : xs.foldlM step table = .ok after) :
    Added key value table xs after := by
  induction xs generalizing table with
  | nil =>
      cases h
      exact ⟨hstrict, .refl _, .refl _, by simp, fun _ _ => .inl⟩
  | cons a xs ih =>
      obtain ⟨next, hnext, hrest⟩ := foldlM_cons_eq_ok_iff.mp h
      obtain ⟨hnew, v, hv, rfl⟩ := (hstep _ _ _).mp hnext
      have hafter := ih (strict_put hstrict) hrest
      refine ⟨hafter.strict, (within_put hnew).trans hafter.within, ?_, ?_, fun k w hw => ?_⟩
      · calc after.map Prod.fst
          _ ~ xs.map key ++ (put (key a) v table).map Prod.fst := hafter.keys
          _ ~ xs.map key ++ key a :: table.map Prod.fst :=
            ((put_perm hnew).map Prod.fst).append_left _
          _ ~ (a :: xs).map key ++ table.map Prod.fst := List.perm_middle
      · exact List.forall_mem_cons.mpr
          ⟨⟨v, hv, hafter.within _ _ (get?_put_self hstrict)⟩, hafter.added⟩
      · rcases hafter.origin k w hw with hput | ⟨b, hb, hkey⟩
        · by_cases hk : k = key a
          · subst hk
            obtain rfl := Option.some.inj ((get?_put_self hstrict).symm.trans hput)
            exact .inr ⟨a, List.mem_cons_self, rfl, hv⟩
          · exact .inl ((get?_put_of_ne hk).symm.trans hput)
        · exact .inr ⟨b, List.mem_cons_of_mem _ hb, hkey⟩

theorem AddsNew.exists_iff {xs : List α} {table : List (String × β)} :
    (∃ after, xs.foldlM step table = .ok after) ↔
      (xs.map key).Nodup ∧ ∀ a ∈ xs, key a ∉ table.map Prod.fst ∧ ∃ v, value a = .ok v := by
  induction xs generalizing table with
  | nil => simp [pure, Except.pure]
  | cons a xs ih =>
      simp only [foldlM_cons_eq_ok_iff, hstep table a, List.map_cons, List.nodup_cons,
        List.forall_mem_cons]
      constructor
      · rintro ⟨after, next, ⟨hnew, v, hv, rfl⟩, hrest⟩
        obtain ⟨hnodup, hxs⟩ := ih.mp ⟨after, hrest⟩
        simp only [keys_put, mem_insert, not_or] at hxs
        refine ⟨⟨?_, hnodup⟩, ⟨get?_eq_none_iff.mp hnew, v, hv⟩, ?_⟩
        · intro hmem
          obtain ⟨b, hb, hkey⟩ := List.mem_map.mp hmem
          exact (hxs b hb).1.1 hkey
        · exact fun b hb => ⟨(hxs b hb).1.2, (hxs b hb).2⟩
      · rintro ⟨⟨ha, hnodup⟩, ⟨hnew, v, hv⟩, hxs⟩
        have hfresh (b : α) (hb : b ∈ xs) : key b ∉ (put (key a) v table).map Prod.fst := by
          rw [keys_put, mem_insert, not_or]
          exact ⟨fun hkey => ha (hkey ▸ List.mem_map_of_mem hb), (hxs b hb).1⟩
        obtain ⟨after, hafter⟩ := ih.mpr ⟨hnodup, fun b hb => ⟨hfresh b hb, (hxs b hb).2⟩⟩
        exact ⟨after, _, ⟨get?_eq_none_iff.mpr hnew, v, hv, rfl⟩, hafter⟩

end

/-! ### Closed tables -/

theorem lookupDimension_eq_ok_iff {table : List (String × Dimension)} {name : String}
    {d : Dimension} : lookupDimension table name = .ok d ↔ get? name table = some d := by
  unfold lookupDimension
  split <;> simp_all

/-- Every dimension is in the table under its own name, and so is its parent. -/
structure Closed (table : List (String × Dimension)) : Prop where
  strict : Strict (table.map Prod.fst)
  name_eq : ∀ name d, get? name table = some d → d.name = name
  parent : ∀ name d p, get? name table = some d → d.parent? = some p →
    get? p.name table = some p

theorem Closed.get?_name {table : List (String × Dimension)} (h : Closed table) {name : String}
    {d : Dimension} (hd : get? name table = some d) : get? d.name table = some d := by
  rw [h.name_eq name d hd, hd]

theorem DimensionEntry.closed_of_resolveAll {entries : List DimensionEntry}
    {table : List (String × Dimension)} (h : resolveAll entries = .ok table) : Closed table := by
  obtain ⟨-, htable⟩ := resolveAll_spec h
  have hname (name : String) (d : Dimension) (hd : get? name table = some d) : d.name = name := by
    obtain ⟨e, -, rfl, hbuilt⟩ := htable.built name d hd
    exact hbuilt.spec.2.1
  refine ⟨htable.strict, hname, fun name d p hd hp => ?_⟩
  obtain ⟨e, -, -, hbuilt⟩ := htable.built name d hd
  rw [hbuilt.spec.2.2.2] at hp
  obtain ⟨q, -, hq⟩ := Option.bind_eq_some_iff.mp hp
  rw [hname q p hq, hq]

theorem Closed.map_name {table : List (String × Dimension)} (hclosed : Closed table)
    {names : List String} {dimensions : List Dimension}
    (h : List.Forall₂ (fun name d => get? name table = some d) names dimensions) :
    dimensions.map Dimension.name = names ∧ ∀ d ∈ dimensions, get? d.name table = some d := by
  induction h with
  | nil => simp
  | cons hd _ ih =>
      rw [List.map_cons, hclosed.name_eq _ _ hd, ih.1]
      exact ⟨rfl, List.forall_mem_cons.mpr ⟨hclosed.get?_name hd, ih.2⟩⟩

/-- The dimensions that are created have parents in the table. -/
theorem closed_of_added {table after : List (String × Dimension)} (hclosed : Closed table)
    {news : List Dimension} (hafter : Added Dimension.name .ok table news after)
    (hparents : ∀ d ∈ news, ∀ p, d.parent? = some p → get? p.name table = some p) :
    Closed after where
  strict := hafter.strict
  name_eq := by
    intro name d hd
    rcases hafter.origin name d hd with hold | ⟨d', -, rfl, hsame⟩
    · exact hclosed.name_eq name d hold
    · rw [Except.ok.inj hsame]
  parent := by
    intro name d p hd hp
    apply hafter.within
    rcases hafter.origin name d hd with hold | ⟨d', hd', -, hsame⟩
    · exact hclosed.parent name d p hold hp
    · obtain rfl := Except.ok.inj hsame
      exact hparents _ hd' p hp

end GridAccess
