import GridAccess.Proofs.Grid.Table

/-!
Resolution of fields, which have margins along all their axes or along none. A list of margins
fits if it is empty or as long as the list of dimensions, and then none of them is dropped.
-/

namespace GridAccess

open Ascending Std

/-- The field has margins for all its axes, and these are in the table. -/
structure Field.Uses (table : List (String × Dimension)) (f : Field) : Prop where
  halo : f.halo.length = f.dimensions.length
  padding : f.padding.length = f.dimensions.length
  dimension : ∀ d ∈ f.dimensions, get? d.name table = some d

theorem Field.Uses.mono {table more : List (String × Dimension)} {f : Field} (h : f.Uses table)
    (hmore : Within table more) : f.Uses more :=
  ⟨h.halo, h.padding, fun d hd => hmore _ _ (h.dimension d hd)⟩

namespace Field

theorem length_fillMargins_eq_iff {count : Nat} {margins : List Margin} :
    (fillMargins count margins).length = count ↔ margins = [] ∨ margins.length = count := by
  cases margins <;> simp [fillMargins]

theorem map_zipAxes {dimensions : List Dimension} {halo padding : List Margin}
    (hhalo : halo.length = dimensions.length) (hpadding : padding.length = dimensions.length) :
    (zipAxes dimensions halo padding).map Axis.dimension = dimensions ∧
      (zipAxes dimensions halo padding).map Axis.halo = halo ∧
      (zipAxes dimensions halo padding).map Axis.padding = padding := by
  induction dimensions generalizing halo padding with
  | nil =>
      rw [List.eq_nil_of_length_eq_zero hhalo, List.eq_nil_of_length_eq_zero hpadding]
      exact ⟨rfl, rfl, rfl⟩
  | cons d dimensions ih =>
      obtain ⟨h, halo, rfl⟩ := List.exists_cons_of_length_eq_add_one hhalo
      obtain ⟨p, padding, rfl⟩ := List.exists_cons_of_length_eq_add_one hpadding
      obtain ⟨hd, hh, hp⟩ := ih (Nat.succ.inj hhalo) (Nat.succ.inj hpadding)
      exact ⟨congrArg (d :: ·) hd, congrArg (h :: ·) hh, congrArg (p :: ·) hp⟩

section

variable {name : String} {kind : FieldKind} {dimensions : List Dimension}
  {halo padding : List Margin}

theorem exists_build_iff :
    (∃ f, build name kind dimensions halo padding = .ok f) ↔
      (halo = [] ∨ halo.length = dimensions.length) ∧
        (padding = [] ∨ padding.length = dimensions.length) := by
  simp only [← length_fillMargins_eq_iff, build]
  split <;> simp_all

theorem build_spec {f : Field} (h : build name kind dimensions halo padding = .ok f) :
    f.name = name ∧ f.kind = kind ∧ f.dimensions = dimensions ∧
      f.halo = fillMargins dimensions.length halo ∧
      f.padding = fillMargins dimensions.length padding := by
  simp only [build] at h
  split at h
  · next hlengths =>
      obtain ⟨hd, hh, hp⟩ := map_zipAxes hlengths.1 hlengths.2
      obtain rfl := Except.ok.inj h
      exact ⟨rfl, rfl, hd, hh, hp⟩
  · cases h

end

end Field

namespace FieldEntry

/-- The field uses declared dimensions, with margins for all of them or for none. -/
@[mk_iff]
structure Fits (names : List String) (f : FieldEntry) : Prop where
  declared : ∀ name ∈ f.dimensions, name ∈ names
  halo : f.halo = [] ∨ f.halo.length = f.dimensions.length
  padding : f.padding = [] ∨ f.padding.length = f.dimensions.length

/-- The field is as the entry says, with margins of zero for margins that are not given. -/
structure Describes (e : FieldEntry) (f : Field) : Prop where
  name : f.name = e.name
  kind : f.kind = e.kind
  dimensions : f.dimensions.map Dimension.name = e.dimensions
  halo : f.halo = Field.fillMargins e.dimensions.length e.halo
  padding : f.padding = Field.fillMargins e.dimensions.length e.padding

variable {table : List (String × Dimension)}

theorem resolve_eq_ok_iff {e : FieldEntry} {f : Field} :
    e.resolve table = .ok f ↔
      ∃ dimensions, List.Forall₂ (fun name d => get? name table = some d) e.dimensions dimensions ∧
        Field.build e.name e.kind dimensions e.halo e.padding = .ok f := by
  simp only [resolve, bind_eq_ok_iff, mapM_eq_ok_iff, lookupDimension_eq_ok_iff]

theorem exists_resolve_iff {e : FieldEntry} :
    (∃ f, e.resolve table = .ok f) ↔ e.Fits (table.map Prod.fst) := by
  simp only [resolve_eq_ok_iff]
  constructor
  · rintro ⟨f, dimensions, hlooked, hf⟩
    obtain ⟨hhalo, hpadding⟩ := Field.exists_build_iff.mp ⟨f, hf⟩
    rw [← hlooked.length_eq] at hhalo hpadding
    refine ⟨fun name hname => ?_, hhalo, hpadding⟩
    obtain ⟨d, hd⟩ := exists_forall₂_iff.mp ⟨dimensions, hlooked⟩ name hname
    exact get?_ne_none_iff.mp (by simp [hd])
  · rintro ⟨hdeclared, hhalo, hpadding⟩
    obtain ⟨dimensions, hlooked⟩ := exists_forall₂_iff.mpr fun name hname =>
      Option.ne_none_iff_exists'.mp (get?_ne_none_iff.mpr (hdeclared name hname))
    rw [hlooked.length_eq] at hhalo hpadding
    obtain ⟨f, hf⟩ := Field.exists_build_iff.mpr ⟨hhalo, hpadding⟩
    exact ⟨f, dimensions, hlooked, hf⟩

theorem addsNew (table : List (String × Dimension)) :
    AddsNew (addTo table) FieldEntry.name (resolve table) := by
  intro fields e after
  unfold addTo
  split
  · next hpresent => simp [Option.isSome_iff_ne_none.mp hpresent]
  · next hnew =>
      rw [bind_eq_ok_iff]
      simp [Option.not_isSome_iff_eq_none.mp hnew, @eq_comm _ after]

theorem resolve_spec (hclosed : Closed table) {e : FieldEntry} {f : Field}
    (h : e.resolve table = .ok f) : f.Uses table ∧ e.Describes f := by
  obtain ⟨dimensions, hlooked, hbuild⟩ := resolve_eq_ok_iff.mp h
  obtain ⟨hhalo, hpadding⟩ := Field.exists_build_iff.mp ⟨f, hbuild⟩
  obtain ⟨hname, hkind, rfl, hf, hp⟩ := Field.build_spec hbuild
  obtain ⟨hnames, hdimensions⟩ := hclosed.map_name hlooked
  refine ⟨⟨?_, ?_, hdimensions⟩, hname, hkind, hnames, ?_, ?_⟩
  · rw [hf, Field.length_fillMargins_eq_iff.mpr hhalo]
  · rw [hp, Field.length_fillMargins_eq_iff.mpr hpadding]
  · rw [hlooked.length_eq, hf]
  · rw [hlooked.length_eq, hp]

end FieldEntry

end GridAccess
