import GridAccess.Proofs.Grid.Table
import GridAccess.Proofs.Order
import Mathlib.Data.List.Nodup

/-!
Resolution of one subdomain against a closed table of dimensions. Dimensions in the table are the
same if their names are, and the names of their parts differ as theirs do.
-/

namespace GridAccess

open Ascending Std
open scoped List

/-- The subdomain maps dimensions in the table to parts of them in the table. -/
def Subdomain.Uses (table : List (String × Dimension)) (s : Subdomain) : Prop :=
  ∀ pair ∈ s.substitutes, Ascending.get? pair.1.name table = some pair.1 ∧
    Ascending.get? pair.2.name table = some pair.2 ∧
    ∃ thickness, pair.2 = .derived (pair.1.name ++ "_" ++ s.name) (.sub thickness) pair.1

theorem Subdomain.Uses.mono {table more : List (String × Dimension)} {s : Subdomain}
    (h : s.Uses table) (hmore : Within table more) : s.Uses more := by
  intro pair hpair
  obtain ⟨hfrom, hto, hpart⟩ := h pair hpair
  exact ⟨hmore _ _ hfrom, hmore _ _ hto, hpart⟩

theorem Subdomain.substitutes_restrict (region : String)
    {restrictions : List (Dimension × Thickness)} (h : (restrictions.map Prod.fst).Nodup) :
    (restrict region restrictions).substitutes.Perm
      (restrictions.map fun (d, thickness) => (d, part region d thickness)) := by
  have hnodup : ((restrictions.map fun (d, thickness) => (d, part region d thickness)).map
      Prod.fst).Nodup := by
    simpa [Function.comp_def] using h
  have hperm := foldl_put_perm hnodup fun _ _ => get?_nil _
  rwa [List.append_nil] at hperm

namespace SubdomainEntry

/-- The names of the dimensions that the subdomain creates. -/
def created (e : SubdomainEntry) : List String :=
  e.dimensions.map fun restriction => restriction.name ++ "_" ++ e.name

/-- The subdomain restricts different dimensions that are present, and what it creates is new. -/
@[mk_iff]
structure Fits (names : List String) (e : SubdomainEntry) : Prop where
  distinct : (e.dimensions.map RestrictionEntry.name).Nodup
  present : ∀ restriction ∈ e.dimensions, restriction.name ∈ names
  fresh : ∀ name ∈ e.created, name ∉ names

/-- The subdomain restricts what the entry says and as it says. -/
structure Describes (e : SubdomainEntry) (s : Subdomain) : Prop where
  name : s.name = e.name
  restricted : (s.substitutes.map fun pair => pair.1.name) ~
    e.dimensions.map RestrictionEntry.name
  part : ∀ restriction ∈ e.dimensions, ∃ d, d.name = restriction.name ∧
    (d, Subdomain.part e.name d restriction.thickness) ∈ s.substitutes

/-- The entry asks for this restriction of a dimension in the table. -/
def Asks (table : List (String × Dimension)) (e : RestrictionEntry)
    (restriction : Dimension × Thickness) : Prop :=
  get? e.name table = some restriction.1 ∧ restriction.2 = e.thickness

variable {table : List (String × Dimension)}

theorem addRestriction_eq_ok_iff {region : String} {e : RestrictionEntry}
    {before after : List (Dimension × Thickness)} :
    addRestriction table region before e = .ok after ↔
      ∃ restriction, Asks table e restriction ∧ restriction.1 ∉ before.map Prod.fst ∧
        after = before ++ [restriction] := by
  unfold addRestriction
  rw [bind_eq_ok_iff]
  simp only [lookupDimension_eq_ok_iff]
  constructor
  · rintro ⟨d, hd, h⟩
    split at h
    · cases h
    · next hnew =>
        cases h
        exact ⟨(d, e.thickness), ⟨hd, rfl⟩, by simpa using hnew, rfl⟩
  · rintro ⟨⟨d, thickness⟩, ⟨hd, rfl⟩, hnew, rfl⟩
    refine ⟨d, hd, ?_⟩
    rw [if_neg (by simpa using hnew)]

theorem nodup_keys_append_singleton {restriction : Dimension × Thickness}
    {before : List (Dimension × Thickness)} :
    ((before ++ [restriction]).map Prod.fst).Nodup ↔
      restriction.1 ∉ before.map Prod.fst ∧ (before.map Prod.fst).Nodup := by
  rw [((List.perm_append_singleton restriction before).map Prod.fst).nodup_iff]
  exact List.nodup_cons

theorem foldlM_addRestriction_eq_ok_iff {region : String} {entries : List RestrictionEntry}
    {before after : List (Dimension × Thickness)} (hbefore : (before.map Prod.fst).Nodup) :
    entries.foldlM (addRestriction table region) before = .ok after ↔
      ∃ more, List.Forall₂ (Asks table) entries more ∧ after = before ++ more ∧
        (after.map Prod.fst).Nodup := by
  induction entries generalizing before with
  | nil =>
      constructor
      · intro h
        cases h
        exact ⟨[], .nil, (List.append_nil _).symm, hbefore⟩
      · rintro ⟨more, hmore, rfl, -⟩
        cases hmore
        exact congrArg Except.ok (List.append_nil before).symm
  | cons e entries ih =>
      rw [foldlM_cons_eq_ok_iff]
      constructor
      · rintro ⟨next, hnext, hrest⟩
        obtain ⟨restriction, hasks, hnew, rfl⟩ := addRestriction_eq_ok_iff.mp hnext
        have hnodup := nodup_keys_append_singleton.mpr ⟨hnew, hbefore⟩
        obtain ⟨more, hmore, rfl, hafter⟩ := (ih hnodup).mp hrest
        exact ⟨restriction :: more, .cons hasks hmore, by simp, hafter⟩
      · rintro ⟨_, hmore, rfl, hafter⟩
        cases hmore with
        | @cons _ restriction _ more hasks hmore =>
            rw [List.append_cons] at hafter
            have hnodup : ((before ++ [restriction]).map Prod.fst).Nodup :=
              hafter.sublist ((List.sublist_append_left _ more).map Prod.fst)
            have hnew := (nodup_keys_append_singleton.mp hnodup).1
            exact ⟨before ++ [restriction],
              addRestriction_eq_ok_iff.mpr ⟨restriction, hasks, hnew, rfl⟩,
              (ih hnodup).mpr ⟨more, hmore, List.append_cons _ _ _, by simpa using hafter⟩⟩

theorem resolve_eq_ok_iff {e : SubdomainEntry} {s : Subdomain} :
    e.resolve table = .ok s ↔
      ∃ restrictions, List.Forall₂ (Asks table) e.dimensions restrictions ∧
        (restrictions.map Prod.fst).Nodup ∧ s = Subdomain.restrict e.name restrictions := by
  have hnil : (([] : List (Dimension × Thickness)).map Prod.fst).Nodup := List.nodup_nil
  unfold resolve
  simp only [bind_eq_ok_iff, foldlM_addRestriction_eq_ok_iff hnil, List.nil_append,
    Except.ok.injEq]
  constructor
  · rintro ⟨restrictions, ⟨_, hasks, rfl, hnodup⟩, rfl⟩
    exact ⟨restrictions, hasks, hnodup, rfl⟩
  · rintro ⟨restrictions, hasks, hnodup, rfl⟩
    exact ⟨restrictions, ⟨restrictions, hasks, rfl, hnodup⟩, rfl⟩

theorem addsNew_dimension : AddsNew addDimension Dimension.name Except.ok := by
  intro table d after
  unfold addDimension
  split
  · next hpresent => simp [Option.isSome_iff_ne_none.mp hpresent]
  · next hnew => simp [Option.not_isSome_iff_eq_none.mp hnew, eq_comm]

section

variable (hclosed : Closed table) {entries : List RestrictionEntry}
  {restrictions : List (Dimension × Thickness)}
  (h : List.Forall₂ (Asks table) entries restrictions)
include hclosed h

theorem map_name_of_asks :
    (restrictions.map Prod.fst).map Dimension.name = entries.map RestrictionEntry.name := by
  induction h with
  | nil => rfl
  | cons hasks _ ih => simpa [hclosed.name_eq _ _ hasks.1] using ih

theorem get?_of_asks : ∀ d ∈ restrictions.map Prod.fst, get? d.name table = some d := by
  induction h with
  | nil => simp
  | cons hasks _ ih => exact List.forall_mem_cons.mpr ⟨hclosed.get?_name hasks.1, ih⟩

/-- Different names are names of different dimensions. -/
theorem nodup_iff_of_asks :
    (restrictions.map Prod.fst).Nodup ↔ (entries.map RestrictionEntry.name).Nodup := by
  rw [← map_name_of_asks hclosed h]
  refine ⟨fun hnodup => hnodup.map_on fun d hd d' hd' hname => ?_, List.Nodup.of_map _⟩
  have hsame := get?_of_asks hclosed h d hd
  rw [hname, get?_of_asks hclosed h d' hd'] at hsame
  exact (Option.some.inj hsame).symm

end

theorem exists_resolve_iff (hclosed : Closed table) {e : SubdomainEntry} :
    (∃ s, e.resolve table = .ok s) ↔ (e.dimensions.map RestrictionEntry.name).Nodup ∧
      ∀ restriction ∈ e.dimensions, restriction.name ∈ table.map Prod.fst := by
  have hpresent_iff : (∃ restrictions, List.Forall₂ (Asks table) e.dimensions restrictions) ↔
      ∀ restriction ∈ e.dimensions, restriction.name ∈ table.map Prod.fst := by
    simp only [exists_forall₂_iff, Asks, ← get?_ne_none_iff, Option.ne_none_iff_exists']
    refine forall₂_congr fun restriction _ => ⟨fun ⟨found, hfound, _⟩ => ⟨_, hfound⟩, ?_⟩
    exact fun ⟨d, hd⟩ => ⟨(d, restriction.thickness), hd, rfl⟩
  simp only [resolve_eq_ok_iff, ← hpresent_iff]
  constructor
  · rintro ⟨_, restrictions, hasks, hnodup, -⟩
    exact ⟨(nodup_iff_of_asks hclosed hasks).mp hnodup, restrictions, hasks⟩
  · rintro ⟨hnodup, restrictions, hasks⟩
    exact ⟨_, restrictions, hasks, (nodup_iff_of_asks hclosed hasks).mpr hnodup, rfl⟩

theorem resolve_spec (hclosed : Closed table) {e : SubdomainEntry} {s : Subdomain}
    (h : e.resolve table = .ok s) :
    e.Describes s ∧ ∀ pair ∈ s.substitutes, get? pair.1.name table = some pair.1 ∧
      ∃ thickness, pair.2 = Subdomain.part e.name pair.1 thickness := by
  obtain ⟨restrictions, hasks, hnodup, rfl⟩ := resolve_eq_ok_iff.mp h
  have hperm := Subdomain.substitutes_restrict e.name hnodup
  refine ⟨⟨rfl, ?_, fun restriction hrestriction => ?_⟩, fun pair hpair => ?_⟩
  · rw [← map_name_of_asks hclosed hasks]
    simpa [Function.comp_def] using hperm.map fun pair => pair.1.name
  · obtain ⟨⟨d, thickness⟩, hmem, hd, rfl⟩ := exists_mem_of_forall₂ hasks _ hrestriction
    exact ⟨d, hclosed.name_eq _ _ hd, hperm.mem_iff.mpr (List.mem_map.mpr ⟨_, hmem, rfl⟩)⟩
  · obtain ⟨restriction, hrestriction, rfl⟩ := List.mem_map.mp (hperm.mem_iff.mp hpair)
    exact ⟨get?_of_asks hclosed hasks _ (List.mem_map_of_mem hrestriction), _, rfl⟩

theorem nodup_created {e : SubdomainEntry} (h : (e.dimensions.map RestrictionEntry.name).Nodup) :
    e.created.Nodup := by
  have hinj : Function.Injective fun name => name ++ "_" ++ e.name := by
    intro name other hsame
    simpa [String.append_assoc, ← String.toList_inj] using hsame
  have hnodup := h.map hinj
  rwa [List.map_map] at hnodup

theorem created_perm (hclosed : Closed table) {e : SubdomainEntry} {s : Subdomain}
    (h : e.resolve table = .ok s) :
    (s.substitutes.map Prod.snd).map Dimension.name ~ e.created := by
  obtain ⟨hdescribes, hparts⟩ := resolve_spec hclosed h
  calc (s.substitutes.map Prod.snd).map Dimension.name
    _ = s.substitutes.map fun pair => pair.1.name ++ "_" ++ e.name := by
      rw [List.map_map]
      refine List.map_congr_left fun pair hpair => ?_
      obtain ⟨-, thickness, hpart⟩ := hparts pair hpair
      rw [Function.comp_apply, hpart]
      rfl
    _ = (s.substitutes.map fun pair => pair.1.name).map (· ++ "_" ++ e.name) := by
      rw [List.map_map]
      rfl
    _ ~ (e.dimensions.map RestrictionEntry.name).map (· ++ "_" ++ e.name) :=
      hdescribes.restricted.map _
    _ = e.created := by
      rw [List.map_map]
      rfl

theorem addTo_eq_ok_iff {grid after : Grid} {e : SubdomainEntry} :
    addTo grid e = .ok after ↔ e.name ∉ grid.subdomains.map Subdomain.name ∧
      ∃ s dimensions, e.resolve grid.dimensions = .ok s ∧
        (s.substitutes.map Prod.snd).foldlM addDimension grid.dimensions = .ok dimensions ∧
        after =
          { grid with dimensions := dimensions, subdomains := grid.subdomains ++ [s] } := by
  have hany : (grid.subdomains.any fun s => s.name = e.name) = true ↔
      e.name ∈ grid.subdomains.map Subdomain.name := by
    simp
  unfold addTo
  split
  · next hpresent => exact ⟨fun h => (nomatch h), fun h => absurd (hany.mp hpresent) h.1⟩
  · next hnew =>
      rw [hany] at hnew
      simp only [bind_eq_ok_iff, Except.ok.injEq]
      constructor
      · rintro ⟨s, hs, dimensions, hdimensions, rfl⟩
        exact ⟨hnew, s, dimensions, hs, hdimensions, rfl⟩
      · rintro ⟨-, s, dimensions, hs, hdimensions, rfl⟩
        exact ⟨s, hs, dimensions, hdimensions, rfl⟩

theorem exists_addTo_iff {grid : Grid} (hclosed : Closed grid.dimensions) {e : SubdomainEntry} :
    (∃ after, addTo grid e = .ok after) ↔
      e.name ∉ grid.subdomains.map Subdomain.name ∧ e.Fits (grid.dimensions.map Prod.fst) := by
  simp only [addTo_eq_ok_iff]
  constructor
  · rintro ⟨after, hname, s, dimensions, hs, hdimensions, -⟩
    obtain ⟨hnodup, hpresent⟩ := (exists_resolve_iff hclosed).mp ⟨s, hs⟩
    obtain ⟨-, hfresh⟩ := addsNew_dimension.exists_iff.mp ⟨dimensions, hdimensions⟩
    refine ⟨hname, hnodup, hpresent, fun name hmem => ?_⟩
    obtain ⟨d, hd, rfl⟩ := List.mem_map.mp ((created_perm hclosed hs).mem_iff.mpr hmem)
    exact (hfresh d hd).1
  · rintro ⟨hname, hnodup, hpresent, hfresh⟩
    obtain ⟨s, hs⟩ := (exists_resolve_iff hclosed).mpr ⟨hnodup, hpresent⟩
    have hcreated := created_perm hclosed hs
    obtain ⟨dimensions, hdimensions⟩ := addsNew_dimension.exists_iff.mpr
      ⟨hcreated.nodup_iff.mpr (nodup_created hnodup), fun d hd =>
        ⟨hfresh _ (hcreated.mem_iff.mp (List.mem_map_of_mem hd)), d, rfl⟩⟩
    exact ⟨_, hname, s, dimensions, hs, hdimensions, rfl⟩

end SubdomainEntry

end GridAccess
