import GridAccess.Grid.Resolved
import GridAccess.Proofs.Ascending
import GridAccess.Proofs.Except
import GridAccess.Proofs.Precedence.Extension

/-!
Resolution of dimensions. It succeeds exactly for forests, and the table that comes out is
determined by the entries, whatever their order. The names on the way to a dimension all lead to
it, so meeting one of them again closes a loop; once the dimension is there, they are on the way to
nothing else.
-/

namespace GridAccess

open Ascending Std

/-- Whether dimensions of this kind have a parent. -/
def DimensionEntryKind.isDerived : DimensionEntryKind → Bool
  | .basic | .space | .time => false
  | .stepping | .conditional _ => true

/-- The kind a dimension is declared with. Parts of a region are not declared. -/
def Dimension.declaredKind? : Dimension → Option DimensionEntryKind
  | .root _ .basic => some .basic
  | .root _ .space => some .space
  | .root _ .time => some .time
  | .derived _ .stepping _ => some .stepping
  | .derived _ (.conditional factor) _ => some (.conditional factor)
  | .derived _ (.sub _) _ => none

namespace DimensionEntry

variable {entries : List DimensionEntry}

theorem build_eq_ok_iff {e : DimensionEntry} {parent : Option Dimension} {d : Dimension} :
    e.build parent = .ok d ↔ parent.isSome = e.kind.isDerived ∧ d.name = e.name ∧
      d.declaredKind? = some e.kind ∧ d.parent? = parent := by
  obtain ⟨name, kind, -⟩ := e
  constructor
  · intro h
    cases kind <;> cases parent <;> cases h <;> exact ⟨rfl, rfl, rfl, rfl⟩
  · rintro ⟨hparent, rfl, hkind, rfl⟩
    rcases d with ⟨_, _ | _ | _⟩ | ⟨_, _ | _ | _, _⟩ <;> cases hkind <;> rfl

theorem exists_build_eq_ok {e : DimensionEntry} {parent : Option Dimension}
    (h : parent.isSome = e.kind.isDerived) : ∃ d, e.build parent = .ok d := by
  obtain ⟨name, kind, _⟩ := e
  cases kind <;> cases parent <;> cases h <;> exact ⟨_, rfl⟩

/-! ### Forests -/

/-- The entry of `child` names `parent`. -/
def DerivedFrom (entries : List DimensionEntry) (child parent : String) : Prop :=
  ∃ e ∈ entries, e.name = child ∧ e.parent = some parent

structure IsForest (entries : List DimensionEntry) : Prop where
  distinct : (entries.map DimensionEntry.name).Nodup
  parent_iff : ∀ e ∈ entries, e.parent.isSome = e.kind.isDerived
  declared : ∀ e ∈ entries, ∀ parent, e.parent = some parent →
    parent ∈ entries.map DimensionEntry.name
  acyclic : Acyclic (DerivedFrom entries)

theorem find?_of_mem (h : (entries.map DimensionEntry.name).Nodup) {e : DimensionEntry}
    (he : e ∈ entries) : entries.find? (·.name = e.name) = some e := by
  induction entries with
  | nil => cases he
  | cons first entries ih =>
      obtain ⟨hfirst, hentries⟩ := List.nodup_cons.mp h
      rcases List.mem_cons.mp he with rfl | he
      · simp
      · have hne : first.name ≠ e.name := fun heq => hfirst (heq ▸ List.mem_map_of_mem he)
        rw [List.find?_cons_of_neg (by simpa using hne), ih hentries he]

theorem eq_of_name_eq (h : (entries.map DimensionEntry.name).Nodup) {e f : DimensionEntry}
    (he : e ∈ entries) (hf : f ∈ entries) (hname : e.name = f.name) : e = f := by
  have hfind := find?_of_mem h he
  rw [hname, find?_of_mem h hf] at hfind
  exact (Option.some.inj hfind).symm

/-! ### Tables -/

/-- The dimension is what the entry stands for, given the dimensions in the table. -/
inductive Built (table : List (String × Dimension)) (e : DimensionEntry) (d : Dimension) : Prop
  | root : e.parent = none → e.build none = .ok d → Built table e d
  | derived {parent : String} {p : Dimension} : e.parent = some parent →
      get? parent table = some p → e.build (some p) = .ok d → Built table e d

theorem Built.mono {table more : List (String × Dimension)} {e : DimensionEntry} {d : Dimension}
    (h : Built table e d) (hmore : Within table more) : Built more e d := by
  cases h with
  | root hparent hbuild => exact .root hparent hbuild
  | derived hparent hp hbuild => exact .derived hparent (hmore _ _ hp) hbuild

theorem Built.spec {table : List (String × Dimension)} {e : DimensionEntry} {d : Dimension}
    (h : Built table e d) : e.parent.isSome = e.kind.isDerived ∧ d.name = e.name ∧
      d.declaredKind? = some e.kind ∧ d.parent? = e.parent.bind (get? · table) := by
  cases h with
  | root hparent hbuild => simpa [hparent] using build_eq_ok_iff.mp hbuild
  | derived hparent hp hbuild => simpa [hparent, hp] using build_eq_ok_iff.mp hbuild

/-- Every dimension in the table is what some entry stands for. -/
structure Sound (entries : List DimensionEntry) (table : List (String × Dimension)) : Prop where
  strict : Strict (table.map Prod.fst)
  built : ∀ name d, get? name table = some d → ∃ e ∈ entries, e.name = name ∧ Built table e d

theorem Sound.put {table : List (String × Dimension)} (h : Sound entries table)
    {e : DimensionEntry} (he : e ∈ entries) {d : Dimension} (hd : Built table e d)
    (hnew : get? e.name table = none) : Sound entries (put e.name d table) where
  strict := strict_put h.strict
  built := by
    intro name d' hd'
    by_cases hname : name = e.name
    · subst hname
      rw [get?_put_self h.strict] at hd'
      obtain rfl := Option.some.inj hd'
      exact ⟨e, he, rfl, hd.mono (within_put hnew)⟩
    · rw [get?_put_of_ne hname] at hd'
      obtain ⟨f, hf, hname, hbuilt⟩ := h.built name d' hd'
      exact ⟨f, hf, hname, hbuilt.mono (within_put hnew)⟩

/-- The table has a dimension for every entry and nothing else. -/
structure IsTable (entries : List DimensionEntry) (table : List (String × Dimension)) : Prop
    extends Sound entries table where
  complete : ∀ e ∈ entries, ∃ d, get? e.name table = some d

/-! ### Resolving one dimension -/

/-- The dimensions on the way are still missing in the table. -/
structure Progress.Valid (entries : List DimensionEntry) (progress : Progress) : Prop
    extends Sound entries progress.resolved where
  missing : ∀ name ∈ progress.pending, get? name progress.resolved = none

/-- The table grew by the dimension, and the way is as it was. -/
structure Progress.Reaches (before after : Progress) (name : String) (d : Dimension) : Prop where
  pending : after.pending = before.pending
  within : Within before.resolved after.resolved
  found : get? name after.resolved = some d

theorem Progress.Valid.enter {progress : Progress} (h : progress.Valid entries) {name : String}
    (hname : get? name progress.resolved = none) : (progress.enter name).Valid entries where
  toSound := h.toSound
  missing := by
    intro q hq
    rcases List.mem_insert_iff.mp hq with rfl | hq
    · exact hname
    · exact h.missing q hq

/-- What a call does after the parent has been reached. -/
theorem Progress.Valid.leave {before after : Progress} (h : after.Valid entries)
    {e : DimensionEntry} (he : e ∈ entries) (hname : e.name ∉ before.pending)
    (hpending : after.pending = (before.enter e.name).pending)
    (hwithin : Within before.resolved after.resolved) {d : Dimension}
    (hd : Built after.resolved e d) :
    (after.leave e.name d).Valid entries ∧ before.Reaches (after.leave e.name d) e.name d := by
  have hpending : after.pending = e.name :: before.pending := by
    rw [hpending]
    exact List.insert_of_not_mem hname
  have hleft : (after.leave e.name d).pending = before.pending := by
    simp [Progress.leave, hpending]
  have hnew : get? e.name after.resolved = none := h.missing _ (by simp [hpending])
  refine ⟨⟨h.toSound.put he hd hnew, ?_⟩, hleft, hwithin.trans (within_put hnew),
    get?_put_self h.strict⟩
  intro q hq
  rw [hleft] at hq
  have hne : q ≠ e.name := by
    rintro rfl
    exact hname hq
  show get? q (put e.name d after.resolved) = none
  rw [get?_put_of_ne hne]
  exact h.missing q (by simp [hpending, hq])

section

variable {name : String} {progress : Progress}

theorem resolve_of_known {d : Dimension} (h : get? name progress.resolved = some d) :
    resolve entries name progress = .ok (d, progress) := by
  rw [resolve, h]

variable (hmissing : get? name progress.resolved = none)
include hmissing

theorem resolve_of_undeclared (h : entries.find? (·.name = name) = none) :
    resolve entries name progress = .error (.config .unknownDimension name) := by
  rw [resolve, hmissing]
  dsimp only
  split
  · rfl
  · simp_all

variable {e : DimensionEntry} (he : entries.find? (·.name = name) = some e)
include he

theorem resolve_of_root (h : e.parent = none) :
    resolve entries name progress = e.complete none (progress.enter name) := by
  rw [resolve, hmissing]
  dsimp only
  split
  · simp_all
  · next e' he' =>
      obtain rfl := Option.some.inj (he'.symm.trans he)
      simp [h]

variable {parent : String} (hparent : e.parent = some parent)
include hparent

theorem resolve_of_derived :
    resolve entries name progress =
      if parent ∈ (progress.enter name).pending then
        .error (.config .dimensionParentCycle (name ++ " -> " ++ parent))
      else
        (resolve entries parent (progress.enter name)).bind fun (p, after) =>
          e.complete (some p) after := by
  rw [resolve, hmissing]
  dsimp only
  split
  · simp_all
  · next e' he' =>
      obtain rfl := Option.some.inj (he'.symm.trans he)
      simp only [hparent, dite_eq_ite]
      cases resolve entries parent (progress.enter name) <;> rfl

end

theorem complete_eq_ok_iff {e : DimensionEntry} {parent : Option Dimension}
    {progress progress' : Progress} {d : Dimension} :
    e.complete parent progress = .ok (d, progress') ↔
      e.build parent = .ok d ∧ progress' = progress.leave e.name d := by
  unfold complete
  cases h : e.build parent with
  | error _ => simp [bind, Except.bind]
  | ok d' =>
      simp only [bind, Except.bind, Except.ok.injEq, Prod.mk.injEq]
      constructor
      · rintro ⟨rfl, rfl⟩
        exact ⟨rfl, rfl⟩
      · rintro ⟨rfl, rfl⟩
        exact ⟨rfl, rfl⟩

theorem resolve_spec {name : String} {progress progress' : Progress} {d : Dimension}
    (hvalid : progress.Valid entries) (hname : name ∉ progress.pending)
    (h : resolve entries name progress = .ok (d, progress')) :
    progress'.Valid entries ∧ progress.Reaches progress' name d := by
  induction name, progress using @resolve.induct entries generalizing d progress' with
  | case1 name progress e hmemo =>
      rw [resolve_of_known hmemo] at h
      cases h
      exact ⟨hvalid, rfl, .refl _, hmemo⟩
  | case2 name progress hmissing hfind =>
      rw [resolve_of_undeclared hmissing hfind] at h
      cases h
  | case3 name progress hmissing e hfind hparent =>
      rw [resolve_of_root hmissing hfind hparent, complete_eq_ok_iff] at h
      obtain ⟨hbuild, rfl⟩ := h
      obtain rfl := name_of_find? hfind
      have hentered := hvalid.enter hmissing
      exact hentered.leave (List.mem_of_find?_eq_some hfind) hname rfl (.refl _)
        (.root hparent hbuild)
  | case4 name progress hmissing e hfind parent hparent hcycle =>
      rw [resolve_of_derived hmissing hfind hparent, if_pos hcycle] at h
      cases h
  | case5 name progress hmissing e hfind parent hparent hcycle p after hresolve ih =>
      rw [resolve_of_derived hmissing hfind hparent, if_neg hcycle, hresolve, Except.bind,
        complete_eq_ok_iff] at h
      obtain ⟨hbuild, rfl⟩ := h
      obtain rfl := name_of_find? hfind
      obtain ⟨hafter, hreaches⟩ := ih (hvalid.enter hmissing) hcycle hresolve
      exact hafter.leave (List.mem_of_find?_eq_some hfind) hname hreaches.pending hreaches.within
        (.derived hparent hreaches.found hbuild)
  | case6 name progress hmissing e hfind parent hparent hcycle error hresolve ih =>
      rw [resolve_of_derived hmissing hfind hparent, if_neg hcycle, hresolve] at h
      cases h

/-- In a forest every dimension can be reached from the names below it. -/
theorem IsForest.exists_resolve (hforest : IsForest entries) {name : String} {progress : Progress}
    (hname : name ∈ entries.map DimensionEntry.name)
    (hbelow : ∀ q ∈ progress.pending, Relation.TransGen (DerivedFrom entries) q name) :
    ∃ d after, resolve entries name progress = .ok (d, after) := by
  have complete_ok (e : DimensionEntry) (he : e ∈ entries) (parent : Option Dimension)
      (h : parent.isSome = e.parent.isSome) (progress : Progress) :
      ∃ d after, e.complete parent progress = .ok (d, after) := by
    obtain ⟨d, hd⟩ := exists_build_eq_ok (h.trans (hforest.parent_iff e he))
    exact ⟨d, _, complete_eq_ok_iff.mpr ⟨hd, rfl⟩⟩
  have below_parent {name parent : String} {progress : Progress} {e : DimensionEntry}
      (hbelow : ∀ q ∈ progress.pending, Relation.TransGen (DerivedFrom entries) q name)
      (hfind : entries.find? (·.name = name) = some e) (hparent : e.parent = some parent) :
      ∀ q ∈ (progress.enter name).pending, Relation.TransGen (DerivedFrom entries) q parent := by
    have hstep : DerivedFrom entries name parent :=
      ⟨e, List.mem_of_find?_eq_some hfind, name_of_find? hfind, hparent⟩
    intro q hq
    rcases List.mem_insert_iff.mp hq with rfl | hq
    · exact .single hstep
    · exact (hbelow q hq).tail hstep
  induction name, progress using @resolve.induct entries with
  | case1 name progress d hmemo => exact ⟨d, progress, resolve_of_known hmemo⟩
  | case2 name progress hmissing hfind =>
      obtain ⟨e, he, rfl⟩ := List.mem_map.mp hname
      rw [find?_of_mem hforest.distinct he] at hfind
      cases hfind
  | case3 name progress hmissing e hfind hparent =>
      rw [resolve_of_root hmissing hfind hparent]
      exact complete_ok e (List.mem_of_find?_eq_some hfind) none (by simp [hparent]) _
  | case4 name progress hmissing e hfind parent hparent hcycle =>
      have hloop := below_parent hbelow hfind hparent parent hcycle
      exact absurd hloop (hforest.acyclic parent)
  | case5 name progress hmissing e hfind parent hparent hcycle p after hresolve ih =>
      rw [resolve_of_derived hmissing hfind hparent, if_neg hcycle, hresolve]
      exact complete_ok e (List.mem_of_find?_eq_some hfind) (some p) (by simp [hparent]) _
  | case6 name progress hmissing e hfind parent hparent hcycle error hresolve ih =>
      have hdeclared := hforest.declared e (List.mem_of_find?_eq_some hfind) parent hparent
      obtain ⟨p, after, hok⟩ := ih hdeclared (below_parent hbelow hfind hparent)
      rw [hok] at hresolve
      cases hresolve

/-! ### Resolving all dimensions -/

theorem visit_eq_ok_iff {progress after : Progress} {e : DimensionEntry} :
    visit entries progress e = .ok after ↔
      ∃ d, resolve entries e.name progress = .ok (d, after) := by
  simp [visit, map_eq_ok_iff]

theorem foldlM_visit_spec {rest : List DimensionEntry} {progress after : Progress}
    (hvalid : progress.Valid entries) (hpending : progress.pending = [])
    (h : rest.foldlM (visit entries) progress = .ok after) :
    after.Valid entries ∧ Within progress.resolved after.resolved ∧
      ∀ e ∈ rest, ∃ d, get? e.name after.resolved = some d := by
  induction rest generalizing progress with
  | nil =>
      cases h
      exact ⟨hvalid, .refl _, by simp⟩
  | cons e rest ih =>
      obtain ⟨next, hvisit, hrest⟩ := foldlM_cons_eq_ok_iff.mp h
      obtain ⟨d, hd⟩ := visit_eq_ok_iff.mp hvisit
      obtain ⟨hnext, hreaches⟩ := resolve_spec hvalid (by simp [hpending]) hd
      obtain ⟨hafter, hwithin, hfound⟩ := ih hnext (hreaches.pending.trans hpending) hrest
      exact ⟨hafter, hreaches.within.trans hwithin,
        List.forall_mem_cons.mpr ⟨⟨d, hwithin _ _ hreaches.found⟩, hfound⟩⟩

theorem IsForest.exists_foldlM_visit (hforest : IsForest entries) {rest : List DimensionEntry}
    (hrest : ∀ e ∈ rest, e ∈ entries) {progress : Progress} (hvalid : progress.Valid entries)
    (hpending : progress.pending = []) :
    ∃ after, rest.foldlM (visit entries) progress = .ok after := by
  induction rest generalizing progress with
  | nil => exact ⟨progress, rfl⟩
  | cons e rest ih =>
      obtain ⟨he, hrest⟩ := List.forall_mem_cons.mp hrest
      have hbelow : ∀ q ∈ progress.pending,
          Relation.TransGen (DerivedFrom entries) q e.name := by
        simp [hpending]
      obtain ⟨d, next, hd⟩ := hforest.exists_resolve (List.mem_map_of_mem he) hbelow
      obtain ⟨hnext, hreaches⟩ := resolve_spec hvalid (by simp [hpending]) hd
      obtain ⟨after, hafter⟩ := ih hrest hnext (hreaches.pending.trans hpending)
      exact ⟨after, foldlM_cons_eq_ok_iff.mpr ⟨next, visit_eq_ok_iff.mpr ⟨d, hd⟩, hafter⟩⟩

theorem firstRepeated?_eq_none_iff {seen names : List String} :
    firstRepeated? seen names = none ↔ names.Nodup ∧ ∀ name ∈ names, name ∉ seen := by
  induction names generalizing seen with
  | nil => simp [firstRepeated?]
  | cons name names ih =>
      by_cases hname : name ∈ seen
      · simp [firstRepeated?, hname]
      · simp only [firstRepeated?, List.contains_iff_mem, hname, if_false, ih, List.mem_cons,
          List.nodup_cons]
        grind

theorem valid_start : Progress.Valid entries ⟨[], []⟩ where
  strict := List.Pairwise.nil
  built := by simp
  missing := by simp

theorem resolveAll_spec {table : List (String × Dimension)} (h : resolveAll entries = .ok table) :
    (entries.map DimensionEntry.name).Nodup ∧ IsTable entries table := by
  unfold resolveAll at h
  split at h
  · cases h
  · next hnone =>
      obtain ⟨after, hfold, rfl⟩ := map_eq_ok_iff.mp h
      obtain ⟨hafter, -, hfound⟩ := foldlM_visit_spec valid_start rfl hfold
      exact ⟨(firstRepeated?_eq_none_iff.mp hnone).1, hafter.toSound, hfound⟩

theorem IsForest.exists_resolveAll (hforest : IsForest entries) :
    ∃ table, resolveAll entries = .ok table := by
  obtain ⟨after, hafter⟩ := hforest.exists_foldlM_visit (fun _ he => he) valid_start rfl
  have hnone : firstRepeated? [] (entries.map DimensionEntry.name) = none :=
    firstRepeated?_eq_none_iff.mpr ⟨hforest.distinct, by simp⟩
  refine ⟨after.resolved, ?_⟩
  rw [resolveAll, hnone]
  exact map_eq_ok_iff.mpr ⟨after, hafter, rfl⟩

/-! ### The table -/

theorem IsTable.keys_perm {table : List (String × Dimension)} (h : IsTable entries table)
    (hdistinct : (entries.map DimensionEntry.name).Nodup) :
    (table.map Prod.fst).Perm (entries.map DimensionEntry.name) := by
  refine (List.perm_ext_iff_of_nodup h.strict.nodup hdistinct).mpr fun name => ?_
  rw [← get?_ne_none_iff, Option.ne_none_iff_exists']
  constructor
  · rintro ⟨d, hd⟩
    obtain ⟨e, he, rfl, -⟩ := h.built name d hd
    exact List.mem_map_of_mem he
  · intro hname
    obtain ⟨e, he, rfl⟩ := List.mem_map.mp hname
    exact h.complete e he

theorem IsTable.exists_built {table : List (String × Dimension)} (h : IsTable entries table)
    (hdistinct : (entries.map DimensionEntry.name).Nodup) {e : DimensionEntry} (he : e ∈ entries) :
    ∃ d, get? e.name table = some d ∧ Built table e d := by
  obtain ⟨d, hd⟩ := h.complete e he
  obtain ⟨f, hf, hname, hbuilt⟩ := h.built e.name d hd
  obtain rfl := eq_of_name_eq hdistinct hf he hname
  exact ⟨d, hd, hbuilt⟩

theorem IsTable.exists_parent {table : List (String × Dimension)} (h : IsTable entries table)
    (hdistinct : (entries.map DimensionEntry.name).Nodup) {child parent : String}
    (hderived : DerivedFrom entries child parent) :
    ∃ d p, get? child table = some d ∧ get? parent table = some p ∧ d.parent? = some p := by
  obtain ⟨e, he, rfl, hparent⟩ := hderived
  obtain ⟨d, hd, hbuilt⟩ := h.exists_built hdistinct he
  cases hbuilt with
  | root hnone _ =>
      rw [hparent] at hnone
      cases hnone
  | derived hsome hp hbuild =>
      obtain rfl := Option.some.inj (hparent.symm.trans hsome)
      exact ⟨d, _, hd, hp, (build_eq_ok_iff.mp hbuild).2.2.2⟩

/-- How far the dimension is from its root. -/
def depth (table : List (String × Dimension)) (name : String) : Nat :=
  ((get? name table).map fun d => d.ancestors.length).getD 0

/-- Parents are nearer to the root, which leaves no room for loops. -/
theorem IsTable.acyclic {table : List (String × Dimension)} (h : IsTable entries table)
    (hdistinct : (entries.map DimensionEntry.name).Nodup) : Acyclic (DerivedFrom entries) := by
  have hstep {child parent : String} (hderived : DerivedFrom entries child parent) :
      depth table parent < depth table child := by
    obtain ⟨d, p, hd, hp, hparent⟩ := h.exists_parent hdistinct hderived
    cases d with
    | root => cases hparent
    | derived =>
        cases hparent
        simp [depth, hd, hp, Dimension.ancestors]
  have hpath {child ancestor : String}
      (hpath : Relation.TransGen (DerivedFrom entries) child ancestor) :
      depth table ancestor < depth table child := by
    induction hpath with
    | single hderived => exact hstep hderived
    | tail _ hderived ih => exact Nat.lt_trans (hstep hderived) ih
  exact fun _ hloop => Nat.lt_irrefl _ (hpath hloop)

theorem IsTable.isForest {table : List (String × Dimension)} (h : IsTable entries table)
    (hdistinct : (entries.map DimensionEntry.name).Nodup) : IsForest entries where
  distinct := hdistinct
  parent_iff := by
    intro e he
    obtain ⟨d, -, hbuilt⟩ := h.exists_built hdistinct he
    exact hbuilt.spec.1
  declared := by
    intro e he parent hparent
    obtain ⟨-, p, -, hp, -⟩ := h.exists_parent hdistinct ⟨e, he, rfl, hparent⟩
    obtain ⟨f, hf, rfl, -⟩ := h.built parent p hp
    exact List.mem_map_of_mem hf
  acyclic := h.acyclic hdistinct

theorem Built.unique {table other : List (String × Dimension)} {e : DimensionEntry}
    {d d' : Dimension} (h : Built table e d) (h' : Built other e d')
    (hparents : ∀ name p, d.parent? = some p → get? name table = some p →
      get? name other = some p) : d = d' := by
  cases h with
  | root hparent hbuild =>
      cases h' with
      | root _ hbuild' => exact Except.ok.inj (hbuild.symm.trans hbuild')
      | derived hparent' _ _ => cases hparent.symm.trans hparent'
  | derived hparent hp hbuild =>
      cases h' with
      | root hparent' _ => cases hparent.symm.trans hparent'
      | derived hparent' hp' hbuild' =>
          obtain rfl := Option.some.inj (hparent.symm.trans hparent')
          have hsame := hparents _ _ (build_eq_ok_iff.mp hbuild).2.2.2 hp
          obtain rfl := Option.some.inj (hsame.symm.trans hp')
          exact Except.ok.inj (hbuild.symm.trans hbuild')

/-- A dimension is determined by the entries from its root downwards. -/
theorem IsTable.within {table other : List (String × Dimension)} (h : IsTable entries table)
    (hother : IsTable entries other) (hdistinct : (entries.map DimensionEntry.name).Nodup) :
    Within table other := by
  have hstep {name : String} {d : Dimension} (hd : get? name table = some d)
      (hparents : ∀ name p, d.parent? = some p → get? name table = some p →
        get? name other = some p) : get? name other = some d := by
    obtain ⟨e, he, rfl, hbuilt⟩ := h.built name d hd
    obtain ⟨d', hd', hbuilt'⟩ := hother.exists_built hdistinct he
    rw [hd', hbuilt.unique hbuilt' hparents]
  intro name d hd
  induction d generalizing name with
  | root => exact hstep hd fun _ _ hparent => nomatch hparent
  | derived _ _ p ih =>
      refine hstep hd fun name q hparent hq => ?_
      obtain rfl := Option.some.inj hparent
      exact ih name hq

theorem IsTable.unique {table other : List (String × Dimension)} (h : IsTable entries table)
    (hother : IsTable entries other) (hdistinct : (entries.map DimensionEntry.name).Nodup) :
    table = other := by
  refine table_ext h.strict hother.strict fun name => Option.ext fun d => ?_
  exact ⟨h.within hother hdistinct name d, hother.within h hdistinct name d⟩

/-- The dimensions are resolved to the only table that fits the entries. -/
theorem resolveAll_eq_ok_iff {table : List (String × Dimension)} :
    resolveAll entries = .ok table ↔
      (entries.map DimensionEntry.name).Nodup ∧ IsTable entries table := by
  constructor
  · exact resolveAll_spec
  · rintro ⟨hdistinct, htable⟩
    obtain ⟨other, hother⟩ := (htable.isForest hdistinct).exists_resolveAll
    rw [hother, htable.unique (resolveAll_spec hother).2 hdistinct]

theorem IsTable.perm {table : List (String × Dimension)} (h : IsTable entries table)
    {reordered : List DimensionEntry} (hperm : reordered.Perm entries) :
    IsTable reordered table where
  strict := h.strict
  built := by simpa [hperm.mem_iff] using h.built
  complete := by simpa [hperm.mem_iff] using h.complete

theorem resolveAll_perm {reordered : List DimensionEntry} (hperm : reordered.Perm entries)
    {table : List (String × Dimension)} :
    resolveAll reordered = .ok table ↔ resolveAll entries = .ok table := by
  rw [resolveAll_eq_ok_iff, resolveAll_eq_ok_iff, (hperm.map DimensionEntry.name).nodup_iff]
  exact and_congr_right fun _ => ⟨fun h => h.perm hperm.symm, fun h => h.perm hperm⟩

/-- Every entry has a dimension of its name and kind, on top of the dimension that the table has
under the name of the parent. -/
structure Describes (entries : List DimensionEntry) (table : List (String × Dimension)) : Prop where
  keys : (table.map Prod.fst).Perm (entries.map DimensionEntry.name)
  dimension : ∀ e ∈ entries, ∃ d, get? e.name table = some d ∧ d.name = e.name ∧
    d.declaredKind? = some e.kind ∧ d.parent? = e.parent.bind (get? · table)

/-- Dimensions are resolved if and only if they form a forest. The result is as declared, and
neither it nor success depends on the order of the declarations. -/
theorem resolveAll_exact (entries : List DimensionEntry) :
    ((∃ table, resolveAll entries = .ok table) ↔ IsForest entries) ∧
    (∀ table, resolveAll entries = .ok table → Describes entries table) ∧
    ∀ reordered : List DimensionEntry, reordered.Perm entries →
      ∀ table, resolveAll reordered = .ok table ↔ resolveAll entries = .ok table := by
  refine ⟨⟨?_, IsForest.exists_resolveAll⟩, ?_, fun _ hperm _ => resolveAll_perm hperm⟩
  · rintro ⟨table, htable⟩
    obtain ⟨hdistinct, htable⟩ := resolveAll_spec htable
    exact htable.isForest hdistinct
  · intro table htable
    obtain ⟨hdistinct, htable⟩ := resolveAll_spec htable
    refine ⟨htable.keys_perm hdistinct, fun e he => ?_⟩
    obtain ⟨d, hd, hbuilt⟩ := htable.exists_built hdistinct he
    exact ⟨d, hd, hbuilt.spec.2⟩

end DimensionEntry

end GridAccess
