import GridAccess.Proofs.Grid.Fields
import GridAccess.Proofs.Grid.Subdomains

/-!
Resolution of grid descriptions. Fields and subdomains are added under new names only, and so are
the dimensions that subdomains create. The table of dimensions grows therefore, and stays closed
under parents.
-/

namespace GridAccess

open Ascending Std
open scoped List

/-! ### Consistent grids -/

structure Grid.Consistent (grid : Grid) : Prop where
  closed : Closed grid.dimensions
  field : ∀ entry ∈ grid.fields, entry.2.Uses grid.dimensions
  subdomain : ∀ s ∈ grid.subdomains, s.Uses grid.dimensions

/-- What the subdomains have added to a grid. -/
structure Grid.Grows (before : Grid) (entries : List SubdomainEntry) (after : Grid) : Prop where
  within : Within before.dimensions after.dimensions
  dimensions : after.dimensions.map Prod.fst ~
    entries.flatMap SubdomainEntry.created ++ before.dimensions.map Prod.fst
  fields : after.fields = before.fields
  subdomains : ∃ news, after.subdomains = before.subdomains ++ news ∧
    List.Forall₂ SubdomainEntry.Describes entries news

theorem Grid.Grows.names {before after : Grid} {entries : List SubdomainEntry}
    (h : before.Grows entries after) : after.subdomains.map Subdomain.name =
      before.subdomains.map Subdomain.name ++ entries.map SubdomainEntry.name := by
  obtain ⟨news, hnews, hdescribes⟩ := h.subdomains
  have hsame : news.map Subdomain.name = entries.map SubdomainEntry.name := by
    clear hnews h
    induction hdescribes with
    | nil => rfl
    | cons hfirst _ ih => rw [List.map_cons, List.map_cons, hfirst.name, ih]
  rw [hnews, List.map_append, hsame]

theorem Grid.Grows.refl (grid : Grid) : grid.Grows [] grid :=
  ⟨.refl _, .refl _, rfl, [], (List.append_nil _).symm, .nil⟩

theorem Grid.Grows.trans {before next after : Grid} {first second : List SubdomainEntry}
    (h : before.Grows first next) (h' : next.Grows second after) :
    before.Grows (first ++ second) after := by
  obtain ⟨news, hnews, hfirst⟩ := h.subdomains
  obtain ⟨more, hmore, hsecond⟩ := h'.subdomains
  refine ⟨h.within.trans h'.within, ?_, h'.fields.trans h.fields, news ++ more, ?_,
    List.rel_append hfirst hsecond⟩
  · calc after.dimensions.map Prod.fst
      _ ~ second.flatMap SubdomainEntry.created ++ next.dimensions.map Prod.fst := h'.dimensions
      _ ~ second.flatMap SubdomainEntry.created ++
          (first.flatMap SubdomainEntry.created ++ before.dimensions.map Prod.fst) :=
        h.dimensions.append_left _
      _ ~ (first ++ second).flatMap SubdomainEntry.created ++ before.dimensions.map Prod.fst := by
        rw [List.flatMap_append, ← List.append_assoc]
        exact List.perm_append_comm.append_right _
  · rw [hmore, hnews, List.append_assoc]

/-! ### Adding subdomains -/

/-- What holds of every element and those before it holds of the first one, and of the others with
the first one before them. -/
theorem forall_split_cons_iff {α : Type} {P : List α → α → Prop} {x : α} {xs : List α} :
    (∀ before a after, x :: xs = before ++ a :: after → P before a) ↔
      P [] x ∧ ∀ before a after, xs = before ++ a :: after → P (x :: before) a := by
  constructor
  · intro h
    exact ⟨h [] x xs rfl, fun before a after hxs => h (x :: before) a after (by simp [hxs])⟩
  · rintro ⟨hx, hxs⟩ before a after hsplit
    cases before with
    | nil =>
        obtain ⟨rfl, -⟩ := List.cons.inj hsplit
        exact hx
    | cons y before =>
        obtain ⟨rfl, hrest⟩ := List.cons.inj hsplit
        exact hxs before a after hrest

namespace SubdomainEntry

theorem addTo_spec {before after : Grid} (hbefore : before.Consistent) {e : SubdomainEntry}
    (h : addTo before e = .ok after) : after.Consistent ∧ before.Grows [e] after := by
  obtain ⟨-, s, dimensions, hs, hdimensions, rfl⟩ := addTo_eq_ok_iff.mp h
  obtain ⟨hdescribes, hparts⟩ := resolve_spec hbefore.closed hs
  have hadded := addsNew_dimension.added hbefore.closed.strict hdimensions
  have hclosed : Closed dimensions := by
    refine closed_of_added hbefore.closed hadded fun d hd p hp => ?_
    obtain ⟨pair, hpair, rfl⟩ := List.mem_map.mp hd
    obtain ⟨hfrom, thickness, hpart⟩ := hparts pair hpair
    rw [hpart] at hp
    obtain rfl := Option.some.inj hp
    exact hfrom
  have huses : s.Uses dimensions := by
    intro pair hpair
    obtain ⟨hfrom, hpart⟩ := hparts pair hpair
    obtain ⟨d, hd, hto⟩ := hadded.added pair.2 (List.mem_map_of_mem hpair)
    obtain rfl := Except.ok.inj hd
    exact ⟨hadded.within _ _ hfrom, hto, hdescribes.name ▸ hpart⟩
  refine ⟨⟨hclosed, ?_, ?_⟩, ⟨hadded.within, ?_, rfl, [s], rfl, ?_⟩⟩
  · exact fun entry hentry => (hbefore.field entry hentry).mono hadded.within
  · intro t ht
    rcases List.mem_append.mp ht with ht | ht
    · exact (hbefore.subdomain t ht).mono hadded.within
    · rwa [List.mem_singleton.mp ht]
  · simpa using hadded.keys.trans ((created_perm hbefore.closed hs).append_right _)
  · exact .cons hdescribes .nil

theorem foldlM_addTo_spec {before after : Grid} (hbefore : before.Consistent)
    {entries : List SubdomainEntry} (h : entries.foldlM addTo before = .ok after) :
    after.Consistent ∧ before.Grows entries after := by
  induction entries generalizing before with
  | nil =>
      cases h
      exact ⟨hbefore, .refl _⟩
  | cons e entries ih =>
      obtain ⟨next, hnext, hrest⟩ := foldlM_cons_eq_ok_iff.mp h
      obtain ⟨hnext, hgrows⟩ := addTo_spec hbefore hnext
      obtain ⟨hafter, hgrows'⟩ := ih hnext hrest
      exact ⟨hafter, hgrows.trans hgrows'⟩

theorem Fits.congr {names others : List String} (h : ∀ name, name ∈ names ↔ name ∈ others)
    {e : SubdomainEntry} : e.Fits names ↔ e.Fits others := by
  simp only [fits_iff, h]

/-- The subdomains can be added to the grid one after another. -/
structure AllFit (grid : Grid) (entries : List SubdomainEntry) : Prop where
  names : (entries.map SubdomainEntry.name).Nodup
  fresh : ∀ e ∈ entries, e.name ∉ grid.subdomains.map Subdomain.name
  fits : ∀ before e after, entries = before ++ e :: after →
    e.Fits (before.flatMap created ++ grid.dimensions.map Prod.fst)

/-- Once the first subdomain has been added, it remains to add the others. -/
theorem allFit_cons_iff {grid next : Grid} (hgrid : grid.Consistent) {e : SubdomainEntry}
    (hnext : addTo grid e = .ok next) {entries : List SubdomainEntry} :
    AllFit grid (e :: entries) ↔ AllFit next entries := by
  have hgrows := (addTo_spec hgrid hnext).2
  obtain ⟨hnew, hfirst⟩ := (exists_addTo_iff hgrid.closed).mp ⟨next, hnext⟩
  have hnames : next.subdomains.map Subdomain.name =
      grid.subdomains.map Subdomain.name ++ [e.name] := hgrows.names
  have hfits (before : List SubdomainEntry) (f : SubdomainEntry) :
      f.Fits (before.flatMap created ++ next.dimensions.map Prod.fst) ↔
        f.Fits ((e :: before).flatMap created ++ grid.dimensions.map Prod.fst) := by
    refine Fits.congr fun name => ?_
    simp [hgrows.dimensions.mem_iff, or_left_comm]
  constructor
  · rintro ⟨hnodup, hfresh, hsplit⟩
    obtain ⟨hname, hnodup⟩ := List.nodup_cons.mp hnodup
    refine ⟨hnodup, fun f hf => ?_, ?_⟩
    · rw [hnames, List.mem_append, List.mem_singleton, not_or]
      exact ⟨hfresh f (List.mem_cons_of_mem _ hf),
        fun hsame => hname (hsame ▸ List.mem_map_of_mem hf)⟩
    · simpa only [hfits] using (forall_split_cons_iff.mp hsplit).2
  · rintro ⟨hnodup, hfresh, hsplit⟩
    simp only [hnames, List.mem_append, List.mem_singleton, not_or] at hfresh
    simp only [hfits] at hsplit
    refine ⟨List.nodup_cons.mpr ⟨fun hmem => ?_, hnodup⟩,
      List.forall_mem_cons.mpr ⟨hnew, fun f hf => (hfresh f hf).1⟩,
      forall_split_cons_iff.mpr ⟨hfirst, hsplit⟩⟩
    obtain ⟨f, hf, hsame⟩ := List.mem_map.mp hmem
    exact (hfresh f hf).2 hsame

theorem exists_foldlM_addTo_iff {grid : Grid} (hgrid : grid.Consistent)
    {entries : List SubdomainEntry} :
    (∃ after, entries.foldlM addTo grid = .ok after) ↔ AllFit grid entries := by
  induction entries generalizing grid with
  | nil => exact ⟨fun _ => ⟨.nil, by simp, by simp⟩, fun _ => ⟨grid, rfl⟩⟩
  | cons e entries ih =>
      simp only [foldlM_cons_eq_ok_iff]
      constructor
      · rintro ⟨after, next, hnext, hafter⟩
        have hconsistent := (addTo_spec hgrid hnext).1
        exact (allFit_cons_iff hgrid hnext).mpr ((ih hconsistent).mp ⟨after, hafter⟩)
      · intro h
        have hnew := h.fresh e List.mem_cons_self
        have hfirst := (forall_split_cons_iff.mp h.fits).1
        obtain ⟨next, hnext⟩ := (exists_addTo_iff hgrid.closed).mpr ⟨hnew, hfirst⟩
        have hconsistent := (addTo_spec hgrid hnext).1
        obtain ⟨after, hafter⟩ := (ih hconsistent).mpr ((allFit_cons_iff hgrid hnext).mp h)
        exact ⟨after, next, hnext, hafter⟩

end SubdomainEntry

/-! ### Descriptions -/

namespace GridDescription

/-- Names are new and what is referred to is there. -/
structure IsValid (g : GridDescription) : Prop where
  fieldNames : (g.fields.map FieldEntry.name).Nodup
  field : ∀ f ∈ g.fields, f.Fits (g.dimensions.map DimensionEntry.name)
  subdomainNames : (g.subdomains.map SubdomainEntry.name).Nodup
  subdomain : ∀ before s after, g.subdomains = before ++ s :: after →
    s.Fits (before.flatMap SubdomainEntry.created ++ g.dimensions.map DimensionEntry.name)

/-- Everything in the description is in the grid, and nothing else. -/
structure Describes (g : GridDescription) (grid : Grid) : Prop where
  dimensions : grid.dimensions.map Prod.fst ~
    g.subdomains.flatMap SubdomainEntry.created ++ g.dimensions.map DimensionEntry.name
  fieldNames : grid.fields.map Prod.fst ~ g.fields.map FieldEntry.name
  field : ∀ entry ∈ grid.fields, ∃ e ∈ g.fields, e.name = entry.1 ∧ e.Describes entry.2
  subdomain : List.Forall₂ SubdomainEntry.Describes g.subdomains grid.subdomains

variable {g : GridDescription} {declared : List (String × Dimension)}

theorem resolve_eq_ok_iff (h : DimensionEntry.resolveAll g.dimensions = .ok declared)
    {grid : Grid} : g.resolve = .ok grid ↔
      ∃ fields, g.fields.foldlM (FieldEntry.addTo declared) [] = .ok fields ∧
        g.subdomains.foldlM SubdomainEntry.addTo ⟨declared, fields, [], g.unitSpacing⟩ =
          .ok grid := by
  simp only [resolve, bind_eq_ok_iff, h, Except.ok.injEq, exists_eq_left']

section

variable (h : DimensionEntry.resolveAll g.dimensions = .ok declared)
include h

theorem mem_declared_iff (name : String) :
    name ∈ declared.map Prod.fst ↔ name ∈ g.dimensions.map DimensionEntry.name := by
  obtain ⟨hdistinct, htable⟩ := DimensionEntry.resolveAll_spec h
  exact (htable.keys_perm hdistinct).mem_iff

theorem exists_fields_iff :
    (∃ fields, g.fields.foldlM (FieldEntry.addTo declared) [] = .ok fields) ↔
      (g.fields.map FieldEntry.name).Nodup ∧
        ∀ f ∈ g.fields, f.Fits (g.dimensions.map DimensionEntry.name) := by
  have hfits (f : FieldEntry) : f.Fits (declared.map Prod.fst) ↔
      f.Fits (g.dimensions.map DimensionEntry.name) := by
    simp only [FieldEntry.fits_iff, mem_declared_iff h]
  simp [(FieldEntry.addsNew declared).exists_iff, FieldEntry.exists_resolve_iff, hfits]

theorem fields_spec {fields : List (String × Field)}
    (hfields : g.fields.foldlM (FieldEntry.addTo declared) [] = .ok fields) :
    fields.map Prod.fst ~ g.fields.map FieldEntry.name ∧
      ∀ entry ∈ fields, entry.2.Uses declared ∧
        ∃ e ∈ g.fields, e.name = entry.1 ∧ e.Describes entry.2 := by
  have hnil : Strict (([] : List (String × Field)).map Prod.fst) := List.Pairwise.nil
  have hadded := (FieldEntry.addsNew declared).added hnil hfields
  refine ⟨by simpa using hadded.keys, fun entry hentry => ?_⟩
  rcases hadded.origin _ _ (get?_of_mem hadded.strict hentry) with hnone | ⟨e, he, hname, hf⟩
  · cases hnone
  · obtain ⟨huses, hdescribes⟩ :=
      FieldEntry.resolve_spec (DimensionEntry.closed_of_resolveAll h) hf
    exact ⟨huses, e, he, hname, hdescribes⟩

theorem consistent_start {fields : List (String × Field)}
    (hfields : g.fields.foldlM (FieldEntry.addTo declared) [] = .ok fields) :
    Grid.Consistent ⟨declared, fields, [], g.unitSpacing⟩ where
  closed := DimensionEntry.closed_of_resolveAll h
  field := fun entry hentry => ((fields_spec h hfields).2 entry hentry).1
  subdomain := by simp

theorem exists_subdomains_iff {fields : List (String × Field)}
    (hfields : g.fields.foldlM (FieldEntry.addTo declared) [] = .ok fields) :
    (∃ grid, g.subdomains.foldlM SubdomainEntry.addTo ⟨declared, fields, [], g.unitSpacing⟩ =
      .ok grid) ↔ (g.subdomains.map SubdomainEntry.name).Nodup ∧
        ∀ before s after, g.subdomains = before ++ s :: after →
          s.Fits (before.flatMap SubdomainEntry.created ++
            g.dimensions.map DimensionEntry.name) := by
  have hfits (before : List SubdomainEntry) (s : SubdomainEntry) :
      s.Fits (before.flatMap SubdomainEntry.created ++ declared.map Prod.fst) ↔
        s.Fits (before.flatMap SubdomainEntry.created ++
          g.dimensions.map DimensionEntry.name) :=
    SubdomainEntry.Fits.congr fun name => by simp only [List.mem_append, mem_declared_iff h]
  rw [SubdomainEntry.exists_foldlM_addTo_iff (consistent_start h hfields)]
  constructor
  · rintro ⟨hnodup, -, hsplit⟩
    exact ⟨hnodup, by simpa only [hfits] using hsplit⟩
  · rintro ⟨hnodup, hsplit⟩
    exact ⟨hnodup, by simp, by simpa only [hfits] using hsplit⟩

theorem exists_resolve_iff : (∃ grid, g.resolve = .ok grid) ↔ g.IsValid := by
  simp only [resolve_eq_ok_iff h]
  constructor
  · rintro ⟨grid, fields, hfields, hgrid⟩
    obtain ⟨hnames, hfits⟩ := (exists_fields_iff h).mp ⟨fields, hfields⟩
    obtain ⟨hregions, hparts⟩ := (exists_subdomains_iff h hfields).mp ⟨grid, hgrid⟩
    exact ⟨hnames, hfits, hregions, hparts⟩
  · rintro ⟨hnames, hfits, hregions, hparts⟩
    obtain ⟨fields, hfields⟩ := (exists_fields_iff h).mpr ⟨hnames, hfits⟩
    obtain ⟨grid, hgrid⟩ := (exists_subdomains_iff h hfields).mpr ⟨hregions, hparts⟩
    exact ⟨grid, fields, hfields, hgrid⟩

theorem resolve_spec {grid : Grid} (hgrid : g.resolve = .ok grid) :
    grid.Consistent ∧ g.Describes grid ∧ Within declared grid.dimensions := by
  obtain ⟨fields, hfields, hfold⟩ := (resolve_eq_ok_iff h).mp hgrid
  obtain ⟨hkeys, hspec⟩ := fields_spec h hfields
  obtain ⟨hconsistent, hgrows⟩ :=
    SubdomainEntry.foldlM_addTo_spec (consistent_start h hfields) hfold
  obtain ⟨hdistinct, htable⟩ := DimensionEntry.resolveAll_spec h
  obtain ⟨subdomains, hsubdomains, hdescribes⟩ := hgrows.subdomains
  refine ⟨hconsistent, ⟨?_, ?_, ?_, ?_⟩, hgrows.within⟩
  · exact hgrows.dimensions.trans ((htable.keys_perm hdistinct).append_left _)
  · rwa [hgrows.fields]
  · rw [hgrows.fields]
    exact fun entry hentry => (hspec entry hentry).2
  · rwa [hsubdomains]

/-- The grid after some of the subdomains has the dimensions that it had, and more. -/
theorem resolve_prefix {grid : Grid} (hgrid : g.resolve = .ok grid)
    {before after : List SubdomainEntry} (hsplit : g.subdomains = before ++ after) :
    ∃ earlier, GridDescription.resolve { g with subdomains := before } = .ok earlier ∧
      Within earlier.dimensions grid.dimensions := by
  obtain ⟨fields, hfields, hfold⟩ := (resolve_eq_ok_iff h).mp hgrid
  rw [hsplit, List.foldlM_append, bind_eq_ok_iff] at hfold
  obtain ⟨earlier, hearlier, hrest⟩ := hfold
  have hstart := consistent_start h hfields
  have hconsistent := (SubdomainEntry.foldlM_addTo_spec hstart hearlier).1
  have hresolve : GridDescription.resolve { g with subdomains := before } = .ok earlier :=
    (@resolve_eq_ok_iff { g with subdomains := before } _ h _).mpr ⟨fields, hfields, hearlier⟩
  exact ⟨earlier, hresolve, (SubdomainEntry.foldlM_addTo_spec hconsistent hrest).2.within⟩

/-- A description whose dimensions are resolved gives a grid if and only if it is valid. The grid
is consistent, and no dimension is replaced by a later one. -/
theorem resolve_exact :
    ((∃ grid, g.resolve = .ok grid) ↔ g.IsValid) ∧
    ∀ grid, g.resolve = .ok grid →
      grid.Consistent ∧ g.Describes grid ∧ Within declared grid.dimensions ∧
      ∀ before after, g.subdomains = before ++ after →
        ∃ earlier, GridDescription.resolve { g with subdomains := before } = .ok earlier ∧
          Within earlier.dimensions grid.dimensions := by
  refine ⟨exists_resolve_iff h, fun grid hgrid => ?_⟩
  obtain ⟨hconsistent, hdescribes, hwithin⟩ := resolve_spec h hgrid
  exact ⟨hconsistent, hdescribes, hwithin, fun _ _ hsplit => resolve_prefix h hgrid hsplit⟩

end

/-- The second subdomain restricts what the first one has created. -/
def nestedParts : GridDescription where
  dimensions := [⟨"x", .space, none⟩]
  fields := [⟨"f", .function, ["x"], [⟨4, 4⟩], []⟩]
  subdomains := [⟨"start", [⟨"x", .left 2⟩]⟩, ⟨"edge", [⟨"x_start", .right 1⟩]⟩]
  unitSpacing := false

theorem nestedParts_dimensions :
    DimensionEntry.resolveAll nestedParts.dimensions = .ok [("x", .root "x" .space)] := by
  have hx : DimensionEntry.resolve nestedParts.dimensions "x" ⟨[], []⟩ =
      .ok (.root "x" .space, ⟨[], [("x", .root "x" .space)]⟩) := by
    rw [DimensionEntry.resolve_of_root rfl rfl rfl]
    rfl
  simp only [nestedParts] at hx ⊢
  simp [DimensionEntry.resolveAll, firstRepeated?, DimensionEntry.visit, hx, Except.map]

theorem nestedParts_isValid : nestedParts.IsValid where
  fieldNames := by decide
  field := by simp [FieldEntry.fits_iff, nestedParts]
  subdomainNames := by decide
  subdomain := by
    simp [nestedParts, forall_split_cons_iff, SubdomainEntry.fits_iff, SubdomainEntry.created]

theorem resolve_exact_nestedParts :
    nestedParts.IsValid ∧ ∃ grid, nestedParts.resolve = .ok grid ∧ grid.Consistent ∧
      nestedParts.Describes grid := by
  obtain ⟨hiff, hspec⟩ := resolve_exact nestedParts_dimensions
  obtain ⟨grid, hgrid⟩ := hiff.mpr nestedParts_isValid
  obtain ⟨hconsistent, hdescribes, -⟩ := hspec grid hgrid
  exact ⟨nestedParts_isValid, grid, hgrid, hconsistent, hdescribes⟩

end GridDescription

end GridAccess
