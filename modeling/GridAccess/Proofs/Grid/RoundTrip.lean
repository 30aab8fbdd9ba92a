import GridAccess.Grid.Decoding
import GridAccess.Grid.Encoding
import GridAccess.Proofs.Json.RoundTrip

/-!
Decoding undoes the encoding of grid descriptions. What is left out when a description is written
has the value that is assumed for a missing member when it is read.
-/

namespace GridAccess

namespace Json

/-! ### Records -/

/-- A member of a record, which is left out if it has its default value. -/
structure Slot where
  name : String
  isDefault : Bool
  value : Json

/-- What is found under the name of the slot. -/
def Slot.found (s : Slot) : Option Json := if s.isDefault then none else some s.value

/-- The members that are written. -/
def written (slots : List Slot) : List (String × Json) :=
  slots.flatMap fun s => member s.isDefault s.name s.value

theorem written_cons (s : Slot) (slots : List Slot) :
    written (s :: slots) = member s.isDefault s.name s.value ++ written slots := rfl

theorem exists_slot_of_mem_written {slots : List Slot} {m : String × Json}
    (h : m ∈ written slots) : ∃ s ∈ slots, s.isDefault = false ∧ m = (s.name, s.value) := by
  obtain ⟨s, hs, hm⟩ := List.mem_flatMap.mp h
  cases hdefault : s.isDefault with
  | true => simp [member, hdefault] at hm
  | false => exact ⟨s, hs, hdefault, by simpa [member, hdefault] using hm⟩

theorem nodup_written {slots : List Slot} (h : (slots.map Slot.name).Nodup) :
    ((written slots).map Prod.fst).Nodup := by
  refine List.Nodup.sublist ?_ h
  induction slots with
  | nil => exact .slnil
  | cons s slots ih =>
      have ih := ih (List.nodup_cons.mp h).2
      rw [written_cons, List.map_append, List.map_cons]
      cases hdefault : s.isDefault with
      | true => exact .cons _ ih
      | false => exact .cons_cons _ ih

theorem lookup_member (s : Slot) (name : String) :
    (member s.isDefault s.name s.value).lookup name = if name = s.name then s.found else none := by
  unfold Slot.found
  cases s.isDefault with
  | true => simp [member]
  | false =>
      simp only [member, Bool.false_eq_true, if_false, List.lookup_cons]
      split <;> simp_all

theorem lookup_written {slots : List Slot} (h : (slots.map Slot.name).Nodup) {s : Slot}
    (hs : s ∈ slots) : (written slots).lookup s.name = s.found := by
  induction slots with
  | nil => cases hs
  | cons first slots ih =>
      obtain ⟨hfirst, hslots⟩ := List.nodup_cons.mp h
      rw [written_cons, List.lookup_append, lookup_member]
      rcases List.mem_cons.mp hs with rfl | hs
      · have hrest : (written slots).lookup s.name = none := by
          rw [List.lookup_eq_none_iff]
          intro m hm
          obtain ⟨t, ht, -, rfl⟩ := exists_slot_of_mem_written hm
          have hne : s.name ≠ t.name := fun heq => hfirst (heq ▸ List.mem_map_of_mem ht)
          simpa using hne
        rw [if_pos rfl, hrest, Option.or_none]
      · have hne : s.name ≠ first.name := fun heq => hfirst (heq ▸ List.mem_map_of_mem hs)
        rw [if_neg hne, Option.none_or, ih hslots hs]

theorem namedMembers?_map_some (known : List String) {members : List (String × Json)}
    (h : (members.map Prod.fst).Nodup) :
    namedMembers? known (members.map fun m => (some m.1, m.2)) = some members := by
  have hnamed : (members.map fun m => (some m.1, m.2)).mapM
      (fun m => m.1.map fun name => (name, m.2)) = some members := by
    clear h
    induction members with
    | nil => rfl
    | cons m members ih => simp [ih]
  have hknown : ((members.map Prod.fst).filter known.contains).Nodup := h.filter known.contains
  refine (congrArg (Option.bind · _) hnamed).trans ?_
  simp [hknown]

/-- Reading a record finds what was written. -/
theorem record?_eq_found {j : Json} {names : List String} (slots : List Slot)
    (hj : j = ofMembers (written slots)) (hnames : slots.map Slot.name = names)
    (h : names.Nodup) : j.record? names = some (slots.map Slot.found) := by
  subst hj hnames
  have hnamed := namedMembers?_map_some (slots.map Slot.name) (nodup_written h)
  refine (congrArg (Option.map _) hnamed).trans ?_
  rw [Option.map_some, List.map_map]
  exact congrArg some (List.map_congr_left fun s hs => lookup_written h hs)

@[simp] theorem found_required (name : String) (value : Json) :
    Slot.found ⟨name, false, value⟩ = some value := rfl

theorem orDefault_found {α : Type} {decode : Json → Option α} (name : String) (isDefault : Bool)
    {value : Json} {a default : α} (hdefault : isDefault = true → default = a)
    (h : decode value = some a) :
    orDefault default decode (Slot.found ⟨name, isDefault, value⟩) = some a := by
  cases isDefault with
  | true => exact congrArg some (hdefault rfl)
  | false => exact h

/-- The names of the members of an object. -/
def names : Json → List String
  | .obj members => members.filterMap Prod.fst
  | _ => []

theorem mem_names_written {slots : List Slot} {name : String} :
    name ∈ (ofMembers (written slots)).names ↔
      ∃ s ∈ slots, s.isDefault = false ∧ s.name = name := by
  have hnames : (ofMembers (written slots)).names = (written slots).map Prod.fst := by
    simp only [names, ofMembers, List.filterMap_map]
    exact congrFun (List.filterMap_eq_map (f := Prod.fst)) _
  rw [hnames]
  constructor
  · intro h
    obtain ⟨m, hm, rfl⟩ := List.mem_map.mp h
    obtain ⟨s, hs, hdefault, rfl⟩ := exists_slot_of_mem_written hm
    exact ⟨s, hs, hdefault, rfl⟩
  · rintro ⟨s, hs, hdefault, rfl⟩
    refine List.mem_map.mpr ⟨(s.name, s.value), List.mem_flatMap.mpr ⟨s, hs, ?_⟩, rfl⟩
    simp [member, hdefault]

@[simp] theorem variant?_ofMembers (name : String) (content : Json) :
    (ofMembers [(name, content)]).variant? = some (name, content) := rfl

/-! ### Values -/

@[simp] theorem toString?_ofString (s : String) : (ofString s).toString? = some s := rfl

@[simp] theorem toUInt32?_ofUInt32 (n : UInt32) : (ofUInt32 n).toUInt32? = some n := by
  have hn : n.toNat < UInt32.size := n.toNat_lt
  simp [ofUInt32, toUInt32?, hn]

theorem toList?_ofList {α : Type} {encode : α → Json} {decode : Json → Option α}
    (h : ∀ x, decode (encode x) = some x) (xs : List α) :
    toList? decode (ofList encode xs) = some xs := by
  show (xs.map encode).mapM decode = some xs
  induction xs with
  | nil => rfl
  | cons x xs ih => simp [h, ih]

theorem plain_ofString (s : String) : (ofString s).Plain := .str s

theorem plain_ofUInt32 (n : UInt32) : (ofUInt32 n).Plain := .nat n.toNat

theorem plain_ofList {α : Type} {encode : α → Json} (h : ∀ x, (encode x).Plain) (xs : List α) :
    (ofList encode xs).Plain := by
  apply Plain.arr
  intro item hitem
  obtain ⟨x, -, rfl⟩ := List.mem_map.mp hitem
  exact h x

theorem plain_ofMembers {members : List (String × Json)} (h : ∀ m ∈ members, m.2.Plain) :
    (ofMembers members).Plain := by
  apply Plain.obj
  · intro m hm
    obtain ⟨_, -, rfl⟩ := List.mem_map.mp hm
    rfl
  · intro m hm
    obtain ⟨member, hmember, rfl⟩ := List.mem_map.mp hm
    exact h member hmember

theorem plain_written {slots : List Slot} (h : ∀ s ∈ slots, s.value.Plain) :
    (ofMembers (written slots)).Plain := by
  apply plain_ofMembers
  intro m hm
  obtain ⟨s, hs, -, rfl⟩ := exists_slot_of_mem_written hm
  exact h s hs

theorem orDefault_list_found {α : Type} {encode : α → Json} {decode : Json → Option α}
    (name : String) (h : ∀ x, decode (encode x) = some x) (xs : List α) :
    orDefault [] (toList? decode) (Slot.found ⟨name, xs.isEmpty, ofList encode xs⟩) = some xs :=
  orDefault_found name _ (by simp) (toList?_ofList h xs)

end Json

open Json

/-! ### Decoding what was encoded -/

theorem DimensionEntryKind.ofJson?_toJson (k : DimensionEntryKind) : ofJson? k.toJson = some k := by
  cases k with
  | conditional factor =>
      have hrecord : (ofMembers [("factor", ofUInt32 factor)]).record? ["factor"] = _ :=
        record?_eq_found [⟨"factor", false, ofUInt32 factor⟩] rfl rfl (by decide)
      simp [ofJson?, toJson, hrecord]
  | basic | space | time | stepping => rfl

theorem FieldKind.ofJson?_toJson (k : FieldKind) : ofJson? k.toJson = some k := by
  cases k <;> rfl

theorem Margin.ofJson?_toJson (m : Margin) : ofJson? m.toJson = some m := by
  simp [ofJson?, toJson]

theorem Thickness.ofJson?_toJson (t : Thickness) : ofJson? t.toJson = some t := by
  cases t with
  | middle l r =>
      have hrecord : (ofMembers [("left", ofUInt32 l), ("right", ofUInt32 r)]).record?
          ["left", "right"] = _ :=
        record?_eq_found [⟨"left", false, ofUInt32 l⟩, ⟨"right", false, ofUInt32 r⟩] rfl rfl
          (by decide)
      simp [ofJson?, toJson, hrecord]
  | left n => simp [ofJson?, toJson]
  | right n => simp [ofJson?, toJson]

namespace DimensionEntry

def slots (d : DimensionEntry) : List Slot :=
  [⟨"name", false, ofString d.name⟩, ⟨"kind", d.kind = .basic, d.kind.toJson⟩,
    ⟨"parent", d.parent.isNone, ofString (d.parent.getD "")⟩]

theorem toJson_eq_written (d : DimensionEntry) : d.toJson = ofMembers (written d.slots) := by
  obtain ⟨name, kind, _ | parent⟩ := d <;> simp [toJson, written, slots, member]

theorem ofJson?_toJson (d : DimensionEntry) : ofJson? d.toJson = some d := by
  have hrecord : d.toJson.record? ["name", "kind", "parent"] = _ :=
    record?_eq_found d.slots d.toJson_eq_written rfl (by decide)
  have hkind := orDefault_found "kind" (a := d.kind) (d.kind = .basic)
    (by simpa using Eq.symm) d.kind.ofJson?_toJson
  have hparent : orDefault none parentOfJson?
      (Slot.found ⟨"parent", d.parent.isNone, ofString (d.parent.getD "")⟩) = some d.parent := by
    cases d.parent <;> rfl
  simp [ofJson?, hrecord, slots, hkind, hparent]

end DimensionEntry

namespace FieldEntry

def slots (f : FieldEntry) : List Slot :=
  [⟨"name", false, ofString f.name⟩, ⟨"kind", f.kind = .function, f.kind.toJson⟩,
    ⟨"dimensions", false, ofList ofString f.dimensions⟩,
    ⟨"halo", f.halo.isEmpty, ofList Margin.toJson f.halo⟩,
    ⟨"padding", f.padding.isEmpty, ofList Margin.toJson f.padding⟩]

theorem toJson_eq_written (f : FieldEntry) : f.toJson = ofMembers (written f.slots) := by
  simp [toJson, written, slots, member]

theorem ofJson?_toJson (f : FieldEntry) : ofJson? f.toJson = some f := by
  have hrecord : f.toJson.record? ["name", "kind", "dimensions", "halo", "padding"] = _ :=
    record?_eq_found f.slots f.toJson_eq_written rfl (by decide)
  have hkind := orDefault_found "kind" (a := f.kind) (f.kind = .function)
    (by simpa using Eq.symm) f.kind.ofJson?_toJson
  have hmargins (name : String) (margins : List Margin) := orDefault_list_found name
    Margin.ofJson?_toJson margins
  simp [ofJson?, hrecord, slots, hkind, hmargins, toList?_ofList toString?_ofString]

end FieldEntry

theorem RestrictionEntry.ofJson?_toJson (r : RestrictionEntry) : ofJson? r.toJson = some r := by
  have hrecord : r.toJson.record? ["name", "thickness"] = _ :=
    record?_eq_found [⟨"name", false, ofString r.name⟩, ⟨"thickness", false, r.thickness.toJson⟩]
      rfl rfl (by decide)
  simp [ofJson?, hrecord, Thickness.ofJson?_toJson]

theorem SubdomainEntry.ofJson?_toJson (s : SubdomainEntry) : ofJson? s.toJson = some s := by
  have hrecord : s.toJson.record? ["name", "dimensions"] = _ :=
    record?_eq_found [⟨"name", false, ofString s.name⟩,
      ⟨"dimensions", false, ofList RestrictionEntry.toJson s.dimensions⟩] rfl rfl (by decide)
  simp [ofJson?, hrecord, toList?_ofList RestrictionEntry.ofJson?_toJson]

namespace GridDescription

def optionsToJson (unitSpacing : Bool) : Json := .ofMembers [("unit_spacing", .bool unitSpacing)]

theorem optionsOfJson?_optionsToJson (unitSpacing : Bool) :
    optionsOfJson? (optionsToJson unitSpacing) = some unitSpacing := by
  have hrecord : (optionsToJson unitSpacing).record? ["unit_spacing"] = _ :=
    record?_eq_found [⟨"unit_spacing", false, .bool unitSpacing⟩] rfl rfl (by decide)
  simp [optionsOfJson?, hrecord, orDefault, toBool?]

def slots (g : GridDescription) : List Slot :=
  [⟨"dimensions", g.dimensions.isEmpty, ofList DimensionEntry.toJson g.dimensions⟩,
    ⟨"functions", g.fields.isEmpty, ofList FieldEntry.toJson g.fields⟩,
    ⟨"subdomains", g.subdomains.isEmpty, ofList SubdomainEntry.toJson g.subdomains⟩,
    ⟨"lowering", !g.unitSpacing, optionsToJson g.unitSpacing⟩]

theorem toJson_eq_written (g : GridDescription) : g.toJson = ofMembers (written g.slots) := by
  simp [toJson, written, slots, member, optionsToJson]

theorem ofJson?_toJson (g : GridDescription) : ofJson? g.toJson = some g := by
  have hrecord : g.toJson.record? ["dimensions", "functions", "subdomains", "lowering"] = _ :=
    record?_eq_found g.slots g.toJson_eq_written rfl (by decide)
  have hdimensions := orDefault_list_found "dimensions" DimensionEntry.ofJson?_toJson g.dimensions
  have hfields := orDefault_list_found "functions" FieldEntry.ofJson?_toJson g.fields
  have hsubdomains := orDefault_list_found "subdomains" SubdomainEntry.ofJson?_toJson g.subdomains
  have hoptions := orDefault_found "lowering" (a := g.unitSpacing) (!g.unitSpacing)
    (by simpa using Eq.symm) (optionsOfJson?_optionsToJson g.unitSpacing)
  simp [ofJson?, hrecord, slots, hdimensions, hfields, hsubdomains, hoptions]

end GridDescription

/-! ### What is encoded can be written -/

theorem DimensionEntryKind.plain_toJson (k : DimensionEntryKind) : k.toJson.Plain := by
  cases k with
  | conditional factor =>
      have hfactor : (ofMembers [("factor", ofUInt32 factor)]).Plain :=
        plain_ofMembers (by simp [plain_ofUInt32])
      exact plain_ofMembers (by simp [hfactor])
  | basic | space | time | stepping => exact plain_ofString _

theorem FieldKind.plain_toJson (k : FieldKind) : k.toJson.Plain := by
  cases k <;> exact plain_ofString _

theorem Margin.plain_toJson (m : Margin) : m.toJson.Plain := .arr (by simp [plain_ofUInt32])

theorem Thickness.plain_toJson (t : Thickness) : t.toJson.Plain := by
  cases t with
  | middle l r =>
      have hsides : (ofMembers [("left", ofUInt32 l), ("right", ofUInt32 r)]).Plain :=
        plain_ofMembers (by simp [plain_ofUInt32])
      exact plain_ofMembers (by simp [hsides])
  | left n | right n => exact plain_ofMembers (by simp [plain_ofUInt32])

theorem DimensionEntry.plain_toJson (d : DimensionEntry) : d.toJson.Plain := by
  rw [toJson_eq_written]
  exact plain_written (by simp [slots, plain_ofString, d.kind.plain_toJson])

theorem FieldEntry.plain_toJson (f : FieldEntry) : f.toJson.Plain := by
  rw [toJson_eq_written]
  exact plain_written (by
    simp [slots, plain_ofString, f.kind.plain_toJson, plain_ofList plain_ofString,
      plain_ofList Margin.plain_toJson])

theorem RestrictionEntry.plain_toJson (r : RestrictionEntry) : r.toJson.Plain :=
  plain_ofMembers (by simp [plain_ofString, r.thickness.plain_toJson])

theorem SubdomainEntry.plain_toJson (s : SubdomainEntry) : s.toJson.Plain :=
  plain_ofMembers (by simp [plain_ofString, plain_ofList RestrictionEntry.plain_toJson])

theorem GridDescription.plain_toJson (g : GridDescription) : g.toJson.Plain := by
  have hoptions : (optionsToJson g.unitSpacing).Plain := plain_ofMembers (by simp [Plain.bool])
  rw [toJson_eq_written]
  exact plain_written (by
    simp [slots, plain_ofList DimensionEntry.plain_toJson, plain_ofList FieldEntry.plain_toJson,
      plain_ofList SubdomainEntry.plain_toJson, hoptions])

/-! ### Round trip -/

namespace GridDescription

/-- A member is written if and only if it does not have its default value. -/
structure OmitsDefaults (g : GridDescription) : Prop where
  dimensions : "dimensions" ∈ g.toJson.names ↔ g.dimensions ≠ []
  fields : "functions" ∈ g.toJson.names ↔ g.fields ≠ []
  subdomains : "subdomains" ∈ g.toJson.names ↔ g.subdomains ≠ []
  options : "lowering" ∈ g.toJson.names ↔ g.unitSpacing = true
  dimensionKind : ∀ d ∈ g.dimensions, "kind" ∈ d.toJson.names ↔ d.kind ≠ .basic
  parent : ∀ d ∈ g.dimensions, "parent" ∈ d.toJson.names ↔ d.parent.isSome
  fieldKind : ∀ f ∈ g.fields, "kind" ∈ f.toJson.names ↔ f.kind ≠ .function
  halo : ∀ f ∈ g.fields, "halo" ∈ f.toJson.names ↔ f.halo ≠ []
  padding : ∀ f ∈ g.fields, "padding" ∈ f.toJson.names ↔ f.padding ≠ []

theorem omitsDefaults (g : GridDescription) : g.OmitsDefaults where
  dimensions := by simp [toJson_eq_written, mem_names_written, slots]
  fields := by simp [toJson_eq_written, mem_names_written, slots]
  subdomains := by simp [toJson_eq_written, mem_names_written, slots]
  options := by simp [toJson_eq_written, mem_names_written, slots]
  dimensionKind := by
    simp [DimensionEntry.toJson_eq_written, mem_names_written, DimensionEntry.slots]
  parent := by simp [DimensionEntry.toJson_eq_written, mem_names_written, DimensionEntry.slots]
  fieldKind := by simp [FieldEntry.toJson_eq_written, mem_names_written, FieldEntry.slots]
  halo := by simp [FieldEntry.toJson_eq_written, mem_names_written, FieldEntry.slots]
  padding := by simp [FieldEntry.toJson_eq_written, mem_names_written, FieldEntry.slots]

/-- Decoding undoes encoding, although the text does not mention what has its default value. -/
theorem decode_encode (g : GridDescription) :
    decode g.encode = .ok g ∧ Json.read? g.encode = some g.toJson ∧ g.OmitsDefaults := by
  have hread : Json.read? g.encode = some g.toJson := g.plain_toJson.read?_text
  refine ⟨?_, hread, g.omitsDefaults⟩
  simp [decode, hread, ofJson?_toJson]

end GridDescription

end GridAccess
