import GridAccess.Proofs.Alignment.Trace
import GridAccess.Proofs.Expr.Inheritance
import GridAccess.Proofs.Expr.ReplacedValue
import GridAccess.Proofs.Subdomain

/-!
Alignment preserves meaning. Before it, calls and accesses read a field where their arguments
say; after it, an access reads the field as far to the left of its indices as the domain begins
in the storage. Every use at every depth has to be shifted exactly once for the two to agree.

The induction is on the depth of nesting. It carries along that powers stay natural and that no
new fields are called, since the indices that one level computes are the operands of the next.
-/

namespace GridAccess

/-- Values of symbols and dimensions, and what fields hold at logical coordinates. -/
structure Valuation where
  symbol : Symbol → Int
  dimension : Dimension → Int
  content : Field → List Int → Int

namespace Valuation

def logical (v : Valuation) : Interpretation where
  symbol := v.symbol
  dimension := v.dimension
  call := v.content
  access := v.content

/-- Storage begins to the left of the domain. Nothing is known about calls: they read `unread`. -/
def stored (v : Valuation) (unread : Field → List Int → Int) : Interpretation where
  symbol := v.symbol
  dimension := v.dimension
  call := unread
  access f ks := v.content f (ks.mapIdx fun axis k => k - f.offset axis)

def UnitSpaced (v : Valuation) (f : Field) : Prop := ∀ d ∈ f.dimensions, v.symbol d.spacing = 1

/-- Every restricted dimension has the value of its substitute. -/
def Respects (v : Valuation) (subdomain : Option Subdomain) : Prop :=
  ∀ s, subdomain = some s → ∀ d d', s.get? d = some d' → v.dimension d = v.dimension d'

end Valuation

/-- The replacements keep the values of dimensions and replace nothing else. -/
def Substitution.KeepsDimensions (s : Substitution) (v : Valuation) : Prop :=
  ∀ {e r : Expr}, s.find? e = some r →
    ∃ d d', e = .dim d ∧ r = .dim d' ∧ v.dimension d = v.dimension d'

namespace Alignment

open GridAccess.Expr (AllNodes NaturalPowers substFoldTrace sumOfTrace)

/-! ### What the induction carries -/

def TameNode (p : Field → Prop) : Expr → Prop
  | .call f _ => p f
  | .pow _ exponent => ∃ n : Int64, exponent = .int n ∧ 0 ≤ n.toInt
  | _ => True

/-- Powers are natural and called fields satisfy `p`. -/
def Tame (p : Field → Prop) : Expr → Prop := AllNodes (TameNode p)

variable {p : Field → Prop} {v : Valuation} {unread : Field → List Int → Int}

theorem headProperty_tameNode : HeadProperty (TameNode p) where
  lit _ := trivial
  sum _ := trivial
  prod _ := trivial
  call _ h := h
  access _ _ := trivial

theorem inherited_tame : Inherited (Tame p) := AllNodes.inherited headProperty_tameNode

theorem Tame.naturalPowers {e : Expr} (h : Tame p e) : e.NaturalPowers :=
  fun _ _ hm => h _ hm

theorem tame_int (n : Int64) : Tame p (.int n) := inherited_tame.lit _

theorem Tame.substFold {s : Substitution} (hint : ∀ n : Int64, s.find? (.int n) = none)
    (hs : ∀ {e r : Expr}, s.find? e = some r → Tame p r) {e : Expr} (h : Tame p e) :
    Tame p (e.substFold s) := by
  refine AllNodes.substFold headProperty_tameNode ?_ hs fun n hn _ => h n hn
  intro base exponent hpow
  obtain ⟨n, rfl, hn⟩ := hpow
  have hexponent : (Expr.int n).substFold s = .int n :=
    Expr.substFold_eq_self (by simpa [Substitution.touches, Expr.nodes, Expr.int] using hint n)
  exact ⟨n, hexponent, hn⟩

/-- `r` stands for `e` in storage. -/
structure Represents (p : Field → Prop) (v : Valuation) (unread : Field → List Int → Int)
    (e r : Expr) : Prop where
  value_eq : r.value (v.stored unread) = e.value v.logical
  tame : Tame p r

/-! ### Spacings -/

theorem find?_spacing {h : Symbol} {e r : Expr}
    (hfind : Substitution.find? ⟨[(.sym h, .int 1)]⟩ e = some r) : e = .sym h ∧ r = .int 1 := by
  obtain ⟨entry, hentry, hsame, rfl⟩ := Substitution.exists_entry_of_find? hfind
  obtain rfl := List.mem_singleton.mp hentry
  exact ⟨Expr.same_sym_iff.mp (Expr.same_symm hsame), rfl⟩

theorem find?_spacing_int (h : Symbol) (n : Int64) :
    Substitution.find? ⟨[(.sym h, .int 1)]⟩ (.int n) = none := by
  rfl

theorem withUnitSpacing_spec {f : Field} {axis : Nat} {arg : Expr} (hf : v.UnitSpaced f)
    (harg : Tame p arg) (h : AllInt (withUnitSpacingTrace f axis arg)) :
    (withUnitSpacing f axis arg).value v.logical = arg.value v.logical ∧
      Tame p (withUnitSpacing f axis arg) := by
  unfold withUnitSpacing
  unfold withUnitSpacingTrace at h
  cases hd : f.dimensions[axis]? with
  | none => exact ⟨rfl, harg⟩
  | some d =>
      rw [hd] at h
      have hspacing : v.symbol d.spacing = 1 := hf d (List.mem_of_getElem? hd)
      refine ⟨Expr.value_substFold ?_ (find?_spacing_int _) harg.naturalPowers h,
        harg.substFold (find?_spacing_int _) ?_⟩
      · intro e r hfind
        obtain ⟨rfl, rfl⟩ := find?_spacing hfind
        exact hspacing.symm
      · intro e r hfind
        obtain ⟨-, rfl⟩ := find?_spacing hfind
        exact tame_int 1

theorem useDepth_withUnitSpacing_le (f : Field) (axis : Nat) (arg : Expr) :
    (withUnitSpacing f axis arg).useDepth ≤ arg.useDepth := by
  unfold withUnitSpacing
  split
  · refine Expr.useDepth_substFold_le ?_ arg
    intro e r hfind
    obtain ⟨-, rfl⟩ := find?_spacing hfind
    rfl
  · exact Nat.le_refl _

/-! ### Indices -/

theorem shift_eq_sumOf (f : Field) (axis : Nat) (index : Expr) :
    shift f axis index = Expr.sumOf [index, Expr.int (Int64.ofNat (f.offset axis))] := rfl

theorem value_shift {ι : Interpretation} {f : Field} {axis : Nat} {index : Expr}
    (h : AllInt (shiftTrace f axis index)) :
    (shift f axis index).value ι = index.value ι + f.offset axis := by
  rw [shift_eq_sumOf, Expr.value_sumOf h]
  simp only [List.map_cons, List.map_nil, Expr.value_int, toInt_offset, List.sum_cons,
    List.sum_nil, add_zero]

/-- What is inherited from terms is kept when an index is moved. -/
theorem inherited_shift {P : Expr → Prop} (hP : Inherited P) (f : Field) (axis : Nat)
    {index : Expr} (h : P index) : P (shift f axis index) := by
  rw [shift_eq_sumOf]
  refine hP.sumOf fun e he => ?_
  rcases List.mem_pair.mp he with rfl | rfl
  · exact h
  · exact hP.lit _

section

variable {restriction : Substitution}

theorem keepsDimensions_int (hr : restriction.KeepsDimensions v) (n : Int64) :
    restriction.find? (.int n) = none := by
  cases hfind : restriction.find? (.int n) with
  | none => rfl
  | some r =>
      obtain ⟨d, -, hd, -⟩ := hr hfind
      cases hd

/-- The finished index: shifted once, and restricted. -/
theorem finished_spec (hr : restriction.KeepsDimensions v) {f : Field} {axis : Nat}
    {e index : Expr} (hindex : Represents p v unread e index)
    (hshift : AllInt (shiftTrace f axis index))
    (hrestrict : AllInt (substFoldTrace restriction (shift f axis index))) :
    ((shift f axis index).substFold restriction).value (v.stored unread) =
        e.value v.logical + f.offset axis ∧
      Tame p ((shift f axis index).substFold restriction) := by
  have htame : Tame p (shift f axis index) := inherited_shift inherited_tame f axis hindex.tame
  constructor
  · rw [Expr.value_substFold _ (keepsDimensions_int hr) htame.naturalPowers hrestrict,
      value_shift hshift, hindex.value_eq]
    intro e r hfind
    obtain ⟨d, d', rfl, rfl, hd⟩ := hr hfind
    exact hd.symm
  · refine htame.substFold (keepsDimensions_int hr) ?_
    intro e r hfind
    obtain ⟨-, d', -, rfl, -⟩ := hr hfind
    intro n hn
    obtain rfl := Expr.mem_nodes_dim.mp hn
    trivial

/-- A use of a field whose indices have been prepared reads the same content in storage. -/
theorem store_spec (hr : restriction.KeepsDimensions v) {f : Field}
    {align : Nat → Expr → Expr} {trace : Nat → Expr → List Literal} {indices : List Expr}
    (halign : ∀ axis, ∀ e ∈ indices, AllInt (trace axis e) →
      Represents p v unread e (align axis e))
    (h : AllInt (storeTrace f align trace restriction indices)) :
    (store f align restriction indices).value (v.stored unread) =
        v.content f (indices.map (Expr.value v.logical)) ∧
      Tame p (store f align restriction indices) := by
  have hfinished (axis : Nat) (haxis : axis < indices.length) :=
    have htrace : AllInt (trace axis indices[axis] ++
        shiftTrace f axis (align axis indices[axis]) ++
        substFoldTrace restriction (shift f axis (align axis indices[axis]))) := fun n hn =>
      h n (List.mem_flatten.mpr ⟨_, List.mem_mapIdx.mpr ⟨axis, haxis, rfl⟩, hn⟩)
    have hparts := allInt_append.mp htrace
    have hindex := allInt_append.mp hparts.1
    finished_spec hr (f := f)
      (halign axis _ (List.getElem_mem haxis) hindex.1) hindex.2 hparts.2
  constructor
  · rw [store, Expr.value_access]
    apply congrArg (v.content f)
    refine List.ext_getElem (by simp) ?_
    intro axis hleft hright
    have haxis : axis < indices.length := by simpa using hright
    simp [(hfinished axis haxis).1]
  · refine Expr.allNodes_access.mpr ⟨trivial, ?_⟩
    intro e he
    obtain ⟨axis, haxis, rfl⟩ := List.mem_mapIdx.mp he
    exact (hfinished axis haxis).2

end

/-! ### Uses of fields -/

def CoversNode (s : Substitution) : Expr → Prop
  | .call f es => ∃ r, s.find? (.call f es) = some r
  | .access f es => ∃ r, s.find? (.access f es) = some r
  | _ => True

/-- Replacing every use of a field by what represents it represents the expression around. -/
theorem represents_subst {s : Substitution}
    (hs : ∀ {n r : Expr}, s.find? n = some r → Represents p v unread n r)
    (hother : ∀ {n : Expr}, (∀ f es, n ≠ .call f es) → (∀ f es, n ≠ .access f es) →
      s.find? n = none)
    {e : Expr} (hcover : AllNodes (CoversNode s) e) (h : Tame p e) :
    Represents p v unread e (e.subst s) := by
  have hlist {node : Expr} (hcover : AllNodes (CoversNode s) node) (hnode : Tame p node)
      (ih : ∀ e ∈ node.children, AllNodes (CoversNode s) e → Tame p e →
        Represents p v unread e (e.subst s)) :
      (node.children.map (·.subst s)).map (Expr.value (v.stored unread)) =
          node.children.map (Expr.value v.logical) ∧
        ∀ r ∈ node.children.map (·.subst s), Tame p r := by
    have hes (e : Expr) (he : e ∈ node.children) : Represents p v unread e (e.subst s) :=
      ih e he (hcover.of_mem_children he) (hnode.of_mem_children he)
    constructor
    · rw [List.map_map]
      exact List.map_congr_left fun e he => (hes e he).value_eq
    · intro r hr
      obtain ⟨e, he, rfl⟩ := List.mem_map.mp hr
      exact (hes e he).tame
  induction e with
  | lit | sym | dim =>
      rw [Expr.subst_eq_self]
      · exact ⟨rfl, h⟩
      · simp [Substitution.touches, Expr.nodes, hother]
  | call f es | access f es =>
      obtain ⟨r, hr⟩ := hcover.self
      rw [Expr.subst_of_find? hr]
      exact hs hr
  | sum es ih =>
      obtain ⟨hvalues, htame⟩ := hlist hcover h ih
      rw [Expr.subst_sum (hother (by simp) (by simp))]
      refine ⟨?_, inherited_tame.sum_iff.mpr htame⟩
      rw [Expr.value_sum, Expr.value_sum]
      exact congrArg List.sum hvalues
  | prod es ih =>
      obtain ⟨hvalues, htame⟩ := hlist hcover h ih
      rw [Expr.subst_prod (hother (by simp) (by simp))]
      refine ⟨?_, inherited_tame.prod_iff.mpr htame⟩
      rw [Expr.value_prod, Expr.value_prod]
      exact congrArg List.prod hvalues
  | pow base exponent ihb _ =>
      -- The exponent is a literal, which nothing replaces.
      obtain ⟨n, rfl, hn⟩ := h.self
      have hchild : base ∈ (Expr.pow base (.int n)).children := List.mem_cons_self
      have hbase := ihb (hcover.of_mem_children hchild) (h.of_mem_children hchild)
      have hexponent : (Expr.int n).subst s = .int n :=
        Expr.subst_eq_self (by simp [Substitution.touches, Expr.nodes, Expr.int, hother])
      rw [Expr.subst_pow (hother (by simp) (by simp)), hexponent]
      refine ⟨?_, Expr.allNodes_pow.mpr ⟨⟨n, rfl, hn⟩, hbase.tame, tame_int n⟩⟩
      rw [Expr.value_pow, Expr.value_pow, hbase.value_eq]
      rfl

/-- The fields whose spacings are 1 if they count as 1. -/
def Spaced (v : Valuation) (unitSpacing : Bool) (f : Field) : Prop :=
  unitSpacing = true → v.UnitSpaced f

/-- `align` represents what is nested at most `depth` deep; `trace` lists what it computes. -/
def RepresentsUpTo (v : Valuation) (unread : Field → List Int → Int) (unitSpacing : Bool)
    (align : Expr → Expr) (trace : Expr → List Literal) (depth : Nat) : Prop :=
  ∀ e : Expr, e.useDepth ≤ depth → Tame (Spaced v unitSpacing) e → AllInt (trace e) →
    Represents (Spaced v unitSpacing) v unread e (align e)

section

variable {unitSpacing : Bool} {align : Expr → Expr} {trace : Expr → List Literal} {depth : Nat}
variable {restriction : Substitution}

theorem represents_argument (halign : RepresentsUpTo v unread unitSpacing align trace depth)
    {f : Field} {axis : Nat} {arg : Expr} (hf : Spaced v unitSpacing f)
    (harg : Tame (Spaced v unitSpacing) arg) (hdepth : arg.useDepth ≤ depth)
    (h : AllInt (argumentTrace unitSpacing trace f axis arg)) :
    Represents (Spaced v unitSpacing) v unread arg (argument unitSpacing align f axis arg) := by
  obtain ⟨hspacing, htrace⟩ := allInt_append.mp h
  cases unitSpacing with
  | false => exact halign arg hdepth harg htrace
  | true =>
      obtain ⟨hvalue, htame⟩ := withUnitSpacing_spec (hf rfl) harg hspacing
      have hindex := halign _ ((useDepth_withUnitSpacing_le f axis arg).trans hdepth) htame htrace
      exact ⟨hindex.value_eq.trans hvalue, hindex.tame⟩

/-- The stored forms of the uses among `ns` represent them. -/
theorem represents_of_find?_stored (hr : restriction.KeepsDimensions v)
    (halign : RepresentsUpTo v unread unitSpacing align trace depth) {ns : List Expr}
    (hns : ∀ n ∈ ns, n.useDepth ≤ depth + 1 ∧ Tame (Spaced v unitSpacing) n)
    (h : AllInt (storedTrace unitSpacing align trace restriction
      (ns.filterMap Expr.call?).eraseDups (ns.filterMap Expr.access?).eraseDups))
    {n r : Expr} (hfind : (stored unitSpacing align restriction
      (ns.filterMap Expr.call?).eraseDups (ns.filterMap Expr.access?).eraseDups).find? n = some r) :
    Represents (Spaced v unitSpacing) v unread n r := by
  obtain ⟨hcalls, haccesses⟩ := allInt_append.mp h
  rcases exists_use_of_find? hfind with ⟨c, hc, hsame, rfl⟩ | ⟨a, ha, hsame, rfl⟩
  · obtain ⟨hdepth, htame⟩ := hns _ (UseKind.calls.toExpr_mem hc)
    have hargument (axis : Nat) (e : Expr) (he : e ∈ c.args)
        (htrace : AllInt (argumentTrace unitSpacing trace c.field axis e)) :
        Represents (Spaced v unitSpacing) v unread e
          (argument unitSpacing align c.field axis e) :=
      represents_argument halign htame.self (htame.of_mem_children he)
        (Expr.useDepth_le_of_mem_use hdepth he) htrace
    obtain ⟨hvalue, hstored⟩ := store_spec hr hargument fun m hm =>
      hcalls m (List.mem_flatMap.mpr ⟨c, hc, hm⟩)
    refine ⟨?_, hstored⟩
    rw [hvalue, Expr.value_eq_of_same hsame, Call.toExpr, Expr.value_call]
    rfl
  · obtain ⟨hdepth, htame⟩ := hns _ (UseKind.accesses.toExpr_mem ha)
    have hindex (_ : Nat) (e : Expr) (he : e ∈ a.indices) (htrace : AllInt (trace e)) :
        Represents (Spaced v unitSpacing) v unread e (align e) :=
      halign e (Expr.useDepth_le_of_mem_use hdepth he) (htame.of_mem_children he) htrace
    obtain ⟨hvalue, hstored⟩ := store_spec hr hindex fun m hm =>
      haccesses m (List.mem_flatMap.mpr ⟨a, ha, hm⟩)
    refine ⟨?_, hstored⟩
    rw [hvalue, Expr.value_eq_of_same hsame, Access.toExpr, Expr.value_access]
    rfl

theorem represents_subst_stored (hr : restriction.KeepsDimensions v)
    (halign : RepresentsUpTo v unread unitSpacing align trace depth) {ns : List Expr}
    (hns : ∀ n ∈ ns, n.useDepth ≤ depth + 1 ∧ Tame (Spaced v unitSpacing) n)
    (h : AllInt (storedTrace unitSpacing align trace restriction
      (ns.filterMap Expr.call?).eraseDups (ns.filterMap Expr.access?).eraseDups))
    {e : Expr} (he : ∀ n ∈ e.nodes, n ∈ ns) :
    Represents (Spaced v unitSpacing) v unread e (e.subst (stored unitSpacing align restriction
      (ns.filterMap Expr.call?).eraseDups (ns.filterMap Expr.access?).eraseDups)) := by
  refine represents_subst (represents_of_find?_stored hr halign hns h) find?_stored_eq_none ?_
    (hns e (he e e.self_mem_nodes)).2
  intro n hn
  cases n with
  | call => exact exists_find?_of_use (he _ hn) fun huse => nomatch huse.1
  | access => exact exists_find?_of_use (he _ hn) fun huse => nomatch huse.2
  | _ => trivial

end

/-! ### Indices, expressions and equations -/

theorem empty_keepsDimensions : Substitution.empty.KeepsDimensions v := by
  intro e r hfind
  cases hfind

theorem represents_alignIndex (unitSpacing : Bool) (depth : Nat) :
    RepresentsUpTo v unread unitSpacing (alignIndex unitSpacing depth)
      (alignIndexTrace unitSpacing depth) depth := by
  induction depth with
  | zero =>
      -- Without uses of fields the expression stays as it is, and replacing nothing does too.
      intro e hdepth htame _
      have hsubst : e.subst .empty = alignIndex unitSpacing 0 e :=
        Expr.subst_eq_self (by simp [Substitution.touches])
      rw [← hsubst]
      refine represents_subst (fun hfind => by cases hfind) (fun _ _ => rfl) ?_ htame
      intro n hn
      have hnode := (Expr.useDepth_le_of_mem_nodes hn).trans hdepth
      cases n with
      | call | access => simp [Expr.useDepth] at hnode
      | _ => trivial
  | succ depth ih =>
      intro e hdepth htame h
      refine represents_subst_stored empty_keepsDimensions ih ?_ h fun n hn => hn
      intro n hn
      exact ⟨(Expr.useDepth_le_of_mem_nodes hn).trans hdepth, htame.of_mem_nodes hn⟩

/-- Powers are natural, and where spacings count as 1, those of called fields are 1. -/
structure Suits (a : Alignment) (v : Valuation) (e : Expr) : Prop where
  naturalPowers : e.NaturalPowers
  spacing : a.unitSpacing = true → ∀ f args, .call f args ∈ e.nodes → v.UnitSpaced f

theorem Suits.tame {a : Alignment} {e : Expr} (h : a.Suits v e) :
    Tame (Spaced v a.unitSpacing) e := by
  intro n hn
  cases n with
  | call f args => exact fun hunit => h.spacing hunit f args hn
  | pow base exponent => exact h.naturalPowers base exponent hn
  | _ => trivial

theorem keepsDimensions_restriction {eq : Equation} (h : v.Respects eq.subdomain) :
    eq.restriction.KeepsDimensions v := by
  unfold Equation.restriction
  cases hs : eq.subdomain with
  | none => exact empty_keepsDimensions
  | some s =>
      intro e r hfind
      obtain ⟨d, d', rfl, hd, rfl⟩ := Subdomain.exists_dim_of_find? hfind
      exact ⟨d, d', rfl, rfl, h s hs d d' hd⟩

theorem alignExpr_value {a : Alignment} (ha : a.replacements.isEmpty = true) {e : Expr}
    (he : a.Suits v e) (h : AllInt (a.alignExprTrace e)) :
    (a.alignExpr e).value (v.stored unread) = e.value v.logical := by
  have hns : ∀ n ∈ e.nodes, n.useDepth ≤ e.useDepth + 1 ∧ Tame (Spaced v a.unitSpacing) n := by
    intro n hn
    exact ⟨(Expr.useDepth_le_of_mem_nodes hn).trans (Nat.le_succ _), he.tame.of_mem_nodes hn⟩
  rw [alignExpr, replaceUses, if_pos ha]
  exact (represents_subst_stored empty_keepsDimensions (represents_alignIndex _ _) hns h
    fun n hn => hn).value_eq

theorem alignEquation_value {a : Alignment} (ha : a.replacements.isEmpty = true) {eq : Equation}
    (hlhs : a.Suits v eq.lhs) (hrhs : a.Suits v eq.rhs) (hrespects : v.Respects eq.subdomain)
    (h : AllInt (a.alignEquationTrace eq)) {side : Expr}
    (hside : ∀ n ∈ side.nodes, n ∈ eq.lhs.nodes ++ eq.rhs.nodes) :
    (a.replaceUses (stored a.unitSpacing
        (alignIndex a.unitSpacing (max eq.lhs.useDepth eq.rhs.useDepth)) eq.restriction eq.calls
        eq.allAccesses) side).value (v.stored unread) =
      side.value v.logical := by
  have hns : ∀ n ∈ eq.lhs.nodes ++ eq.rhs.nodes,
      n.useDepth ≤ max eq.lhs.useDepth eq.rhs.useDepth + 1 ∧
        Tame (Spaced v a.unitSpacing) n := by
    intro n hn
    refine ⟨useDepth_le_of_mem_sides hn, ?_⟩
    rcases List.mem_append.mp hn with hn | hn
    · exact hlhs.tame.of_mem_nodes hn
    · exact hrhs.tame.of_mem_nodes hn
  rw [replaceUses, if_pos ha]
  exact (represents_subst_stored (keepsDimensions_restriction hrespects)
    (represents_alignIndex _ _) hns h hside).value_eq

/-- Without replacements by the caller, what is computed in the domain before alignment is
computed in storage after it. -/
theorem alignment_preserves_value (a : Alignment) (ha : a.replacements.isEmpty = true)
    (v : Valuation) (unread : Field → List Int → Int) :
    (∀ eq : Equation, a.Suits v eq.lhs → a.Suits v eq.rhs → v.Respects eq.subdomain →
      AllInt (a.alignEquationTrace eq) →
      (a.alignEquation eq).lhs.value (v.stored unread) = eq.lhs.value v.logical ∧
        (a.alignEquation eq).rhs.value (v.stored unread) = eq.rhs.value v.logical) ∧
    ∀ e : Expr, a.Suits v e → AllInt (a.alignExprTrace e) →
      (a.alignExpr e).value (v.stored unread) = e.value v.logical := by
  constructor
  · intro eq hlhs hrhs hrespects h
    constructor
    · exact alignEquation_value ha hlhs hrhs hrespects h fun n hn => List.mem_append_left _ hn
    · exact alignEquation_value ha hlhs hrhs hrespects h fun n hn => List.mem_append_right _ hn
  · intro e he h
    exact alignExpr_value ha he h

/-! ### An equation with nested uses -/

def axisX : Dimension := .root "x" .space

def innerX : Dimension := .derived "x_inner" (.sub (.middle 1 1)) axisX

def fieldU : Field := ⟨"u", .function, [⟨axisX, ⟨2, 2⟩, ⟨1, 0⟩⟩]⟩

def fieldG : Field := ⟨"g", .function, [⟨axisX, ⟨4, 4⟩, ⟨0, 0⟩⟩]⟩

/-- The equation `u(x) = u(x + 2*h_x + g(u[x**2]))` on the inner part of the axis. -/
def nestedUses : Equation where
  lhs := .call fieldU [.dim axisX]
  rhs := .call fieldU [.sum [.dim axisX, .prod [.int 2, .sym axisX.spacing],
    .call fieldG [.access fieldU [.pow (.dim axisX) (.int 2)]]]]
  implicitDims := []
  subdomain := some ⟨"inner", [(axisX, innerX)]⟩

def sevens : Valuation where
  symbol _ := 1
  dimension _ := 7
  content f ks := if f = fieldG then 3 * ks.sum else 100 + ks.sum

theorem nestedUses_suits :
    Suits ⟨.empty, true⟩ sevens nestedUses.lhs ∧ Suits ⟨.empty, true⟩ sevens nestedUses.rhs := by
  refine ⟨⟨?_, ?_⟩, ⟨?_, ?_⟩⟩
  · intro base exponent h
    simp [nestedUses] at h
  · intro _ f args _ d _
    rfl
  · intro base exponent h
    simp only [nestedUses, Expr.int, Expr.mem_nodes_call, reduceCtorEq, exists_eq_left,
      Expr.mem_nodes_sum, List.mem_cons, List.not_mem_nil, or_false, exists_eq_or_imp,
      Expr.mem_nodes_dim, Expr.mem_nodes_prod, Expr.mem_nodes_lit, Expr.mem_nodes_sym,
      Expr.mem_nodes_access, Expr.mem_nodes_pow, Expr.pow.injEq, false_or] at h
    exact ⟨2, h.2, by decide⟩
  · intro _ f args _ d _
    rfl

theorem alignment_preserves_value_nestedUses :
    (alignEquation ⟨.empty, true⟩ nestedUses).lhs.value (sevens.stored fun _ _ => 0) = 107 ∧
      (alignEquation ⟨.empty, true⟩ nestedUses).rhs.value (sevens.stored fun _ _ => 0) = 556 := by
  have h := (alignment_preserves_value ⟨.empty, true⟩ rfl sevens fun _ _ => 0).1 nestedUses
    nestedUses_suits.1 nestedUses_suits.2 (fun _ _ _ _ _ => rfl)
    (show ∀ n ∈ alignEquationTrace ⟨.empty, true⟩ nestedUses, n.isInt = true by decide)
  exact ⟨h.1.trans (by decide), h.2.trans (by decide)⟩

end Alignment

end GridAccess
