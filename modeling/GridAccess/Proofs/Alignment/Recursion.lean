import GridAccess.Proofs.Alignment.Value
import GridAccess.Proofs.Expr.Congruence

/-!
Alignment as plain recursion. The stored forms of all uses of fields are gathered before any of
them is put in place, in one table whose keys are whole uses. Here the same is computed from the
root down, without a table.

The table can only go wrong at a use that it does not hold, or at one that it holds for an equal
but different key. Every node is among those that the uses are gathered from, so the first does not
happen. For the second the recursion is shown to respect equality, and so does everything that is
done to an index on the way. What is between the root and the outermost uses is then an induction
over the expression, and how deep uses are nested an induction over the depth.
-/

namespace GridAccess

namespace Alignment

open GridAccess.Expr (Alike AllNodes sameInduction)

/-! ### The recursion -/

/-- An argument as the recursion enters it. -/
def prepared (unitSpacing : Bool) (f : Field) (axis : Nat) (arg : Expr) : Expr :=
  if unitSpacing then withUnitSpacing f axis arg else arg

theorem useDepth_prepared_le (unitSpacing : Bool) (f : Field) (axis : Nat) (arg : Expr) :
    (prepared unitSpacing f axis arg).useDepth ≤ arg.useDepth := by
  rw [prepared]
  split
  · exact useDepth_withUnitSpacing_le f axis arg
  · exact Nat.le_refl _

/-- The aligned expression without a subdomain. An argument is no part of its call any more once
the spacing is replaced in it, but uses are nested less deep in it. -/
def aligned (unitSpacing : Bool) : Expr → Expr
  | .lit n => .lit n
  | .sym s => .sym s
  | .dim d => .dim d
  | .call f args => .access f (args.attach.mapIdx fun axis ⟨arg, _⟩ =>
      shift f axis (aligned unitSpacing (prepared unitSpacing f axis arg)))
  | .access f indices => .access f (indices.attach.mapIdx fun axis ⟨index, _⟩ =>
      shift f axis (aligned unitSpacing index))
  | .sum terms => .sum (terms.map fun term => aligned unitSpacing term)
  | .prod factors => .prod (factors.map fun factor => aligned unitSpacing factor)
  | .pow base exponent => .pow (aligned unitSpacing base) (aligned unitSpacing exponent)
termination_by e => (e.useDepth, sizeOf e)
decreasing_by
  · have hdepth := (useDepth_prepared_le unitSpacing f axis arg).trans
      (Expr.useDepth_le_useDepthList ‹arg ∈ args›)
    exact .left _ _ (Nat.lt_succ_of_le hdepth)
  · have hdepth := Expr.useDepth_le_useDepthList ‹index ∈ indices›
    exact .left _ _ (Nat.lt_succ_of_le hdepth)
  · have hsize := List.sizeOf_lt_of_mem ‹term ∈ terms›
    refine .right' _ (Expr.useDepth_le_useDepthList ‹term ∈ terms›) ?_
    simp only [Expr.sum.sizeOf_spec]
    omega
  · have hsize := List.sizeOf_lt_of_mem ‹factor ∈ factors›
    refine .right' _ (Expr.useDepth_le_useDepthList ‹factor ∈ factors›) ?_
    simp only [Expr.prod.sizeOf_spec]
    omega
  · refine .right' _ (Nat.le_max_left _ _) ?_
    simp only [Expr.pow.sizeOf_spec]
    omega
  · refine .right' _ (Nat.le_max_right _ _) ?_
    simp only [Expr.pow.sizeOf_spec]
    omega

/-- An outermost call, with the restriction of the subdomain applied to the finished indices. -/
def alignedCall (unitSpacing : Bool) (restriction : Substitution) (f : Field)
    (args : List Expr) : Expr :=
  .access f (args.mapIdx fun axis arg =>
    (shift f axis (aligned unitSpacing (prepared unitSpacing f axis arg))).substFold restriction)

/-- An outermost access, with the restriction applied likewise. -/
def alignedAccess (unitSpacing : Bool) (restriction : Substitution) (f : Field)
    (indices : List Expr) : Expr :=
  .access f (indices.mapIdx fun axis index =>
    (shift f axis (aligned unitSpacing index)).substFold restriction)

/-- The aligned side of an equation: the shape above the outermost uses is kept. -/
def alignedWithin (unitSpacing : Bool) (restriction : Substitution) : Expr → Expr
  | .lit n => .lit n
  | .sym s => .sym s
  | .dim d => .dim d
  | .call f args => alignedCall unitSpacing restriction f args
  | .access f indices => alignedAccess unitSpacing restriction f indices
  | .sum terms => .sum (terms.map fun term => alignedWithin unitSpacing restriction term)
  | .prod factors => .prod (factors.map fun factor => alignedWithin unitSpacing restriction factor)
  | .pow base exponent =>
    .pow (alignedWithin unitSpacing restriction base)
      (alignedWithin unitSpacing restriction exponent)

/-- Whether there is something to replace in the expression, a key of the caller or a use. -/
def changes (a : Alignment) (e : Expr) : Bool :=
  e.nodes.any fun n => (a.replacements.find? n).isSome || n.call?.isSome || n.access?.isSome

/-- The traversal with replacements by the caller, which come first at every node. It does not
enter a replacement or a use, and builds canonically what is above a change. -/
def traversed (a : Alignment) (restriction : Substitution) : Expr → Expr
  | .lit n => (a.replacements.find? (.lit n)).getD (.lit n)
  | .sym s => (a.replacements.find? (.sym s)).getD (.sym s)
  | .dim d => (a.replacements.find? (.dim d)).getD (.dim d)
  | .call f args =>
    (a.replacements.find? (.call f args)).getD (alignedCall a.unitSpacing restriction f args)
  | .access f indices =>
    (a.replacements.find? (.access f indices)).getD
      (alignedAccess a.unitSpacing restriction f indices)
  | .sum terms =>
    (a.replacements.find? (.sum terms)).getD <|
      if terms.any a.changes then Expr.sumOf (terms.map fun term => traversed a restriction term)
      else .sum terms
  | .prod factors =>
    (a.replacements.find? (.prod factors)).getD <|
      if factors.any a.changes then
        Expr.productOf (factors.map fun factor => traversed a restriction factor)
      else .prod factors
  | .pow base exponent =>
    (a.replacements.find? (.pow base exponent)).getD <|
      if a.changes base || a.changes exponent then
        Expr.power (traversed a restriction base) (traversed a restriction exponent)
      else .pow base exponent

/-! ### Equations of the recursion -/

theorem mapIdx_attach (g : Nat → Expr → Expr) (es : List Expr) :
    (es.attach.mapIdx fun i e => g i e.1) = es.mapIdx g := by
  apply List.ext_getElem
  · simp
  · intro i _ _
    simp

variable {unitSpacing : Bool} {restriction : Substitution}

theorem aligned_call (f : Field) (args : List Expr) :
    aligned unitSpacing (.call f args) = .access f (args.mapIdx fun axis arg =>
      shift f axis (aligned unitSpacing (prepared unitSpacing f axis arg))) := by
  rw [aligned]
  exact congrArg _ (mapIdx_attach
    (fun axis arg => shift f axis (aligned unitSpacing (prepared unitSpacing f axis arg))) args)

theorem aligned_access (f : Field) (indices : List Expr) :
    aligned unitSpacing (.access f indices) = .access f (indices.mapIdx fun axis index =>
      shift f axis (aligned unitSpacing index)) := by
  rw [aligned]
  exact congrArg _ (mapIdx_attach
    (fun axis index => shift f axis (aligned unitSpacing index)) indices)

/-- Without a subdomain the outermost uses are aligned as the nested ones are. -/
theorem alignedWithin_empty (e : Expr) :
    alignedWithin unitSpacing .empty e = aligned unitSpacing e := by
  have hempty (e : Expr) : e.substFold .empty = e :=
    Expr.substFold_eq_self (by simp [Substitution.touches])
  induction e with
  | lit | sym | dim => rw [alignedWithin, aligned]
  | call f es =>
      rw [alignedWithin, aligned_call, alignedCall]
      simp only [hempty]
  | access f es =>
      rw [alignedWithin, aligned_access, alignedAccess]
      simp only [hempty]
  | sum es ih | prod es ih =>
      rw [alignedWithin, aligned]
      exact congrArg _ (List.map_congr_left ih)
  | pow base exponent ihb ihe => rw [alignedWithin, aligned, ihb, ihe]

/-- Without uses of fields there is nothing to align. -/
theorem aligned_eq_self {e : Expr} (h : e.useDepth = 0) : aligned unitSpacing e = e := by
  have hlist {es : List Expr} (h : Expr.useDepthList es = 0)
      (ih : ∀ e ∈ es, e.useDepth = 0 → aligned unitSpacing e = e) :
      es.map (fun e => aligned unitSpacing e) = es := by
    rw [← List.map_id es, List.map_map]
    apply List.map_congr_left
    intro e he
    have hdepth := Expr.useDepth_le_useDepthList he
    exact ih e he (by omega)
  induction e with
  | lit | sym | dim => rw [aligned]
  | call f es | access f es => cases h
  | sum es ih | prod es ih =>
      rw [aligned]
      exact congrArg _ (hlist h ih)
  | pow base exponent ihb ihe =>
      have hmax : max base.useDepth exponent.useDepth = 0 := h
      rw [aligned, ihb (by omega), ihe (by omega)]

/-! ### Equality -/

theorem alike_mapIdx {g h : Nat → Expr → Expr} {as bs : List Expr} (hs : Alike as bs)
    (hgh : ∀ axis, ∀ a ∈ as, ∀ b, a.same b = true → (g axis a).same (h axis b) = true) :
    Alike (as.mapIdx g) (bs.mapIdx h) := by
  induction hs generalizing g h with
  | nil => exact .nil
  | cons hab htail ih =>
      rw [List.mapIdx_cons, List.mapIdx_cons]
      refine .cons (hgh 0 _ List.mem_cons_self _ hab) (ih ?_)
      intro axis a ha b
      exact hgh (axis + 1) a (List.mem_cons_of_mem _ ha) b

theorem alike_map {g h : Expr → Expr} {as bs : List Expr}
    (hs : List.Forall₂ (fun a b => (g a).same (h b) = true) as bs) :
    Alike (as.map g) (bs.map h) := by
  rw [Alike, List.forall₂_map_left_iff, List.forall₂_map_right_iff]
  exact hs

theorem shift_congr (f : Field) (axis : Nat) {a b : Expr} (h : a.same b = true) :
    (shift f axis a).same (shift f axis b) = true :=
  Expr.sumOf_congr (.cons h (.cons (Expr.same_refl _) .nil))

theorem prepared_congr (f : Field) (axis : Nat) {a b : Expr} (h : a.same b = true) :
    (prepared unitSpacing f axis a).same (prepared unitSpacing f axis b) = true := by
  rw [prepared, prepared]
  split
  · rw [withUnitSpacing, withUnitSpacing]
    split
    · exact Expr.substFold_congr _ h
    · exact h
  · exact h

/-- The recursion respects equality. The induction is on how deep uses are nested, since an argument
of a call is prepared before it is entered. -/
theorem aligned_congr_of_lt {depth : Nat} {a b : Expr} (hdepth : a.useDepth < depth)
    (h : a.same b = true) : (aligned unitSpacing a).same (aligned unitSpacing b) = true := by
  induction depth generalizing a b with
  | zero => omega
  | succ depth ihdepth =>
      have hlist {as bs : List Expr} (hdepth : Expr.useDepthList as < depth + 1)
          (ih : List.Forall₂ (fun a b => a.useDepth < depth + 1 →
            (aligned unitSpacing a).same (aligned unitSpacing b) = true) as bs) :
          Alike (as.map fun e => aligned unitSpacing e)
            (bs.map fun e => aligned unitSpacing e) := by
        apply alike_map
        have hall : ∀ a ∈ as, a.useDepth < depth + 1 := by
          intro a ha
          exact Nat.lt_of_le_of_lt (Expr.useDepth_le_useDepthList ha) hdepth
        exact ((List.forall₂_and_left _ _).mpr ⟨hall, ih⟩).imp fun a b hab => hab.2 hab.1
      apply sameInduction (motive := fun a b => a.useDepth < depth + 1 →
        (aligned unitSpacing a).same (aligned unitSpacing b) = true) (h := h)
      case lit =>
        intro m n hmn _
        rw [aligned, aligned]
        exact Expr.same_lit hmn
      case sym => exact fun x _ => Expr.same_refl _
      case dim => exact fun d _ => Expr.same_refl _
      case call =>
        intro f as bs hs _ hdepth
        rw [aligned_call, aligned_call]
        refine Expr.same_access_iff.mpr ⟨_, rfl, alike_mapIdx hs ?_⟩
        intro axis a ha b hab
        -- The prepared argument need not be a part of the call, but is nested less deep.
        have hprepared := useDepth_prepared_le unitSpacing f axis a
        have hmem := Expr.useDepth_le_useDepthList ha
        have hlt : Expr.useDepthList as < depth := Nat.lt_of_succ_lt_succ hdepth
        exact shift_congr f axis (ihdepth (by omega) (prepared_congr f axis hab))
      case access =>
        intro f as bs hs _ hdepth
        rw [aligned_access, aligned_access]
        refine Expr.same_access_iff.mpr ⟨_, rfl, alike_mapIdx hs ?_⟩
        intro axis a ha b hab
        have hmem := Expr.useDepth_le_useDepthList ha
        have hlt : Expr.useDepthList as < depth := Nat.lt_of_succ_lt_succ hdepth
        exact shift_congr f axis (ihdepth (by omega) hab)
      case sum =>
        intro as bs _ ih hdepth
        rw [aligned, aligned]
        exact Expr.same_sum (hlist hdepth ih)
      case prod =>
        intro as bs _ ih hdepth
        rw [aligned, aligned]
        exact Expr.same_prod (hlist hdepth ih)
      case pow =>
        intro base exponent base' exponent' _ _ ihbase ihexponent hdepth
        have hmax : max base.useDepth exponent.useDepth < depth + 1 := hdepth
        rw [aligned, aligned]
        exact Expr.same_pow_iff.mpr ⟨_, _, rfl, ihbase (by omega), ihexponent (by omega)⟩
      case a => exact hdepth

theorem aligned_congr {a b : Expr} (h : a.same b = true) :
    (aligned unitSpacing a).same (aligned unitSpacing b) = true :=
  aligned_congr_of_lt (Nat.lt_succ_self _) h

/-! ### Stored forms -/

/-- What the recursion makes of an outermost use. -/
def alignedUse? (unitSpacing : Bool) (restriction : Substitution) : Expr → Option Expr
  | .call f args => some (alignedCall unitSpacing restriction f args)
  | .access f indices => some (alignedAccess unitSpacing restriction f indices)
  | _ => none

/-- The table has the recursion's result at each use and nothing at any other expression. -/
def Agrees (uses : Substitution) (unitSpacing : Bool) (restriction : Substitution)
    (n : Expr) : Prop :=
  Option.Rel (fun r r' => r.same r' = true) (uses.find? n) (alignedUse? unitSpacing restriction n)

/-- `align` computes what the recursion does where uses are nested at most `depth` deep. -/
def AlignsUpTo (unitSpacing : Bool) (align : Expr → Expr) (depth : Nat) : Prop :=
  ∀ e : Expr, e.useDepth ≤ depth → (align e).same (aligned unitSpacing e) = true

theorem store_congr {align : Nat → Expr → Expr} {g : Nat → Expr → Expr} (f : Field)
    {as bs : List Expr} (hs : Alike as bs)
    (h : ∀ axis, ∀ a ∈ as, ∀ b, a.same b = true → (align axis a).same (g axis b) = true) :
    (store f align restriction as).same (.access f (bs.mapIdx fun axis b =>
      (shift f axis (g axis b)).substFold restriction)) = true := by
  refine Expr.same_access_iff.mpr ⟨_, rfl, alike_mapIdx hs ?_⟩
  intro axis a ha b hab
  exact Expr.substFold_congr _ (shift_congr f axis (h axis a ha b hab))

variable {align : Expr → Expr} {depth : Nat}

/-- The table made of the uses among `ns`. A use among them is found under a key that is equal to
it, and what is stored under this key is made of the key's own operands. -/
theorem agrees_stored (halign : AlignsUpTo unitSpacing align depth) {ns : List Expr}
    (hns : ∀ n ∈ ns, n.useDepth ≤ depth + 1) {n : Expr} (hn : n ∈ ns) :
    Agrees (stored unitSpacing align restriction (ns.filterMap Expr.call?).eraseDups
      (ns.filterMap Expr.access?).eraseDups) unitSpacing restriction n := by
  unfold Agrees
  cases n with
  | call f es =>
      obtain ⟨r, hr⟩ := exists_find?_of_use hn fun huse => nomatch huse.1
      rw [hr]
      rcases exists_use_of_find? hr with ⟨⟨g, args⟩, hc, hsame, rfl⟩ | ⟨a, -, hsame, -⟩
      · obtain ⟨_, hkey, hs⟩ := Expr.same_call_iff.mp hsame
        obtain ⟨rfl, rfl⟩ := Expr.call.inj hkey
        have hdepth := hns _ (UseKind.calls.toExpr_mem hc)
        refine .some (store_congr g (Expr.alike_symm hs) ?_)
        intro axis arg harg e he
        have hle := (useDepth_prepared_le unitSpacing g axis arg).trans
          (Expr.useDepth_le_of_mem_use hdepth harg)
        exact Expr.same_trans (halign _ hle) (aligned_congr (prepared_congr g axis he))
      · -- No access is equal to a call.
        obtain ⟨_, hkey, -⟩ := Expr.same_call_iff.mp hsame
        cases hkey
  | access f es =>
      obtain ⟨r, hr⟩ := exists_find?_of_use hn fun huse => nomatch huse.2
      rw [hr]
      rcases exists_use_of_find? hr with ⟨c, -, hsame, -⟩ | ⟨⟨g, indices⟩, ha, hsame, rfl⟩
      · obtain ⟨_, hkey, -⟩ := Expr.same_access_iff.mp hsame
        cases hkey
      · obtain ⟨_, hkey, hs⟩ := Expr.same_access_iff.mp hsame
        obtain ⟨rfl, rfl⟩ := Expr.access.inj hkey
        have hdepth := hns _ (UseKind.accesses.toExpr_mem ha)
        refine .some (store_congr g (Expr.alike_symm hs) ?_)
        intro axis index hindex e he
        have hle := Expr.useDepth_le_of_mem_use hdepth hindex
        exact Expr.same_trans (halign _ hle) (aligned_congr he)
  | _ =>
      rw [find?_stored_eq_none (by simp) (by simp)]
      exact .none

/-! ### Putting the stored forms in place -/

theorem alike_map_of_mem {g h : Expr → Expr} {es : List Expr}
    (hes : ∀ e ∈ es, (g e).same (h e) = true) : Alike (es.map g) (es.map h) :=
  alike_map (List.forall₂_same.mpr hes)

section

variable {uses : Substitution}

theorem Agrees.find?_eq_none {n : Expr} (h : Agrees uses unitSpacing restriction n)
    (huse : alignedUse? unitSpacing restriction n = none) : uses.find? n = none := by
  rcases rel_cases h with ⟨hfind, -⟩ | ⟨r, r', -, hsome, -⟩
  · exact hfind
  · rw [huse] at hsome
    cases hsome

theorem Agrees.exists_find? {n r' : Expr} (h : Agrees uses unitSpacing restriction n)
    (huse : alignedUse? unitSpacing restriction n = some r') :
    ∃ r, uses.find? n = some r ∧ r.same r' = true := by
  rcases rel_cases h with ⟨-, hnone⟩ | ⟨r, r'', hfind, hsome, hsame⟩
  · rw [huse] at hnone
    cases hnone
  · rw [huse] at hsome
    obtain rfl := Option.some.inj hsome
    exact ⟨r, hfind, hsame⟩

/-- Replacement that keeps the shape stops at the outermost uses, as the recursion does. -/
theorem subst_same_alignedWithin {e : Expr} (h : AllNodes (Agrees uses unitSpacing restriction) e) :
    (e.subst uses).same (alignedWithin unitSpacing restriction e) = true := by
  induction e with
  | lit | sym | dim =>
      have hfind := h.self.find?_eq_none rfl
      rw [Expr.subst_eq_self (by simp [Substitution.touches, Expr.nodes, hfind]), alignedWithin]
      exact Expr.same_refl _
  | call f es | access f es =>
      obtain ⟨r, hfind, hr⟩ := h.self.exists_find? rfl
      rw [Expr.subst_of_find? hfind, alignedWithin]
      exact hr
  | sum es ih =>
      obtain ⟨hself, hes⟩ := Expr.allNodes_sum.mp h
      rw [Expr.subst_sum (hself.find?_eq_none rfl), alignedWithin]
      exact Expr.same_sum (alike_map_of_mem fun e he => ih e he (hes e he))
  | prod es ih =>
      obtain ⟨hself, hes⟩ := Expr.allNodes_prod.mp h
      rw [Expr.subst_prod (hself.find?_eq_none rfl), alignedWithin]
      exact Expr.same_prod (alike_map_of_mem fun e he => ih e he (hes e he))
  | pow base exponent ihb ihe =>
      obtain ⟨hself, hbase, hexponent⟩ := Expr.allNodes_pow.mp h
      rw [Expr.subst_pow (hself.find?_eq_none rfl), alignedWithin]
      exact Expr.same_pow_iff.mpr ⟨_, _, rfl, ihb hbase, ihe hexponent⟩

end

theorem alignsUpTo_alignIndex (unitSpacing : Bool) (depth : Nat) :
    AlignsUpTo unitSpacing (alignIndex unitSpacing depth) depth := by
  induction depth with
  | zero =>
      intro e hdepth
      rw [aligned_eq_self (Nat.le_zero.mp hdepth)]
      exact Expr.same_refl _
  | succ depth ih =>
      intro e hdepth
      rw [← alignedWithin_empty]
      apply subst_same_alignedWithin
      intro n hn
      exact agrees_stored ih (fun n hn => (Expr.useDepth_le_of_mem_nodes hn).trans hdepth) hn

/-! ### Replacements by the caller -/

theorem find?_orElse (s t : Substitution) (e : Expr) :
    (s.orElse t).find? e = (s.find? e).or (t.find? e) := by
  rw [Substitution.find?, Substitution.find?, Substitution.find?, Substitution.orElse,
    List.find?_append]
  cases s.entries.find? fun entry => e == entry.1 <;> rfl

variable {a : Alignment} {uses : Substitution}

theorem isSome_find?_orElse {n : Expr} (h : Agrees uses a.unitSpacing restriction n) :
    ((a.replacements.orElse uses).find? n).isSome =
      ((a.replacements.find? n).isSome || n.call?.isSome || n.access?.isSome) := by
  have huses : (uses.find? n).isSome = (n.call?.isSome || n.access?.isSome) := by
    cases n with
    | call f es | access f es =>
        obtain ⟨r, hr, -⟩ := h.exists_find? rfl
        rw [hr]
        rfl
    | _ =>
        rw [h.find?_eq_none rfl]
        rfl
  rw [find?_orElse, Option.isSome_or, huses, Bool.or_assoc]

theorem touches_orElse {e : Expr} (h : AllNodes (Agrees uses a.unitSpacing restriction) e) :
    (a.replacements.orElse uses).touches e = a.changes e := by
  rw [Substitution.touches, changes, Bool.eq_iff_iff, List.any_eq_true, List.any_eq_true]
  apply exists_congr
  intro n
  apply and_congr_right
  intro hn
  rw [isSome_find?_orElse (h n hn)]

theorem any_touches_orElse {es : List Expr}
    (h : ∀ e ∈ es, AllNodes (Agrees uses a.unitSpacing restriction) e) :
    es.any (a.replacements.orElse uses).touches = es.any a.changes := by
  rw [Bool.eq_iff_iff, List.any_eq_true, List.any_eq_true]
  apply exists_congr
  intro e
  apply and_congr_right
  intro he
  rw [touches_orElse (h e he)]

/-- What is found at a node that is no key of the caller. -/
theorem find?_orElse_of_none (uses : Substitution) {n : Expr}
    (hn : a.replacements.find? n = none) :
    (a.replacements.orElse uses).find? n = uses.find? n := by
  rw [find?_orElse, hn, Option.none_or]

/-- A node that is no key stays as it is if there is nothing to replace in its operands. -/
theorem substFold_eq_self_of_children {s : Substitution} {e : Expr} (hfind : s.find? e = none)
    (hchildren : ¬ e.children.any s.touches = true) : e.substFold s = e := by
  apply Expr.substFold_eq_self
  rw [Expr.touches_eq, hfind]
  simpa using hchildren

/-- Replacement by the merged table is the traversal. -/
theorem substFold_same_traversed {e : Expr}
    (h : AllNodes (Agrees uses a.unitSpacing restriction) e) :
    (e.substFold (a.replacements.orElse uses)).same (traversed a restriction e) = true := by
  -- A key of the caller comes first, whatever the node is.
  have hstep {e other : Expr}
      (htraversed : traversed a restriction e = (a.replacements.find? e).getD other)
      (hother : a.replacements.find? e = none →
        (e.substFold (a.replacements.orElse uses)).same other = true) :
      (e.substFold (a.replacements.orElse uses)).same (traversed a restriction e) = true := by
    rw [htraversed]
    cases hfind : a.replacements.find? e with
    | some r =>
        have hmerged : (a.replacements.orElse uses).find? e = some r := by
          rw [find?_orElse, hfind, Option.some_or]
        rw [Expr.substFold_of_find? hmerged]
        exact Expr.same_refl r
    | none => exact hother hfind
  induction e with
  | lit | sym | dim =>
      apply hstep (by rw [traversed])
      intro hfind
      have hmerged := (find?_orElse_of_none uses hfind).trans (h.self.find?_eq_none rfl)
      rw [Expr.substFold_eq_self (by simp [Substitution.touches, Expr.nodes, hmerged])]
      exact Expr.same_refl _
  | call f es | access f es =>
      apply hstep (by rw [traversed])
      intro hfind
      obtain ⟨r, hr, hsame⟩ := h.self.exists_find? rfl
      rw [Expr.substFold_of_find? ((find?_orElse_of_none uses hfind).trans hr)]
      exact hsame
  | sum es ih =>
      obtain ⟨hself, hes⟩ := Expr.allNodes_sum.mp h
      apply hstep (by rw [traversed])
      intro hfind
      have hmerged := (find?_orElse_of_none uses hfind).trans (hself.find?_eq_none rfl)
      rw [← any_touches_orElse hes]
      by_cases hany : es.any (a.replacements.orElse uses).touches = true
      · rw [if_pos hany, Expr.substFold_sum hmerged hany]
        exact Expr.sumOf_congr (alike_map_of_mem fun e he => ih e he (hes e he))
      · rw [if_neg hany, substFold_eq_self_of_children hmerged hany]
        exact Expr.same_refl _
  | prod es ih =>
      obtain ⟨hself, hes⟩ := Expr.allNodes_prod.mp h
      apply hstep (by rw [traversed])
      intro hfind
      have hmerged := (find?_orElse_of_none uses hfind).trans (hself.find?_eq_none rfl)
      rw [← any_touches_orElse hes]
      by_cases hany : es.any (a.replacements.orElse uses).touches = true
      · rw [if_pos hany, Expr.substFold_prod hmerged hany]
        exact Expr.productOf_congr (alike_map_of_mem fun e he => ih e he (hes e he))
      · rw [if_neg hany, substFold_eq_self_of_children hmerged hany]
        exact Expr.same_refl _
  | pow base exponent ihb ihe =>
      obtain ⟨hself, hbase, hexponent⟩ := Expr.allNodes_pow.mp h
      apply hstep (by rw [traversed])
      intro hfind
      have hmerged := (find?_orElse_of_none uses hfind).trans (hself.find?_eq_none rfl)
      rw [← touches_orElse hbase, ← touches_orElse hexponent]
      by_cases hany : ((a.replacements.orElse uses).touches base ||
          (a.replacements.orElse uses).touches exponent) = true
      · rw [if_pos hany, Expr.substFold_pow hmerged hany]
        exact Expr.power_congr (ihb hbase) (ihe hexponent)
      · rw [if_neg hany, substFold_eq_self_of_children hmerged
          (by simpa [Expr.children] using hany)]
        exact Expr.same_refl _

/-! ### Expressions and equations -/

theorem replaceUses_stored (a : Alignment) (restriction : Substitution) {align : Expr → Expr}
    {depth : Nat} (halign : AlignsUpTo a.unitSpacing align depth) {ns : List Expr}
    (hns : ∀ n ∈ ns, n.useDepth ≤ depth + 1) {e : Expr} (he : ∀ n ∈ e.nodes, n ∈ ns) :
    (a.replaceUses (stored a.unitSpacing align restriction (ns.filterMap Expr.call?).eraseDups
      (ns.filterMap Expr.access?).eraseDups) e).same
      (if a.replacements.isEmpty then alignedWithin a.unitSpacing restriction e
        else traversed a restriction e) = true := by
  have hagrees : AllNodes (Agrees (stored a.unitSpacing align restriction
      (ns.filterMap Expr.call?).eraseDups (ns.filterMap Expr.access?).eraseDups)
      a.unitSpacing restriction) e := fun n hn => agrees_stored halign hns (he n hn)
  rw [replaceUses]
  split
  · exact subst_same_alignedWithin hagrees
  · exact substFold_same_traversed hagrees

/-- Gathering the uses of fields and putting their stored forms in place computes what plain
recursion from the root does. Without replacements by the caller this keeps every node above the
outermost uses, and with replacements it is the traversal in which these come first. -/
theorem alignment_agrees_with_recursion (a : Alignment) :
    (∀ e : Expr, (a.alignExpr e == if a.replacements.isEmpty then aligned a.unitSpacing e
      else traversed a .empty e) = true) ∧
    ∀ eq : Equation, (a.alignEquation eq == eq.mapSides fun e =>
      if a.replacements.isEmpty then alignedWithin a.unitSpacing eq.restriction e
      else traversed a eq.restriction e) = true := by
  constructor
  · intro e
    rw [← alignedWithin_empty]
    apply replaceUses_stored a .empty (alignsUpTo_alignIndex a.unitSpacing e.useDepth) ?_
      fun n hn => hn
    intro n hn
    exact (Expr.useDepth_le_of_mem_nodes hn).trans (Nat.le_succ _)
  · intro eq
    have hside {side : Expr} (hside : ∀ n ∈ side.nodes, n ∈ eq.lhs.nodes ++ eq.rhs.nodes) :=
      replaceUses_stored a eq.restriction
        (alignsUpTo_alignIndex a.unitSpacing (max eq.lhs.useDepth eq.rhs.useDepth))
        (fun _ => useDepth_le_of_mem_sides) hside
    have hlhs := hside fun n hn => List.mem_append_left _ hn
    have hrhs := hside fun n hn => List.mem_append_right _ hn
    show (_ && _ && decide (eq.implicitDims = eq.implicitDims) &&
      decide (eq.subdomain = eq.subdomain)) = true
    rw [decide_eq_true rfl, decide_eq_true rfl, Bool.and_true, Bool.and_true, Bool.and_eq_true]
    exact ⟨hlhs, hrhs⟩

end Alignment

end GridAccess
