import GridAccess.Proofs.Expr.Affine
import GridAccess.Proofs.Expr.CanonicalNodes
import GridAccess.Proofs.Literal.Product

/-!
Linear forms of canonical expressions can be read off: a term has a linear form only if it is a
multiple of a generator, and in a sum no two generators meet, so that nothing cancels. Nothing is
rounded to zero either where the coefficients of a factor leave the word.
-/

namespace GridAccess

open GridAccess.Expr (classes classes_adjust)

namespace Literal

@[simp] theorem mul_one_int (n : Int64) : (int n).mul (.int 1) = .int n := by
  simp [mul, combine, wordOf?_toInt]

@[simp] theorem zero_mul_int (n : Int64) : (int 0).mul (.int n) = .int 0 := by
  simp [mul, combine, wordOf?]

end Literal

/-! ### Coefficients other than zero -/

namespace LinearForm

/-- The coefficients are integers other than zero. -/
def Plain (f : LinearForm) : Prop := ∀ term ∈ f.terms, ∃ n : Int64, term.2 = .int n ∧ n ≠ 0

theorem plain_const (n : Literal) : (const n).Plain := by simp [Plain, const]

theorem plain_generator (e : Expr) : (generator e).Plain := by simp [Plain, generator]

/-- Multiplied by an integer other than zero a plain form has the same generators. -/
theorem isConst_scale {f : LinearForm} (hplain : f.Plain) (hterms : f.terms ≠ []) {n : Int64}
    (hn : n ≠ 0) : (f.scale (.int n)).isConst = false := by
  obtain ⟨term, terms, hcons⟩ := List.exists_cons_of_ne_nil hterms
  obtain ⟨k, hk, hne⟩ := hplain term (by simp [hcons])
  simp [isConst, scale, hcons, hk, Literal.isZero_mul_int hne hn]

theorem isConst_of_plain {f : LinearForm} (hplain : f.Plain) :
    f.isConst = true ↔ f.terms = [] := by
  constructor
  · intro h
    by_contra hne
    obtain ⟨term, terms, hcons⟩ := List.exists_cons_of_ne_nil hne
    obtain ⟨k, hk, hk'⟩ := hplain term (by simp [hcons])
    have hzero := List.all_eq_true.mp h term (by simp [hcons])
    exact hk' (by simpa [hk, Literal.isZero] using hzero)
  · intro h
    simp [isConst, h]

theorem scale_generator (e : Expr) (n : Int64) :
    (generator e).scale (.int n) = ⟨[(e, .int n)], .int 0⟩ := by
  simp [generator, scale]

theorem const_mul? (n : Literal) (f : LinearForm) : (const n).mul? f = some (f.scale n) := rfl

/-- A constant is all that another form can be multiplied by. -/
theorem mul?_eq_none {f g : LinearForm} (hf : f.isConst = false) (hg : g.isConst = false) :
    f.mul? g = none := by
  rw [mul?, hf, hg]
  rfl

end LinearForm

namespace Expr

/-- What a canonical expression says about its linear form. -/
structure ReadsAs (e : Expr) (f : LinearForm) : Prop where
  plain : f.Plain
  literal : f.terms = [] → ∃ n : Int64, e = .int n
  term : e.Term → ∃ g, ∃ n : Int64, n ≠ 0 ∧ f = ⟨[(g, .int n)], .int 0⟩ ∧ g.toClass = e.key
  generator : e.isFactor = true → (∀ terms, e ≠ .sum terms) → f = .generator e

/-- The linear form can be read off, if there is one. -/
def Readable (e : Expr) : Prop := ∀ f, e.linearForm? = some f → e.ReadsAs f

/-! ### Sums -/

/-- A new generator is added to the others. -/
theorem exists_perm_add {total : LinearForm} {g : Expr} (n : Int64)
    (hnew : g.toClass ∉ (classes total.terms).map Prod.fst) :
    (classes (total.add ⟨[(g, .int n)], .int 0⟩).terms).Perm
      ((g.toClass, .int n) :: classes total.terms) := by
  have hadd : (total.add ⟨[(g, .int n)], .int 0⟩).terms =
      Ascending.adjust g (.int 0) (·.add (.int n)) total.terms := rfl
  have hperm : (Ascending.adjust g.toClass (.int 0) (·.add (.int n)) (classes total.terms)).Perm
      ((g.toClass, (Literal.int 0).add (.int n)) :: classes total.terms) :=
    Ascending.adjust_perm (Ascending.get?_eq_none_iff.mpr hnew)
  rw [Literal.zero_add_int] at hperm
  rw [hadd, classes_adjust]
  exact hperm

theorem plain_of_classes_perm {f g : LinearForm} {q : Class} {n : Int64} (hn : n ≠ 0)
    (hg : g.Plain) (h : (classes f.terms).Perm ((q, .int n) :: classes g.terms)) : f.Plain := by
  have hplain (r : LinearForm) :
      r.Plain ↔ ∀ entry ∈ classes r.terms, ∃ n : Int64, entry.2 = .int n ∧ n ≠ 0 := by
    rw [LinearForm.Plain, classes, List.forall_mem_map]
    rfl
  rw [hplain] at hg ⊢
  intro entry hentry
  rcases List.mem_cons.mp (h.mem_iff.mp hentry) with rfl | hentry
  · exact ⟨n, rfl, hn⟩
  · exact hg entry hentry

/-- Each term brings in a generator of its own. -/
theorem plain_linearSum? {ts : List Expr} {total f : LinearForm} (htotal : total.Plain)
    (hshape : ∀ t ∈ ts, (∃ n : Int64, t = .int n) ∨ t.Term) (hread : ∀ t ∈ ts, t.Readable)
    (hkeys : ((ts.filter fun t => !t.isLiteral).map key).Nodup)
    (hnew : ∀ t ∈ ts, t.Term → t.key ∉ (classes total.terms).map Prod.fst)
    (h : linearSum? total ts = some f) :
    f.Plain ∧ f.terms.length = total.terms.length + (ts.filter fun t => !t.isLiteral).length := by
  induction ts generalizing total with
  | nil =>
      obtain rfl := Option.some.inj h
      exact ⟨htotal, rfl⟩
  | cons t ts ih =>
      obtain ⟨ht, hts⟩ := List.forall_mem_cons.mp hshape
      obtain ⟨htread, htsread⟩ := List.forall_mem_cons.mp hread
      obtain ⟨htnew, htsnew⟩ := List.forall_mem_cons.mp hnew
      obtain ⟨ft, hft, h⟩ := Option.bind_eq_some_iff.mp h
      rcases ht with ⟨k, rfl⟩ | ht
      · obtain rfl := Option.some.inj hft
        rw [List.filter_cons_of_neg (by simp [int, isLiteral, literal?])] at hkeys ⊢
        have hsame : (total.add (.const (.int k))).Plain := htotal
        have hrest := ih hsame hts htsread hkeys htsnew h
        exact hrest
      · obtain ⟨g, n, hn, rfl, hg⟩ := (htread ft hft).term ht
        rw [List.filter_cons_of_pos (by simp [ht.isLiteral])] at hkeys ⊢
        obtain ⟨hfresh, hkeys⟩ := List.nodup_cons.mp hkeys
        have hperm := exists_perm_add n (hg ▸ htnew ht)
        have hlength := hperm.length_eq
        simp only [List.length_map, List.length_cons] at hlength
        have hnew' : ∀ u ∈ ts, u.Term → u.key ∉
            (classes (total.add ⟨[(g, .int n)], .int 0⟩).terms).map Prod.fst := by
          intro u hu huterm
          rw [(hperm.map Prod.fst).mem_iff, List.map_cons, List.mem_cons, not_or, hg]
          refine ⟨fun heq => ?_, htsnew u hu huterm⟩
          have heq : u.key = t.key := heq
          exact hfresh (heq ▸ huterm.key_mem hu)
        obtain ⟨hplain, hcount⟩ :=
          ih (plain_of_classes_perm hn htotal hperm) hts htsread hkeys hnew' h
        refine ⟨hplain, ?_⟩
        rw [hcount, hlength, List.length_cons]
        omega

theorem not_term_sum (terms : List Expr) : ¬ (sum terms).Term :=
  fun h => h.cofactors_ne_sum terms (cofactors_of_isFactor rfl)

theorem readable_sum {ts : List Expr} (hcanonical : (sum ts).Canonical)
    (hfloat : (sum ts).FloatFree) (ih : ∀ t ∈ ts, t.Readable) : (sum ts).Readable := by
  intro f h
  have hregular := regular_of_canonical_sum hcanonical hfloat
  obtain ⟨-, -, hlength⟩ := exists_collected_of_sum hcanonical hfloat
  obtain ⟨hplain, hcount⟩ := plain_linearSum? (LinearForm.plain_const _) hregular.shape ih
    hregular.keys (by simp [LinearForm.const]) h
  refine ⟨hplain, fun hnil => ?_, fun hterm => (not_term_sum ts hterm).elim,
    fun _ hne => (hne ts rfl).elim⟩
  -- There is at most one literal among two or more terms.
  have hsplit := List.length_eq_length_filter_add (l := ts) isLiteral
  have hliterals := hregular.literals
  rw [hnil, LinearForm.const, List.length_nil, Nat.zero_add] at hcount
  omega

/-! ### Products -/

/-- A product of two factors that are no literals is not linear. -/
theorem linearProduct?_eq_none {n : Int64} (hn : n ≠ 0) {a b : Expr} (rest : List Expr)
    (ha : a.Readable) (hb : b.Readable) (haliteral : a.literal? = none)
    (hbliteral : b.literal? = none) :
    linearProduct? (.const (.int n)) (a :: b :: rest) = none := by
  have hne {e : Expr} {f : LinearForm} (he : e.literal? = none) (h : e.ReadsAs f) :
      f.terms ≠ [] := by
    intro hnil
    obtain ⟨k, rfl⟩ := h.literal hnil
    cases he
  unfold linearProduct?
  cases hfa : a.linearForm? with
  | none => rfl
  | some fa =>
      have hreadsA := ha fa hfa
      have hscaled := LinearForm.isConst_scale hreadsA.plain (hne haliteral hreadsA) hn
      rw [Option.bind_some, LinearForm.const_mul?, Option.bind_some]
      unfold linearProduct?
      cases hfb : b.linearForm? with
      | none => rfl
      | some fb =>
          have hreadsB := hb fb hfb
          have hconst : fb.isConst = false := by
            rw [Bool.eq_false_iff]
            exact fun h => hne hbliteral hreadsB ((LinearForm.isConst_of_plain hreadsB.plain).mp h)
          rw [Option.bind_some, LinearForm.mul?_eq_none hscaled hconst, Option.bind_none]

theorem linearProduct?_lit (n : Int64) (fs : List Expr) :
    linearProduct? (.const (.int 1)) (.int n :: fs) = linearProduct? (.const (.int n)) fs := by
  show linearProduct? (.const ((Literal.int n).mul (.int 1))) fs = _
  rw [Literal.mul_one_int]

/-- Whether the coefficient 1 is written or not, the product comes down to the factors after it. -/
theorem exists_linearForm?_eq_of_prod {fs : List Expr} (hcanonical : (prod fs).Canonical)
    (hfloat : (prod fs).FloatFree) : ∃ (m : Monomial) (n : Int64), m.Proper ∧
      m.toExpr = .prod fs ∧ n ≠ 0 ∧ (∀ a ∈ Ascending.sort m.factors, a ∈ fs) ∧
      (prod fs).linearForm? = linearProduct? (.const (.int n)) (Ascending.sort m.factors) := by
  obtain ⟨m, hproper, hm⟩ := exists_proper_of_prod hcanonical hfloat
  obtain ⟨n, hn⟩ := Literal.exists_of_isInt hproper.isInt
  have hne : n ≠ 0 := by simpa [hn, Literal.isZero] using hproper.isZero
  refine ⟨m, n, hproper, hm, hne, ?_⟩
  show _ ∧ linearProduct? _ fs = _
  rcases hproper.toExpr_cases with ⟨hone, heq⟩ | ⟨-, heq⟩
  · obtain rfl : n = 1 := Literal.int.inj (hn.symm.trans hone)
    obtain ⟨rfl, -⟩ := eq_sort_of_powerProduct_eq hproper.isFactor (heq.symm.trans hm)
    exact ⟨fun _ h => h, rfl⟩
  · rw [hm, hn] at heq
    obtain rfl := prod.inj heq
    exact ⟨fun _ h => List.mem_cons_of_mem _ h, linearProduct?_lit n _⟩

theorem readsAs_multiple {fs : List Expr} {a : Expr} {n : Int64} (hn : n ≠ 0)
    (hkey : a.toClass = (prod fs).key) : (prod fs).ReadsAs ⟨[(a, .int n)], .int 0⟩ where
  plain := by simpa [LinearForm.Plain] using hn
  literal := nofun
  term _ := ⟨a, n, hn, rfl, hkey⟩
  generator := nofun

theorem readable_prod {fs : List Expr} (hcanonical : (prod fs).Canonical)
    (hfloat : (prod fs).FloatFree) (ih : ∀ f ∈ fs, f.Readable) : (prod fs).Readable := by
  obtain ⟨m, n, hproper, hm, hne, hmem, hlinear⟩ := exists_linearForm?_eq_of_prod hcanonical hfloat
  have hread : ∀ a ∈ Ascending.sort m.factors, a.Readable := fun a ha => ih a (hmem a ha)
  have hisFactor := isFactor_of_mem_sort hproper.isFactor
  have hperm := Ascending.sort_perm m.factors
  intro f h
  rw [hlinear] at h
  match hsort : Ascending.sort m.factors with
  | [] =>
      rw [hsort] at hperm
      exact (hproper.factors_ne_nil hperm.symm.eq_nil).elim
  | [a] =>
      rw [hsort] at h hread hisFactor hperm
      have hsum : ∀ terms, a ≠ .sum terms := by
        rintro terms rfl
        exact hproper.factors_ne_sum terms hperm.symm.eq_singleton
      obtain ⟨fa, hfa, h⟩ := Option.bind_eq_some_iff.mp h
      obtain rfl := (hread a List.mem_cons_self fa hfa).generator
        (hisFactor a List.mem_cons_self) hsum
      have hf : (LinearForm.generator a).scale (.int n) = f := Option.some.inj h
      rw [← hf, LinearForm.scale_generator]
      refine readsAs_multiple hne ?_
      rw [key, ← hm, hproper.cofactors_toExpr, hsort, powerProduct_singleton]
  | a :: b :: rest =>
      rw [hsort] at h hread hisFactor
      rw [linearProduct?_eq_none hne rest (hread a (by simp)) (hread b (by simp))
        (literal?_of_isFactor (hisFactor a (by simp)))
        (literal?_of_isFactor (hisFactor b (by simp)))] at h
      cases h

/-! ### Powers -/

/-- Literals are raised to a power when it is built, and the exponents 1 and 0 are folded. -/
theorem not_folded_of_power_eq {base : Expr} {x : Int64}
    (h : power base (.int x) = .pow base (.int x)) : foldedPower? base (.int x) = none ∧
      (Literal.int x).isOne = false ∧ (Literal.int x).isZero = false := by
  rw [power_eq] at h
  cases hfolded : foldedPower? base (.int x) with
  | some r =>
      rw [hfolded] at h
      cases h
  | none =>
      rw [hfolded] at h
      change (if (Literal.int x).isOne then base else if (Literal.int x).isZero then .int 1
        else .pow base (.int x)) = _ at h
      have hone : (Literal.int x).isOne = false := by
        rw [Bool.eq_false_iff]
        intro hone
        rw [if_pos hone] at h
        have hsize := congrArg sizeOf h
        rw [pow.sizeOf_spec] at hsize
        omega
      refine ⟨rfl, hone, ?_⟩
      rw [Bool.eq_false_iff]
      intro hzero
      rw [if_neg (by simp [hone]), if_pos hzero] at h
      cases h

/-- Only literals have constant forms. -/
theorem Readable.exists_int {e : Expr} {f : LinearForm} (h : e.Readable)
    (hf : e.linearForm? = some f) (hconst : f.isConst = true) :
    ∃ n : Int64, e = .int n ∧ f = .const (.int n) := by
  have hreads := h f hf
  obtain ⟨n, rfl⟩ := hreads.literal ((LinearForm.isConst_of_plain hreads.plain).mp hconst)
  exact ⟨n, rfl, (Option.some.inj hf).symm⟩

theorem linearForm?_pow_eq_none {base exponent : Expr} (hcanonical : (pow base exponent).Canonical)
    (hfloat : (pow base exponent).FloatFree) (hbase : base.Readable)
    (hexponent : exponent.Readable) : (pow base exponent).linearForm? = none := by
  have hpower : power base exponent = .pow base exponent :=
    (hfloat.eq_of_same (same_symm hcanonical.self)).symm
  show (exponent.linearForm?.bind fun g => base.linearForm?.bind fun f => f.pow? g) = none
  rw [Option.bind_eq_none_iff]
  intro g hg
  rw [Option.bind_eq_none_iff]
  intro f hf
  unfold LinearForm.pow?
  split
  · rfl
  · next hgconst =>
      obtain ⟨x, rfl, rfl⟩ := hexponent.exists_int hg (by simpa using hgconst)
      obtain ⟨hfolded, hone, hzero⟩ := not_folded_of_power_eq hpower
      split
      · next hfconst =>
          obtain ⟨b, rfl, rfl⟩ := hbase.exists_int hf hfconst
          have hfolded : (Literal.int b).pow? (.int x) = none := hfolded
          simp [LinearForm.const, hfolded]
      · simp [LinearForm.const, hone, hzero]

/-! ### All expressions -/

theorem readable_generator {e : Expr} (h : e.linearForm? = some (.generator e))
    (hfactor : e.isFactor = true) : e.Readable := by
  intro f hf
  obtain rfl := Option.some.inj (h.symm.trans hf)
  refine ⟨LinearForm.plain_generator e, nofun, fun _ => ⟨e, 1, by decide, rfl, ?_⟩, fun _ _ => rfl⟩
  rw [key, cofactors_of_isFactor hfactor, powerProduct_singleton]

theorem readable_of_canonical {e : Expr} (hcanonical : e.Canonical) (hfloat : e.FloatFree) :
    e.Readable := by
  induction e with
  | lit n =>
      intro f hf
      obtain rfl := Option.some.inj hf
      obtain ⟨k, rfl⟩ := Literal.exists_of_isInt (m := n) (by simpa [isFloat] using hfloat.self)
      exact ⟨LinearForm.plain_const _, fun _ => ⟨k, rfl⟩,
        fun hterm => (hterm.cofactors_ne_nil rfl).elim, fun hfactor => by cases hfactor⟩
  | sym | dim | call | access => exact readable_generator rfl rfl
  | sum ts ih =>
      exact readable_sum hcanonical hfloat fun t ht =>
        ih t ht (hcanonical.of_mem_children ht) (hfloat.of_mem_children ht)
  | prod fs ih =>
      exact readable_prod hcanonical hfloat fun a ha =>
        ih a ha (hcanonical.of_mem_children ha) (hfloat.of_mem_children ha)
  | pow base exponent ihb ihe =>
      obtain ⟨-, hbase, hexponent⟩ := allNodes_pow.mp hcanonical
      obtain ⟨-, hbase', hexponent'⟩ := allNodes_pow.mp hfloat
      intro f hf
      rw [linearForm?_pow_eq_none hcanonical hfloat (ihb hbase hbase')
        (ihe hexponent hexponent')] at hf
      cases hf

/-- As a term of a sum by itself a canonical term has the linear form that it has alone. -/
theorem linearForm?_sum_singleton {t : Expr} (hcanonical : t.Canonical) (hfloat : t.FloatFree)
    (hterm : t.Term) : (sum [t]).linearForm? = t.linearForm? := by
  show (t.linearForm?.bind fun f => some ((LinearForm.const (.int 0)).add f)) = _
  cases hf : t.linearForm? with
  | none => rfl
  | some f =>
      obtain ⟨g, n, -, rfl, -⟩ := (readable_of_canonical hcanonical hfloat f hf).term hterm
      show some (LinearForm.mk [(g, (Literal.int 0).add (.int n))]
        ((Literal.int 0).add (.int 0))) = _
      rw [Literal.zero_add_int, Literal.zero_add_int]

end Expr

end GridAccess
