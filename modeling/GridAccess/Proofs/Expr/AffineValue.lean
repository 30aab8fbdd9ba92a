import GridAccess.Proofs.Expr.Absence
import GridAccess.Proofs.Expr.Affine
import GridAccess.Proofs.Expr.Reading

/-!
What linear forms denote. As long as no operation overflows, the linear form of an expression
denotes what the expression does, in every ring in which products and powers are what they stand
for.
-/

namespace GridAccess

/-! ### Literals -/

namespace LinearForm

/-- The form as a sum under construction. -/
def toCollected (f : LinearForm) : Collected := ⟨f.constant, f.terms⟩

def literals (f : LinearForm) : List Literal := f.toCollected.literals

end LinearForm

namespace Expr

mutual

/-- The literals of all forms that are computed on the way to the linear form. -/
def linearFormTrace : Expr → List Literal
  | .lit _ | .sym _ | .dim _ | .call _ _ | .access _ _ => []
  | .sum terms => linearSumTrace (.const (.int 0)) terms
  | .prod factors => linearProductTrace (.const (.int 1)) factors
  | .pow base exponent =>
    linearFormTrace exponent ++
      match exponent.linearForm? with
      | some g =>
        if g.isConst then
          linearFormTrace base ++
            ((base.linearForm?.bind (·.pow? g)).map LinearForm.literals).getD []
        else []
      | none => []

def linearSumTrace (total : LinearForm) : List Expr → List Literal
  | [] => []
  | e :: es =>
    linearFormTrace e ++
      match e.linearForm? with
      | some f => (total.add f).literals ++ linearSumTrace (total.add f) es
      | none => []

def linearProductTrace (total : LinearForm) : List Expr → List Literal
  | [] => []
  | e :: es =>
    linearFormTrace e ++
      match e.linearForm?.bind total.mul? with
      | some g => g.literals ++ linearProductTrace g es
      | none => []

end

/-- The literals of all forms that are computed on the way. -/
def combinedTrace (combine : LinearForm → LinearForm → Option LinearForm) (total : LinearForm) :
    List Expr → List Literal
  | [] => []
  | e :: es =>
    e.linearFormTrace ++
      match e.linearForm?.bind (combine total) with
      | some next => next.literals ++ combinedTrace combine next es
      | none => []

theorem linearFormTrace_sum (es : List Expr) :
    (sum es).linearFormTrace = combinedTrace LinearForm.add? (.const (.int 0)) es := by
  have hsum (total : LinearForm) :
      linearSumTrace total es = combinedTrace LinearForm.add? total es := by
    induction es generalizing total with
    | nil => rfl
    | cons e es ih =>
        rw [linearSumTrace, combinedTrace]
        cases e.linearForm? with
        | none => rfl
        | some f =>
            exact congrArg (fun rest => e.linearFormTrace ++ ((total.add f).literals ++ rest))
              (ih (total.add f))
  exact hsum _

theorem linearFormTrace_prod (es : List Expr) :
    (prod es).linearFormTrace = combinedTrace LinearForm.mul? (.const (.int 1)) es := by
  have hprod (total : LinearForm) :
      linearProductTrace total es = combinedTrace LinearForm.mul? total es := by
    induction es generalizing total with
    | nil => rfl
    | cons e es ih =>
        rw [linearProductTrace, combinedTrace]
        cases e.linearForm?.bind total.mul? with
        | none => rfl
        | some next =>
            exact congrArg (fun rest => e.linearFormTrace ++ (next.literals ++ rest)) (ih next)
  exact hprod _

end Expr

/-! ### Readings of linear forms -/

namespace Ascending

variable {a : Expr} {k : Literal} {table : List (Expr × Literal)}

theorem allInt_of_adjust (h : AllInt ((adjust a (.int 0) (·.add k) table).map Prod.snd)) :
    AllInt (table.map Prod.snd) := by
  induction table with
  | nil => simp [AllInt]
  | cons entry table ih =>
      obtain ⟨b, v⟩ := entry
      cases hcmp : compare a b with
      | lt =>
          simp only [adjust, hcmp] at h
          exact fun n hn => h n (List.mem_cons_of_mem _ hn)
      | eq =>
          simp only [adjust, hcmp] at h
          obtain ⟨hhead, htail⟩ := List.forall_mem_cons.mp h
          exact List.forall_mem_cons.mpr ⟨(Literal.add_exact hhead).1, htail⟩
      | gt =>
          simp only [adjust, hcmp] at h
          obtain ⟨hhead, htail⟩ := List.forall_mem_cons.mp h
          exact List.forall_mem_cons.mpr ⟨hhead, ih htail⟩

end Ascending

namespace Reading

variable {M : Type} [AddCommGroup M] {r : Reading M}

/-- Adding the entries of one table to another one, one after the other. -/
theorem table_foldl_adjust {new old : List (Expr × Literal)}
    (h : AllInt ((new.foldl (fun terms term =>
      Ascending.adjust term.1 (.int 0) (·.add term.2) terms) old).map Prod.snd)) :
    AllInt (old.map Prod.snd) ∧
      r.table (new.foldl (fun terms term =>
        Ascending.adjust term.1 (.int 0) (·.add term.2) terms) old) =
      r.table old + r.table new := by
  induction new generalizing old with
  | nil => exact ⟨h, (add_zero _).symm⟩
  | cons term new ih =>
      obtain ⟨hold, htable⟩ := ih h
      refine ⟨Ascending.allInt_of_adjust hold, ?_⟩
      rw [List.foldl_cons, htable, table_adjust hold, table_cons, add_assoc]

theorem table_of_isConst {f : LinearForm} (h : f.isConst = true) : r.table f.terms = 0 := by
  have hfilter : f.terms.filter (fun term => !term.2.isZero) = [] := by
    rw [List.filter_eq_nil_iff]
    intro term hterm
    simpa using List.all_eq_true.mp h term hterm
  rw [← table_filter, hfilter, table_nil]

theorem collected_add {f g : LinearForm} (h : AllInt (f.add g).literals) :
    r.collected (f.add g).toCollected = r.collected f.toCollected + r.collected g.toCollected := by
  obtain ⟨hconstant, hterms⟩ := List.forall_mem_cons.mp h
  have hexact : (f.add g).constant.toInt = f.constant.toInt + g.constant.toInt :=
    (Literal.add_exact hconstant).2.2
  have htable : r.table (f.add g).terms = r.table f.terms + r.table g.terms :=
    (table_foldl_adjust hterms).2
  show (f.add g).constant.toInt • _ + r.table (f.add g).terms = _
  rw [hexact, htable, add_zsmul]
  exact add_add_add_comm _ _ _ _

theorem table_scale {terms : List (Expr × Literal)} {n : Literal}
    (h : AllInt ((terms.map fun term => (term.1, term.2.mul n)).map Prod.snd)) :
    r.table (terms.map fun term => (term.1, term.2.mul n)) = n.toInt • r.table terms := by
  induction terms with
  | nil => exact (zsmul_zero _).symm
  | cons term terms ih =>
      obtain ⟨hhead, htail⟩ := List.forall_mem_cons.mp h
      have hexact : (term.2.mul n).toInt = term.2.toInt * n.toInt := (Literal.mul_exact hhead).2.2
      rw [List.map_cons, table_cons, table_cons, ih htail, zsmul_add, hexact, mul_comm, mul_zsmul]

theorem collected_scale {f : LinearForm} {n : Literal} (h : AllInt (f.scale n).literals) :
    r.collected (f.scale n).toCollected = n.toInt • r.collected f.toCollected := by
  obtain ⟨hconstant, hterms⟩ := List.forall_mem_cons.mp h
  have hexact : (f.constant.mul n).toInt = f.constant.toInt * n.toInt :=
    (Literal.mul_exact hconstant).2.2
  have htable : r.table (f.scale n).terms = n.toInt • r.table f.terms := table_scale hterms
  show (f.constant.mul n).toInt • _ + r.table (f.scale n).terms = _
  rw [hexact, htable, mul_comm, mul_zsmul]
  exact (zsmul_add _ _ _).symm

end Reading

/-! ### Readings in a ring -/

/-- The reading takes products and the powers in `e` for what they stand for. -/
structure Reading.Evaluates {R : Type} [CommRing R] (r : Reading R) (e : Expr) : Prop where
  one : r.value (.int 1) = 1
  product : ∀ factors, r.value (.prod factors) = (factors.map r.value).prod
  power : ∀ base exponent, .pow base exponent ∈ e.nodes →
    ∀ k : Nat, r.value exponent = k → r.value (.pow base exponent) = r.value base ^ k

theorem Reading.Evaluates.of_mem_children {R : Type} [CommRing R] {r : Reading R} {e c : Expr}
    (h : r.Evaluates e) (hc : c ∈ e.children) : r.Evaluates c :=
  { h with power := fun base exponent hp =>
      h.power base exponent (Expr.mem_nodes_trans hp (Expr.mem_nodes_of_mem_children hc)) }

namespace LinearForm

variable {R : Type} [CommRing R] {r : Reading R} {f g h : LinearForm} {v w : R}

/-- The form holds integers only and denotes `v`. -/
structure Denotes (r : Reading R) (f : LinearForm) (v : R) : Prop where
  allInt : AllInt f.literals
  eq : r.collected f.toCollected = v

theorem denotes_const (hone : r.value (.int 1) = 1) {n : Literal} (hn : n.isInt = true) :
    (const n).Denotes r (n.toInt : R) := by
  refine ⟨List.forall_mem_singleton.mpr hn, ?_⟩
  show n.toInt • r.value (.int 1) + 0 = _
  rw [hone, add_zero, zsmul_one]

theorem denotes_generator (e : Expr) : (generator e).Denotes r (r.value e) := by
  refine ⟨by simp [generator, literals, toCollected, Collected.literals, AllInt], ?_⟩
  show (0 : Int) • r.value (.int 1) + ((1 : Int) • r.value e + 0) = _
  simp

theorem Denotes.eq_constant (hone : r.value (.int 1) = 1) (hf : f.Denotes r v)
    (hconst : f.isConst = true) : v = (f.constant.toInt : R) := by
  rw [← hf.eq]
  show f.constant.toInt • r.value (.int 1) + r.table f.terms = _
  rw [hone, Reading.table_of_isConst hconst, add_zero, zsmul_one]

theorem Denotes.add? (hf : f.Denotes r v) (hg : g.Denotes r w) (hadd : f.add? g = some h)
    (hint : AllInt h.literals) : h.Denotes r (v + w) := by
  obtain rfl := Option.some.inj hadd
  exact ⟨hint, by rw [Reading.collected_add hint, hf.eq, hg.eq]⟩

theorem Denotes.mul? (hone : r.value (.int 1) = 1) (hf : f.Denotes r v) (hg : g.Denotes r w)
    (hmul : f.mul? g = some h) (hint : AllInt h.literals) : h.Denotes r (v * w) := by
  refine ⟨hint, ?_⟩
  unfold LinearForm.mul? at hmul
  split at hmul
  · next hconst =>
      obtain rfl := Option.some.inj hmul
      rw [Reading.collected_scale hint, hg.eq, hf.eq_constant hone hconst, zsmul_eq_mul]
  · split at hmul
    · next hconst =>
        obtain rfl := Option.some.inj hmul
        rw [Reading.collected_scale hint, hf.eq, hg.eq_constant hone hconst, zsmul_eq_mul, mul_comm]
    · cases hmul

/-- A form can only be raised to the power of a constant that is not negative. -/
theorem Denotes.pow? (hone : r.value (.int 1) = 1) (hf : f.Denotes r v) (hg : g.Denotes r w)
    (hpow : f.pow? g = some h) (hint : AllInt h.literals) :
    ∃ k : Nat, w = k ∧ h.Denotes r (v ^ k) := by
  have hgint : g.constant.isInt = true := hg.allInt _ List.mem_cons_self
  unfold LinearForm.pow? at hpow
  split at hpow
  · cases hpow
  · next hconst =>
      have hw := hg.eq_constant hone (by simpa using hconst)
      split at hpow
      · next hbase =>
          obtain ⟨n, hn, rfl⟩ := Option.map_eq_some_iff.mp hpow
          have hnint := hint n List.mem_cons_self
          obtain ⟨hnonneg, hexact⟩ := Literal.pow?_exact hn hnint
          refine ⟨g.constant.toInt.toNat, ?_, ?_⟩
          · rw [hw, ← Int.cast_natCast, Int.toNat_of_nonneg hnonneg]
          · rw [hf.eq_constant hone hbase, ← Int.cast_pow, ← hexact]
            exact denotes_const hone hnint
      · split at hpow
        · next hisOne =>
            obtain rfl := Option.some.inj hpow
            refine ⟨1, ?_, by rwa [pow_one]⟩
            rw [hw, Literal.toInt_of_isOne hgint hisOne, Int.cast_one, Nat.cast_one]
        · split at hpow
          · next hisZero =>
              obtain rfl := Option.some.inj hpow
              refine ⟨0, ?_, ?_⟩
              · rw [hw, Literal.toInt_of_isZero hisZero, Int.cast_zero, Nat.cast_zero]
              · have hdenotes := denotes_const hone (r := r) (n := .int 1) rfl
                simpa using hdenotes
          · cases hpow

end LinearForm

namespace Expr

open LinearForm (denotes_const denotes_generator)

variable {R : Type} [CommRing R] {r : Reading R}

/-- If a step denotes `op` of what its arguments denote, the run denotes the operands combined by
`op`, beginning with what the total denotes. -/
theorem denotes_combined? {combine : LinearForm → LinearForm → Option LinearForm} {op : R → R → R}
    (hcombine : ∀ {f g h : LinearForm} {v w : R}, f.Denotes r v → g.Denotes r w →
      combine f g = some h → AllInt h.literals → h.Denotes r (op v w))
    {es : List Expr} {total f : LinearForm} {v : R} (htotal : total.Denotes r v)
    (hes : ∀ e ∈ es, ∀ f, AllInt e.linearFormTrace → e.linearForm? = some f →
      f.Denotes r (r.value e))
    (hint : AllInt (combinedTrace combine total es)) (h : combined? combine total es = some f) :
    f.Denotes r ((es.map r.value).foldl op v) := by
  induction es generalizing total v with
  | nil =>
      obtain rfl := Option.some.inj h
      exact htotal
  | cons e es ih =>
      obtain ⟨he, hes⟩ := List.forall_mem_cons.mp hes
      obtain ⟨next, hnext, h⟩ := Option.bind_eq_some_iff.mp h
      simp only [combinedTrace, hnext, allInt_append] at hint
      obtain ⟨hoperand, hnextint, hrest⟩ := hint
      obtain ⟨g, hg, hnext⟩ := Option.bind_eq_some_iff.mp hnext
      have hdenotes := hcombine htotal (he g hoperand hg) hnext hnextint
      exact ih hdenotes hes hrest h

/-- The linear form denotes what the expression does. -/
theorem denotes_linearForm? {e : Expr} (hr : r.Evaluates e) (hfloat : e.FloatFree)
    (hint : AllInt e.linearFormTrace) {f : LinearForm} (h : e.linearForm? = some f) :
    f.Denotes r (r.value e) := by
  induction e generalizing f with
  | lit n =>
      obtain rfl := Option.some.inj h
      have hn : n.isInt = true := by simpa [isFloat] using hfloat.self
      have hvalue : r.value (.lit n) = n.toInt := by
        rw [Reading.value_lit, hr.one, zsmul_one]
      exact hvalue ▸ denotes_const hr.one hn
  | sym | dim | call | access =>
      obtain rfl := Option.some.inj h
      exact denotes_generator _
  | sum es ih =>
      rw [linearFormTrace_sum] at hint
      rw [linearForm?_sum] at h
      have hdenotes := denotes_combined? LinearForm.Denotes.add? (denotes_const hr.one rfl)
        (fun e he f hint hf => ih e he (hr.of_mem_children he) (hfloat.of_mem_children he) hint hf)
        hint h
      rw [Reading.value_sum, List.sum_eq_foldl]
      simpa using hdenotes
  | prod es ih =>
      rw [linearFormTrace_prod] at hint
      rw [linearForm?_prod] at h
      have hdenotes := denotes_combined? (LinearForm.Denotes.mul? hr.one) (denotes_const hr.one rfl)
        (fun e he f hint hf => ih e he (hr.of_mem_children he) (hfloat.of_mem_children he) hint hf)
        hint h
      rw [hr.product, List.prod_eq_foldl]
      simpa using hdenotes
  | pow base exponent ihb ihe =>
      obtain ⟨g, hg, h⟩ := Option.bind_eq_some_iff.mp h
      obtain ⟨f', hf', h⟩ := Option.bind_eq_some_iff.mp h
      have hconst : g.isConst = true := by
        by_contra hconst
        simp [LinearForm.pow?, hconst] at h
      simp only [linearFormTrace, hg, hconst, if_true, hf', Option.bind_some, h, Option.map_some,
        Option.getD_some, allInt_append] at hint
      obtain ⟨hexponent, hbase, hpower⟩ := hint
      have hb : base ∈ (pow base exponent).children := List.mem_cons_self
      have he : exponent ∈ (pow base exponent).children := by simp [children]
      have hbdenotes := ihb (hr.of_mem_children hb) (hfloat.of_mem_children hb) hbase hf'
      have hedenotes := ihe (hr.of_mem_children he) (hfloat.of_mem_children he) hexponent hg
      obtain ⟨k, hk, hdenotes⟩ := hbdenotes.pow? hr.one hedenotes h hpower
      rwa [hr.power base exponent (self_mem_nodes _) k hk]

end Expr

end GridAccess
