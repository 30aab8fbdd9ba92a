import GridAccess.Proofs.Expr.FoldValue

/-!
Values of replaced expressions. Whether the nodes above a match are built again canonically or
keep their shape makes no difference to the value, as long as folding computes integers only.
What the value is does not depend on how nodes are built: it is that of the original expression
where each key is given the value of its replacement.
-/

namespace GridAccess

/-- `κ` reads an expression as `ι` reads it after the replacement. -/
structure Substitution.Transfers (s : Substitution) (ι κ : Interpretation) : Prop where
  found : ∀ {e r : Expr}, s.find? e = some r → r.value ι = e.value κ
  symbol : ∀ {x : Symbol}, s.find? (.sym x) = none → ι.symbol x = κ.symbol x
  dimension : ∀ {d : Dimension}, s.find? (.dim d) = none → ι.dimension d = κ.dimension d
  call : ι.call = κ.call
  access : ι.access = κ.access

/-- Each symbol and each dimension that is a key takes the value of its replacement. -/
def Interpretation.updated (ι : Interpretation) (s : Substitution) : Interpretation where
  symbol x := ((s.find? (.sym x)).map (Expr.value ι)).getD (ι.symbol x)
  dimension d := ((s.find? (.dim d)).map (Expr.value ι)).getD (ι.dimension d)
  call := ι.call
  access := ι.access

def Expr.isVariable : Expr → Bool
  | .sym _ | .dim _ => true
  | _ => false

variable {s : Substitution} {ι κ : Interpretation}

theorem Substitution.transfers_updated (hs : ∀ entry ∈ s.entries, entry.1.isVariable = true) :
    s.Transfers ι (ι.updated s) where
  found {e r} hfind := by
    obtain ⟨⟨key, r'⟩, hentry, hsame, -⟩ := exists_entry_of_find? hfind
    have hvariable := hs _ hentry
    have hkey := Expr.same_symm hsame
    cases key with
    | sym x =>
        obtain rfl := Expr.same_sym_iff.mp hkey
        simp [Interpretation.updated, hfind]
    | dim d =>
        obtain rfl := Expr.same_dim_iff.mp hkey
        simp [Interpretation.updated, hfind]
    | _ => cases hvariable
  symbol hfind := by simp [Interpretation.updated, hfind]
  dimension hfind := by simp [Interpretation.updated, hfind]
  call := rfl
  access := rfl

namespace Expr

theorem value_subst (hs : s.Transfers ι κ) (e : Expr) : (e.subst s).value ι = e.value κ := by
  have hlist {es : List Expr} (ih : ∀ e ∈ es, (e.subst s).value ι = e.value κ) :
      (es.map (·.subst s)).map (value ι) = es.map (value κ) := by
    rw [List.map_map]
    exact List.map_congr_left ih
  -- Keys have the values of their replacements, whatever the node is.
  have hstep {e : Expr} (h : s.find? e = none → (e.subst s).value ι = e.value κ) :
      (e.subst s).value ι = e.value κ := by
    cases hfind : s.find? e with
    | some r => rw [subst_of_find? hfind, hs.found hfind]
    | none => exact h hfind
  induction e with
  | lit n =>
      refine hstep fun hfind => ?_
      rw [subst, replace?, hfind]
      rfl
  | sym x =>
      refine hstep fun hfind => ?_
      rw [subst, replace?, hfind]
      exact hs.symbol hfind
  | dim d =>
      refine hstep fun hfind => ?_
      rw [subst, replace?, hfind]
      exact hs.dimension hfind
  | call f es ih =>
      refine hstep fun hfind => ?_
      rw [subst_call hfind, value_call, value_call, hlist ih, hs.call]
  | access f es ih =>
      refine hstep fun hfind => ?_
      rw [subst_access hfind, value_access, value_access, hlist ih, hs.access]
  | sum es ih =>
      refine hstep fun hfind => ?_
      rw [subst_sum hfind, value_sum, value_sum, hlist ih]
  | prod es ih =>
      refine hstep fun hfind => ?_
      rw [subst_prod hfind, value_prod, value_prod, hlist ih]
  | pow base exponent ihb ihe =>
      refine hstep fun hfind => ?_
      rw [subst_pow hfind, value_pow, value_pow, ihb, ihe]

/-! ### Nodes above a match -/

/-- The search for keys in an expression comes to a node that is not a key. -/
inductive Enters (s : Substitution) : Expr → Expr → Prop where
  | root {e : Expr} : s.find? e = none → Enters s e e
  | child {e c n : Expr} : s.find? e = none → c ∈ e.children → Enters s c n → Enters s e n

theorem find?_eq_none_of_enters {e n : Expr} (h : Enters s e n) : s.find? n = none := by
  induction h with
  | root hfind => exact hfind
  | child _ _ _ ih => exact ih

theorem mem_nodes_of_enters {e n : Expr} (h : Enters s e n) : n ∈ e.nodes := by
  induction h with
  | root => exact self_mem_nodes _
  | child _ hc _ ih => exact mem_nodes_trans ih (mem_nodes_of_mem_children hc)

/-- The nodes that the search comes to stay in the result, with their operands replaced. -/
theorem subst_mem_nodes_of_enters {e n : Expr} (h : Enters s e n) :
    n.subst s ∈ (e.subst s).nodes := by
  induction h with
  | root => exact self_mem_nodes _
  | @child e c n hfind hc _ ih =>
      refine mem_nodes_trans ih (mem_nodes_of_mem_children ?_)
      cases e with
      | lit | sym | dim => simp [children] at hc
      | call f es =>
          rw [subst_call hfind]
          exact List.mem_map_of_mem hc
      | access f es =>
          rw [subst_access hfind]
          exact List.mem_map_of_mem hc
      | sum es =>
          rw [subst_sum hfind]
          exact List.mem_map_of_mem hc
      | prod es =>
          rw [subst_prod hfind]
          exact List.mem_map_of_mem hc
      | pow base exponent =>
          rw [subst_pow hfind]
          simp only [children, List.mem_cons, List.not_mem_nil, or_false] at hc ⊢
          rcases hc with rfl | rfl
          · exact .inl rfl
          · exact .inr rfl

/-- Every exponent above a match is or becomes an integer literal. -/
def IntegerPowers (s : Substitution) (e : Expr) : Prop :=
  ∀ base exponent, Enters s e (.pow base exponent) → ∃ n : Int64, exponent.subst s = .int n

theorem IntegerPowers.of_mem_children {e c : Expr} (h : IntegerPowers s e)
    (hfind : s.find? e = none) (hc : c ∈ e.children) : IntegerPowers s c :=
  fun base exponent hn => h base exponent (.child hfind hc hn)

theorem integerPowers_of_naturalPowers_subst {e : Expr} (h : (e.subst s).NaturalPowers) :
    IntegerPowers s e := by
  intro base exponent hn
  have hmem := subst_mem_nodes_of_enters hn
  rw [subst_pow (find?_eq_none_of_enters hn)] at hmem
  obtain ⟨n, hexponent, -⟩ := h _ _ hmem
  exact ⟨n, hexponent⟩

/-! ### Folding and keeping the shape -/

theorem substFoldTraceList_eq (s : Substitution) (es : List Expr) :
    substFoldTraceList s es = es.flatMap (substFoldTrace s) := by
  induction es with
  | nil => rfl
  | cons e es ih => simp [substFoldTraceList, ih]

/-- A literal in the result was there before or is a replacement. -/
theorem substFold_eq_lit {e : Expr} {n : Literal} (h : e.subst s = .lit n) :
    e.substFold s = .lit n := by
  cases hfind : s.find? e with
  | some r =>
      rw [subst_of_find? hfind] at h
      rw [substFold_of_find? hfind, h]
  | none =>
      cases e with
      | lit | sym | dim => simp_all [subst, substFold, replace?]
      | call => cases (subst_call hfind).symm.trans h
      | access => cases (subst_access hfind).symm.trans h
      | sum => cases (subst_sum hfind).symm.trans h
      | prod => cases (subst_prod hfind).symm.trans h
      | pow => cases (subst_pow hfind).symm.trans h

theorem value_substFold_eq_value_subst {e : Expr} (hpow : IntegerPowers s e)
    (h : AllInt (substFoldTrace s e)) : (e.substFold s).value ι = (e.subst s).value ι := by
  have hlist {node : Expr} (hfind : s.find? node = none) (hnode : IntegerPowers s node)
      (ih : ∀ e ∈ node.children, IntegerPowers s e → AllInt (substFoldTrace s e) →
        (e.substFold s).value ι = (e.subst s).value ι)
      (h : AllInt (substFoldTraceList s node.children)) :
      (node.children.map (·.substFold s)).map (value ι) =
        (node.children.map (·.subst s)).map (value ι) := by
    rw [List.map_map, List.map_map]
    refine List.map_congr_left fun e he =>
      ih e he (hnode.of_mem_children hfind he) fun n hn => h n ?_
    rw [substFoldTraceList_eq]
    exact List.mem_flatMap.mpr ⟨e, he, hn⟩
  -- The induction is on how the result is made; the trace follows the same cases.
  have hfold := foldsTo_substFold s e
  generalize e.substFold s = r at hfold
  induction hfold with
  | untouched htouches => rw [subst_eq_self htouches]
  | found hfind => rw [subst_of_find? hfind]
  | @call f es hfind _ ih =>
      simp only [substFoldTrace, hfind] at h
      rw [subst_call hfind, value_call, value_call]
      exact congrArg (ι.call f) (hlist hfind hpow ih h)
  | @access f es hfind _ ih =>
      simp only [substFoldTrace, hfind] at h
      rw [subst_access hfind, value_access, value_access]
      exact congrArg (ι.access f) (hlist hfind hpow ih h)
  | @sum es hfind hes _ ih =>
      simp only [substFoldTrace, hfind, hes, if_true, allInt_append] at h
      rw [value_sumOf h.2, subst_sum hfind, value_sum]
      exact congrArg List.sum (hlist hfind hpow ih h.1)
  | @prod es hfind hes _ ih =>
      simp only [substFoldTrace, hfind, hes, if_true, allInt_append] at h
      rw [value_productOf h.2, subst_prod hfind, value_prod]
      exact congrArg List.prod (hlist hfind hpow ih h.1)
  | @pow base exponent hfind hes _ _ ihb _ =>
      obtain ⟨n, hn⟩ := hpow base exponent (.root hfind)
      have hbase := ihb (hpow.of_mem_children hfind (by simp [children]))
      have hexponent : exponent.substFold s = int n := substFold_eq_lit hn
      simp only [substFoldTrace, hfind, hes, if_true, allInt_append, hexponent] at h ⊢
      rw [value_power h.2, subst_pow hfind, value_pow, hn, value_int, hbase h.1.1]

/-- Replacing by equal values keeps the value. Exponents have to stay what they are. -/
theorem value_substFold
    (hs : ∀ {e r : Expr}, s.find? e = some r → r.value ι = e.value ι)
    (hint : ∀ n : Int64, s.find? (.int n) = none) {e : Expr} (hpow : e.NaturalPowers)
    (h : AllInt (substFoldTrace s e)) : (e.substFold s).value ι = e.value ι := by
  have hinteger : IntegerPowers s e := by
    intro base exponent hn
    obtain ⟨n, rfl, -⟩ := hpow base exponent (mem_nodes_of_enters hn)
    exact ⟨n, subst_eq_self (by simpa [Substitution.touches, nodes, int] using hint n)⟩
  rw [value_substFold_eq_value_subst hinteger h]
  exact value_subst ⟨hs, fun _ => rfl, fun _ => rfl, rfl, rfl⟩ e

/-- Replacing and folding at once has the value of replacing only, whatever the keys look like; and
if they are symbols and dimensions, this is the value of the original expression where all of them
take the values of their replacements at the same time. -/
theorem value_replaced (ι : Interpretation) {s : Substitution} {e : Expr}
    (hpow : (e.subst s).NaturalPowers) (h : AllInt (substFoldTrace s e)) :
    (e.substFold s).value ι = (e.subst s).value ι ∧
      ((∀ entry ∈ s.entries, entry.1.isVariable = true) →
        (e.subst s).value ι = e.value (ι.updated s)) := by
  refine ⟨value_substFold_eq_value_subst (integerPowers_of_naturalPowers_subst hpow) h, ?_⟩
  exact fun hs => value_subst (Substitution.transfers_updated hs) e

/-- The dimensions `x` and `y`. -/
def dimX : Dimension := .root "x" .space

def dimY : Dimension := .root "y" .space

/-- The expression `x**2 + 3*h*y + y`. -/
def quadratic : Expr :=
  .sum [.pow (.dim dimX) (.int 2), .prod [.int 3, .sym ⟨"h"⟩, .dim dimY], .dim dimY]

/-- Exchanges `x` and `y`, with one more in the place of `x`, and drops `h`. -/
def exchange : Substitution :=
  ⟨[(.dim dimX, .sum [.dim dimY, .int 1]), (.dim dimY, .dim dimX), (.sym ⟨"h"⟩, .int 0)]⟩

/-- Here `x` is 2 and `y` is 7. -/
def twoAndSeven : Interpretation where
  symbol _ := 3
  dimension d := if d = dimX then 2 else 7
  call _ _ := 0
  access _ _ := 0

theorem value_replaced_exchange :
    (quadratic.substFold exchange).value twoAndSeven = 66 ∧
      (quadratic.subst exchange).value twoAndSeven = 66 ∧
      quadratic.value (twoAndSeven.updated exchange) = 66 := by
  have hsubst : quadratic.subst exchange =
      .sum [.pow (.sum [.dim dimY, .int 1]) (.int 2), .prod [.int 3, .int 0, .dim dimX],
        .dim dimX] := by rfl
  have hpow : (quadratic.subst exchange).NaturalPowers := by
    intro base exponent h
    simp only [hsubst, int, mem_nodes_sum, mem_nodes_pow, mem_nodes_prod, mem_nodes_lit,
      mem_nodes_dim, List.mem_cons, List.not_mem_nil, or_false, exists_eq_or_imp, exists_eq_left,
      reduceCtorEq, false_or, pow.injEq] at h
    exact ⟨2, h.2, by decide⟩
  obtain ⟨hfold, hupdated⟩ := value_replaced twoAndSeven hpow
    (show ∀ n ∈ substFoldTrace exchange quadratic, n.isInt = true by decide)
  have hvalue : (quadratic.subst exchange).value twoAndSeven = 66 := by
    rw [hsubst]
    decide
  have hvariables : ∀ entry ∈ exchange.entries, entry.1.isVariable = true := by
    decide
  exact ⟨hfold.trans hvalue, hvalue, (hupdated hvariables).symm.trans hvalue⟩

end Expr

end GridAccess
