import GridAccess.Expr.Substitution
import GridAccess.Expr.Search

/-!
Structure of expressions: induction with a hypothesis for every operand, the list companions of
the tree functions as maps over lists, and membership among the nodes.
-/

namespace GridAccess

namespace Expr

/-- Induction over expressions. Operands stand in lists, so the recursor that the type comes with
has a second motive for them; here it is the first one at every element. -/
@[elab_as_elim, induction_eliminator]
theorem operandInduction {motive : Expr → Prop}
    (lit : ∀ n, motive (.lit n))
    (sym : ∀ s, motive (.sym s))
    (dim : ∀ d, motive (.dim d))
    (call : ∀ f args, (∀ e ∈ args, motive e) → motive (.call f args))
    (access : ∀ f indices, (∀ e ∈ indices, motive e) → motive (.access f indices))
    (sum : ∀ terms, (∀ e ∈ terms, motive e) → motive (.sum terms))
    (prod : ∀ factors, (∀ e ∈ factors, motive e) → motive (.prod factors))
    (pow : ∀ base exponent, motive base → motive exponent → motive (.pow base exponent))
    (e : Expr) : motive e := by
  refine @Expr.rec motive (fun es => ∀ e ∈ es, motive e)
    lit sym dim call access sum prod pow ?_ ?_ e
  · intro e he
    cases he
  · intro head tail hhead htail e he
    rcases List.mem_cons.mp he with rfl | he
    · exact hhead
    · exact htail e he

theorem nodesList_eq (es : List Expr) : nodesList es = es.flatMap nodes := by
  induction es with
  | nil => rfl
  | cons e es ih => exact congrArg (e.nodes ++ ·) ih

theorem outermostList_eq (es : List Expr) : outermostList es = es.flatMap outermost := by
  induction es with
  | nil => rfl
  | cons e es ih => exact congrArg (e.outermost ++ ·) ih

theorem factorsList_eq (es : List Expr) : factorsList es = es.flatMap factors := by
  induction es with
  | nil => rfl
  | cons e es ih => exact congrArg (e.factors ++ ·) ih

/-- Induction over expressions with a hypothesis for every child, whatever the node is. -/
theorem childInduction {motive : Expr → Prop}
    (node : ∀ e, (∀ c ∈ e.children, motive c) → motive e) (e : Expr) : motive e := by
  induction e with
  | lit | sym | dim => exact node _ (by simp [children])
  | call f es ih | access f es ih | sum es ih | prod es ih => exact node _ ih
  | pow base exponent ihb ihe =>
      exact node _ (List.forall_mem_cons.mpr ⟨ihb, List.forall_mem_singleton.mpr ihe⟩)

theorem nodes_eq (e : Expr) : e.nodes = e.children.flatMap nodes ++ [e] := by
  cases e with
  | lit | sym | dim => rfl
  | call f es | access f es | sum es | prod es => exact congrArg (· ++ [_]) (nodesList_eq es)
  | pow base exponent => simp [nodes, children]

theorem outermost_eq (e : Expr) :
    e.outermost =
      match e.access? with
      | some a => [a]
      | none => e.children.flatMap outermost := by
  cases e with
  | lit | sym | dim | access => rfl
  | call f es | sum es | prod es => exact outermostList_eq es
  | pow base exponent => simp [outermost, children, access?]

theorem useDepthList_le_iff {es : List Expr} {k : Nat} :
    useDepthList es ≤ k ↔ ∀ e ∈ es, e.useDepth ≤ k := by
  induction es with
  | nil => simp
  | cons e es ih => rw [useDepthList_cons, Nat.max_le, ih, List.forall_mem_cons]

theorem useDepth_le_useDepthList {e : Expr} {es : List Expr} (he : e ∈ es) :
    e.useDepth ≤ useDepthList es :=
  useDepthList_le_iff.mp (Nat.le_refl _) e he

/-- What a use is made of is nested less deep than the use. -/
theorem useDepth_le_of_mem_use {depth : Nat} {e : Expr} {es : List Expr}
    (h : useDepthList es + 1 ≤ depth + 1) (he : e ∈ es) : e.useDepth ≤ depth :=
  Nat.le_trans (useDepth_le_useDepthList he) (Nat.le_of_succ_le_succ h)

/-! ### Membership among the nodes -/

theorem mem_nodesList_append {m node : Expr} {es : List Expr} :
    m ∈ nodesList es ++ [node] ↔ m = node ∨ ∃ e ∈ es, m ∈ e.nodes := by
  rw [List.mem_append, List.mem_singleton, nodesList_eq, List.mem_flatMap, or_comm]

@[simp] theorem mem_nodes_lit {m : Expr} {n : Literal} : m ∈ (lit n).nodes ↔ m = .lit n :=
  List.mem_singleton

@[simp] theorem mem_nodes_sym {m : Expr} {s : Symbol} : m ∈ (sym s).nodes ↔ m = .sym s :=
  List.mem_singleton

@[simp] theorem mem_nodes_dim {m : Expr} {d : Dimension} : m ∈ (dim d).nodes ↔ m = .dim d :=
  List.mem_singleton

@[simp] theorem mem_nodes_call {m : Expr} {f : Field} {args : List Expr} :
    m ∈ (call f args).nodes ↔ m = .call f args ∨ ∃ e ∈ args, m ∈ e.nodes :=
  mem_nodesList_append

@[simp] theorem mem_nodes_access {m : Expr} {f : Field} {indices : List Expr} :
    m ∈ (access f indices).nodes ↔ m = .access f indices ∨ ∃ e ∈ indices, m ∈ e.nodes :=
  mem_nodesList_append

@[simp] theorem mem_nodes_sum {m : Expr} {terms : List Expr} :
    m ∈ (sum terms).nodes ↔ m = .sum terms ∨ ∃ e ∈ terms, m ∈ e.nodes :=
  mem_nodesList_append

@[simp] theorem mem_nodes_prod {m : Expr} {factors : List Expr} :
    m ∈ (prod factors).nodes ↔ m = .prod factors ∨ ∃ e ∈ factors, m ∈ e.nodes :=
  mem_nodesList_append

@[simp] theorem mem_nodes_pow {m base exponent : Expr} :
    m ∈ (pow base exponent).nodes ↔
      m = .pow base exponent ∨ m ∈ base.nodes ∨ m ∈ exponent.nodes := by
  show m ∈ base.nodes ++ exponent.nodes ++ [.pow base exponent] ↔ _
  rw [List.mem_append, List.mem_append, List.mem_singleton]
  exact or_comm

theorem self_mem_nodes (e : Expr) : e ∈ e.nodes := by
  cases e <;> simp

theorem mem_nodes_of_mem_children {c e : Expr} (h : c ∈ e.children) : c ∈ e.nodes := by
  cases e with
  | lit | sym | dim => simp [children] at h
  | call f es => exact mem_nodes_call.mpr (.inr ⟨c, h, c.self_mem_nodes⟩)
  | access f es => exact mem_nodes_access.mpr (.inr ⟨c, h, c.self_mem_nodes⟩)
  | sum es => exact mem_nodes_sum.mpr (.inr ⟨c, h, c.self_mem_nodes⟩)
  | prod es => exact mem_nodes_prod.mpr (.inr ⟨c, h, c.self_mem_nodes⟩)
  | pow base exponent =>
      simp only [children, List.mem_cons, List.not_mem_nil, or_false] at h
      rcases h with rfl | rfl
      · exact mem_nodes_pow.mpr (.inr (.inl c.self_mem_nodes))
      · exact mem_nodes_pow.mpr (.inr (.inr c.self_mem_nodes))

theorem mem_nodes_trans {m n e : Expr} (hm : m ∈ n.nodes) (hn : n ∈ e.nodes) : m ∈ e.nodes := by
  induction e with
  | lit | sym | dim =>
      simp only [mem_nodes_lit, mem_nodes_sym, mem_nodes_dim] at hn
      exact hn ▸ hm
  | call f es ih | access f es ih | sum es ih | prod es ih =>
      simp only [mem_nodes_call, mem_nodes_access, mem_nodes_sum, mem_nodes_prod] at hn ⊢
      rcases hn with rfl | ⟨e, he, hn⟩
      · simpa using hm
      · exact .inr ⟨e, he, ih e he hn⟩
  | pow base exponent ihb ihe =>
      simp only [mem_nodes_pow] at hn ⊢
      rcases hn with rfl | hn | hn
      · simpa using hm
      · exact .inr (.inl (ihb hn))
      · exact .inr (.inr (ihe hn))

end Expr

theorem Expr.eq_lit_of_literal? {e : Expr} {n : Literal} (h : e.literal? = some n) :
    e = .lit n := by
  cases e with
  | lit => exact congrArg Expr.lit (Option.some.inj h)
  | _ => cases h

/-! ### Products and sums under construction -/

theorem Monomial.times_of_literal?_eq_none (m : Monomial) {e : Expr} (h : e.literal? = none) :
    m.times e = { m with factors := m.factors ++ [e] } := by
  cases e with
  | lit n => cases h
  | _ => rfl

theorem Monomial.spread?_eq_some_iff {m : Monomial} {terms : List Expr} :
    m.spread? = some terms ↔
      (m.coefficient.isZero || m.coefficient.isOne) = false ∧ m.factors = [.sum terms] := by
  unfold spread?
  split
  · next h => simp [h]
  · next h =>
      split
      · next hfactors => simp [h, hfactors]
      · next hfactors => simpa [h] using hfactors terms

theorem Collected.plus_of_literal?_eq_none (c : Collected) {e : Expr} (h : e.literal? = none) :
    c.plus e =
      { c with
        coefficients := Ascending.adjust e.splitCoefficient.2 (.int 0)
          (·.add e.splitCoefficient.1) c.coefficients } := by
  cases e with
  | lit n => cases h
  | _ => rfl

end GridAccess
