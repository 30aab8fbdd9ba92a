import GridAccess.Proofs.Expr.Inheritance
import GridAccess.Proofs.Literal.Exact

/-!
Expressions in which something does not occur at any depth: no calls, no uses of fields at all, or
no floating point literals. Without floats equality is identity.
-/

namespace GridAccess.Expr

/-! ### Calls -/

def CallFree (e : Expr) : Prop := AllNodes (fun n => n.call? = none) e

instance (e : Expr) : Decidable e.CallFree :=
  inferInstanceAs (Decidable (AllNodes (fun n => n.call? = none) e))

theorem headProperty_call? : HeadProperty fun n => n.call? = none where
  lit _ := rfl
  sum _ := rfl
  prod _ := rfl
  call _ h := by cases h
  access _ _ := rfl

theorem inherited_callFree : Inherited CallFree := AllNodes.inherited headProperty_call?

/-- Without uses of fields there are no calls. -/
theorem callFree_of_useDepth_eq_zero {e : Expr} (h : e.useDepth = 0) : e.CallFree := by
  intro n hn
  have hdepth := (useDepth_le_of_mem_nodes hn).trans_eq h
  cases n with
  | call f args => simp [useDepth] at hdepth
  | _ => rfl

theorem useDepth_eq_zero {e : Expr} (hcall : e.CallFree) (haccess : e.hasAccess = false) :
    e.useDepth = 0 := by
  replace haccess : AllNodes (fun n => n.access? = none) e := by
    simpa [hasAccess, AllNodes] using haccess
  have hlist {es : List Expr} (h : ∀ e ∈ es, e.useDepth = 0) : useDepthList es = 0 :=
    Nat.le_zero.mp (useDepthList_le_iff.mpr fun e he => (h e he).le)
  induction e with
  | lit | sym | dim => rfl
  | call f es => cases hcall.self
  | access f es => cases haccess.self
  | sum es ih | prod es ih =>
      exact hlist fun e he => ih e he (hcall.of_mem_children he) (haccess.of_mem_children he)
  | pow base exponent ihb ihe =>
      obtain ⟨-, hbase, hexponent⟩ := allNodes_pow.mp hcall
      obtain ⟨-, hbase', hexponent'⟩ := allNodes_pow.mp haccess
      rw [useDepth, ihb hbase hbase', ihe hexponent hexponent', Nat.max_self]

/-! ### Floats -/

def isFloat : Expr → Bool
  | .lit n => !n.isInt
  | _ => false

def FloatFree (e : Expr) : Prop := AllNodes (fun n => n.isFloat = false) e

instance (e : Expr) : Decidable e.FloatFree :=
  inferInstanceAs (Decidable (AllNodes (fun n => n.isFloat = false) e))

/-- Only floats are equal to something else. -/
theorem FloatFree.eq_of_same {a b : Expr} (ha : a.FloatFree) (h : a.same b = true) : a = b := by
  have hlist {as bs : List Expr} (ih : List.Forall₂ (fun a b => a.FloatFree → a = b) as bs)
      (has : ∀ a ∈ as, a.FloatFree) : as = bs := by
    induction ih with
    | nil => rfl
    | cons hhead _ ih =>
        obtain ⟨ha, has⟩ := List.forall_mem_cons.mp has
        rw [hhead ha, ih has]
  revert ha
  apply sameInduction (motive := fun a b => a.FloatFree → a = b) (h := h)
  case lit =>
    intro m n hmn hfloat
    obtain ⟨k, rfl⟩ : ∃ k, m = .int k :=
      Literal.exists_of_isInt (by simpa [isFloat] using hfloat.self)
    cases n with
    | int j => exact congrArg (fun k => lit (.int k)) (of_decide_eq_true hmn)
    | float x => cases hmn
  case sym => exact fun _ _ => rfl
  case dim => exact fun _ _ => rfl
  case call => exact fun f _ _ _ ih hfloat => congrArg _ (hlist ih (allNodes_call.mp hfloat).2)
  case access => exact fun f _ _ _ ih hfloat => congrArg _ (hlist ih (allNodes_access.mp hfloat).2)
  case sum => exact fun _ ih hfloat => congrArg _ (hlist ih (allNodes_sum.mp hfloat).2)
  case prod => exact fun _ ih hfloat => congrArg _ (hlist ih (allNodes_prod.mp hfloat).2)
  case pow =>
    intro base exponent base' exponent' _ _ hbase hexponent hfloat
    obtain ⟨-, hb, he⟩ := allNodes_pow.mp hfloat
    rw [hbase hb, hexponent he]

end GridAccess.Expr
