import GridAccess.Proofs.Ascending
import GridAccess.Proofs.Expr.Search
import GridAccess.Proofs.Order

/-!
What the searches of an expression find. Nodes are listed with those inside them before them, and a
list of nodes from which repetitions are left out keeps this order, because the first of equal nodes
stays. What is found is compared with occurrences, which are defined along the paths from the root.
-/

namespace GridAccess

namespace Expr

/-! ### Occurrences -/

/-- `n` stands in the expression, as the expression itself or below it. -/
inductive Occurs (n : Expr) : Expr → Prop where
  | self : Occurs n n
  | inside {c e : Expr} : c ∈ e.children → Occurs n c → Occurs n e

/-- `n` stands in the expression at a place that is not inside the indices of an access. -/
inductive OccursOutside (n : Expr) : Expr → Prop where
  | self : OccursOutside n n
  | inside {c e : Expr} : e.access? = none → c ∈ e.children → OccursOutside n c → OccursOutside n e

theorem mem_nodes_iff {n e : Expr} : n ∈ e.nodes ↔ (∃ c ∈ e.children, n ∈ c.nodes) ∨ n = e := by
  rw [nodes_eq, List.mem_append, List.mem_flatMap, List.mem_singleton]

theorem mem_nodes_iff_occurs {n e : Expr} : n ∈ e.nodes ↔ Occurs n e := by
  constructor
  · intro h
    induction e using childInduction with
    | node e ih =>
        rcases mem_nodes_iff.mp h with ⟨c, hc, hn⟩ | rfl
        · exact .inside hc (ih c hc hn)
        · exact .self
  · intro h
    induction h with
    | self => exact self_mem_nodes n
    | inside hc _ ih => exact mem_nodes_iff.mpr (.inl ⟨_, hc, ih⟩)

theorem mem_outermost_iff {a : Access} {e : Expr} :
    a ∈ e.outermost ↔ OccursOutside a.toExpr e := by
  constructor
  · intro h
    induction e using childInduction with
    | node e ih =>
        rw [outermost_eq] at h
        cases haccess : e.access? with
        | some b =>
            rw [haccess] at h
            obtain rfl := List.mem_singleton.mp h
            obtain rfl := access?_eq_some_iff.mp haccess
            exact .self
        | none =>
            rw [haccess] at h
            obtain ⟨c, hc, ha⟩ := List.mem_flatMap.mp h
            exact .inside haccess hc (ih c hc ha)
  · intro h
    induction h with
    | self => exact List.mem_singleton.mpr rfl
    | inside haccess hc _ ih =>
        rw [outermost_eq, haccess]
        exact List.mem_flatMap.mpr ⟨_, hc, ih⟩

theorem hasAccess_iff {e : Expr} : e.hasAccess = true ↔ ∃ a : Access, Occurs a.toExpr e := by
  simp only [hasAccess, List.any_eq_true, Option.isSome_iff_exists, access?_eq_some_iff,
    mem_nodes_iff_occurs]
  constructor
  · rintro ⟨n, hn, a, rfl⟩
    exact ⟨a, hn⟩
  · rintro ⟨a, ha⟩
    exact ⟨_, ha, a, rfl⟩

/-- On the path to an access the first one is outermost. -/
theorem exists_occursOutside {a : Access} {e : Expr} (h : Occurs a.toExpr e) :
    ∃ b : Access, OccursOutside b.toExpr e := by
  induction h with
  | self => exact ⟨a, .self⟩
  | @inside c e hc _ ih =>
      cases haccess : e.access? with
      | some b => exact ⟨b, access?_eq_some_iff.mp haccess ▸ .self⟩
      | none =>
          obtain ⟨b, hb⟩ := ih
          exact ⟨b, .inside haccess hc hb⟩

theorem OccursOutside.occurs {n e : Expr} (h : OccursOutside n e) : Occurs n e := by
  induction h with
  | self => exact .self
  | inside _ hc _ ih => exact .inside hc ih

theorem outermost_eq_nil_iff (e : Expr) : e.outermost = [] ↔ e.hasAccess = false := by
  rw [List.eq_nil_iff_forall_not_mem, ← Bool.not_eq_true, hasAccess_iff, not_exists]
  simp only [mem_outermost_iff]
  constructor
  · intro h a ha
    obtain ⟨b, hb⟩ := exists_occursOutside ha
    exact h b hb
  · exact fun h a ha => h a ha.occurs

theorem outerAccesses_eq_nil_iff (e : Expr) : e.outerAccesses = [] ↔ e.hasAccess = false := by
  rw [← outermost_eq_nil_iff, outerAccesses]
  cases e.outermost with
  | nil => exact iff_of_true rfl rfl
  | cons a as => simp [List.eraseDups_cons]

/-! ### Order of the nodes -/

/-- What is inside a node stands before it. -/
def NodesInside (ns : List Expr) : Prop :=
  ∀ before n after, ns = before ++ n :: after → ∀ c ∈ n.children, ∀ m ∈ c.nodes, m ∈ before

theorem NodesInside.append {ms ns : List Expr} (hms : NodesInside ms) (hns : NodesInside ns) :
    NodesInside (ms ++ ns) := by
  intro before n after hsplit c hc m hm
  rcases List.append_eq_append_iff.mp hsplit with ⟨between, rfl, hrest⟩ | ⟨between, rfl, hrest⟩
  · exact List.mem_append_right ms (hns between n after hrest c hc m hm)
  · cases between with
    | nil =>
        have hfirst := hns [] n after (by simpa using hrest.symm) c hc m hm
        cases hfirst
    | cons k between =>
        obtain ⟨rfl, -⟩ := List.cons.inj hrest
        exact hms before n between rfl c hc m hm

theorem nodesInside_flatMap {es : List Expr} (h : ∀ e ∈ es, NodesInside e.nodes) :
    NodesInside (es.flatMap nodes) := by
  induction es with
  | nil =>
      intro before n after hsplit
      simp at hsplit
  | cons e es ih =>
      obtain ⟨he, hes⟩ := List.forall_mem_cons.mp h
      exact he.append (ih hes)

theorem nodesInside_nodes (e : Expr) : NodesInside e.nodes := by
  induction e using childInduction with
  | node e ih =>
      intro before n after hsplit c hc m hm
      rw [nodes_eq] at hsplit
      -- The last node is the expression itself, all others stand in the children.
      have hlast (hn : n = e) (hbefore : before = e.children.flatMap nodes) : m ∈ before := by
        subst hn
        exact hbefore ▸ List.mem_flatMap.mpr ⟨c, hc, hm⟩
      rcases List.append_eq_append_iff.mp hsplit with ⟨between, hbefore, hrest⟩ |
        ⟨between, hnodes, hrest⟩
      · cases between with
        | nil => exact hlast (List.cons.inj hrest).1.symm (by simpa using hbefore)
        | cons k between => simp at hrest
      · cases between with
        | nil => exact hlast (List.cons.inj hrest).1 (by simpa using hnodes.symm)
        | cons k between =>
            obtain ⟨rfl, -⟩ := List.cons.inj hrest
            exact nodesInside_flatMap ih before n between hnodes c hc m hm

end Expr

/-! ### What is found -/

section

variable {α : Type} [BEq α]

/-- The list has one of the things that occur of each kind, up to equality, and nothing else. -/
structure Enumerates (occurs : α → Prop) (found : List α) : Prop where
  sound : ∀ a ∈ found, occurs a
  complete : ∀ a, occurs a → ∃ b ∈ found, (a == b) = true
  once : found.Pairwise fun a b => (a == b) = false

theorem Enumerates.eraseDups [EquivBEq α] {occurs : α → Prop} {xs : List α}
    (h : ∀ a, a ∈ xs ↔ occurs a) : Enumerates occurs xs.eraseDups where
  sound a ha := (h a).mp (mem_of_mem_eraseDups ha)
  complete a ha := exists_mem_eraseDups ((h a).mpr ha)
  once := pairwise_eraseDups xs

theorem UseKind.enumerates (kind : UseKind α) (roots : List Expr) :
    Enumerates (fun a => ∃ e ∈ roots, Expr.Occurs (kind.toExpr a) e)
      ((roots.flatMap Expr.nodes).filterMap kind.ofExpr?).eraseDups := by
  have := kind.equivBEq
  refine .eraseDups fun a => ?_
  simp [kind.ofExpr?_eq_some_iff, Expr.mem_nodes_iff_occurs]

/-- What is inside a thing that is found has been found before it. -/
def InnerFirst (inside : α → α → Prop) (found : List α) : Prop :=
  ∀ before a after, found = before ++ a :: after →
    ∀ b, inside b a → ∃ c ∈ before, (b == c) = true

theorem UseKind.innerFirst (kind : UseKind α) {inside : α → α → Prop}
    (hinside : ∀ {a b}, inside b a → ∃ c ∈ (kind.toExpr a).children, kind.toExpr b ∈ c.nodes)
    {ns : List Expr} (h : Expr.NodesInside ns) :
    InnerFirst inside (ns.filterMap kind.ofExpr?).eraseDups := by
  have := kind.equivBEq
  intro before a after hfound b hb
  obtain ⟨xs, ys, hxs, hkept⟩ := exists_split_of_eraseDups hfound
  obtain ⟨ms, ms', rfl, rfl, hms'⟩ := List.filterMap_eq_append_iff.mp hxs
  obtain ⟨ks, n, ns, rfl, hks, hn, -⟩ := List.filterMap_eq_cons_iff.mp hms'
  obtain rfl := kind.ofExpr?_eq_some_iff.mp hn
  obtain ⟨c, hc, hbc⟩ := hinside hb
  have hmem := h (ms ++ ks) (kind.toExpr a) ns (by simp) c hc _ hbc
  have hself : kind.ofExpr? (kind.toExpr b) = some b := kind.ofExpr?_eq_some_iff.mpr rfl
  rcases List.mem_append.mp hmem with hmem | hmem
  · exact hkept b (List.mem_filterMap.mpr ⟨_, hmem, hself⟩)
  · cases (hks _ hmem).symm.trans hself

end

end GridAccess
