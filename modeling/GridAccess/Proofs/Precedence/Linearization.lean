import GridAccess.Proofs.Precedence.Graph
import Mathlib.Data.List.Perm.Subperm

/-!
Linearization finds the least linear extension, and fails only if there is a cycle.

After any number of steps the degrees count the direct predecessors that have not been taken, so
what is ready is what may come next. Hence the items are taken greedily, and if none is ready
before all are taken then each of those left over has a predecessor among them.
-/

namespace GridAccess

open Std Ascending

variable {α : Type} [Ord α]

/-- The items that directly precede `b`. -/
def PrecedenceGraph.predecessors (g : PrecedenceGraph α) (b : α) : List α :=
  (g.successors.filter fun entry => contains b entry.2).map Prod.fst

/-- How many direct predecessors of `b` have not been taken. -/
def PrecedenceGraph.pending (g : PrecedenceGraph α) (taken : List α) (b : α) : Nat :=
  (g.predecessors b).countP fun a => !contains a taken

namespace Linearization

variable {g : PrecedenceGraph α} {N : α → Prop} {R : α → α → Prop}

/-! ### Counting predecessors -/

section

variable [LawfulEqOrd α]

theorem countP_untaken_eq_zero_iff {taken xs : List α} :
    xs.countP (fun a => !contains a taken) = 0 ↔ ∀ a ∈ xs, a ∈ taken := by
  rw [List.countP_eq_zero]
  simp [contains_iff]

theorem countP_untaken_append_of_not_mem (taken : List α) {xs : List α} {a : α} (ha : a ∉ xs) :
    xs.countP (fun x => !contains x (taken ++ [a])) = xs.countP (fun x => !contains x taken) := by
  refine List.countP_congr fun x hx => ?_
  have hne : x ≠ a := fun h => ha (h ▸ hx)
  simp [← Bool.not_eq_true, contains_iff, hne]

/-- Taking an item leaves one pending predecessor less where it is one. -/
theorem countP_untaken_append_of_mem {taken xs : List α} {a : α} (hnodup : xs.Nodup)
    (ha : a ∈ xs) (hnew : a ∉ taken) :
    xs.countP (fun x => !contains x (taken ++ [a])) + 1 =
      xs.countP (fun x => !contains x taken) := by
  induction xs with
  | nil => cases ha
  | cons x xs ih =>
      obtain ⟨hx, hxs⟩ := List.nodup_cons.mp hnodup
      by_cases hxa : x = a
      · subst hxa
        have hold : contains x taken = false := by
          rw [Bool.eq_false_iff, ne_eq, contains_iff]
          exact hnew
        have htaken : contains x (taken ++ [x]) = true := contains_iff.mpr (by simp)
        rw [List.countP_cons, List.countP_cons, countP_untaken_append_of_not_mem taken hx, hold,
          htaken]
        simp
      · have hrest := ih hxs ((List.mem_cons.mp ha).resolve_left (Ne.symm hxa))
        have hsame : contains x (taken ++ [a]) = contains x taken := by
          rw [Bool.eq_iff_iff, contains_iff, contains_iff]
          simp [hxa]
        rw [List.countP_cons, List.countP_cons, hsame]
        omega

end

theorem pending_nil (g : PrecedenceGraph α) (b : α) : g.pending [] b = g.indegree b := by
  have hall : (fun a : α => !contains a []) = fun _ => true := rfl
  rw [PrecedenceGraph.pending, PrecedenceGraph.predecessors, PrecedenceGraph.indegree, hall,
    List.countP_true, List.length_map, List.countP_eq_length_filter]

theorem nodup_predecessors [TransOrd α] (h : g.Describes N N R) (b : α) :
    (g.predecessors b).Nodup :=
  h.successors_strict.nodup.sublist (List.filter_sublist.map _)

section

variable [LawfulEqOrd α]

theorem mem_predecessors (h : g.Describes N N R) {a b : α} : a ∈ g.predecessors b ↔ R a b := by
  rw [← h.mem_following]
  constructor
  · intro ha
    obtain ⟨⟨c, followers⟩, hentry, rfl⟩ := List.mem_map.mp ha
    obtain ⟨hentry, hb⟩ := List.mem_filter.mp hentry
    rw [PrecedenceGraph.following, get?_of_mem h.successors_strict hentry]
    exact contains_iff.mp hb
  · intro hb
    cases hget : get? a g.successors with
    | none => simp [PrecedenceGraph.following, hget] at hb
    | some followers =>
        rw [PrecedenceGraph.following, hget, Option.getD_some] at hb
        refine List.mem_map.mpr ⟨(a, followers), ?_, rfl⟩
        exact List.mem_filter.mpr ⟨mem_of_get?_eq_some hget, contains_iff.mpr hb⟩

theorem pending_eq_zero_iff (h : g.Describes N N R) {taken : List α} {b : α} :
    g.pending taken b = 0 ↔ ∀ a, R a b → a ∈ taken := by
  rw [PrecedenceGraph.pending, countP_untaken_eq_zero_iff]
  simp only [mem_predecessors h]

end

/-! ### Releasing what follows an item -/

/-- From `l` to `l'` each of `bs` has one pending predecessor less. -/
structure Released (l : Linearization α) (bs : List α) (l' : Linearization α) : Prop where
  taken_eq : l'.taken = l.taken
  ready_strict : Strict l.ready → Strict l'.ready
  degrees_strict : Strict (l'.degrees.map Prod.fst)
  degree_of_mem : ∀ c ∈ bs, get? c l'.degrees = (get? c l.degrees).map (· - 1)
  degree_of_not_mem : ∀ c, c ∉ bs → get? c l'.degrees = get? c l.degrees
  mem_ready : ∀ c, c ∈ l'.ready ↔ c ∈ l.ready ∨ (c ∈ bs ∧ get? c l'.degrees = some 0)

section

variable [TransOrd α] [LawfulEqOrd α]

theorem release_spec {l : Linearization α} (hl : Strict (l.degrees.map Prod.fst)) (b : α) :
    Released l [b] (l.release b) := by
  unfold release
  cases hb : get? b l.degrees with
  | none =>
      -- What has no degree is not among the items, and nothing is released.
      refine ⟨rfl, id, hl, ?_, fun _ _ => rfl, ?_⟩
      · intro c hc
        obtain rfl := List.mem_singleton.mp hc
        simp [hb]
      · intro c
        refine (or_iff_left ?_).symm
        rintro ⟨hc, hzero⟩
        obtain rfl := List.mem_singleton.mp hc
        simp [hb] at hzero
  | some degree =>
      have hkeys : Strict ((put b (degree - 1) l.degrees).map Prod.fst) := by
        rw [keys_put]
        exact strict_insert hl
      refine ⟨rfl, ?_, hkeys, ?_, ?_, ?_⟩
      · intro hready
        dsimp only
        split
        · exact strict_insert hready
        · exact hready
      · intro c hc
        obtain rfl := List.mem_singleton.mp hc
        simp [get?_put_self hl, hb]
      · intro c hc
        exact get?_put_of_ne fun h => hc (by simp [h])
      · intro c
        by_cases hc : c = b
        · subst hc
          simp only [get?_put_self hl, List.mem_singleton, true_and, Option.some.injEq]
          split
          · next hzero => simp [hzero]
          · next hzero => simp [hzero]
        · simp only [List.mem_singleton, hc, false_and, or_false]
          split
          · simp [hc]
          · rfl

theorem foldl_release_spec {l : Linearization α} (hl : Strict (l.degrees.map Prod.fst))
    {bs : List α} (hbs : bs.Nodup) : Released l bs (bs.foldl release l) := by
  induction bs generalizing l with
  | nil => exact ⟨rfl, id, hl, by simp, fun _ _ => rfl, by simp⟩
  | cons b bs ih =>
      obtain ⟨hb, hbs⟩ := List.nodup_cons.mp hbs
      have hfirst := release_spec hl b
      have hrest := ih hfirst.degrees_strict hbs
      -- No item is listed twice, so none loses a predecessor twice.
      have hne {c : α} (hc : c ∈ bs) : c ∉ [b] := by
        intro h
        exact hb (List.mem_singleton.mp h ▸ hc)
      refine ⟨hrest.taken_eq.trans hfirst.taken_eq,
        fun h => hrest.ready_strict (hfirst.ready_strict h), hrest.degrees_strict, ?_, ?_, ?_⟩
      · intro c hc
        rcases List.mem_cons.mp hc with rfl | hc
        · rw [List.foldl_cons, hrest.degree_of_not_mem c hb,
            hfirst.degree_of_mem c List.mem_cons_self]
        · rw [List.foldl_cons, hrest.degree_of_mem c hc, hfirst.degree_of_not_mem c (hne hc)]
      · intro c hc
        obtain ⟨hcb, hcbs⟩ := not_or.mp (fun h => hc (List.mem_cons.mpr h))
        rw [List.foldl_cons, hrest.degree_of_not_mem c hcbs,
          hfirst.degree_of_not_mem c (by simpa using hcb)]
      · intro c
        rw [List.foldl_cons, hrest.mem_ready, hfirst.mem_ready, List.mem_singleton, List.mem_cons]
        by_cases hc : c = b
        · subst hc
          simp [hrest.degree_of_not_mem c hb, hb]
        · simp [hc]

end

/-! ### Steps -/

/-- The degrees count the pending predecessors of all items, and those that may come next are
ready. -/
structure Consistent (g : PrecedenceGraph α) (N : α → Prop) (R : α → α → Prop)
    (l : Linearization α) : Prop where
  ready_strict : Strict l.ready
  degrees_strict : Strict (l.degrees.map Prod.fst)
  degree : ∀ b, N b → get? b l.degrees = some (g.pending l.taken b)
  mem_ready : ∀ a, a ∈ l.ready ↔ Ready N R l.taken a
  closed : ∀ a b, R a b → b ∈ l.taken → a ∈ l.taken

theorem step_eq_foldl {l : Linearization α} {a : α} {rest : List α} (hready : l.ready = a :: rest) :
    l.step g =
      (g.following a).foldl release { l with taken := l.taken ++ [a], ready := rest } := by
  unfold step
  rw [hready]

theorem step_of_ready_eq_nil {l : Linearization α} (hready : l.ready = []) : l.step g = l := by
  unfold step
  rw [hready]

theorem run_of_ready_eq_nil {l : Linearization α} (hready : l.ready = []) (n : Nat) :
    run g n l = l := by
  induction n with
  | zero => rfl
  | succ n ih => rw [run, step_of_ready_eq_nil hready, ih]

section

variable [LawfulEqOrd α]

theorem consistent_start (h : g.Describes N N R) : Consistent g N R (start g) where
  ready_strict := h.degrees_strict.sublist (List.filter_sublist.map _)
  degrees_strict := h.degrees_strict
  degree b hb := by
    rw [start, pending_nil]
    exact h.degree b hb
  mem_ready a := by
    have hready : a ∈ (start g).ready ↔ get? a g.degrees = some 0 := by
      constructor
      · intro ha
        obtain ⟨⟨b, degree⟩, hentry, rfl⟩ := List.mem_map.mp ha
        obtain ⟨hentry, hzero⟩ := List.mem_filter.mp hentry
        obtain rfl : degree = 0 := by simpa using hzero
        exact get?_of_mem h.degrees_strict hentry
      · intro ha
        refine List.mem_map.mpr ⟨(a, 0), ?_, rfl⟩
        exact List.mem_filter.mpr ⟨mem_of_get?_eq_some ha, by simp⟩
    rw [hready]
    constructor
    · intro hzero
      have ha : N a := (h.mem_degrees a).mp (get?_ne_none_iff.mp (by simp [hzero]))
      rw [h.degree a ha, ← pending_nil, Option.some.injEq, pending_eq_zero_iff h] at hzero
      exact ⟨ha, List.not_mem_nil, hzero⟩
    · intro ha
      rw [h.degree a ha.mem, ← pending_nil, Option.some.injEq, pending_eq_zero_iff h]
      exact ha.done_of_pred
  closed _ _ _ hb := absurd hb List.not_mem_nil

variable [TransOrd α]

section

variable {l : Linearization α} {a : α} {rest : List α}

theorem released_step (h : g.Describes N N R) (hl : Consistent g N R l)
    (hready : l.ready = a :: rest) :
    Released { l with taken := l.taken ++ [a], ready := rest } (g.following a) (l.step g) := by
  rw [step_eq_foldl hready]
  have hdegrees : Strict (l.degrees.map Prod.fst) := hl.degrees_strict
  exact foldl_release_spec (l := { l with taken := l.taken ++ [a], ready := rest }) hdegrees
    (h.following_strict a).nodup

theorem taken_step (h : g.Describes N N R) (hl : Consistent g N R l)
    (hready : l.ready = a :: rest) : (l.step g).taken = l.taken ++ [a] :=
  (released_step h hl hready).taken_eq

theorem degree_step (h : g.Describes N N R) (hl : Consistent g N R l)
    (hready : l.ready = a :: rest) {b : α} (hb : N b) :
    get? b (l.step g).degrees = some (g.pending (l.step g).taken b) := by
  have hreleased := released_step h hl hready
  have ha : Ready N R l.taken a := (hl.mem_ready a).mp (by simp [hready])
  rw [taken_step h hl hready]
  by_cases hab : R a b
  · have hcount := countP_untaken_append_of_mem (nodup_predecessors h b)
      ((mem_predecessors h).mpr hab) ha.not_done
    rw [hreleased.degree_of_mem b ((h.mem_following a b).mpr hab), hl.degree b hb,
      Option.map_some, PrecedenceGraph.pending, PrecedenceGraph.pending, ← hcount,
      Nat.add_sub_cancel]
  · have hcount := countP_untaken_append_of_not_mem l.taken (mt (mem_predecessors h).mp hab)
    rw [hreleased.degree_of_not_mem b (mt (h.mem_following a b).mp hab), hl.degree b hb]
    exact congrArg some hcount.symm

theorem mem_ready_step (h : g.Describes N N R) (hl : Consistent g N R l)
    (hready : l.ready = a :: rest) (c : α) :
    c ∈ (l.step g).ready ↔ Ready N R (l.step g).taken c := by
  have hreleased := released_step h hl hready
  have htaken := taken_step h hl hready
  have ha : Ready N R l.taken a := (hl.mem_ready a).mp (by simp [hready])
  have hstrict : Strict (a :: rest) := hready ▸ hl.ready_strict
  obtain ⟨ha_rest, -⟩ := List.nodup_cons.mp hstrict.nodup
  rw [hreleased.mem_ready, h.mem_following]
  constructor
  · rintro (hc | ⟨hac, hzero⟩)
    · -- It was ready before, and is not the item that has been taken.
      have hc' : Ready N R l.taken c := (hl.mem_ready c).mp (by simp [hready, hc])
      have hca : c ≠ a := fun heq => ha_rest (heq ▸ hc)
      refine ⟨hc'.mem, ?_, ?_⟩
      · simp [htaken, hc'.not_done, hca]
      · intro p hp
        simp [htaken, hc'.done_of_pred p hp]
    · -- The item that has been taken was the last one it waited for.
      have hc : N c := h.mem_of_edge a c hac
      rw [degree_step h hl hready hc, Option.some.injEq, pending_eq_zero_iff h] at hzero
      refine ⟨hc, ?_, hzero⟩
      rw [htaken, List.mem_append, List.mem_singleton]
      rintro (hc' | rfl)
      · exact ha.not_done (hl.closed a c hac hc')
      · exact ha.not_done (ha.done_of_pred c hac)
  · intro hc
    by_cases hac : R a c
    · refine .inr ⟨hac, ?_⟩
      rw [degree_step h hl hready hc.mem, Option.some.injEq, pending_eq_zero_iff h]
      exact hc.done_of_pred
    · -- It did not wait for the item that has been taken, so it was ready before.
      have hnot : c ∉ l.taken ∧ c ≠ a := by simpa [htaken] using hc.not_done
      have hc' : Ready N R l.taken c := by
        refine ⟨hc.mem, hnot.1, ?_⟩
        intro p hp
        have hp' : p ∈ l.taken ∨ p = a := by simpa [htaken] using hc.done_of_pred p hp
        apply hp'.resolve_right
        rintro rfl
        exact hac hp
      have hmem := (hl.mem_ready c).mpr hc'
      rw [hready] at hmem
      exact .inl ((List.mem_cons.mp hmem).resolve_left hnot.2)

end

theorem consistent_step (h : g.Describes N N R) {l : Linearization α} (hl : Consistent g N R l) :
    Consistent g N R (l.step g) := by
  cases hready : l.ready with
  | nil =>
      rw [step_of_ready_eq_nil hready]
      exact hl
  | cons a rest =>
      have hreleased := released_step h hl hready
      have hstrict : Strict (a :: rest) := hready ▸ hl.ready_strict
      refine ⟨hreleased.ready_strict (List.pairwise_cons.mp hstrict).2, hreleased.degrees_strict,
        fun b => degree_step h hl hready, mem_ready_step h hl hready, ?_⟩
      intro p b hp hb
      have ha : Ready N R l.taken a := (hl.mem_ready a).mp (by simp [hready])
      rw [taken_step h hl hready, List.mem_append, List.mem_singleton] at hb ⊢
      rcases hb with hb | rfl
      · exact .inl (hl.closed p b hp hb)
      · exact .inl (ha.done_of_pred p hp)

/-! ### Runs -/

/-- A run takes items greedily, one a step until none is ready. -/
theorem run_spec (h : g.Describes N N R) {l : Linearization α} (hl : Consistent g N R l) (n : Nat) :
    Consistent g N R (run g n l) ∧
      ∃ order, (run g n l).taken = l.taken ++ order ∧ Greedy N R l.taken order ∧
        (order.length = n ∨ (run g n l).ready = []) := by
  induction n generalizing l with
  | zero => exact ⟨hl, [], by simp [run], trivial, .inl rfl⟩
  | succ n ih =>
      cases hready : l.ready with
      | nil =>
          rw [run_of_ready_eq_nil hready]
          exact ⟨hl, [], by simp, trivial, .inr hready⟩
      | cons a rest =>
          obtain ⟨hfinal, order, htaken, hgreedy, hend⟩ := ih (consistent_step h hl)
          rw [taken_step h hl hready] at htaken hgreedy
          refine ⟨hfinal, a :: order, ?_, ⟨⟨?_, ?_⟩, hgreedy⟩, ?_⟩
          · simpa [run] using htaken
          · exact (hl.mem_ready a).mp (by simp [hready])
          · intro b hb
            have hmem := (hl.mem_ready b).mpr hb
            rw [hready] at hmem
            rcases List.mem_cons.mp hmem with rfl | hmem
            · simp
            · have hstrict : Strict (a :: rest) := hready ▸ hl.ready_strict
              rw [(List.pairwise_cons.mp hstrict).1 b hmem]
              rfl
          · simpa [run] using hend

theorem greedy_final (h : g.Describes N N R) : Greedy N R [] (final g).taken := by
  obtain ⟨-, order, htaken, hgreedy, -⟩ := run_spec h (consistent_start h) g.degrees.length
  have heq : (final g).taken = order := htaken
  rw [heq]
  exact hgreedy

theorem nodup_final (h : g.Describes N N R) : (final g).taken.Nodup :=
  (greedy_final h).nodup List.nodup_nil

theorem final_subset (h : g.Describes N N R) : (final g).taken ⊆ g.degrees.map Prod.fst := by
  intro a ha
  exact (h.mem_degrees a).mpr ((greedy_final h).mem a ha)

/-- A result of full length holds every item. -/
theorem mem_final (h : g.Describes N N R) (hlength : (final g).taken.length = g.degrees.length)
    {a : α} (ha : N a) : a ∈ (final g).taken := by
  have hsubperm := List.subperm_of_subset (nodup_final h) (final_subset h)
  have hperm := hsubperm.perm_of_length_le (by simp [hlength])
  exact hperm.mem_iff.mpr ((h.mem_degrees a).mpr ha)

/-- A shorter one leaves an item over. -/
theorem exists_not_mem_final (h : g.Describes N N R)
    (hlength : (final g).taken.length ≠ g.degrees.length) : ∃ a, N a ∧ a ∉ (final g).taken := by
  by_contra hnone
  have hsubset : g.degrees.map Prod.fst ⊆ (final g).taken := by
    intro a ha
    by_contra hnot
    exact hnone ⟨a, (h.mem_degrees a).mp ha, hnot⟩
  have hle := (List.subperm_of_subset (nodup_final h) (final_subset h)).length_le
  have hge := (List.subperm_of_subset h.degrees_strict.nodup hsubset).length_le
  rw [List.length_map] at hle hge
  exact hlength (Nat.le_antisymm hle hge)

/-- If items are left over, each of them has a predecessor among them. -/
theorem not_acyclic_of_length_ne (h : g.Describes N N R)
    (hlength : (final g).taken.length ≠ g.degrees.length) : ¬ Acyclic R := by
  intro hacyclic
  obtain ⟨hfinal, order, htaken, -, hend⟩ := run_spec h (consistent_start h) g.degrees.length
  have heq : (final g).taken = order := htaken
  have hready : (final g).ready = [] := hend.resolve_left (heq ▸ hlength)
  let leftover := (g.degrees.map Prod.fst).filter fun a => !contains a (final g).taken
  have mem_leftover (a : α) : a ∈ leftover ↔ N a ∧ a ∉ (final g).taken := by
    rw [List.mem_filter, h.mem_degrees]
    simp [← Bool.not_eq_true, contains_iff]
  obtain ⟨a, ha⟩ := exists_not_mem_final h hlength
  have hne : leftover ≠ [] := List.ne_nil_of_mem ((mem_leftover a).mpr ha)
  -- A least one among them has all its predecessors taken, and would be ready.
  obtain ⟨m, hm, hmin⟩ := hacyclic.exists_minimal hne
  obtain ⟨hm, hnot⟩ := (mem_leftover m).mp hm
  have hm_ready : Ready N R (final g).taken m := by
    refine ⟨hm, hnot, ?_⟩
    intro p hp
    by_contra hp_not
    exact hmin p ((mem_leftover p).mpr ⟨h.mem_of_edge_source hp, hp_not⟩) (.single hp)
  have hmem := (hfinal.mem_ready m).mpr hm_ready
  rw [show run g g.degrees.length (start g) = final g from rfl, hready] at hmem
  cases hmem

end

end Linearization

/-! ### Linearization of relations -/

section

variable [TransOrd α] [LawfulEqOrd α]

open Linearization PrecedenceGraph

theorem linearize_eq_ok_or_error (items : List α) (relations : List (List α)) :
    (∃ order, linearize items relations = .ok order ∧
      IsExtension (Mentioned items relations) (Precedes relations) order ∧
        Greedy (Mentioned items relations) (Precedes relations) [] order) ∨
      ((∃ culprits, linearize items relations = .error culprits) ∧
        ¬ Acyclic (Precedes relations)) := by
  have h := describes_ofRelations items relations
  by_cases hlength : (final (ofRelations items relations)).taken.length =
      (ofRelations items relations).degrees.length
  · refine .inl ⟨_, if_pos hlength, ?_, greedy_final h⟩
    exact (greedy_final h).isExtension (fun a ha => mem_final h hlength ha) h.mem_of_edge
  · exact .inr ⟨⟨_, if_neg hlength⟩, not_acyclic_of_length_ne h hlength⟩

/-- The result is the one extension that is taken greedily. -/
theorem linearize_eq_ok_iff {items : List α} {relations : List (List α)} {order : List α} :
    linearize items relations = .ok order ↔
      IsExtension (Mentioned items relations) (Precedes relations) order ∧
        Greedy (Mentioned items relations) (Precedes relations) [] order := by
  rcases linearize_eq_ok_or_error items relations with
    ⟨order', hok, hext', hgreedy'⟩ | ⟨⟨culprits, herror⟩, hcycle⟩
  · rw [hok, Except.ok.injEq]
    constructor
    · rintro rfl
      exact ⟨hext', hgreedy'⟩
    · rintro ⟨hext, hgreedy⟩
      have hle : (compare order order').isLE = true := hgreedy.compare_isLE hext'
      have hge : (compare order' order).isLE = true := hgreedy'.compare_isLE hext
      exact LawfulEqOrd.eq_of_compare (OrientedCmp.isLE_antisymm hge hle)
  · refine iff_of_false (by simp [herror]) ?_
    rintro ⟨hext, -⟩
    exact hcycle hext.acyclic

theorem linearize_congr {items items' : List α} {relations relations' : List (List α)}
    (hN : ∀ a, Mentioned items' relations' a ↔ Mentioned items relations a)
    (hR : ∀ a b, Precedes relations' a b ↔ Precedes relations a b) :
    linearize items' relations' = linearize items relations := by
  have hgraph : ofRelations items' relations' = ofRelations items relations :=
    (describes_ofRelations items' relations').unique
      ((describes_ofRelations items relations).congr hN hN hR)
  rw [linearize, linearize, hgraph]

/-- Without a cycle the answer is the lexicographically least linear extension, with one it is an
error; and it depends on what is mentioned and on what precedes what only. -/
theorem linearize_canonical (items : List α) (relations : List (List α)) :
    (Acyclic (Precedes relations) →
      ∃ order, linearize items relations = .ok order ∧
        IsExtension (Mentioned items relations) (Precedes relations) order ∧
        ∀ other, IsExtension (Mentioned items relations) (Precedes relations) other →
          (compare order other).isLE = true) ∧
    (¬ Acyclic (Precedes relations) →
      ∃ culprits, linearize items relations = .error culprits) ∧
    ∀ items' relations',
      (∀ a, Mentioned items' relations' a ↔ Mentioned items relations a) →
      (∀ a b, Precedes relations' a b ↔ Precedes relations a b) →
      linearize items' relations' = linearize items relations := by
  refine ⟨?_, ?_, fun items' relations' hN hR => linearize_congr hN hR⟩
  · intro hacyclic
    rcases linearize_eq_ok_or_error items relations with ⟨order, hok, hext, hgreedy⟩ | ⟨-, hcycle⟩
    · exact ⟨order, hok, hext, fun other hother => hgreedy.compare_isLE hother⟩
    · exact absurd hacyclic hcycle
  · intro hcycle
    rcases linearize_eq_ok_or_error items relations with ⟨order, -, hext, -⟩ | ⟨herror, -⟩
    · exact absurd hext.acyclic hcycle
    · exact herror

end

/-- An item that no relation mentions stands where its size puts it. -/
theorem linearize_canonical_unrelated_item :
    linearize [3] [[2, 1], [1, 4]] = .ok [2, 1, 3, 4] ∧
      ∀ other, IsExtension (Mentioned [3] [[2, 1], [1, 4]]) (Precedes [[2, 1], [1, 4]]) other →
        (compare [2, 1, 3, 4] other).isLE = true := by
  have hresult : linearize [3] [[2, 1], [1, 4]] = .ok [2, 1, 3, 4] := by rfl
  obtain ⟨hok, herror, -⟩ := linearize_canonical [3] [[2, 1], [1, 4]]
  have hacyclic : Acyclic (Precedes [[2, 1], [1, 4]]) := by
    by_contra hcycle
    obtain ⟨culprits, h⟩ := herror hcycle
    rw [hresult] at h
    cases h
  obtain ⟨order, h, -, hleast⟩ := hok hacyclic
  rw [hresult] at h
  obtain rfl := Except.ok.inj h
  exact ⟨hresult, hleast⟩

end GridAccess
