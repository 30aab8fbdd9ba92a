import GridAccess.Proofs.Precedence.Linearization

/-!
The books that linearization keeps, on graphs with and without cycles. At every round the degree of
an item is the number of its direct predecessors that have not been taken, the items of degree 0
that have not been taken are ready, and no item becomes ready a second time. Hence a degree that is
counted down is never 0.
-/

namespace GridAccess.Linearization

open Std Ascending
open PrecedenceGraph (ofRelations describes_ofRelations)

variable {α : Type} [Ord α]

/-- The items of `bs` that become ready while they are released one after the other. -/
def freed (l : Linearization α) : List α → List α
  | [] => []
  | b :: bs =>
    (if get? b (l.release b).degrees = some 0 then [b] else []) ++ (l.release b).freed bs

/-- The items that become ready in a step. -/
def freedByStep (g : PrecedenceGraph α) (l : Linearization α) : List α :=
  match l.ready with
  | [] => []
  | a :: rest => freed { l with taken := l.taken ++ [a], ready := rest } (g.following a)

/-- All that has become ready in the first `n` rounds, once for each time that it has. -/
def entered (g : PrecedenceGraph α) : Nat → List α
  | 0 => (start g).ready
  | n + 1 => entered g n ++ (run g n (start g)).freedByStep g

/-- What the books say at a round of the loop: `l` is the state, `entered` what has become ready
so far. -/
structure Kept (items : List α) (relations : List (List α)) (l : Linearization α)
    (entered : List α) : Prop where
  /-- A degree counts the different items that precede an item and have not been taken. -/
  degree : ∀ b, Mentioned items relations b → ∃ waiting : List α, waiting.Nodup ∧
    (∀ a, a ∈ waiting ↔ Precedes relations a b ∧ a ∉ l.taken) ∧
    get? b l.degrees = some waiting.length
  ready : ∀ b, b ∈ l.ready ↔ b ∉ l.taken ∧ get? b l.degrees = some 0
  entered_once : entered.Nodup
  mem_entered : ∀ b, b ∈ entered ↔ b ∈ l.taken ∨ b ∈ l.ready
  follower : ∀ a, ∀ b ∈ (ofRelations items relations).following a,
    ∃ degree, get? b l.degrees = some degree
  /-- When `b` is released, after the items that stand before it, its degree is not 0. -/
  released : ∀ a rest before b after, l.ready = a :: rest →
    (ofRelations items relations).following a = before ++ b :: after →
    ∃ degree, get? b (before.foldl release ⟨l.taken ++ [a], rest, l.degrees⟩).degrees =
      some (degree + 1)

variable {g : PrecedenceGraph α} {N : α → Prop} {R : α → α → Prop}

theorem run_succ (g : PrecedenceGraph α) (n : Nat) (l : Linearization α) :
    run g (n + 1) l = (run g n l).step g := by
  induction n generalizing l with
  | zero => rfl
  | succ n ih => rw [run, ih, run]

theorem freedByStep_of_ready_eq_nil {l : Linearization α} (hready : l.ready = []) :
    l.freedByStep g = [] := by
  unfold freedByStep
  rw [hready]

theorem freedByStep_eq_freed {l : Linearization α} {a : α} {rest : List α}
    (hready : l.ready = a :: rest) :
    l.freedByStep g =
      freed { l with taken := l.taken ++ [a], ready := rest } (g.following a) := by
  unfold freedByStep
  rw [hready]

theorem freed_sublist (l : Linearization α) (bs : List α) : (l.freed bs).Sublist bs := by
  induction bs generalizing l with
  | nil => exact List.Sublist.refl _
  | cons b bs ih =>
      rw [freed]
      split
      · exact (ih _).cons_cons b
      · exact (ih _).cons b

/-- What waits for an item that is ready is neither taken nor ready. -/
theorem Consistent.not_done_of_edge {l : Linearization α} (hl : Consistent g N R l) {a b : α}
    (ha : a ∈ l.ready) (hab : R a b) : b ∉ l.taken ∧ b ∉ l.ready := by
  have hnot : a ∉ l.taken := ((hl.mem_ready a).mp ha).not_done
  exact ⟨fun hb => hnot (hl.closed a b hab hb),
    fun hb => hnot (((hl.mem_ready b).mp hb).done_of_pred a hab)⟩

theorem Released.get?_eq_none_iff {l l' : Linearization α} {bs : List α} (h : Released l bs l')
    (c : α) : get? c l'.degrees = none ↔ get? c l.degrees = none := by
  by_cases hc : c ∈ bs
  · rw [h.degree_of_mem c hc, Option.map_eq_none_iff]
  · rw [h.degree_of_not_mem c hc]

variable [TransOrd α]

theorem nodup_freedByStep (h : g.Describes N N R) (l : Linearization α) :
    (l.freedByStep g).Nodup := by
  unfold freedByStep
  split
  · exact List.nodup_nil
  · next a _ _ => exact (h.following_strict a).nodup.sublist (freed_sublist _ _)

variable [LawfulEqOrd α]

theorem mem_freed {l : Linearization α} (hl : Strict (l.degrees.map Prod.fst)) {bs : List α}
    (hbs : bs.Nodup) {c : α} :
    c ∈ l.freed bs ↔ c ∈ bs ∧ get? c (bs.foldl release l).degrees = some 0 := by
  induction bs generalizing l with
  | nil => simp [freed]
  | cons b bs ih =>
      obtain ⟨hb, hbs⟩ := List.nodup_cons.mp hbs
      have hfirst := (release_spec hl b).degrees_strict
      have hrest := foldl_release_spec hfirst hbs
      rw [freed, List.mem_append, ih hfirst hbs, List.foldl_cons, List.mem_cons]
      by_cases hc : c = b
      · -- It is released once, so that the others leave its degree alone.
        subst hc
        rw [hrest.degree_of_not_mem c hb]
        split <;> simp_all
      · split <;> simp [hc]

section

variable {l : Linearization α} {a : α} {rest : List α}
  (h : g.Describes N N R) (hl : Consistent g N R l) (hready : l.ready = a :: rest)
include h hl hready

theorem mem_freedByStep {b : α} :
    b ∈ l.freedByStep g ↔ R a b ∧ get? b (l.step g).degrees = some 0 := by
  rw [freedByStep_eq_freed hready, step_eq_foldl hready, ← h.mem_following]
  exact mem_freed (l := { l with taken := l.taken ++ [a], ready := rest }) hl.degrees_strict
    (h.following_strict a).nodup

/-- The item that is taken is one of those that `b` waits for. -/
theorem exists_degree_of_split {before after : List α} {b : α}
    (hsplit : g.following a = before ++ b :: after) :
    ∃ degree, get? b (before.foldl release ⟨l.taken ++ [a], rest, l.degrees⟩).degrees =
      some (degree + 1) := by
  have hnodup : (before ++ b :: after).Nodup := hsplit ▸ (h.following_strict a).nodup
  have hbefore : before.Nodup := (List.nodup_append.mp hnodup).1
  have hb : b ∉ before := fun hmem => (List.nodup_append.mp hnodup).2.2 b hmem b (by simp) rfl
  have hab : R a b := (h.mem_following a b).mp (by simp [hsplit])
  have ha : a ∉ l.taken := ((hl.mem_ready a).mp (by simp [hready])).not_done
  have hreleased := foldl_release_spec (l := ⟨l.taken ++ [a], rest, l.degrees⟩) hl.degrees_strict
    hbefore
  have hcount := countP_untaken_append_of_mem (nodup_predecessors h b)
    ((mem_predecessors h).mpr hab) ha
  refine ⟨g.pending (l.taken ++ [a]) b, ?_⟩
  rw [hreleased.degree_of_not_mem b hb, hl.degree b (h.mem_of_edge a b hab),
    PrecedenceGraph.pending, PrecedenceGraph.pending, hcount]

end

/-! ### Rounds -/

section

variable (h : g.Describes N N R)
include h

theorem consistent_run (n : Nat) : Consistent g N R (run g n (start g)) :=
  (run_spec h (consistent_start h) n).1

/-- No item gets a degree on the way. -/
theorem get?_degrees_run_eq_none {b : α} (hb : ¬ N b) (n : Nat) :
    get? b (run g n (start g)).degrees = none := by
  induction n with
  | zero => exact h.get?_degrees_eq_none hb
  | succ n ih =>
      rw [run_succ]
      cases hready : (run g n (start g)).ready with
      | nil => rwa [step_of_ready_eq_nil hready]
      | cons a rest =>
          exact ((released_step h (consistent_run h n) hready).get?_eq_none_iff b).mpr ih

theorem mem_ready_run_iff (n : Nat) (b : α) :
    b ∈ (run g n (start g)).ready ↔
      b ∉ (run g n (start g)).taken ∧ get? b (run g n (start g)).degrees = some 0 := by
  have hl := consistent_run h n
  rw [hl.mem_ready]
  constructor
  · intro hb
    refine ⟨hb.not_done, ?_⟩
    rw [hl.degree b hb.mem, Option.some.injEq, pending_eq_zero_iff h]
    exact hb.done_of_pred
  · rintro ⟨hnot, hzero⟩
    have hb : N b := by
      by_contra hb
      rw [get?_degrees_run_eq_none h hb n] at hzero
      cases hzero
    rw [hl.degree b hb, Option.some.injEq, pending_eq_zero_iff h] at hzero
    exact ⟨hb, hnot, hzero⟩

/-- What has become ready has been taken or is still ready, and it became ready once. -/
theorem entered_spec (n : Nat) :
    (entered g n).Nodup ∧ ∀ b, b ∈ entered g n ↔
      b ∈ (run g n (start g)).taken ∨ b ∈ (run g n (start g)).ready := by
  induction n with
  | zero =>
      refine ⟨(consistent_start h).ready_strict.nodup, fun b => ?_⟩
      simp [entered, run, start]
  | succ n ih =>
      obtain ⟨hnodup, hmem⟩ := ih
      have hl := consistent_run h n
      rw [run_succ, entered]
      cases hready : (run g n (start g)).ready with
      | nil =>
          rw [freedByStep_of_ready_eq_nil hready, step_of_ready_eq_nil hready, List.append_nil]
          exact ⟨hnodup, hmem⟩
      | cons a rest =>
          have hnew {b : α} (hb : b ∈ (run g n (start g)).freedByStep g) : b ∉ entered g n := by
            rw [hmem, not_or]
            exact hl.not_done_of_edge (by simp [hready]) ((mem_freedByStep h hl hready).mp hb).1
          constructor
          · refine List.nodup_append.mpr ⟨hnodup, nodup_freedByStep h _, ?_⟩
            rintro b hb c hc rfl
            exact hnew hc hb
          · intro b
            rw [List.mem_append, hmem, mem_freedByStep h hl hready, taken_step h hl hready,
              (released_step h hl hready).mem_ready, hready, h.mem_following, List.mem_append,
              List.mem_singleton, List.mem_cons]
            simp only [or_assoc]

theorem exists_waiting {l : Linearization α} (hl : Consistent g N R l) {b : α} (hb : N b) :
    ∃ waiting : List α, waiting.Nodup ∧ (∀ a, a ∈ waiting ↔ R a b ∧ a ∉ l.taken) ∧
      get? b l.degrees = some waiting.length := by
  refine ⟨(g.predecessors b).filter fun a => !contains a l.taken,
    (nodup_predecessors h b).filter _, fun a => ?_, ?_⟩
  · rw [List.mem_filter, mem_predecessors h]
    simp [← Bool.not_eq_true, contains_iff]
  · rw [hl.degree b hb, PrecedenceGraph.pending, List.countP_eq_length_filter]

end

/-- The books are right at every round, whatever the relations are. -/
theorem kept_at_every_round (items : List α) (relations : List (List α)) (n : Nat) :
    Kept items relations (run (ofRelations items relations) n (start (ofRelations items relations)))
      (entered (ofRelations items relations) n) := by
  have h := describes_ofRelations items relations
  have hl := consistent_run h n
  obtain ⟨hnodup, hmem⟩ := entered_spec h n
  exact {
    degree := fun b hb => exists_waiting h hl hb
    ready := mem_ready_run_iff h n
    entered_once := hnodup
    mem_entered := hmem
    follower := fun a b hb => ⟨_, hl.degree b (h.mem_of_edge a b ((h.mem_following a b).mp hb))⟩
    released := fun _ _ _ _ _ hready => exists_degree_of_split h hl hready }

/-- Two items on a cycle behind a common predecessor, which is repeated in its relation, and an item
that no relation mentions. -/
def stranding : List (List Nat) := [[0, 1], [1, 2], [2, 1], [0, 0, 2]]

/-- When nothing is ready any more, the items on the cycle wait for each other and for nothing
else. -/
theorem kept_at_every_round_stranding :
    (run (ofRelations [6] stranding) 2 (start (ofRelations [6] stranding))).taken = [0, 6] ∧
    (run (ofRelations [6] stranding) 2 (start (ofRelations [6] stranding))).degrees =
      [(0, 0), (1, 1), (2, 1), (6, 0)] ∧
    (entered (ofRelations [6] stranding) 2).Nodup ∧
    ∃ waiting : List Nat, (∀ a, a ∈ waiting ↔ Precedes stranding a 1 ∧ a ∉ [0, 6]) ∧
      waiting.length = 1 := by
  have hkept := kept_at_every_round [6] stranding 2
  have htaken : (run (ofRelations [6] stranding) 2 (start (ofRelations [6] stranding))).taken =
      [0, 6] := by rfl
  have hdegrees : (run (ofRelations [6] stranding) 2
      (start (ofRelations [6] stranding))).degrees = [(0, 0), (1, 1), (2, 1), (6, 0)] := by rfl
  obtain ⟨waiting, -, hmem, hlength⟩ :=
    hkept.degree 1 (.inr ⟨[0, 1], by decide, by decide⟩)
  rw [htaken] at hmem
  rw [hdegrees] at hlength
  exact ⟨htaken, hdegrees, hkept.entered_once, waiting, hmem, (Option.some.inj hlength).symm⟩

end GridAccess.Linearization
