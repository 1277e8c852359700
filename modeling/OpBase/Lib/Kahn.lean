import Mathlib

/-!
# Topological sorting by in-degree elimination

Nodes `0 … n - 1`, `succ u` the targets of the edges out of `u`, one entry per
edge. A table holds how many edges each node still waits for; a node that waits
for none goes to the work list, and a node taken from there releases its edges.
Where a node enters the work list is left open: in front it is a stack, at the
end a queue, and every result but the last section's holds for both.

The table may start above the true in-degrees, by `r v` at node `v`.

> `Swept.order_length_iff`: the sweep reaches every node if and only if no node starts
> too high and the graph has no cycle.
>
> `Swept.idxOf_lt`: along every edge into a node that was reached, the source
> stands first.
>
> `queue_order_eq`: with a queue, the order is the one list that names the nodes
> without incoming edges first and then each edge target at its last mention.
-/

namespace OpBase.Lib.Kahn

open List

/-- A sweep in progress: the table, the work, and the nodes taken from it so far. -/
structure Sweep where
  deg : List Int
  work : List Nat
  order : List Nat
deriving DecidableEq, Repr

variable (put : Nat → List Nat → List Nat) (succ : Nat → List Nat)

/-- One edge into `v` is gone. -/
def release (s : List Int × List Nat) (v : Nat) : List Int × List Nat :=
  let deg := s.1.modify v (· - 1)
  (deg, if deg.getD v 0 = 0 then put v s.2 else s.2)

/-- The nodes that wait for nothing, in ascending order. -/
def ready (n : Nat) (deg : List Int) : List Nat :=
  (List.range n).filter fun v => deg.getD v 0 = 0

def sweep : Nat → Sweep → Sweep
  | 0, s => s
  | fuel + 1, s =>
    match s.work with
    | [] => s
    | v :: work =>
      let s' := (succ v).foldl (release put) (s.deg, work)
      sweep fuel ⟨s'.1, s'.2, s.order ++ [v]⟩

/-! ## Edges -/

/-- There is an edge from `u` to `v`. -/
def Edge (n : Nat) (u v : Nat) : Prop := u < n ∧ v ∈ succ u

def Acyclic (n : Nat) : Prop := ∀ u, ¬ Relation.TransGen (Edge succ n) u u

/-- The targets of all edges out of nodes that are not in `order`. -/
def pending (n : Nat) (order : List Nat) : List Nat :=
  ((List.range n).filter (· ∉ order)).flatMap succ

variable {succ} {v : Nat}

theorem mem_pending {n : Nat} {order : List Nat} :
    v ∈ pending succ n order ↔ ∃ u, Edge succ n u v ∧ u ∉ order := by
  unfold pending Edge
  simp only [mem_flatMap, mem_filter, mem_range, decide_eq_true_eq]
  constructor
  · intro ⟨u, ⟨hu, hnot⟩, hv⟩
    exact ⟨u, ⟨hu, hv⟩, hnot⟩
  · intro ⟨u, ⟨hu, hv⟩, hnot⟩
    exact ⟨u, ⟨hu, hnot⟩, hv⟩

/-- Taking `u` moves its edges out of the pending ones. -/
theorem pending_perm {n u : Nat} {order : List Nat} (hu : u < n) (hnot : u ∉ order) :
    (pending succ n order).Perm (succ u ++ pending succ n (order ++ [u])) := by
  have hperm : ((List.range n).filter (· ∉ order)).Perm
      (u :: (List.range n).filter (· ∉ order ++ [u])) := by
    refine (perm_ext_iff_of_nodup (nodup_range.filter _) ?_).mpr fun a => ?_
    · refine nodup_cons.mpr ⟨?_, nodup_range.filter _⟩
      simp
    · simp only [mem_cons, mem_filter, mem_range, mem_append, decide_eq_true_eq]
      by_cases ha : a = u
      · subst ha; simp [hu, hnot]
      · simp [ha]
  exact hperm.flatMap_right succ

theorem Edge.lt {n u : Nat} (hsucc : ∀ u < n, ∀ v ∈ succ u, v < n) (h : Edge succ n u v) : v < n :=
  hsucc u h.1 v h.2

theorem Acyclic.induction {n : Nat} (h : Acyclic succ n) {P : Nat → Prop}
    (step : ∀ v < n, (∀ u, Edge succ n u v → P u) → P v) (v : Nat) (hv : v < n) : P v := by
  let E : Fin n → Fin n → Prop := fun a b => Edge succ n a b
  have hirrefl : ∀ a, ¬ Relation.TransGen E a a := fun a ha =>
    h a (ha.lift (fun a : Fin n => (a : Nat)) fun _ _ hab => hab)
  have : IsTrans (Fin n) (Relation.TransGen E) := ⟨fun _ _ _ => Relation.TransGen.trans⟩
  have : Std.Irrefl (Relation.TransGen E) := ⟨hirrefl⟩
  have hwf : WellFounded (Relation.TransGen E) := Finite.wellFounded_of_trans_of_irrefl _
  have hall : ∀ a : Fin n, P a := fun a => hwf.induction (C := fun a => P a) a fun b ih =>
    step b b.isLt fun u hu => ih ⟨u, hu.1⟩ (Relation.TransGen.single hu)
  exact hall ⟨v, hv⟩

/-! ## The table and the work list -/

variable {deg : List Int}

theorem getD_modify {t : Nat} (f : Int → Int) (ht : t < deg.length) :
    (deg.modify t f).getD v 0 = if v = t then f (deg.getD t 0) else deg.getD v 0 := by
  rw [getD_eq_getElem?_getD, getElem?_modify]
  by_cases h : v = t
  · subst h
    simp [getD_eq_getElem?_getD, ht]
  · rw [if_neg h, getD_eq_getElem?_getD]
    simp [Ne.symm h]

/-- With the edges `pend` still to be released, the table counts them and a node
counts zero exactly if it was reached. -/
structure Frontier (n : Nat) (r : Nat → Int) (pend order : List Nat)
    (s : List Int × List Nat) : Prop where
  length : s.1.length = n
  nodup : (order ++ s.2).Nodup
  lt : ∀ v ∈ order ++ s.2, v < n
  deg : ∀ v < n, s.1.getD v 0 = r v + (pend.count v : Int)
  zero : ∀ v < n, s.1.getD v 0 = 0 ↔ v ∈ order ++ s.2

variable {put} {n : Nat} {r : Nat → Int}

variable {pend order : List Nat}

/-- One link less: its target becomes ready if that was the last one it waited for. -/
theorem Frontier.release {t : Nat} {s : List Int × List Nat}
    (hput : ∀ v w, (put v w).Perm (v :: w)) (hr : ∀ v, 0 ≤ r v) (ht : t < n)
    (h : Frontier n r (t :: pend) order s) : Frontier n r pend order (release put s t) := by
  have htl : t < s.1.length := h.length ▸ ht
  have hget : ∀ v, (s.1.modify t (· - 1)).getD v 0
      = if v = t then s.1.getD t 0 - 1 else s.1.getD v 0 := fun v => getD_modify _ htl
  have hdeg : ∀ v < n, (s.1.modify t (· - 1)).getD v 0 = r v + (pend.count v : Int) := by
    intro v hv
    rw [hget]
    by_cases hvt : v = t
    · subst hvt
      rw [if_pos rfl, h.deg v hv, count_cons_self]
      omega
    · rw [if_neg hvt, h.deg v hv, count_cons_of_ne (Ne.symm hvt)]
  -- the edge into `t` was pending, so `t` was not reached before
  have hout : t ∉ order ++ s.2 := by
    intro hmem
    have h0 := (h.zero t ht).mpr hmem
    have h1 := h.deg t ht
    rw [count_cons_self] at h1
    have := hr t
    omega
  unfold Kahn.release
  by_cases h0 : (s.1.modify t (· - 1)).getD t 0 = 0
  · simp only [h0, if_true]
    have hperm : (order ++ put t s.2).Perm (t :: (order ++ s.2)) :=
      ((hput t s.2).append_left order).trans perm_middle
    refine ⟨by rw [length_modify]; exact h.length, ?_, ?_, hdeg, ?_⟩
    · exact hperm.nodup_iff.mpr (nodup_cons.mpr ⟨hout, h.nodup⟩)
    · intro v hv
      rcases mem_cons.mp (hperm.mem_iff.mp hv) with rfl | hv
      · exact ht
      · exact h.lt v hv
    · intro v hv
      rw [hperm.mem_iff, mem_cons]
      by_cases hvt : v = t
      · subst hvt; exact iff_of_true h0 (Or.inl rfl)
      · rw [hget, if_neg hvt, h.zero v hv]
        simp [hvt]
  · simp only [if_neg h0]
    refine ⟨by rw [length_modify]; exact h.length, h.nodup, h.lt, hdeg, ?_⟩
    intro v hv
    by_cases hvt : v = t
    · subst hvt
      exact iff_of_false h0 hout
    · rw [hget, if_neg hvt]
      exact h.zero v hv

theorem Frontier.releases (hput : ∀ v w, (put v w).Perm (v :: w)) (hr : ∀ v, 0 ≤ r v) :
    ∀ (ts : List Nat) {s : List Int × List Nat}, (∀ t ∈ ts, t < n) →
      Frontier n r (ts ++ pend) order s → Frontier n r pend order (ts.foldl (Kahn.release put) s)
  | [], _, _, h => h
  | t :: ts, _, hts, h => by
    refine Frontier.releases hput hr ts (fun x hx => hts x (mem_cons_of_mem _ hx)) ?_
    exact h.release hput hr (hts t mem_cons_self)

/-- No vertex is taken twice, so there are at most `n`. -/
theorem Frontier.length_le {s : List Int × List Nat}
    (h : Frontier n r pend order s) : (order ++ s.2).length ≤ n := by
  have hsub : (order ++ s.2) ⊆ List.range n := fun v hv => mem_range.mpr (h.lt v hv)
  simpa using (subperm_of_subset h.nodup hsub).length_le

theorem Frontier.take {work order : List Nat}
    (h : Frontier n r (pending succ n order) order (deg, v :: work)) :
    Frontier n r (succ v ++ pending succ n (order ++ [v])) (order ++ [v]) (deg, work) := by
  have hsplit : order ++ v :: work = (order ++ [v]) ++ work := by simp
  have hv : v < n := h.lt v (by simp)
  have hnot : v ∉ order := fun hmem =>
    (nodup_append.mp h.nodup).2.2 v hmem v mem_cons_self rfl
  refine ⟨h.length, hsplit ▸ h.nodup, fun u hu => h.lt u (hsplit ▸ hu), ?_, ?_⟩
  · intro u hu
    rw [← (pending_perm hv hnot).count_eq]
    exact h.deg u hu
  · intro u hu
    rw [← hsplit]
    exact h.zero u hu

/-! ## The invariant of the sweep -/

/-- Every node stands behind all its predecessors. -/
def Sorted (succ : Nat → List Nat) (n : Nat) (order : List Nat) : Prop :=
  ∀ pre v post, order = pre ++ v :: post → ∀ u, Edge succ n u v → u ∈ pre

theorem Sorted.snoc {order : List Nat} (h : Sorted succ n order)
    (hv : ∀ u, Edge succ n u v → u ∈ order) : Sorted succ n (order ++ [v]) := by
  intro pre w post heq u hu
  rcases eq_nil_or_concat post with rfl | ⟨post, z, rfl⟩
  · obtain ⟨rfl, hw⟩ := append_inj' heq rfl
    obtain rfl : v = w := by simpa using hw
    exact hv u hu
  · have heq' : order ++ [v] = (pre ++ w :: post) ++ [z] := by simpa using heq
    exact h pre w post (append_inj' heq' rfl).1 u hu

structure Sound (succ : Nat → List Nat) (n : Nat) (r : Nat → Int) (s : Sweep) : Prop where
  frontier : Frontier n r (pending succ n s.order) s.order (s.deg, s.work)
  sorted : Sorted succ n s.order

/-- The table of a sweep about to start. -/
structure Counts (succ : Nat → List Nat) (n : Nat) (r : Nat → Int) (deg : List Int) : Prop where
  length : deg.length = n
  count : ∀ v < n, deg.getD v 0 = r v + ((pending succ n []).count v : Int)

theorem mem_ready : v ∈ ready n deg ↔ v < n ∧ deg.getD v 0 = 0 := by
  unfold ready
  rw [mem_filter, mem_range, decide_eq_true_eq]

theorem Counts.sound (h : Counts succ n r deg) : Sound succ n r ⟨deg, ready n deg, []⟩ := by
  refine ⟨⟨h.length, nodup_range.filter _, fun v hv => (mem_ready.mp hv).1, h.count, ?_⟩, ?_⟩
  · intro v hv
    exact ⟨fun h0 => mem_ready.mpr ⟨hv, h0⟩, fun hmem => (mem_ready.mp hmem).2⟩
  · intro pre v post heq
    simp at heq

section Run

variable (hput : ∀ v w, (put v w).Perm (v :: w)) (hr : ∀ v, 0 ≤ r v)
  (hsucc : ∀ u < n, ∀ v ∈ succ u, v < n)
include hput hr hsucc

/-- Taking a vertex and releasing its successors keeps the invariant. -/
theorem Sound.step {deg : List Int} {work order : List Nat}
    (h : Sound succ n r ⟨deg, v :: work, order⟩) :
    Sound succ n r ⟨((succ v).foldl (release put) (deg, work)).1,
      ((succ v).foldl (release put) (deg, work)).2, order ++ [v]⟩ := by
  have hv : v < n := h.frontier.lt v (by simp)
  refine ⟨(h.frontier.take).releases hput hr _ (hsucc v hv), h.sorted.snoc ?_⟩
  -- `v` counts zero, so no edge into it is pending
  have hzero : deg.getD v 0 = 0 := (h.frontier.zero v hv).mpr (by simp)
  have hcount := h.frontier.deg v hv
  have hrv := hr v
  have hnot : v ∉ pending succ n order := count_eq_zero.mp (by simp only at hcount; omega)
  intro u hu
  by_contra hout
  exact hnot (mem_pending.mpr ⟨u, hu, hout⟩)

theorem sweep_sound : ∀ (fuel : Nat) {s : Sweep}, Sound succ n r s →
    Sound succ n r (sweep put succ fuel s)
  | 0, _, h => h
  | fuel + 1, ⟨deg, work, order⟩, h => by
    match work, h with
    | [], h => exact h
    | v :: work, h => exact sweep_sound fuel (h.step hput hr hsucc)

/-- Each round takes a node, so `n` rounds leave no work. -/
theorem sweep_work : ∀ (fuel : Nat) {s : Sweep}, Sound succ n r s → n ≤ s.order.length + fuel →
    (sweep put succ fuel s).work = []
  | 0, ⟨deg, work, order⟩, h, hlen => by
    have hle := h.frontier.length_le
    simp only [length_append] at hle hlen
    have hwork : work.length = 0 := by omega
    exact eq_nil_of_length_eq_zero hwork
  | fuel + 1, ⟨deg, work, order⟩, h, hlen => by
    match work, h with
    | [], h => rfl
    | v :: work, h =>
      refine sweep_work fuel (h.step hput hr hsucc) ?_
      simp only [length_append, length_singleton] at hlen ⊢
      omega

end Run

/-! ## What a finished sweep says -/

structure Swept (succ : Nat → List Nat) (n : Nat) (r : Nat → Int) (s : Sweep) : Prop
    extends Sound succ n r s where
  done : s.work = []

/-- The sweep ends with nothing left that is ready. -/
theorem Counts.swept (hput : ∀ v w, (put v w).Perm (v :: w)) (hr : ∀ v, 0 ≤ r v)
    (hsucc : ∀ u < n, ∀ v ∈ succ u, v < n) (h : Counts succ n r deg) :
    Swept succ n r (sweep put succ n ⟨deg, ready n deg, []⟩) :=
  ⟨sweep_sound hput hr hsucc n h.sound, sweep_work hput hr hsucc n h.sound (by simp)⟩

variable {s : Sweep} {L : List Nat}

section

variable (h : Swept succ n r s)
include h

theorem Swept.nodup : s.order.Nodup :=
  (nodup_append.mp h.frontier.nodup).1

theorem Swept.lt : ∀ v ∈ s.order, v < n := fun v hv =>
  h.frontier.lt v (mem_append_left _ hv)

theorem Swept.mem_iff (hv : v < n) :
    v ∈ s.order ↔ r v + ((pending succ n s.order).count v : Int) = 0 := by
  have hz := h.frontier.zero v hv
  rw [h.frontier.deg v hv, h.done, append_nil] at hz
  exact hz.symm

/-- The start of a link is placed before its end. -/
theorem Swept.idxOf_lt {u : Nat} (he : Edge succ n u v) (hv : v ∈ s.order) :
    s.order.idxOf u < s.order.idxOf v := by
  obtain ⟨pre, post, heq⟩ := append_of_mem hv
  have hu : u ∈ pre := h.sorted pre v post heq u he
  have hnot : v ∉ pre := by
    have hnd := h.nodup
    rw [heq] at hnd
    exact fun hmem => (nodup_append.mp hnd).2.2 v hmem v mem_cons_self rfl
  rw [heq, idxOf_append_of_mem hu, idxOf_append_of_notMem hnot]
  have := idxOf_lt_length_iff.mpr hu
  omega

theorem Swept.deg_nonneg (hr : ∀ v, 0 ≤ r v) (v : Nat) :
    0 ≤ s.deg.getD v 0 := by
  by_cases hv : v < n
  · have := h.frontier.deg v hv
    have := hr v
    simp only at *
    omega
  · rw [getD_eq_getElem?_getD, getElem?_eq_none (by rw [h.frontier.length]; omega)]
    exact Int.le_refl 0

/-- The order is one of all vertices just when it is long enough. -/
theorem Swept.perm_iff :
    s.order.Perm (List.range n) ↔ s.order.length = n := by
  constructor
  · intro hp
    rw [hp.length_eq, length_range]
  · intro hlen
    have hsub : s.order ⊆ List.range n := fun v hv => mem_range.mpr (h.lt v hv)
    exact (subperm_of_subset h.nodup hsub).perm_of_length_le (by simp [hlen])

/-- All vertices are placed just when the counts were right and no vertex leads back to itself. -/
theorem Swept.order_length_iff (hr : ∀ v, 0 ≤ r v)
    (hsucc : ∀ u < n, ∀ v ∈ succ u, v < n) :
    s.order.length = n ↔ (∀ v < n, r v = 0) ∧ Acyclic succ n := by
  rw [← h.perm_iff]
  constructor
  · intro hperm
    have hmem : ∀ v < n, v ∈ s.order := fun v hv => hperm.mem_iff.mpr (mem_range.mpr hv)
    refine ⟨fun v hv => ?_, fun u hcycle => ?_⟩
    · have := (h.mem_iff hv).mp (hmem v hv)
      have := hr v
      omega
    -- Along a cycle the positions in the order would grow for ever.
    · have hlt : ∀ {a b}, Relation.TransGen (Edge succ n) a b →
          s.order.idxOf a < s.order.idxOf b := by
        intro a b hab
        induction hab with
        | single e => exact h.idxOf_lt e (hmem _ (e.lt hsucc))
        | tail _ e ih => exact ih.trans (h.idxOf_lt e (hmem _ (e.lt hsucc)))
      exact Nat.lt_irrefl _ (hlt hcycle)
  · intro ⟨hzero, hacyclic⟩
    -- Every vertex is placed: by induction along the edges, its predecessors are.
    have hmem : ∀ v < n, v ∈ s.order := hacyclic.induction fun v hv ih => by
      have hnot : v ∉ pending succ n s.order := fun hp => by
        obtain ⟨u, he, hout⟩ := mem_pending.mp hp
        exact hout (ih u he)
      rw [h.mem_iff hv, hzero v hv, count_eq_zero.mpr hnot]
      rfl
    exact (perm_ext_iff_of_nodup h.nodup nodup_range).mpr fun v =>
      ⟨fun hv => mem_range.mpr (h.lt v hv), fun hv => hmem v (mem_range.mp hv)⟩

/-! ## The order of a queue -/

end

theorem dedup_append_filter : ∀ (xs ys : List Nat),
    (xs ++ ys).dedup = (xs.filter (· ∉ ys)).dedup ++ ys.dedup
  | [], ys => rfl
  | x :: xs, ys => by
    have ih := dedup_append_filter xs ys
    rw [cons_append]
    by_cases hy : x ∈ ys
    · rw [dedup_cons_of_mem (mem_append_right _ hy), filter_cons_of_neg (by simpa),
        ih]
    · rw [filter_cons_of_pos (by simpa)]
      by_cases hx : x ∈ xs
      · rw [dedup_cons_of_mem (mem_append_left _ hx),
          dedup_cons_of_mem (mem_filter.mpr ⟨hx, by simpa⟩), ih]
      · rw [dedup_cons_of_notMem (by simp [hx, hy]),
          dedup_cons_of_notMem fun hmem => hx (mem_filter.mp hmem).1, ih,
          cons_append]

/-- The nodes without incoming edges. -/
def sources (succ : Nat → List Nat) (n : Nat) : List Nat :=
  (List.range n).filter (· ∉ pending succ n [])

/-- The nodes in breadth-first order: the sources, then every edge target at the
place where it is mentioned last. -/
structure BreadthFirst (succ : Nat → List Nat) (n : Nat) (order : List Nat) : Prop where
  perm : order.Perm (List.range n)
  eq : order = sources succ n ++ (order.flatMap succ).dedup

/-- The reached nodes of a queue, after the edges `past` and before the edges `pend`. -/
def Queued (succ : Nat → List Nat) (n : Nat) (past pend : List Nat) (reached : List Nat) : Prop :=
  reached = sources succ n ++ (past.filter (· ∉ pend)).dedup

/-- A vertex whose last producer is the one at hand is queued behind those that are ready
already. -/
theorem Queued.release {past pend order : List Nat} {t : Nat} {s : List Int × List Nat}
    (hf : Frontier n (fun _ => 0) (t :: pend) order s) (ht : t < n)
    (h : Queued succ n past (t :: pend) (order ++ s.2)) :
    Queued succ n (past ++ [t]) pend
      (order ++ (Kahn.release (fun v w => w ++ [v]) s t).2) := by
  have hdeg : (s.1.modify t (· - 1)).getD t 0 = (pend.count t : Int) := by
    rw [getD_modify _ (hf.length ▸ ht), if_pos rfl, hf.deg t ht, count_cons_self]
    omega
  unfold Queued at *
  unfold Kahn.release
  dsimp only
  rw [hdeg]
  by_cases hmem : t ∈ pend
  · -- `t` still waits: the queue stays, and `t` is not at its last mention
    have hne : pend.count t ≠ 0 := fun h0 => count_eq_zero.mp h0 hmem
    rw [if_neg (by omega), h, filter_append]
    have hkeep : past.filter (· ∉ t :: pend) = past.filter (· ∉ pend) := by
      refine filter_congr fun x _ => ?_
      by_cases hx : x = t
      · subst hx; simp [hmem]
      · simp [hx]
    rw [hkeep, filter_cons_of_neg (by simpa), filter_nil, append_nil]
  · -- the last edge into `t`: it enters the queue, and this is its last mention
    have h0 : pend.count t = 0 := count_eq_zero.mpr hmem
    have hlast : (past.filter (· ∉ pend)).filter (· ∉ [t]) = past.filter (· ∉ t :: pend) := by
      rw [filter_filter]
      refine filter_congr fun x _ => ?_
      simp [not_or]
    rw [if_pos (by rw [h0]; rfl), ← append_assoc, h, append_assoc, filter_append,
      filter_cons_of_pos (by simpa), filter_nil, dedup_append_filter, hlast]
    rfl

theorem append_perm (v : Nat) (w : List Nat) : (w ++ [v]).Perm (v :: w) :=
  perm_append_singleton v w

theorem Queued.releases : ∀ (ts : List Nat) {past : List Nat}
    {s : List Int × List Nat}, (∀ t ∈ ts, t < n) →
    Frontier n (fun _ => 0) (ts ++ pend) order s → Queued succ n past (ts ++ pend) (order ++ s.2) →
    Queued succ n (past ++ ts) pend (order ++ (ts.foldl (Kahn.release fun v w => w ++ [v]) s).2)
  | [], _, _, _, _, h => by simpa using h
  | t :: ts, past, s, hts, hf, h => by
    have ht := hts t mem_cons_self
    have hrec := Queued.releases ts (fun x hx => hts x (mem_cons_of_mem _ hx))
      (hf.release append_perm (fun _ => Int.le_refl 0) ht) (h.release hf ht)
    rw [append_assoc, singleton_append] at hrec
    exact hrec

/-- The queue's part of the invariant. -/
def InOrder (succ : Nat → List Nat) (n : Nat) (s : Sweep) : Prop :=
  Queued succ n (s.order.flatMap succ) (pending succ n s.order) (s.order ++ s.work)

theorem Counts.inOrder_start (hdeg : Counts succ n (fun _ => 0) deg) :
    InOrder succ n ⟨deg, ready n deg, []⟩ := by
  show [] ++ ready n deg = sources succ n ++ List.dedup (List.filter _ [])
  rw [filter_nil, dedup_nil, append_nil, nil_append]
  refine filter_congr fun v hv => ?_
  rw [decide_eq_decide, hdeg.count v (mem_range.mp hv), ← count_eq_zero]
  omega

/-- By the invariant the order and its queue are the beginning of every breadth-first order. -/
theorem InOrder.prefix {s : Sweep} (h : InOrder succ n s) (hL : BreadthFirst succ n L)
    (hpre : s.order <+: L) :
    s.order ++ s.work <+: L := by
  obtain ⟨rest, hrest⟩ := hpre
  -- the nodes of `L` behind `s.order` are the ones not taken
  have hmem : ∀ x, x ∈ rest.flatMap succ ↔ x ∈ pending succ n s.order := by
    intro x
    have hnd : (s.order ++ rest).Nodup := hrest ▸ hL.perm.nodup_iff.mpr nodup_range
    have hout : ∀ u, u ∈ rest ↔ u < n ∧ u ∉ s.order := by
      intro u
      have hu : u ∈ s.order ++ rest ↔ u < n := by
        rw [hrest, hL.perm.mem_iff, mem_range]
      constructor
      · intro hr
        exact ⟨hu.mp (mem_append_right _ hr),
          fun ho => (nodup_append.mp hnd).2.2 u ho u hr rfl⟩
      · intro ⟨hlt, ho⟩
        exact (mem_append.mp (hu.mpr hlt)).resolve_left ho
    rw [mem_pending, mem_flatMap]
    constructor
    · intro ⟨u, hu, hx⟩
      exact ⟨u, ⟨((hout u).mp hu).1, hx⟩, ((hout u).mp hu).2⟩
    · intro ⟨u, hx, ho⟩
      exact ⟨u, (hout u).mpr ⟨hx.1, ho⟩, hx.2⟩
  have hfilter : (s.order.flatMap succ).filter (· ∉ rest.flatMap succ)
      = (s.order.flatMap succ).filter (· ∉ pending succ n s.order) := by
    refine filter_congr fun x _ => ?_
    rw [decide_eq_decide, hmem x]
  refine ⟨(rest.flatMap succ).dedup, ?_⟩
  have heq : s.order ++ s.work = _ := h
  rw [heq, append_assoc, ← hfilter, ← dedup_append_filter, ← flatMap_append, hrest]
  exact hL.eq.symm

section Queue

variable (hsucc : ∀ u < n, ∀ v ∈ succ u, v < n)
include hsucc

theorem InOrder.step {deg : List Int} {work order : List Nat}
    (hs : Sound succ n (fun _ => 0) ⟨deg, v :: work, order⟩)
    (h : InOrder succ n ⟨deg, v :: work, order⟩) :
    InOrder succ n ⟨((succ v).foldl (release fun v w => w ++ [v]) (deg, work)).1,
      ((succ v).foldl (release fun v w => w ++ [v]) (deg, work)).2, order ++ [v]⟩ := by
  have hv : v < n := hs.frontier.lt v (by simp)
  have hnot : v ∉ order := fun hmem =>
    (nodup_append.mp hs.frontier.nodup).2.2 v hmem v mem_cons_self rfl
  have hperm : (pending succ n order).Perm (succ v ++ pending succ n (order ++ [v])) :=
    pending_perm hv hnot
  have hq : Queued succ n (order.flatMap succ) (succ v ++ pending succ n (order ++ [v]))
      ((order ++ [v]) ++ work) := by
    have heq : order ++ v :: work = _ := h
    unfold Queued
    rw [append_assoc, singleton_append, heq]
    refine congrArg (fun xs => sources succ n ++ List.dedup xs) (filter_congr fun x _ => ?_)
    rw [decide_eq_decide, hperm.mem_iff]
  have hrel := hq.releases (succ v) (hsucc v hv) hs.frontier.take
  unfold InOrder
  rw [flatMap_append, flatMap_singleton]
  exact hrel

theorem sweep_inOrder : ∀ (fuel : Nat) {s : Sweep}, Sound succ n (fun _ => 0) s →
    InOrder succ n s → InOrder succ n (sweep (fun v w => w ++ [v]) succ fuel s)
  | 0, _, _, h => h
  | fuel + 1, ⟨deg, work, order⟩, hs, h => by
    match work, hs, h with
    | [], hs, h => exact h
    | v :: work, hs, h =>
      exact sweep_inOrder fuel (hs.step append_perm (fun _ => Int.le_refl 0) hsucc)
        (h.step hsucc hs)

theorem sweep_prefix (hL : BreadthFirst succ n L) : ∀ (fuel : Nat) {s : Sweep},
    Sound succ n (fun _ => 0) s → InOrder succ n s → s.order <+: L →
    (sweep (fun v w => w ++ [v]) succ fuel s).order <+: L
  | 0, _, _, _, hpre => hpre
  | fuel + 1, ⟨deg, work, order⟩, hs, h, hpre => by
    match work, hs, h with
    | [], hs, h => exact hpre
    | v :: work, hs, h =>
      refine sweep_prefix hL fuel (hs.step append_perm (fun _ => Int.le_refl 0) hsucc)
        (h.step hsucc hs) ?_
      have hwork := h.prefix hL hpre
      refine List.IsPrefix.trans ?_ hwork
      exact ⟨work, by simp⟩

variable {deg : List Int} (hdeg : Counts succ n (fun _ => 0) deg) (hacyclic : Acyclic succ n)
include hdeg hacyclic

theorem queue_breadthFirst :
    BreadthFirst succ n (sweep (fun v w => w ++ [v]) succ n ⟨deg, ready n deg, []⟩).order := by
  have hswept := hdeg.swept append_perm (fun _ => Int.le_refl 0) hsucc
  have hperm := hswept.perm_iff.mpr ((hswept.order_length_iff (fun _ => Int.le_refl 0) hsucc).mpr
    ⟨fun _ _ => rfl, hacyclic⟩)
  have horder := sweep_inOrder hsucc n hdeg.sound (hdeg.inOrder_start)
  have hnone : ∀ v, v ∉ pending succ n
      (sweep (fun v w => w ++ [v]) succ n ⟨deg, ready n deg, []⟩).order := by
    intro v hv
    obtain ⟨u, he, hout⟩ := mem_pending.mp hv
    exact hout (hperm.mem_iff.mpr (mem_range.mpr he.1))
  refine ⟨hperm, ?_⟩
  unfold InOrder Queued at horder
  rwa [hswept.done, append_nil, filter_eq_self.mpr fun v _ => by simpa using hnone v] at horder

/-- The queue gives the breadth-first order, if there is one. -/
theorem queue_order_eq (hL : BreadthFirst succ n L) :
    (sweep (fun v w => w ++ [v]) succ n ⟨deg, ready n deg, []⟩).order = L := by
  have hpre := sweep_prefix hsucc hL n hdeg.sound (hdeg.inOrder_start) (List.nil_prefix)
  refine hpre.eq_of_length ?_
  rw [(queue_breadthFirst hsucc hdeg hacyclic).perm.length_eq, hL.perm.length_eq]

end Queue

end OpBase.Lib.Kahn
