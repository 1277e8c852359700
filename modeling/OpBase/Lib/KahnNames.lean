import OpBase.Lib.Kahn

/-!
# In-degree elimination over named nodes

`Kahn` sorts the numbers below `n`. Here the nodes are the elements of a list
without repetition, the number of a node its place in that list, and edges lead
from node to node. Everything `Kahn` says about a finished sweep is said again
about the list of names the sweep reaches.

> `named_sorted`: if every node was reached, the names are all nodes and every
> edge leads from an earlier to a later one.
>
> `named_queue`: with a queue, the names are in breadth-first order, and no other
> list is.
-/

namespace OpBase.Lib.Kahn

open List

variable {α : Type} [DecidableEq α] (nodes : List α) (out : α → List α)

/-- The targets of node number `i`, by number. -/
def byIndex (i : Nat) : List Nat := (nodes[i]?).elim [] fun u => (out u).map nodes.idxOf

/-- No node is listed twice, and edges lead to nodes. -/
structure Closed : Prop where
  nodup : nodes.Nodup
  mem : ∀ u ∈ nodes, ∀ v ∈ out u, v ∈ nodes

def NamedEdge (u v : α) : Prop := u ∈ nodes ∧ v ∈ out u

/-- The names of a list of numbers. -/
def names (order : List Nat) : List α := order.filterMap fun i => nodes[i]?

variable {nodes out} {i : Nat} {u : α}

theorem getElem?_idxOf_iff (hnd : nodes.Nodup) (hi : i < nodes.length) :
    nodes[i]? = some u ↔ i = nodes.idxOf u := by
  rw [getElem?_eq_getElem hi, Option.some.injEq]
  constructor
  · intro h
    rw [← h, hnd.idxOf_getElem i hi]
  · intro h
    subst h
    exact getElem_idxOf hi

theorem mem_byIndex (hu : nodes[i]? = some u) :
    byIndex nodes out i = (out u).map nodes.idxOf := by
  unfold byIndex
  rw [hu]
  rfl

/-- The links between indices are the links between names. -/
theorem pending_byIndex :
    pending (byIndex nodes out) nodes.length [] = (nodes.flatMap out).map nodes.idxOf := by
  have hmap : ((List.range nodes.length).map fun i => nodes[i]?) = nodes.map some := by
    refine ext_getElem (by simp) fun i hi _ => ?_
    simp only [length_map, length_range] at hi
    simp [getElem?_eq_getElem hi]
  have hall : (List.range nodes.length).filter (· ∉ ([] : List Nat)) = List.range nodes.length :=
    filter_eq_self.mpr (by simp)
  unfold pending
  rw [hall, map_flatMap]
  calc
    (List.range nodes.length).flatMap (byIndex nodes out)
      = ((List.range nodes.length).map fun i => nodes[i]?).flatMap
          (fun o : Option α => o.elim [] fun u => (out u).map nodes.idxOf) := by
      rw [flatMap_map]
      rfl
    _ = nodes.flatMap fun u => (out u).map nodes.idxOf := by
      rw [hmap, flatMap_map]
      rfl

/-! ## Names of an order -/

variable {order : List Nat}

omit [DecidableEq α] in
theorem names_concat (hu : nodes[i]? = some u) :
    names nodes (order ++ [i]) = names nodes order ++ [u] := by
  unfold names
  rw [filterMap_append, filterMap_cons_some hu, filterMap_nil]

omit [DecidableEq α] in
theorem names_cons (hu : nodes[i]? = some u) :
    names nodes (i :: order) = u :: names nodes order :=
  filterMap_cons_some hu

theorem idxOf_names (hnd : nodes.Nodup) : ∀ (order : List Nat), (∀ i ∈ order, i < nodes.length) →
    (names nodes order).map nodes.idxOf = order ∧
      ∀ u, (names nodes order).idxOf u = order.idxOf (nodes.idxOf u)
  | [], _ => ⟨rfl, fun _ => rfl⟩
  | i :: order, h => by
    have hi := h i mem_cons_self
    have hu := getElem?_eq_getElem hi
    obtain ⟨hmap, hidx⟩ := idxOf_names hnd order fun j hj => h j (mem_cons_of_mem _ hj)
    rw [names_cons hu]
    refine ⟨by rw [map_cons, hmap, hnd.idxOf_getElem i hi], fun u => ?_⟩
    by_cases heq : i = nodes.idxOf u
    · have hget : nodes[i] = u :=
        Option.some.inj (hu.symm.trans ((getElem?_idxOf_iff hnd hi).mpr heq))
      rw [hget, ← heq, idxOf_cons_self, idxOf_cons_self]
    · have hget : nodes[i] ≠ u := fun h => heq ((getElem?_idxOf_iff hnd hi).mp (hu.trans (h ▸ rfl)))
      rw [idxOf_cons_ne _ hget, idxOf_cons_ne _ heq, hidx u]

theorem names_length (hnd : nodes.Nodup) (h : ∀ i ∈ order, i < nodes.length) :
    (names nodes order).length = order.length := by
  rw [← length_map nodes.idxOf, (idxOf_names hnd order h).1]

/-- A name is placed just when its index is. -/
theorem mem_names (hnd : nodes.Nodup) (h : ∀ i ∈ order, i < nodes.length) :
    u ∈ names nodes order ↔ u ∈ nodes ∧ nodes.idxOf u ∈ order := by
  unfold names
  rw [mem_filterMap]
  constructor
  · intro ⟨i, hi, hu⟩
    refine ⟨mem_of_getElem? hu, ?_⟩
    rw [← (getElem?_idxOf_iff hnd (h i hi)).mp hu]
    exact hi
  · intro ⟨hu, hi⟩
    exact ⟨_, hi, getElem?_idxOf hu⟩

theorem names_perm (hnd : nodes.Nodup)
    (h : order.Perm (List.range nodes.length)) : (names nodes order).Perm nodes := by
  have hlt : ∀ i ∈ order, i < nodes.length := fun i hi => mem_range.mp (h.mem_iff.mp hi)
  have hnames : (names nodes order).Nodup := by
    have hmap := (idxOf_names hnd order hlt).1
    refine List.Nodup.of_map nodes.idxOf ?_
    rw [hmap]
    exact h.nodup_iff.mpr nodup_range
  refine (perm_ext_iff_of_nodup hnames hnd).mpr fun u => ?_
  rw [mem_names hnd hlt]
  refine ⟨fun hu => hu.1, fun hu => ⟨hu, h.mem_iff.mpr (mem_range.mpr ?_)⟩⟩
  exact idxOf_lt_length_iff.mpr hu

/-! ## Breadth-first order -/

/-- The nodes in breadth-first order: those without incoming edges as they stand,
then every edge target at the place where it is mentioned last. -/
structure NamedBreadthFirst (nodes : List α) (out : α → List α) (order : List α) : Prop where
  perm : order.Perm nodes
  eq : order = nodes.filter (· ∉ nodes.flatMap out) ++ (order.flatMap out).dedup

theorem dedup_map_on {f : α → Nat} : ∀ (xs : List α),
    (∀ x ∈ xs, ∀ y ∈ xs, f x = f y → x = y) → (xs.map f).dedup = xs.dedup.map f
  | [], _ => rfl
  | x :: xs, h => by
    have ih := dedup_map_on xs fun a ha b hb =>
      h a (mem_cons_of_mem _ ha) b (mem_cons_of_mem _ hb)
    rw [map_cons]
    by_cases hx : x ∈ xs
    · rw [dedup_cons_of_mem (mem_map_of_mem hx), dedup_cons_of_mem hx, ih]
    · have hfx : f x ∉ xs.map f := fun hmem => by
        obtain ⟨y, hy, hxy⟩ := mem_map.mp hmem
        exact hx (h y (mem_cons_of_mem _ hy) x mem_cons_self hxy ▸ hy)
      rw [dedup_cons_of_notMem hfx, dedup_cons_of_notMem hx, ih, map_cons]

theorem map_idxOf_self (hnd : nodes.Nodup) : nodes.map nodes.idxOf = List.range nodes.length := by
  refine ext_getElem (by simp) fun i hi _ => ?_
  rw [length_map] at hi
  rw [getElem_map, getElem_range, hnd.idxOf_getElem i hi]

theorem flatMap_byIndex {order : List α} (horder : ∀ u ∈ order, u ∈ nodes) :
    (order.map nodes.idxOf).flatMap (byIndex nodes out) = (order.flatMap out).map nodes.idxOf := by
  rw [flatMap_map, map_flatMap]
  exact flatMap_congr fun u hu => mem_byIndex (getElem?_idxOf (horder u hu))

theorem names_map_idxOf : ∀ (order : List α), (∀ u ∈ order, u ∈ nodes) →
    names nodes (order.map nodes.idxOf) = order
  | [], _ => rfl
  | u :: order, h => by
    rw [map_cons, names_cons (getElem?_idxOf (h u mem_cons_self)),
      names_map_idxOf order fun v hv => h v (mem_cons_of_mem _ hv)]

section

variable (h : Closed nodes out)
include h

theorem Closed.byIndex_lt :
    ∀ i < nodes.length, ∀ j ∈ byIndex nodes out i, j < nodes.length := by
  intro i hi j hj
  rw [mem_byIndex (getElem?_eq_getElem hi), mem_map] at hj
  obtain ⟨v, hv, rfl⟩ := hj
  exact idxOf_lt_length_iff.mpr (h.mem _ (getElem_mem hi) v hv)

theorem Closed.edge_iff {j : Nat} :
    Edge (byIndex nodes out) nodes.length i j ↔
      ∃ u v, nodes[i]? = some u ∧ nodes[j]? = some v ∧ NamedEdge nodes out u v := by
  constructor
  · intro ⟨hi, hj⟩
    have hjlt := h.byIndex_lt i hi j hj
    rw [mem_byIndex (getElem?_eq_getElem hi), mem_map] at hj
    obtain ⟨v, hv, rfl⟩ := hj
    exact ⟨nodes[i], v, getElem?_eq_getElem hi, (getElem?_idxOf_iff h.nodup hjlt).mpr rfl,
      getElem_mem hi, hv⟩
  · intro ⟨u, v, hu, hv, hmem, hout⟩
    obtain ⟨hi, -⟩ := List.getElem?_eq_some_iff.mp hu
    obtain ⟨hj, -⟩ := List.getElem?_eq_some_iff.mp hv
    refine ⟨hi, ?_⟩
    rw [mem_byIndex hu, (getElem?_idxOf_iff h.nodup hj).mp hv]
    exact mem_map_of_mem hout

/-- There is a cycle of indices just when there is one of names. -/
theorem Closed.acyclic_iff :
    Acyclic (byIndex nodes out) nodes.length ↔
      ∀ u, ¬ Relation.TransGen (NamedEdge nodes out) u u := by
  constructor
  · intro hacyclic u hcycle
    refine hacyclic (nodes.idxOf u) (hcycle.lift nodes.idxOf fun a b hab => ?_)
    have hb := h.mem a hab.1 b hab.2
    exact h.edge_iff.mpr ⟨a, b, getElem?_idxOf hab.1, getElem?_idxOf hb, hab⟩
  · intro hacyclic i hcycle
    have hlift : ∀ j, Relation.TransGen (Edge (byIndex nodes out) nodes.length) i j →
        ∃ u v, nodes[i]? = some u ∧ nodes[j]? = some v ∧
          Relation.TransGen (NamedEdge nodes out) u v := by
      intro j hj
      induction hj with
      | single e =>
        obtain ⟨u, v, hu, hv, huv⟩ := h.edge_iff.mp e
        exact ⟨u, v, hu, hv, Relation.TransGen.single huv⟩
      | tail _ e ih =>
        obtain ⟨u, v, hu, hv, huv⟩ := ih
        obtain ⟨v', w, hv', hw, hvw⟩ := h.edge_iff.mp e
        obtain rfl : v = v' := Option.some.inj (hv.symm.trans hv')
        exact ⟨u, w, hu, hw, huv.tail hvw⟩
    obtain ⟨u, v, hu, hv, huv⟩ := hlift i hcycle
    obtain rfl : u = v := Option.some.inj (hu.symm.trans hv)
    exact hacyclic u huv

/-- A complete order of indices is one of names, producers first. -/
theorem named_sorted {r : Nat → Int} {s : Sweep}
    (hs : Swept (byIndex nodes out) nodes.length r s) (hlen : s.order.length = nodes.length) :
    (names nodes s.order).Perm nodes ∧
      ∀ u v, NamedEdge nodes out u v →
        (names nodes s.order).idxOf u < (names nodes s.order).idxOf v := by
  have hperm := hs.perm_iff.mpr hlen
  refine ⟨names_perm h.nodup hperm, fun u v huv => ?_⟩
  have hidx := (idxOf_names h.nodup s.order hs.lt).2
  rw [hidx, hidx]
  have hv := h.mem u huv.1 v huv.2
  refine hs.idxOf_lt (h.edge_iff.mpr ⟨u, v, getElem?_idxOf huv.1, getElem?_idxOf hv, huv⟩)
    (hperm.mem_iff.mpr (mem_range.mpr ?_))
  exact idxOf_lt_length_iff.mpr hv

theorem sources_byIndex :
    sources (byIndex nodes out) nodes.length =
      (nodes.filter (· ∉ nodes.flatMap out)).map nodes.idxOf := by
  unfold sources
  rw [pending_byIndex, ← map_idxOf_self h.nodup, filter_map]
  refine congrArg (List.map nodes.idxOf) (filter_congr fun u hu => ?_)
  rw [Function.comp_apply, decide_eq_decide, mem_map]
  refine not_congr ⟨?_, fun hmem => ⟨u, hmem, rfl⟩⟩
  intro ⟨v, hv, hvu⟩
  obtain ⟨w, hw, hvw⟩ := mem_flatMap.mp hv
  exact (idxOf_inj (h.mem w hw v hvw)).mp hvu ▸ hv

theorem NamedBreadthFirst.byIndex {order : List α}
    (ho : NamedBreadthFirst nodes out order) :
    BreadthFirst (byIndex nodes out) nodes.length (order.map nodes.idxOf) := by
  have hmem : ∀ u ∈ order, u ∈ nodes := fun u hu => ho.perm.mem_iff.mp hu
  have htargets : ∀ u ∈ order.flatMap out, u ∈ nodes := fun u hu => by
    obtain ⟨w, hw, hu⟩ := mem_flatMap.mp hu
    exact h.mem w (hmem w hw) u hu
  refine ⟨?_, ?_⟩
  · rw [← map_idxOf_self h.nodup]
    exact ho.perm.map nodes.idxOf
  · rw [flatMap_byIndex hmem, sources_byIndex h, dedup_map_on _ fun x hx y hy hxy =>
      (idxOf_inj (htargets x hx)).mp hxy, ← map_append, ← ho.eq]

/-- With names, too, the queue gives the breadth-first order. -/
theorem named_queue (hacyclic : ∀ u, ¬ Relation.TransGen (NamedEdge nodes out) u u) {deg : List Int}
    (hdeg : Counts (byIndex nodes out) nodes.length (fun _ => 0) deg) {order : List α}
    (ho : NamedBreadthFirst nodes out order) :
    names nodes (sweep (fun v w => w ++ [v]) (Kahn.byIndex nodes out) nodes.length
      ⟨deg, ready nodes.length deg, []⟩).order = order := by
  rw [queue_order_eq h.byIndex_lt hdeg (h.acyclic_iff.mpr hacyclic) (ho.byIndex h)]
  exact names_map_idxOf order fun u hu => ho.perm.mem_iff.mp hu

end

end OpBase.Lib.Kahn
