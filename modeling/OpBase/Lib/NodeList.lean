import Mathlib

/-!
# Lists with iterators

A `std::list` as its nodes in order, each with the iterator that stays valid until
the node is erased. A cache keeps such a list in the order of its entries' age and
a map from key to iterator beside it: `Indexes key index l` says that the map
points at the node of each key on the list and nowhere else.

> `Indexes.keys_nodup`: then no key is on the list twice.
>
> `Indexes.pushFront`, `Indexes.erase`, `Indexes.splice`: the edits of the two that
> belong together.
-/

namespace OpBase.Lib

open List

open Function (update update_of_ne update_self)

structure NodeList (α : Type) where
  nodes : List (Nat × α)
  next : Nat
  fresh : ∀ p ∈ nodes, p.1 < next
  nodup : (nodes.map Prod.fst).Nodup

namespace NodeList

variable {α κ : Type}

def empty : NodeList α where
  nodes := []
  next := 0
  fresh _ hp := absurd hp not_mem_nil
  nodup := nodup_nil

/-- The elements in order. -/
def values (l : NodeList α) : List α := l.nodes.map Prod.snd

/-- `push_front`; the iterator of the new node, `begin()`, is `l.next`. -/
def pushFront (l : NodeList α) (x : α) : NodeList α where
  nodes := (l.next, x) :: l.nodes
  next := l.next + 1
  fresh := forall_mem_cons.mpr
    ⟨Nat.lt_succ_self _, fun p hp => Nat.lt_succ_of_lt (l.fresh p hp)⟩
  nodup := nodup_cons.mpr ⟨fun h => by
    obtain ⟨p, hp, hnext⟩ := mem_map.mp h
    exact absurd (l.fresh p hp) (hnext ▸ Nat.lt_irrefl _), l.nodup⟩

/-- `erase` of the node at an iterator. -/
def erase (l : NodeList α) (it : Nat) : NodeList α where
  nodes := l.nodes.filter fun p => p.1 ≠ it
  next := l.next
  fresh p hp := l.fresh p (mem_filter.mp hp).1
  nodup := l.nodup.sublist (filter_sublist.map Prod.fst)

/-- `back()`, with its iterator. -/
def back (l : NodeList α) : Option (Nat × α) := l.nodes.getLast?

/-- `pop_back`. -/
def popBack (l : NodeList α) : NodeList α where
  nodes := l.nodes.dropLast
  next := l.next
  fresh p hp := l.fresh p ((dropLast_sublist _).mem hp)
  nodup := l.nodup.sublist ((dropLast_sublist _).map Prod.fst)

/-- The element at an iterator. -/
def at? (l : NodeList α) (it : Nat) : Option α :=
  (l.nodes.find? fun p => p.1 = it).map Prod.snd

/-- Write the element at an iterator. -/
def setAt (l : NodeList α) (it : Nat) (x : α) : NodeList α where
  nodes := l.nodes.map fun p => if p.1 = it then (it, x) else p
  next := l.next
  fresh p hp := by
    obtain ⟨q, hq, rfl⟩ := mem_map.mp hp
    split
    next h => exact h ▸ l.fresh q hq
    next => exact l.fresh q hq
  nodup := by
    rw [map_map]
    have hfst : Prod.fst ∘ (fun p : Nat × α => if p.1 = it then (it, x) else p) = Prod.fst := by
      funext p
      show (if p.1 = it then (it, x) else p).1 = p.1
      split
      next h => exact h.symm
      next => rfl
    rw [hfst]
    exact l.nodup

/-- `splice` of the node at an iterator to the front. -/
def splice (l : NodeList α) (it : Nat) : NodeList α :=
  match h : l.nodes.find? fun p => p.1 = it with
  | none => l
  | some p =>
    { nodes := p :: l.nodes.filter fun q => q.1 ≠ it
      next := l.next
      fresh := forall_mem_cons.mpr ⟨l.fresh p (mem_of_find?_eq_some h),
        fun q hq => l.fresh q (mem_filter.mp hq).1⟩
      nodup := by
        refine nodup_cons.mpr ⟨fun hmem => ?_,
          l.nodup.sublist (filter_sublist.map Prod.fst)⟩
        obtain ⟨q, hq, hqp⟩ := mem_map.mp hmem
        have hp : p.1 = it := of_decide_eq_true (find?_some h :)
        exact of_decide_eq_true (mem_filter.mp hq).2 (hqp.trans hp) }

/-! ## Nodes -/

variable {l : NodeList α} {it : Nat} {p q : Nat × α} {x : α}

theorem node_inj (hp : p ∈ l.nodes) (hq : q ∈ l.nodes) (h : p.1 = q.1) : p = q :=
  inj_on_of_nodup_map l.nodup hp hq h

theorem mem_values : x ∈ l.values ↔ ∃ it, (it, x) ∈ l.nodes := by
  unfold values
  constructor
  · intro h
    obtain ⟨p, hp, rfl⟩ := mem_map.mp h
    exact ⟨p.1, hp⟩
  · intro ⟨it, h⟩
    exact mem_map.mpr ⟨_, h, rfl⟩

theorem find_node (h : p ∈ l.nodes) : l.nodes.find? (fun q => q.1 = p.1) = some p := by
  cases hfind : l.nodes.find? (fun q => q.1 = p.1) with
  | none => exact absurd (decide_eq_true rfl) (find?_eq_none.mp hfind p h)
  | some q =>
    have hq : q.1 = p.1 := of_decide_eq_true (find?_some hfind :)
    rw [node_inj (mem_of_find?_eq_some hfind) h hq]

theorem at?_eq (h : (it, x) ∈ l.nodes) : l.at? it = some x := by
  unfold at?
  rw [find_node h]
  rfl

/-- Splicing a node to the front keeps the nodes. -/
theorem mem_nodes_splice : p ∈ (l.splice it).nodes ↔ p ∈ l.nodes := by
  unfold splice
  split
  next => exact Iff.rfl
  next q hq =>
    have hmem := mem_of_find?_eq_some hq
    have hit : q.1 = it := of_decide_eq_true (find?_some hq :)
    show p ∈ q :: l.nodes.filter (fun q => q.1 ≠ it) ↔ _
    rw [mem_cons, mem_filter]
    constructor
    · rintro (rfl | h)
      · exact hmem
      · exact h.1
    · intro h
      by_cases hp : p.1 = it
      · exact Or.inl (node_inj h hmem (hp.trans hit.symm))
      · exact Or.inr ⟨h, decide_eq_true hp⟩

theorem nodes_erase_setAt (l : NodeList α) (it : Nat) (x : α) :
    ((l.setAt it x).erase it).nodes = (l.erase it).nodes := by
  show (l.nodes.map fun p => if p.1 = it then (it, x) else p).filter (fun p => p.1 ≠ it) =
    l.nodes.filter fun p => p.1 ≠ it
  induction l.nodes with
  | nil => rfl
  | cons p ps ih =>
    rw [map_cons]
    by_cases hp : p.1 = it
    · rw [if_pos hp, filter_cons_of_neg (by simp), filter_cons_of_neg (by simp [hp]), ih]
    · rw [if_neg hp, filter_cons_of_pos (by simp [hp]), filter_cons_of_pos (by simp [hp]), ih]

theorem length_erase_lt (h : (it, x) ∈ l.nodes) : (l.erase it).nodes.length < l.nodes.length :=
  length_filter_lt_length_iff_exists.mpr ⟨_, h, by simp⟩

/-- The last node is the one that `back` names. -/
theorem popBack_eq_erase (h : l.back = some p) : l.popBack.nodes = (l.erase p.1).nodes := by
  obtain ⟨init, hinit⟩ := getLast?_eq_some_iff.mp h
  have hnodup := l.nodup
  rw [hinit, map_append, nodup_append] at hnodup
  show l.nodes.dropLast = l.nodes.filter fun q => q.1 ≠ p.1
  rw [hinit, dropLast_concat, filter_append]
  have hkeep : init.filter (fun q => q.1 ≠ p.1) = init := by
    refine filter_eq_self.mpr fun q hq => decide_eq_true ?_
    exact hnodup.2.2 q.1 (mem_map_of_mem hq) p.1 mem_cons_self
  rw [hkeep, filter_cons_of_neg (by simp), filter_nil, append_nil]

/-! ## A map beside the list -/

/-- The map points at the node of each key and nowhere else. -/
def Indexes (key : α → κ) (index : κ → Option Nat) (l : NodeList α) : Prop :=
  ∀ k it, index k = some it ↔ ∃ x, (it, x) ∈ l.nodes ∧ key x = k

namespace Indexes

variable {key : α → κ} {index : κ → Option Nat} {k : κ}

theorem empty : Indexes key (fun _ => none) (NodeList.empty : NodeList α) := fun _ _ =>
  iff_of_false (by simp) fun ⟨_, hx, _⟩ => absurd hx not_mem_nil

section

variable (h : Indexes key index l)
include h

theorem congr {l' : NodeList α}
    (hnodes : ∀ p, p ∈ l'.nodes ↔ p ∈ l.nodes) : Indexes key index l' := fun k it => by
  simp only [hnodes]
  exact h k it

theorem of_node (hx : (it, x) ∈ l.nodes) : index (key x) = some it :=
  (h _ _).mpr ⟨x, hx, rfl⟩

theorem key_inj (hp : p ∈ l.nodes) (hq : q ∈ l.nodes)
    (hkey : key p.2 = key q.2) : p = q := by
  have hpq : some p.1 = some q.1 :=
    (h.of_node hp).symm.trans ((congrArg index hkey).trans (h.of_node hq))
  exact node_inj hp hq (Option.some.inj hpq)

theorem keys_nodup : (l.values.map key).Nodup := by
  unfold values
  rw [map_map]
  exact l.nodup.of_map.map_on fun p hp q hq hkey => h.key_inj hp hq hkey

theorem isSome_iff :
    (∃ it, index k = some it) ↔ k ∈ l.values.map key := by
  rw [mem_map]
  constructor
  · intro ⟨it, hit⟩
    obtain ⟨x, hx, hk⟩ := (h k it).mp hit
    exact ⟨x, mem_values.mpr ⟨it, hx⟩, hk⟩
  · rintro ⟨x, hx, rfl⟩
    obtain ⟨it, hit⟩ := mem_values.mp hx
    exact ⟨it, h.of_node hit⟩

theorem eq_none_iff : index k = none ↔ k ∉ l.values.map key := by
  rw [← h.isSome_iff]
  cases index k with
  | none => simp
  | some it => simp

theorem splice : Indexes key index (l.splice it) :=
  h.congr fun _ => mem_nodes_splice

/-- Replacing a value by one with its key keeps the index. -/
theorem setAt {x : α} (hx : index (key x) = some it) :
    Indexes key index (l.setAt it x) := by
  intro k it'
  rw [h k it']
  show _ ↔ ∃ y, (it', y) ∈ l.nodes.map (fun p => if p.1 = it then (it, x) else p) ∧ key y = k
  simp only [mem_map]
  constructor
  · intro ⟨y, hy, hk⟩
    by_cases hit : it' = it
    · subst hit
      -- the node that is replaced had the key of `x`
      have hkey : k = key x := by
        obtain ⟨z, hz, hzx⟩ := (h _ _).mp hx
        have hyz := node_inj hy hz rfl
        rw [← hk, ← hzx]
        exact congrArg (key ·.2) hyz
      exact ⟨x, ⟨_, hy, if_pos rfl⟩, hkey.symm⟩
    · exact ⟨y, ⟨_, hy, if_neg hit⟩, hk⟩
  · intro ⟨y, ⟨p, hp, heq⟩, hk⟩
    split at heq
    next hit =>
      obtain ⟨rfl, rfl⟩ := Prod.mk.inj heq
      obtain ⟨z, hz, hzx⟩ := (h _ _).mp hx
      exact ⟨z, hz, hzx.trans hk⟩
    next => exact ⟨y, heq ▸ hp, hk⟩

end

variable [DecidableEq κ]

section

variable (h : Indexes key index l)
include h

/-- Pushing a value with a new key, and noting its node, keeps the index. -/
theorem pushFront (hnew : index (key x) = none) :
    Indexes key (update index (key x) (some l.next)) (l.pushFront x) := by
  intro k it
  show update index (key x) (some l.next) k = some it ↔ ∃ y, (it, y) ∈ (l.next, x) :: l.nodes ∧ _
  simp only [mem_cons, Prod.mk.injEq]
  by_cases hk : k = key x
  · subst hk
    rw [update_self]
    constructor
    · intro hit
      exact ⟨x, Or.inl ⟨(Option.some.inj hit).symm, rfl⟩, rfl⟩
    · rintro ⟨y, ⟨hit, -⟩ | hy, hkey⟩
      · rw [hit]
      · exact absurd (hnew.symm.trans (hkey ▸ h.of_node hy)) (by simp)
  · rw [update_of_ne hk, h k it]
    constructor
    · intro ⟨y, hy, hkey⟩
      exact ⟨y, Or.inr hy, hkey⟩
    · rintro ⟨y, ⟨-, rfl⟩ | hy, hkey⟩
      · exact absurd hkey.symm hk
      · exact ⟨y, hy, hkey⟩

/-- Erasing a node and its key keeps the index. -/
theorem erase (hk : index k = some it) :
    Indexes key (update index k none) (l.erase it) := by
  intro k' it'
  show update index k none k' = some it' ↔ ∃ y, (it', y) ∈ l.nodes.filter (fun p => p.1 ≠ it) ∧ _
  simp only [mem_filter, decide_eq_true_eq]
  by_cases hk' : k' = k
  · subst hk'
    rw [update_self]
    refine iff_of_false (by simp) ?_
    intro ⟨y, ⟨hy, hne⟩, hkey⟩
    exact hne (Option.some.inj ((hkey ▸ h.of_node hy).symm.trans hk))
  · rw [update_of_ne hk', h k' it']
    constructor
    · intro ⟨y, hy, hkey⟩
      refine ⟨y, ⟨hy, fun hit => ?_⟩, hkey⟩
      obtain ⟨z, hz, hzk⟩ := (h k it).mp hk
      have hyz : ((it', y) : Nat × α) = (it, z) := node_inj hy hz hit
      exact hk' (hkey.symm.trans ((congrArg (key ·.2) hyz).trans hzk))
    · intro ⟨y, ⟨hy, _⟩, hkey⟩
      exact ⟨y, hy, hkey⟩

theorem popBack (hback : l.back = some (it, x)) :
    Indexes key (update index (key x) none) l.popBack := by
  have hmem : ((it, x) : Nat × α) ∈ l.nodes := mem_of_getLast? hback
  exact (h.erase (h.of_node hmem)).congr fun p => by rw [popBack_eq_erase hback]

/-- Moving a value to the front keeps the index, with the new node noted. -/
theorem toFront {x : α} (hx : index (key x) = some it) :
    Indexes key (update index (key x) (some l.next)) ((l.erase it).pushFront x) := by
  have herase := h.erase hx
  have hpush := herase.pushFront (x := x) (by rw [update_self])
  rw [Function.update_idem] at hpush
  exact hpush

theorem values_setAt {x : α} (hx : index (key x) = some it) :
    (l.setAt it x).values = l.values.map fun y => if key y = key x then x else y := by
  show (l.nodes.map fun p => if p.1 = it then (it, x) else p).map Prod.snd = (l.nodes.map _).map _
  rw [map_map, map_map]
  refine map_congr_left fun p hp => ?_
  obtain ⟨z, hz, hzx⟩ := (h _ _).mp hx
  have hiff : p.1 = it ↔ key p.2 = key x := by
    constructor
    · intro hit
      rw [node_inj hp hz hit]
      exact hzx
    · intro hkey
      exact Option.some.inj ((hkey ▸ h.of_node hp).symm.trans hx)
  show (if p.1 = it then (it, x) else p).2 = if key p.2 = key x then x else p.2
  by_cases hit : p.1 = it
  · rw [if_pos hit, if_pos (hiff.mp hit)]
  · rw [if_neg hit, if_neg fun hkey => hit (hiff.mpr hkey)]

/-- Erasing by the index drops the value with that key. -/
theorem values_erase (hk : index k = some it) :
    (l.erase it).values = l.values.filter fun x => key x ≠ k := by
  show (l.nodes.filter fun p => p.1 ≠ it).map Prod.snd = (l.nodes.map Prod.snd).filter _
  rw [filter_map]
  congr 1
  refine filter_congr fun p hp => decide_eq_decide.mpr (not_congr ?_)
  show p.1 = it ↔ key p.2 = k
  constructor
  · intro hit
    obtain ⟨x, hx, hxk⟩ := (h k it).mp hk
    rw [node_inj hp hx hit]
    exact hxk
  · intro hkey
    exact Option.some.inj ((hkey ▸ h.of_node hp).symm.trans hk)

end

end Indexes

end NodeList

/-! ## A map in code -/

section

variable {κ ν : Type} [DecidableEq κ]

theorem lookup_insert_eq (m : AList fun _ : κ => ν) (k : κ) (v : ν) :
    (fun j => (m.insert k v).lookup j) = update (fun j => m.lookup j) k (some v) := by
  funext j
  by_cases hj : j = k
  · subst hj
    rw [update_self, AList.lookup_insert]
  · rw [update_of_ne hj, AList.lookup_insert_ne hj]

theorem lookup_erase_eq (m : AList fun _ : κ => ν) (k : κ) :
    (fun j => (m.erase k).lookup j) = update (fun j => m.lookup j) k none := by
  funext j
  by_cases hj : j = k
  · subst hj
    rw [update_self, AList.lookup_erase]
  · rw [update_of_ne hj, AList.lookup_erase_ne hj]

end

end OpBase.Lib
