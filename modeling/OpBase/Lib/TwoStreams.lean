import Mathlib

/-!
# Two streams into one buffer

A table whose entries have a part of fixed size and a part of varying size is written in one
pass by two positions: the first moves over the front of the buffer, a cell for each entry, the
second over what lies behind. Nothing but the sizes keeps the two apart.

> `Grows.exact_iff`: where the first stream ends where the second began, every cell up to the
> end of the second is written once; a size is right exactly if it is that end.
-/

namespace OpBase.Lib

open List

variable {α : Type}

/-- Where the streams are, and the cells written, in this order. -/
structure Streams (α : Type) where
  front : Nat
  back : Nat
  writes : List (Nat × α)

namespace Streams

def start (front back : Nat) : Streams α := ⟨front, back, []⟩

/-- The next cell of the first stream. -/
def pushFront (s : Streams α) (x : α) : Streams α :=
  { s with front := s.front + 1, writes := s.writes ++ [(s.front, x)] }

/-- The next cells of the second stream. -/
def pushBack (s : Streams α) (xs : List α) : Streams α :=
  { s with back := s.back + xs.length, writes := s.writes ++ (xs.zipIdx s.back).map Prod.swap }

/-- The cells written. -/
def cells (s : Streams α) : List Nat := s.writes.map Prod.fst

/-- `m` cells of the first stream and `k` of the second are written. -/
structure Grows (s s' : Streams α) (m k : Nat) : Prop where
  front : s'.front = s.front + m
  back : s'.back = s.back + k
  cells : s'.cells.Perm (s.cells ++ (List.range' s.front m ++ List.range' s.back k))

variable {s s' s'' : Streams α} {m m' k k' : Nat} {front : Nat}

theorem Grows.refl (s : Streams α) : Grows s s 0 0 :=
  ⟨rfl, rfl, by rw [range'_zero, range'_zero, append_nil, append_nil]⟩

/-- Writes at the two ends add up. -/
theorem Grows.trans (h : Grows s s' m k) (h' : Grows s' s'' m' k') :
    Grows s s'' (m + m') (k + k') := by
  refine ⟨by rw [h'.front, h.front, Nat.add_assoc], by rw [h'.back, h.back, Nat.add_assoc], ?_⟩
  have hfront : List.range' s.front (m + m') =
      List.range' s.front m ++ List.range' s'.front m' := by
    rw [h.front, range'_append_1]
  have hback : List.range' s.back (k + k') = List.range' s.back k ++ List.range' s'.back k' := by
    rw [h.back, range'_append_1]
  refine h'.cells.trans ((h.cells.append_right _).trans ?_)
  rw [hfront, hback, append_assoc, append_assoc, append_assoc]
  refine (List.Perm.append_left _ ?_).append_left _
  rw [← append_assoc, ← append_assoc]
  exact perm_append_comm.append_right _

theorem grows_pushFront (s : Streams α) (x : α) : Grows s (s.pushFront x) 1 0 := by
  refine ⟨rfl, rfl, ?_⟩
  unfold Streams.cells pushFront
  rw [map_append, range'_one, range'_zero, append_nil]
  rfl

theorem grows_pushBack (s : Streams α) (xs : List α) : Grows s (s.pushBack xs) 0 xs.length := by
  refine ⟨rfl, rfl, ?_⟩
  unfold Streams.cells pushBack
  rw [map_append, map_map, range'_zero, nil_append, ← zipIdx_map_snd s.back xs]
  rfl

theorem Grows.cells_perm (h : Grows (start front (front + m)) s m k) :
    s.cells.Perm (List.range' front (m + k)) := by
  rw [← range'_append_1]
  exact h.cells

theorem Grows.length_writes {back : Nat} (h : Grows (start front back) s m k) :
    s.writes.length = m + k := by
  have := h.cells.length_eq
  rwa [Streams.cells, length_map, start, Streams.cells, map_nil, nil_append,
    length_append, length_range', length_range'] at this

theorem Grows.nodup (h : Grows (start front (front + m)) s m k) : s.cells.Nodup :=
  h.cells_perm.nodup_iff.mpr nodup_range'

theorem Grows.mem_cells {i : Nat} (h : Grows (start front (front + m)) s m k) :
    i ∈ s.cells ↔ front ≤ i ∧ i < front + (m + k) := by
  rw [h.cells_perm.mem_iff, mem_range'_1]

/-- The cells are filled once each just when the size is that of both streams together. -/
theorem Grows.exact_iff {size : Nat} (h : Grows (start front (front + m)) s m k) :
    (size = front + s.writes.length ∧ s.cells.Nodup ∧ ∀ i ∈ s.cells, i < size) ↔
      size = front + (m + k) := by
  rw [h.length_writes]
  refine ⟨fun hsize => hsize.1, fun hsize => ⟨hsize, h.nodup, fun i hi => ?_⟩⟩
  rw [hsize]
  exact (h.mem_cells.mp hi).2

end Streams

end OpBase.Lib
