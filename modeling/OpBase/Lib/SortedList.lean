import Mathlib

/-!
# Sorted lists

Lists in strictly ascending order of a key, under a comparison with three outcomes. A search
stops at the first larger key, an insertion puts an element in front of it, and an element that
is replaced by one with its key stays where it is.

> `findSorted_eq_some_iff`: the search never stops too early.
>
> `insertSorted_sorted`, `replace_sorted`: both edits keep the order.
-/

namespace OpBase.Lib

open List

variable {α κ : Type} {cmp : κ → κ → Ordering} {key : α → κ} {xs : List α}

/-- Strictly ascending. -/
def Sorted (cmp : κ → κ → Ordering) (key : α → κ) (xs : List α) : Prop :=
  xs.Pairwise fun x y => cmp (key x) (key y) = .lt

/-- The search for a key. -/
def findSorted (cmp : κ → κ → Ordering) (key : α → κ) (k : κ) : List α → Option α
  | [] => none
  | x :: xs =>
    match cmp k (key x) with
    | .lt => none
    | .eq => some x
    | .gt => findSorted cmp key k xs

/-- In front of the first element with a larger key. -/
def insertSorted (cmp : κ → κ → Ordering) (key : α → κ) (y : α) : List α → List α
  | [] => [y]
  | x :: xs => if cmp (key y) (key x) = .lt then y :: x :: xs else x :: insertSorted cmp key y xs

/-- The element with the key of `y` becomes `y`. -/
def replaceSorted (cmp : κ → κ → Ordering) (key : α → κ) (y : α) (xs : List α) : List α :=
  xs.map fun x => if cmp (key x) (key y) = .eq then y else x

theorem mem_insertSorted {x y : α} :
    x ∈ insertSorted cmp key y xs ↔ x = y ∨ x ∈ xs := by
  induction xs with
  | nil => exact mem_cons
  | cons z xs ih =>
    unfold insertSorted
    split
    next => exact mem_cons
    next =>
      rw [mem_cons, ih, mem_cons, or_left_comm]

theorem not_lt_self [Std.ReflCmp cmp] {k : κ} : ¬ cmp k k = .lt := by
  rw [show cmp k k = .eq from Std.ReflCmp.compare_self]
  exact nofun

section

variable [Std.TransCmp cmp] [Std.LawfulEqCmp cmp]

/-- In a sorted list the search finds the element with the key. -/
theorem findSorted_eq_some_iff (h : Sorted cmp key xs) {k : κ} {x : α} :
    findSorted cmp key k xs = some x ↔ x ∈ xs ∧ key x = k := by
  induction xs with
  | nil => exact iff_of_false nofun fun h => not_mem_nil h.1
  | cons z xs ih =>
    obtain ⟨hz, hxs⟩ := pairwise_cons.mp h
    unfold findSorted
    split
    next hlt =>
      -- everything behind is larger still
      refine iff_of_false nofun fun ⟨hx, hk⟩ => ?_
      subst hk
      rcases mem_cons.mp hx with rfl | hx
      · exact not_lt_self hlt
      · exact not_lt_self (Std.TransCmp.lt_trans hlt (hz x hx))
    next heq =>
      obtain rfl := Std.LawfulEqCmp.eq_of_compare heq
      refine ⟨fun hx => Option.some.inj hx ▸ ⟨mem_cons_self, rfl⟩, fun ⟨hx, hk⟩ => ?_⟩
      rcases mem_cons.mp hx with rfl | hx
      · rfl
      · exact absurd (hk ▸ hz x hx) not_lt_self
    next hgt =>
      rw [ih hxs, mem_cons]
      refine ⟨fun ⟨hx, hk⟩ => ⟨.inr hx, hk⟩, fun ⟨hx, hk⟩ => ⟨?_, hk⟩⟩
      refine hx.resolve_left fun hxz => ?_
      rw [← hk, hxz] at hgt
      exact not_lt_self (Std.OrientedCmp.gt_iff_lt.mp hgt)

theorem findSorted_eq_none_iff (h : Sorted cmp key xs) {k : κ} :
    findSorted cmp key k xs = none ↔ ∀ x ∈ xs, key x ≠ k := by
  rw [Option.eq_none_iff_forall_ne_some]
  refine ⟨fun hnone x hx hk => hnone x ((findSorted_eq_some_iff h).mpr ⟨hx, hk⟩), ?_⟩
  intro hnot x hx
  obtain ⟨hmem, hkey⟩ := (findSorted_eq_some_iff h).mp hx
  exact hnot x hmem hkey

/-- A list stays sorted when an element with a new key is inserted. -/
theorem insertSorted_sorted {y : α} (h : Sorted cmp key xs) (hnew : ∀ x ∈ xs, key x ≠ key y) :
    Sorted cmp key (insertSorted cmp key y xs) := by
  induction xs with
  | nil => exact pairwise_singleton _ _
  | cons z xs ih =>
    obtain ⟨hz, hxs⟩ := pairwise_cons.mp h
    unfold insertSorted
    split
    next hlt =>
      refine pairwise_cons.mpr ⟨fun x hx => ?_, h⟩
      rcases mem_cons.mp hx with rfl | hx
      · exact hlt
      · exact Std.TransCmp.lt_trans hlt (hz x hx)
    next hnot =>
      have hzy : cmp (key z) (key y) = .lt := by
        cases hc : cmp (key y) (key z) with
        | lt => exact absurd hc hnot
        | eq => exact absurd (Std.LawfulEqCmp.eq_of_compare hc).symm (hnew z mem_cons_self)
        | gt => exact Std.OrientedCmp.gt_iff_lt.mp hc
      have hrest := ih hxs fun x hx => hnew x (mem_cons_of_mem z hx)
      refine pairwise_cons.mpr ⟨fun x hx => ?_, hrest⟩
      rcases mem_insertSorted.mp hx with rfl | hx
      · exact hzy
      · exact hz x hx

end

variable [Std.LawfulEqCmp cmp]

theorem key_replace (y x : α) : key (if cmp (key x) (key y) = .eq then y else x) = key x := by
  split
  next h => exact (Std.LawfulEqCmp.eq_of_compare h).symm
  next => rfl

theorem replaceSorted_sorted (y : α) (h : Sorted cmp key xs) :
    Sorted cmp key (replaceSorted cmp key y xs) := by
  refine pairwise_map.mpr (h.imp fun {a b} hab => ?_)
  have ha : key (if cmp (key a) (key y) = .eq then y else a) = key a := key_replace y a
  have hb : key (if cmp (key b) (key y) = .eq then y else b) = key b := key_replace y b
  rwa [ha, hb]

/-- Replacing puts the element in the place of the one with its key. -/
theorem mem_replaceSorted {x y : α} (h : ∃ z ∈ xs, key z = key y) :
    x ∈ replaceSorted cmp key y xs ↔ x = y ∨ x ∈ xs ∧ key x ≠ key y := by
  unfold replaceSorted
  rw [mem_map]
  constructor
  · rintro ⟨z, hz, rfl⟩
    split
    next => exact .inl rfl
    next hne => exact .inr ⟨hz, fun heq => hne (heq ▸ Std.ReflCmp.compare_self)⟩
  · rintro (rfl | ⟨hx, hne⟩)
    · obtain ⟨z, hz, hkey⟩ := h
      exact ⟨z, hz, if_pos (hkey ▸ Std.ReflCmp.compare_self)⟩
    · exact ⟨x, hx, if_neg fun heq => hne (Std.LawfulEqCmp.eq_of_compare heq)⟩

end OpBase.Lib
