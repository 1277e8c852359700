import Mathlib

/-!
# Raw storage and object lifetimes

A buffer is a list of slots; a slot holds a live object or is raw. Constructing
writes a slot and is refused outside the buffer. Destroying and reading are
refused on a raw slot; destroying makes a slot raw, unless the objects of the
type have nothing to destroy, in which case it leaves them there. The loops that
containers are made of (construct a range, destroy a range, move a range to
another buffer, shift a range up or down in place) are written as such loops and
given one equation each, in terms of the parts the buffer is cut into.

> `shiftUp_eq`, `shiftDown_eq`: shifting by at least one slot moves the range.
>
> `shiftUp_self`: shifting *by nothing* destroys the range instead.
-/

namespace OpBase.Lib

open List
open Option (bind_eq_bind bind_some)

/-- Whether destroying an object of the type has no effect. -/
class Destructible (T : Type) where
  isTrivial : Bool

variable {T : Type}

/-- The slots of a buffer. -/
abbrev Slots (T : Type) := List (Option T)

namespace Slots

/-- `n` raw slots. -/
abbrev raw (n : Nat) : Slots T := List.replicate n none

/-- The slots of live objects. -/
abbrev live (xs : List T) : Slots T := xs.map some

def construct (s : Slots T) (i : Nat) (v : T) : Option (Slots T) :=
  if i < s.length then some (s.set i (some v)) else none

def read (s : Slots T) (i : Nat) : Option T :=
  match s[i]? with
  | some (some v) => some v
  | _ => none

/-- Construct the objects `vs` from slot `i` on. -/
def constructAll (s : Slots T) : Nat → List T → Option (Slots T)
  | _, [] => some s
  | i, v :: vs => (s.construct i v).bind fun s => constructAll s (i + 1) vs

variable [Destructible T]

/-- What is left in the slot of a destroyed object. -/
def left (v : T) : Option T := if Destructible.isTrivial T then some v else none

def destroy (s : Slots T) (i : Nat) : Option (Slots T) :=
  match s[i]? with
  | some (some v) => some (s.set i (left v))
  | _ => none

/-- Destroy `n` objects from slot `i` on. -/
def destroyAll (s : Slots T) : Nat → Nat → Option (Slots T)
  | _, 0 => some s
  | i, n + 1 => (s.destroy i).bind fun s => destroyAll s (i + 1) n

/-- Move `n` objects from slot `j` of `src` to slot `i` of `dst`, front to back. -/
def moveAll (dst src : Slots T) : Nat → Nat → Nat → Option (Slots T × Slots T)
  | _, _, 0 => some (dst, src)
  | i, j, n + 1 => do
    let v ← src.read j
    let dst ← dst.construct i v
    let src ← src.destroy j
    moveAll dst src (i + 1) (j + 1) n

/-- Move the `n` objects in front of slot `oldEnd` to the slots in front of `newEnd`, back to
front. -/
def shiftUp (s : Slots T) : Nat → Nat → Nat → Option (Slots T)
  | _, _, 0 => some s
  | oldEnd + 1, newEnd + 1, n + 1 => do
    let v ← s.read oldEnd
    let s ← s.construct newEnd v
    let s ← s.destroy oldEnd
    shiftUp s oldEnd newEnd n
  | _, _, _ + 1 => none

/-- Move the `n` objects from slot `j` on down to slot `i`, front to back. -/
def shiftDown (s : Slots T) : Nat → Nat → Nat → Option (Slots T)
  | _, _, 0 => some s
  | i, j, n + 1 => do
    let v ← s.read j
    let s ← s.construct i v
    let s ← s.destroy j
    shiftDown s (i + 1) (j + 1) n

/-! ## One slot -/

section

variable {s a b : Slots T} {i : Nat} {o : Option T} {v : T}

omit [Destructible T] in
theorem construct_eq (hs : s = a ++ o :: b) (hi : i = a.length) :
    s.construct i v = some (a ++ some v :: b) := by
  subst hs hi
  unfold construct
  rw [if_pos (by simp)]
  simp

theorem destroy_eq (hs : s = a ++ some v :: b) (hi : i = a.length) :
    s.destroy i = some (a ++ left v :: b) := by
  subst hs hi
  simp [destroy]

omit [Destructible T] in
theorem read_eq (hs : s = a ++ some v :: b) (hi : i = a.length) : s.read i = some v := by
  subst hs hi
  simp [read]

end

/-! ## Loops -/

omit [Destructible T] in
/-- Constructing does not look at what the slots held. -/
theorem constructAll_eq {b : Slots T} : ∀ {vs : List T} {s a m : Slots T} {i : Nat},
    s = a ++ m ++ b → i = a.length → m.length = vs.length →
    s.constructAll i vs = some (a ++ live vs ++ b)
  | [], s, a, m, i, hs, _, hm => by
    obtain rfl : m = [] := length_eq_zero_iff.mp hm
    simp [constructAll, hs]
  | v :: vs, s, a, m, i, hs, hi, hm => by
    cases m with
    | nil => cases hm
    | cons o m =>
      have hset : s.construct i v = some ((a ++ [some v]) ++ m ++ b) := by
        rw [construct_eq (a := a) (b := m ++ b) (o := o) (by simp [hs]) hi]
        simp
      rw [constructAll, hset, bind_some, constructAll_eq rfl (by simp [hi]) (by simpa using hm)]
      simp

/-- Destroying a range leaves it unoccupied and touches nothing else. -/
theorem destroyAll_eq {b : Slots T} : ∀ {xs : List T} {s a : Slots T} {i n : Nat},
    s = a ++ live xs ++ b → i = a.length → n = xs.length →
    s.destroyAll i n = some (a ++ xs.map left ++ b)
  | [], s, a, i, n, hs, _, hn => by
    subst hn
    simp [destroyAll, hs]
  | x :: xs, s, a, i, n, hs, hi, hn => by
    subst hn
    have hset : s.destroy i = some ((a ++ [left x]) ++ live xs ++ b) := by
      rw [destroy_eq (a := a) (b := live xs ++ b) (v := x) (by simp [hs]) hi]
      simp
    rw [length_cons, destroyAll, hset, bind_some, destroyAll_eq rfl (by simp [hi]) rfl]
    simp

/-- The objects are in `dst` afterwards, and their slots in `src` are left over. -/
theorem moveAll_eq {b d : Slots T} : ∀ {xs : List T} {dst src a c m : Slots T} {i j n : Nat},
    dst = a ++ m ++ b → src = c ++ live xs ++ d → i = a.length → j = c.length → n = xs.length →
    m.length = xs.length →
    moveAll dst src i j n = some (a ++ live xs ++ b, c ++ xs.map left ++ d)
  | [], dst, src, a, c, m, i, j, n, hdst, hsrc, _, _, hn, hm => by
    obtain rfl : m = [] := length_eq_zero_iff.mp hm
    subst hn
    simp [moveAll, hdst, hsrc]
  | x :: xs, dst, src, a, c, m, i, j, n, hdst, hsrc, hi, hj, hn, hm => by
    subst hn
    cases m with
    | nil => cases hm
    | cons o m =>
      have hread : src.read j = some x := read_eq (a := c) (b := live xs ++ d) (by simp [hsrc]) hj
      have hcons : dst.construct i x = some ((a ++ [some x]) ++ m ++ b) := by
        rw [construct_eq (a := a) (b := m ++ b) (o := o) (by simp [hdst]) hi]
        simp
      have hdes : src.destroy j = some ((c ++ [left x]) ++ live xs ++ d) := by
        rw [destroy_eq (a := c) (b := live xs ++ d) (v := x) (by simp [hsrc]) hj]
        simp
      rw [length_cons, moveAll]
      simp only [hread, hcons, hdes, bind_eq_bind, bind_some]
      rw [moveAll_eq rfl rfl (by simp [hi]) (by simp [hj]) rfl (by simpa using hm)]
      simp

omit [Destructible T] in
theorem exists_last {xs : List T} {n : Nat} (hn : n + 1 = xs.length) :
    ∃ ys y, xs = ys ++ [y] ∧ n = ys.length := by
  rcases eq_nil_or_concat xs with rfl | ⟨ys, y, h⟩
  · cases hn
  · rw [concat_eq_append] at h
    exact ⟨ys, y, h, by simpa [h] using hn⟩

/-- Shifting up over `k > 0` slots leaves a gap of `k` slots in front. -/
theorem shiftUp_eq {a : Slots T} : ∀ {n : Nat} {xs : List T} {s m b : Slots T}
    {p q : Nat}, s = a ++ live xs ++ m ++ b → 0 < m.length → n = xs.length →
    p = a.length + n → q = p + m.length →
    ∃ g, g.length = m.length ∧ s.shiftUp p q n = some (a ++ g ++ live xs ++ b)
  | 0, xs, s, m, b, _, _, hs, _, hn, _, _ => by
    obtain rfl : xs = [] := length_eq_zero_iff.mp hn.symm
    exact ⟨m, rfl, by simp [shiftUp, hs]⟩
  | n + 1, xs, s, m, b, p, q, hs, hm, hn, hold, hnew => by
    obtain ⟨ys, y, rfl, rfl⟩ := exists_last hn
    obtain ⟨m, o, rfl, -⟩ := exists_last (Nat.sub_add_cancel hm)
    obtain rfl : p = (a.length + ys.length) + 1 := by omega
    obtain rfl : q = (a.length + ys.length + 1 + m.length) + 1 := by
      simp only [length_append, length_singleton] at hnew
      omega
    -- the last element goes first, to the end of the gap
    have hread : s.read (a.length + ys.length) = some y :=
      read_eq (a := a ++ live ys) (b := (m ++ [o]) ++ b) (by simp [hs]) (by simp)
    have hcons : s.construct (a.length + ys.length + 1 + m.length) y
        = some ((a ++ live ys) ++ some y :: (m ++ some y :: b)) := by
      rw [construct_eq (a := a ++ live ys ++ some y :: m) (b := b) (o := o)
        (by simp [hs]) (by simp; omega)]
      simp
    have hdes : destroy ((a ++ live ys) ++ some y :: (m ++ some y :: b)) (a.length + ys.length)
        = some (a ++ live ys ++ (left y :: m) ++ (some y :: b)) := by
      rw [destroy_eq (a := a ++ live ys) rfl (by simp)]
      simp
    obtain ⟨g, hg, hshift⟩ := shiftUp_eq (p := a.length + ys.length)
      (q := a.length + ys.length + 1 + m.length)
      (rfl : a ++ live ys ++ (left y :: m) ++ (some y :: b) = _) (Nat.succ_pos _) rfl rfl
      (by rw [length_cons]; omega)
    refine ⟨g, by rw [hg]; simp, ?_⟩
    rw [shiftUp]
    simp only [hread, hcons, hdes, bind_eq_bind, bind_some]
    rw [hshift]
    simp

/-- Each object is constructed from itself and destroyed. -/
theorem shiftUp_self {a : Slots T} : ∀ {n : Nat} {xs : List T} {s b : Slots T} {p : Nat},
    s = a ++ live xs ++ b → n = xs.length → p = a.length + n →
    s.shiftUp p p n = some (a ++ xs.map left ++ b)
  | 0, xs, s, b, _, hs, hn, _ => by
    obtain rfl : xs = [] := length_eq_zero_iff.mp hn.symm
    simp [shiftUp, hs]
  | n + 1, xs, s, b, p, hs, hn, hold => by
    obtain ⟨ys, y, rfl, rfl⟩ := exists_last hn
    obtain rfl : p = (a.length + ys.length) + 1 := by omega
    have hread : s.read (a.length + ys.length) = some y :=
      read_eq (a := a ++ live ys) (b := b) (by simp [hs]) (by simp)
    have hcons : s.construct (a.length + ys.length) y = some ((a ++ live ys) ++ some y :: b) :=
      construct_eq (a := a ++ live ys) (b := b) (o := some y) (by simp [hs]) (by simp)
    have hdes : destroy ((a ++ live ys) ++ some y :: b) (a.length + ys.length)
        = some (a ++ live ys ++ left y :: b) :=
      destroy_eq (a := a ++ live ys) rfl (by simp)
    rw [shiftUp]
    simp only [hread, hcons, hdes, bind_eq_bind, bind_some]
    rw [shiftUp_self rfl rfl rfl]
    simp

/-- Shifting down over the `k > 0` slots `m` leaves `k` slots behind. -/
theorem shiftDown_eq {b : Slots T} : ∀ {xs : List T} {s a m : Slots T} {i j n : Nat},
    s = a ++ m ++ live xs ++ b → 0 < m.length → i = a.length → j = a.length + m.length →
    n = xs.length →
    ∃ g, g.length = m.length ∧ s.shiftDown i j n = some (a ++ live xs ++ g ++ b)
  | [], s, a, m, i, j, n, hs, _, _, _, hn => by
    subst hn
    exact ⟨m, rfl, by simp [shiftDown, hs]⟩
  | x :: xs, s, a, m, i, j, n, hs, hm, hi, hj, hn => by
    subst hn
    obtain ⟨o, m, rfl⟩ := exists_cons_of_length_pos hm
    have hread : s.read j = some x :=
      read_eq (a := a ++ o :: m) (b := live xs ++ b) (by simp [hs]) (by simp [hj])
    have hcons : s.construct i x = some ((a ++ some x :: m) ++ some x :: (live xs ++ b)) := by
      rw [construct_eq (a := a) (b := m ++ some x :: (live xs ++ b)) (o := o) (by simp [hs]) hi]
      simp
    have hdes : destroy ((a ++ some x :: m) ++ some x :: (live xs ++ b)) j
        = some ((a ++ [some x]) ++ (m ++ [left x]) ++ live xs ++ b) := by
      rw [destroy_eq (a := a ++ some x :: m) rfl (by simp [hj])]
      simp
    obtain ⟨g, hg, hshift⟩ := shiftDown_eq (i := i + 1) (j := j + 1)
      (rfl : (a ++ [some x]) ++ (m ++ [left x]) ++ live xs ++ b = _) (by simp) (by simp [hi])
      (by simp [hj]; omega) rfl
    refine ⟨g, by rw [hg]; simp, ?_⟩
    rw [length_cons, shiftDown]
    simp only [hread, hcons, hdes, bind_eq_bind, bind_some]
    rw [hshift]
    simp

end Slots

end OpBase.Lib
