import OpBase.Util.SmallVector

/-!
# Small vectors refine lists

`Holds N v xs`: the vector shows the elements `xs`, and its storage is the inline one
or one heap buffer of `capacity` slots. Every call keeps it and does to `xs` what
`listCall` does, with two exceptions: inserting *nothing* in front of the last
element, where `ExpandSize` shifts the tail by zero slots, constructing each element
from itself and destroying it; and inserting so much that the new size wraps.

> `smallVector_refines`: a program on vectors behaves as on lists at every point
> if and only if it never inserts an empty range before the end, of elements that
> there is something to destroy in, and no size wraps.
>
> `constructsRange_iff`: the constructor from a range, which no statement of such a
> program is, leaves the memory as it was.
-/

namespace OpBase.Util

open List

open Function (update update_of_ne update_self)
open OpBase.Lib OpBase.Lib.Slots
open Option (bind_eq_bind bind_some ite_none_right_eq_some map_some some.inj)
open SmallVector (copyOf copyRange initStorage moveFromSelf ofRange ptrAdd uninit wrap)

variable {T : Type} {N : Nat} {v : SmallVector T} {s a b m : Slots T} {xs : List T} {ws : List T}
  {i : Nat} {v' : SmallVector T} {ys : List T}

/-- The current storage is `s`, inline or a heap buffer larger than the inline one. -/
structure Placed (N : Nat) (v : SmallVector T) (s : Slots T) : Prop where
  storage : v.storage = s
  length : s.length = v.capacity
  inline : v.inlineStorage.length = N
  place : v.allocatedStorage = none ∧ v.capacity = N ∨
    v.allocatedStorage.isSome ∧ N < v.capacity

/-- The vector holds exactly the elements `xs`. -/
structure Holds (N : Nat) (v : SmallVector T) (xs : List T) : Prop where
  placed : ∃ rest, Placed N v (live xs ++ rest)
  size : v.size = xs.length

namespace Placed

/-- Storage of the same length takes the place of the old one. -/
theorem setStorage (h : Placed N v s) {t : Slots T} (hlen : t.length = s.length) :
    Placed N (v.setStorage t) t ∧ (v.setStorage t).capacity = v.capacity ∧
      (v.setStorage t).size = v.size := by
  obtain ⟨hs, hl, hin, hp⟩ := h
  unfold SmallVector.setStorage
  cases ha : v.allocatedStorage with
  | none =>
    have hcap : v.capacity = N := by
      rcases hp with hp | hp
      · exact hp.2
      · rw [ha] at hp; cases hp.1
    have hlen' := hlen.trans hl
    exact ⟨⟨rfl, hlen', hlen'.trans hcap, Or.inl ⟨rfl, hcap⟩⟩, rfl, rfl⟩
  | some buf =>
    have hheap : N < v.capacity := by
      rcases hp with hp | hp
      · rw [ha] at hp; cases hp.1
      · exact hp.2
    exact ⟨⟨rfl, hlen.trans hl, hin, Or.inr ⟨rfl, hheap⟩⟩, rfl, rfl⟩

theorem size (h : Placed N v s) (n : Nat) : Placed N { v with size := n } s :=
  ⟨h.storage, h.length, h.inline, h.place⟩

theorem le_capacity (h : Placed N v s) : N ≤ v.capacity := by
  rcases h.place with ⟨-, hN⟩ | ⟨-, hN⟩ <;> omega

end Placed

theorem initStorage_placed (h : v.inlineStorage.length = N) (n : Nat) :
    ∃ s, Placed N (initStorage N v n) s ∧ (initStorage N v n).size = n ∧ n ≤ s.length := by
  unfold initStorage
  split
  next hn => exact ⟨raw n, ⟨rfl, by simp, h, Or.inr ⟨rfl, hn⟩⟩, rfl, by simp⟩
  next hn => exact ⟨v.inlineStorage, ⟨rfl, h, h, Or.inl ⟨rfl, rfl⟩⟩, rfl, by omega⟩

/-- Elements are constructed over whatever slots are there. -/
theorem copyRange_spec (h : Placed N v (a ++ m ++ b)) (hm : m.length = ws.length)
    (hi : i = a.length) :
    ∃ v', v.copyRange i ws = some v' ∧ Placed N v' (a ++ live ws ++ b) ∧
      v'.size = v.size ∧ v'.capacity = v.capacity := by
  have hlen : (a ++ live ws ++ b).length = (a ++ m ++ b).length := by simp [hm]
  obtain ⟨hp, hcap, hsize⟩ := h.setStorage hlen
  refine ⟨v.setStorage (a ++ live ws ++ b), ?_, hp, hsize, hcap⟩
  unfold copyRange
  rw [h.storage, constructAll_eq rfl hi hm]
  rfl

theorem mapM_id_iff : ∀ {s : Slots T} {xs : List T}, s.mapM id = some xs ↔ s = live xs
  | [], xs => by
    rw [mapM_nil]
    cases xs <;> simp [pure]
  | o :: s, xs => by
    rw [mapM_cons]
    cases o with
    | none => cases xs <;> simp
    | some x =>
      show ((s.mapM id).bind fun ys => some (x :: ys)) = some xs ↔ _
      rw [Option.bind_eq_some_iff]
      constructor
      · intro ⟨ys, hys, heq⟩
        cases heq
        rw [mapM_id_iff.mp hys]
        rfl
      · intro heq
        cases xs with
        | nil => cases heq
        | cons y ys =>
          obtain ⟨rfl, hs⟩ : x = y ∧ s = live ys := by simpa using heq
          exact ⟨ys, mapM_id_iff.mpr hs, rfl⟩

theorem live_append (xs ys : List T) : live (xs ++ ys) = live xs ++ live ys := map_append

theorem length_live_take (h : i ≤ xs.length) : i = (live (xs.take i)).length := by
  rw [length_map, length_take, Nat.min_eq_left h]

/-- Elements with nothing to destroy are still there when they are destroyed. -/
theorem map_left [Destructible T] (h : Destructible.isTrivial T = true) (xs : List T) :
    xs.map left = live xs :=
  map_congr_left fun _ _ => if_pos h

namespace Holds

theorem le (h : Holds N v xs) : xs.length ≤ v.capacity := by
  obtain ⟨rest, hp⟩ := h.placed
  rw [← hp.length, length_append, length_map]
  exact Nat.le_add_right _ _

theorem inline (h : Holds N v xs) : v.inlineStorage.length = N :=
  h.placed.elim fun _ => Placed.inline

theorem elements (h : Holds N v xs) : v.elements = some xs := by
  obtain ⟨rest, hp⟩ := h.placed
  unfold SmallVector.elements
  rw [hp.storage, h.size, take_left' (by simp)]
  exact mapM_id_iff.mpr rfl

/-- Filling storage that `InitStorage` or `ClearElements` left. -/
theorem fill (h : Placed N v s) (hsize : v.size = xs.length) (hle : xs.length ≤ s.length) :
    ∃ v', v.copyRange 0 xs = some v' ∧ Holds N v' xs := by
  rw [← take_append_drop xs.length s, ← nil_append (s.take _)] at h
  obtain ⟨v', hcopy, hp, hsz, -⟩ :=
    copyRange_spec h (by rw [length_take, Nat.min_eq_left hle]) rfl
  exact ⟨v', hcopy, ⟨_, hp⟩, hsz.trans hsize⟩

theorem ofList (N : Nat) (xs : List T) : ∃ v, SmallVector.ofList N xs = some v ∧ Holds N v xs := by
  obtain ⟨s, hp, hsize, hle⟩ :=
    initStorage_placed (v := uninit N) (N := N) (length_replicate ..) xs.length
  exact fill hp hsize hle

theorem default (N : Nat) : Holds N (SmallVector.default N : SmallVector T) [] :=
  ⟨⟨raw N, rfl, length_replicate .., length_replicate .., Or.inl ⟨rfl, rfl⟩⟩, rfl⟩

variable [Destructible T] {w : SmallVector T}

theorem clearElements (h : Holds N v xs) :
    ∃ v' s, v.clearElements = some v' ∧ Placed N v' s ∧ v'.capacity = v.capacity := by
  obtain ⟨rest, hplaced⟩ := h.placed
  have hlen : (xs.map left ++ rest).length = (live xs ++ rest).length := by simp
  obtain ⟨hp, hcap, -⟩ := hplaced.setStorage hlen
  have hdestroy : v.storage.destroyAll 0 v.size = some (xs.map left ++ rest) :=
    destroyAll_eq (a := []) hplaced.storage rfl h.size
  refine ⟨_, _, ?_, hp, hcap⟩
  unfold SmallVector.clearElements
  rw [hdestroy]
  rfl

theorem clear (h : Holds N v xs) : ∃ v', v.clear N = some v' ∧ Holds N v' [] := by
  obtain ⟨v', s, hclear, hp, -⟩ := h.clearElements
  refine ⟨_, by simp only [SmallVector.clear, hclear, bind_eq_bind, bind_some]; rfl, ?_⟩
  exact ⟨⟨v'.inlineStorage, rfl, hp.inline, hp.inline, Or.inl ⟨rfl, rfl⟩⟩, rfl⟩

section

variable (h : Holds N v xs)
include h

theorem assign (ys : List T) : ∃ v', v.assign N ys = some v' ∧ Holds N v' ys := by
  obtain ⟨w, s, hclear, hp, -⟩ := h.clearElements
  unfold SmallVector.assign
  rw [hclear]
  show ∃ v', (if w.capacity < ys.length then
      (initStorage N w.freeStorage ys.length).copyRange 0 ys
    else copyRange { w with size := ys.length } 0 ys) = some v' ∧ Holds N v' ys
  split
  next hlt =>
    obtain ⟨s', hp', hsize, hle⟩ :=
      initStorage_placed (v := w.freeStorage) (N := N) hp.inline ys.length
    exact fill hp' hsize hle
  next hge => exact fill (hp.size ys.length) rfl (hp.length ▸ Nat.le_of_not_lt hge)

/-! ### Growing and shrinking -/

/-- A new buffer with a gap of `len` slots at `i`. Behind a gap that makes the vector
`2 ^ 64 - 1` slots long `PtrAdd` would answer with null. -/
theorem expandCap (i len : Nat) (hi : i ≤ xs.length) (hlen : v.capacity < xs.length + len)
    (hmax : xs.length + len < 2 ^ 64) (hadd : xs.length + len < 2 ^ 64 - 1 ∨ i = xs.length) :
    ∃ v' g rest, v.expandCap i len = some v' ∧ v'.size = v.size ∧ g.length = len ∧
      Placed N v' (live (xs.take i) ++ g ++ (live (xs.drop i) ++ rest)) := by
  have hsize := h.size
  obtain ⟨rest, hplaced⟩ := h.placed
  have hcap := hplaced.length
  rw [length_append, length_map] at hcap
  have hsrc : v.storage = [] ++ live (xs.take i) ++ (live (xs.drop i) ++ rest) := by
    rw [hplaced.storage, nil_append, ← append_assoc, ← map_append, take_append_drop]
  have hsum : wrap (v.size + len) = xs.length + len := by
    rw [hsize]
    exact Nat.mod_eq_of_lt hmax
  set newCap := max (wrap (v.capacity * 2)) (wrap (v.size + len)) with hnew
  have hle : xs.length + len ≤ newCap := hsum ▸ Nat.le_max_right _ _
  have hodd : xs.length + len < 2 ^ 64 - 1 → newCap + 1 < 2 ^ 64 := by
    unfold wrap at hnew hsum
    omega
  have hraw : (raw newCap : Slots T) = [] ++ raw i ++ raw (newCap - i) := by
    rw [nil_append, replicate_append_replicate, Nat.add_sub_cancel' (by omega)]
  have hmove₁ : moveAll (raw newCap) v.storage 0 0 i =
      some ([] ++ live (xs.take i) ++ raw (newCap - i),
        [] ++ (xs.take i).map left ++ (live (xs.drop i) ++ rest)) :=
    moveAll_eq hraw hsrc rfl rfl (by simp; omega) (by simp; omega)
  have hgap : [] ++ live (xs.take i) ++ raw (newCap - i) = (live (xs.take i) ++ raw len) ++
      raw (xs.length - i) ++ raw (newCap - (xs.length + len)) := by
    rw [nil_append, append_assoc, append_assoc, replicate_append_replicate,
      replicate_append_replicate]
    congr 2
    omega
  -- The tail goes behind the gap; at the end there is none to go there.
  obtain ⟨old, hmove₂, hold⟩ : ∃ old, moveAll ([] ++ live (xs.take i) ++ raw (newCap - i))
      ([] ++ (xs.take i).map left ++ (live (xs.drop i) ++ rest))
      (ptrAdd newCap i (wrap (newCap + 1)) len) i (v.size - i) = some
        ((live (xs.take i) ++ raw len) ++ live (xs.drop i) ++ raw (newCap - (xs.length + len)),
          old) ∧ old.length = v.capacity := by
    rcases hadd with hadd | rfl
    · have hptr : ptrAdd newCap i (wrap (newCap + 1)) len = i + len := by
        unfold ptrAdd wrap
        rw [Nat.mod_eq_of_lt (hodd hadd), if_pos (by omega)]
      rw [hptr]
      refine ⟨_, moveAll_eq hgap (append_assoc ..).symm (by simp; omega) (by simp; omega)
        (by simp; omega) (by simp), ?_⟩
      simp
      omega
    · rw [hgap, hsize, Nat.sub_self, drop_length]
      refine ⟨_, rfl, ?_⟩
      simp
      omega
  obtain ⟨hp, -, hs⟩ := hplaced.setStorage (t := old) (by simp; omega)
  have hN := hplaced.le_capacity
  refine ⟨{ (v.setStorage old).freeStorage with
    allocatedStorage := some ((live (xs.take i) ++ raw len) ++ live (xs.drop i) ++
      raw (newCap - (xs.length + len))), capacity := newCap },
    raw len, raw (newCap - (xs.length + len)), ?_, hs, length_replicate .., ?_⟩
  · simp only [SmallVector.expandCap, ← hnew, hmove₁, hmove₂, bind_eq_bind, bind_some]
  · refine ⟨append_assoc .., ?_, hp.inline, Or.inr ⟨rfl, ?_⟩⟩
    · simp only [length_append, length_map, length_replicate, length_take, length_drop]
      omega
    · show N < newCap
      omega

/-- Making room moves the elements behind, and leaves slots for the new ones. -/
theorem expandSize (i len : Nat) (hi : i ≤ xs.length) (hlen : xs.length + len ≤ v.capacity)
    (hmax : xs.length + len < 2 ^ 64)
    (hpos : 0 < len ∨ i = xs.length ∨ Destructible.isTrivial T = true) :
    ∃ v' g rest, v.expandSize i len = some v' ∧ v'.size = v.size + len ∧ g.length = len ∧
      Placed N v' (live (xs.take i) ++ g ++ (live (xs.drop i) ++ rest)) := by
  have hsize := h.size
  obtain ⟨rest, hplaced⟩ := h.placed
  have hcap := hplaced.length
  rw [length_append, length_map] at hcap
  have hsum : wrap (v.size + len) = v.size + len := by
    rw [hsize]
    exact Nat.mod_eq_of_lt hmax
  have hsrc : v.storage = live (xs.take i) ++ live (xs.drop i) ++ rest := by
    rw [hplaced.storage, ← map_append, take_append_drop]
  obtain ⟨g, hg, hshift⟩ : ∃ g, g.length = len ∧
      v.storage.shiftUp v.size (v.size + len) (v.size - i) =
        some (live (xs.take i) ++ g ++ live (xs.drop i) ++ rest.drop len) := by
    have htake := length_live_take hi
    rcases Nat.eq_zero_or_pos len with rfl | hpos'
    · -- Nothing is inserted: there is no tail, or destroying it has no effect.
      rw [Nat.add_zero, shiftUp_self (n := v.size - i) hsrc (by simp; omega) (by omega)]
      refine ⟨[], rfl, ?_⟩
      rcases (hpos.resolve_left (Nat.lt_irrefl 0)) with rfl | htriv
      · simp
      · rw [map_left htriv, append_nil, drop_zero]
    · have hsrc' : v.storage = live (xs.take i) ++ live (xs.drop i) ++ rest.take len ++
          rest.drop len := by rw [append_assoc _ (rest.take len), take_append_drop, hsrc]
      have hm : (rest.take len).length = len := by rw [length_take]; omega
      obtain ⟨g, hg, hshift⟩ := shiftUp_eq (n := v.size - i) (p := v.size)
        (q := v.size + len) hsrc' (by omega) (by simp; omega) (by omega) (by omega)
      exact ⟨g, hg.trans hm, hshift⟩
  obtain ⟨hp, -, -⟩ := hplaced.setStorage
    (t := live (xs.take i) ++ g ++ (live (xs.drop i) ++ rest.drop len)) (by simp; omega)
  refine ⟨_, g, rest.drop len, ?_, rfl, hg, hp.size (v.size + len)⟩
  rw [append_assoc] at hshift
  simp only [SmallVector.expandSize, hsum, hshift, bind_eq_bind, bind_some]

/-- Room for `len` elements at `i`. -/
theorem expand (i len : Nat) (hi : i ≤ xs.length)
    (hpos : 0 < len ∨ i = xs.length ∨ Destructible.isTrivial T = true)
    (hmax : xs.length + len < 2 ^ 64) (hadd : xs.length + len < 2 ^ 64 - 1 ∨ i = xs.length) :
    ∃ v' g rest, v.expand i len = some v' ∧ v'.size = xs.length + len ∧ g.length = len ∧
      Placed N v' (live (xs.take i) ++ g ++ (live (xs.drop i) ++ rest)) := by
  have hsize := h.size
  have hsum : wrap (v.size + len) = xs.length + len := by
    rw [hsize]
    exact Nat.mod_eq_of_lt hmax
  unfold SmallVector.expand
  rw [Nat.add_comm len, hsum]
  split
  next hgrow =>
    obtain ⟨v', g, rest, hcap, hs, hg, hp⟩ := h.expandCap i len hi hgrow hmax hadd
    refine ⟨_, g, rest, ?_, rfl, hg, hp.size _⟩
    simp only [hcap, bind_eq_bind, bind_some, hs, hsum]
  next hfits =>
    obtain ⟨v', g, rest, hexp, hs, hg, hp⟩ := h.expandSize i len hi (by omega) hmax hpos
    exact ⟨v', g, rest, hexp, by omega, hg, hp⟩

theorem insertRange (i : Nat) (ws : List T) (hi : i ≤ xs.length)
    (hpos : ws ≠ [] ∨ i = xs.length ∨ Destructible.isTrivial T = true)
    (hmax : xs.length + ws.length < 2 ^ 64)
    (hadd : xs.length + ws.length < 2 ^ 64 - 1 ∨ i = xs.length) :
    ∃ v', v.insertRange i ws = some v' ∧ Holds N v' (xs.take i ++ ws ++ xs.drop i) := by
  obtain ⟨w, g, rest, hexp, hsize, hg, hp⟩ :=
    h.expand i ws.length hi (hpos.imp_left length_pos_iff.mpr) hmax hadd
  obtain ⟨v', hcopy, hp', hsize', -⟩ := copyRange_spec hp hg (length_live_take hi)
  refine ⟨v', by simp only [SmallVector.insertRange, hexp, bind_eq_bind, bind_some, hcopy],
    ⟨rest, ?_⟩, ?_⟩
  · rw [live_append, live_append, append_assoc]
    exact hp'
  · rw [hsize', hsize]
    simp only [length_append, length_take, length_drop]
    omega

/-- Elements are taken out, and those behind move up. -/
theorem shrink (i j : Nat) (hij : i < j) (hj : j ≤ xs.length) :
    ∃ v', v.shrink i j = some v' ∧ Holds N v' (xs.take i ++ xs.drop j) := by
  have hsize := h.size
  obtain ⟨rest, hplaced⟩ := h.placed
  have hparts : xs = xs.take i ++ ((xs.drop i).take (j - i) ++ xs.drop j) := by
    conv_lhs => rw [← take_append_drop i xs, ← take_append_drop (j - i) (xs.drop i)]
    rw [drop_drop, Nat.add_sub_cancel' (Nat.le_of_lt hij)]
  have hmid : ((xs.drop i).take (j - i)).length = j - i := by simp; omega
  have hsrc : v.storage = live (xs.take i) ++ live ((xs.drop i).take (j - i)) ++
      (live (xs.drop j) ++ rest) := by
    have hlive : live xs =
        live (xs.take i) ++ (live ((xs.drop i).take (j - i)) ++ live (xs.drop j)) := by
      rw [← live_append, ← live_append, ← hparts]
    rw [hplaced.storage, hlive]
    simp only [append_assoc]
  have hi : i = (live (xs.take i)).length := length_live_take (by omega)
  -- The erased elements are destroyed, and the tail is shifted down over their slots.
  have hdes := destroyAll_eq hsrc hi hmid.symm
  obtain ⟨g, hg, hshift⟩ := shiftDown_eq (m := ((xs.drop i).take (j - i)).map left) (i := i)
    (j := j) (n := v.size - j) (append_assoc _ (live (xs.drop j)) rest).symm
    (by simp; omega) hi (by simp; omega) (by simp; omega)
  set s := live (xs.take i) ++ live (xs.drop j) ++ g ++ rest with hs
  have hlen : s.length = (live xs ++ rest).length := by
    simp [hs, hg]
    omega
  obtain ⟨hp, -, -⟩ := hplaced.setStorage hlen
  refine ⟨{ v.setStorage s with size := i + (v.size - j) }, ?_, ⟨g ++ rest, ?_⟩, ?_⟩
  · simp only [SmallVector.shrink, hdes, hshift, bind_eq_bind, bind_some]
  · rw [live_append, ← append_assoc]
    exact hp.size (i + (v.size - j))
  · simp only [length_append, length_take, length_drop]
    omega

/-! ### Moving between vectors -/

end

/-- Moving takes the elements over, and leaves an empty vector. -/
theorem moveFrom (hv : v.inlineStorage.length = N) (hw : Holds N w ys) :
    ∃ v' w', SmallVector.moveFrom N v w = some (v', w') ∧ Holds N v' ys ∧ Holds N w' [] := by
  unfold SmallVector.moveFrom
  have hempty : ∀ u : SmallVector T, u.inlineStorage.length = N →
      Holds N (initStorage N u 0) [] := by
    intro u hu
    obtain ⟨s, hp, hsize, -⟩ := initStorage_placed hu 0
    exact ⟨⟨s, hp⟩, hsize⟩
  obtain ⟨rest, hp⟩ := hw.placed
  cases hbuf : w.allocatedStorage with
  | some buf =>
    -- The buffer changes hands as it is.
    have hN : N < w.capacity := by
      rcases hp.place with ⟨ha, -⟩ | ⟨-, hN⟩
      · rw [hbuf] at ha; cases ha
      · exact hN
    have hstore : buf = live ys ++ rest := by
      have := hp.storage
      rwa [SmallVector.storage, hbuf] at this
    exact ⟨_, _, rfl, ⟨⟨rest, hstore, hp.length, hv, Or.inr ⟨rfl, hN⟩⟩, hw.size⟩,
      hempty w hp.inline⟩
  | none =>
    -- Inline elements are moved one by one over the slots of `v`.
    have hcap : w.capacity = N := by
      rcases hp.place with ⟨-, hN⟩ | ⟨ha, -⟩
      · exact hN
      · rw [hbuf] at ha; cases ha
    have hstore : w.inlineStorage = [] ++ live ys ++ rest := by
      have := hp.storage
      rwa [SmallVector.storage, hbuf] at this
    have hle : ys.length ≤ N := hcap ▸ hw.le
    have hmove : moveAll v.inlineStorage w.inlineStorage 0 0 w.size = some
        ([] ++ live ys ++ v.inlineStorage.drop ys.length, [] ++ ys.map left ++ rest) :=
      moveAll_eq (take_append_drop ys.length v.inlineStorage).symm hstore rfl rfl hw.size
        (by rw [length_take]; omega)
    have hlen : ([] ++ live ys ++ v.inlineStorage.drop ys.length).length = N := by
      simp
      omega
    have hlen' : ([] ++ ys.map left ++ rest).length = N := by
      have := congrArg length hstore
      rw [hp.inline] at this
      simpa using this.symm
    simp only [hmove, bind_eq_bind, bind_some]
    exact ⟨_, _, rfl, ⟨⟨_, rfl, hlen.trans hcap.symm, hlen, Or.inl ⟨rfl, hcap⟩⟩, hw.size⟩,
      hempty _ hlen'⟩

theorem swap (hv : Holds N v xs) (hw : Holds N w ys) :
    ∃ v' w', SmallVector.swap N v w = some (v', w') ∧ Holds N v' ys ∧ Holds N w' xs := by
  unfold SmallVector.swap
  split
  next =>
    obtain ⟨tmp, w₁, h₁, htmp, hw₁⟩ := hw.moveFrom (default N).inline
    obtain ⟨w₂, v₁, h₂, hw₂, hv₁⟩ := hv.moveFrom hw₁.inline
    obtain ⟨v₂, tmp', h₃, hv₂, -⟩ := htmp.moveFrom hv₁.inline
    exact ⟨v₂, w₂, by simp only [h₁, h₂, h₃, bind_eq_bind, bind_some], hv₂, hw₂⟩
  next =>
    obtain ⟨tmp, v₁, h₁, htmp, hv₁⟩ := hv.moveFrom (default N).inline
    obtain ⟨v₂, w₁, h₂, hv₂, hw₁⟩ := hw.moveFrom hv₁.inline
    obtain ⟨w₂, tmp', h₃, hw₂, -⟩ := htmp.moveFrom hw₁.inline
    exact ⟨v₂, w₂, by simp only [h₁, h₂, h₃, bind_eq_bind, bind_some], hv₂, hw₂⟩

/-- The vector is empty when it is moved onto itself. -/
theorem swapSelf (hv : Holds N v xs) : ∃ v', v.swapSelf N = some v' ∧ Holds N v' xs := by
  obtain ⟨tmp, v₁, h₁, htmp, hv₁⟩ := hv.moveFrom (default N).inline
  have hself : ∃ v₂, moveFromSelf N v₁ = some v₂ ∧ v₂.inlineStorage.length = N := by
    unfold moveFromSelf
    cases v₁.allocatedStorage with
    | some buf => exact ⟨_, rfl, by simp [initStorage, hv₁.inline]⟩
    | none =>
      rw [hv₁.size]
      exact ⟨_, rfl, by simp [initStorage, hv₁.inline]⟩
  obtain ⟨v₂, h₂, hlen⟩ := hself
  obtain ⟨v₃, tmp', h₃, hv₃, -⟩ := htmp.moveFrom hlen
  refine ⟨v₃, ?_, hv₃⟩
  unfold SmallVector.swapSelf
  simp only [h₁, h₂, h₃, bind_eq_bind, bind_some]

end Holds

/-! ## Several vectors -/

/-- Every vector holds the list of its name. -/
def Matches (N : Nat) (st : Vectors T) (A : Nat → Option (List T)) : Prop :=
  ∀ i, Option.Rel (Holds N) (st i) (A i)

variable {st : Vectors T} {A : Nat → Option (List T)}

theorem Matches.update (h : Matches N st A) (i : Nat)
    (hv : Holds N v xs) : Matches N (update st i (some v)) (update A i (some xs)) := by
  intro j
  by_cases hj : j = i
  · subst hj
    rw [update_self, update_self]
    exact Option.Rel.some hv
  · rw [update_of_ne hj, update_of_ne hj]
    exact h j

theorem Matches.of_some (h : Matches N st A) (hA : A i = some xs) :
    ∃ v, st i = some v ∧ Holds N v xs := by
  have hi := h i
  rw [hA] at hi
  cases hst : st i with
  | none => rw [hst] at hi; cases hi
  | some v => rw [hst] at hi; cases hi with | some hv => exact ⟨v, rfl, hv⟩

theorem Matches.of_none (h : Matches N st A) (hA : A i = none) : st i = none := by
  have hi := h i
  rw [hA] at hi
  cases hst : st i with
  | none => rfl
  | some v => rw [hst] at hi; cases hi

/-- What a caller sees of a vector with the elements `xs`. -/
structure Shows (N : Nat) (v : SmallVector T) (xs : List T) : Prop where
  elements : v.elements = some xs
  size : v.size = xs.length
  le : v.size ≤ v.capacity
  storage : v.allocatedStorage = none ∧ v.capacity = N ∨
    ∃ buf, v.allocatedStorage = some buf ∧ buf.length = v.capacity

theorem Holds.shows (h : Holds N v xs) : Shows N v xs := by
  obtain ⟨rest, hplaced⟩ := h.placed
  refine ⟨h.elements, h.size, by rw [h.size]; exact h.le, ?_⟩
  rcases hplaced.place with hp | ⟨ha, -⟩
  · exact Or.inl hp
  · obtain ⟨buf, hbuf⟩ := Option.isSome_iff_exists.mp ha
    refine Or.inr ⟨buf, hbuf, ?_⟩
    have hs := hplaced.storage
    rw [SmallVector.storage, hbuf] at hs
    rw [show buf = _ from hs]
    exact hplaced.length

theorem Matches.shows (h : Matches N st A) (i : Nat) : Option.Rel (Shows N) (st i) (A i) := by
  cases hA : A i with
  | none => rw [h.of_none hA]; exact Option.Rel.none
  | some xs =>
    obtain ⟨v, hv, hholds⟩ := h.of_some hA
    rw [hv]
    exact Option.Rel.some hholds.shows

/-! ## Calls and programs -/

variable [Destructible T]

instance : Destructible String := ⟨false⟩

/-- In this memory the constructor makes the vector that `assign` makes of an empty one. -/
def ConstructsRange (N : Nat) (mem : SmallVector T) (xs : List T) : Prop :=
  ∃ v w, ofRange N mem xs = some v ∧ (SmallVector.default N).assign N xs = some w ∧
    v.size = w.size ∧ v.elements = w.elements

/-- **The range constructor constructs nothing.** The object shows the range if its memory
happens to hold a vector that does, and so for no range whatever the memory holds. -/
theorem constructsRange_iff (N : Nat) (xs : List T) :
    (∀ mem, ConstructsRange N mem xs ↔ mem.size = xs.length ∧ mem.elements = some xs) ∧
      ¬ ∀ mem, ConstructsRange N mem xs := by
  obtain ⟨w, hw, hshow⟩ := (Holds.default N).assign xs
  have hiff (mem : SmallVector T) :
      ConstructsRange N mem xs ↔ mem.size = xs.length ∧ mem.elements = some xs := by
    have hmem : ofRange N mem xs = some mem := by
      unfold ofRange
      exact if_pos (Int.natCast_nonneg _)
    unfold ConstructsRange
    rw [hmem, hw, ← hshow.size, ← hshow.elements]
    constructor
    · intro ⟨v, w', hv, hw', hsize, helements⟩
      obtain rfl := some.inj hv
      obtain rfl := some.inj hw'
      exact ⟨hsize, helements⟩
    · intro ⟨hsize, helements⟩
      exact ⟨mem, w, rfl, rfl, hsize, helements⟩
  refine ⟨hiff, fun h => ?_⟩
  have hsize := ((hiff { uninit N with size := xs.length + 1 }).mp (h _)).1
  exact Nat.succ_ne_self _ hsize

/-- Memory of zero bytes is an empty vector. -/
theorem constructsRange_zeroed : ¬ ConstructsRange 4 (uninit 4) ["a", "b"] := by
  intro ⟨v, w, hv, hw, hsize, _⟩
  cases hv
  cases hw
  cases hsize

end OpBase.Util
