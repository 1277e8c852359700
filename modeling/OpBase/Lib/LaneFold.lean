import Mathlib

/-!
# Folding rows by vector operations

A memory of elements, seen as rows: `pos a r` is the address of the `r`-th element of row `a`.
Registers are loaded from addresses a constant apart, multiplied lane by lane, and the lanes
below a mask are stored where the first register came from. `foldLoop` does this over two
loops.

> `foldLoop_prod`: where the registers lie `N` elements apart and each of the first `N` elements
> of a row is stored by one lane of one round, the product of the row is kept.
>
> `foldLoop_tail`: so it is where only the elements behind the `N`-th are folded.
-/

namespace OpBase.Lib.LaneFold

open Finset

variable {M : Type} {a : Nat}

/-- The lanes below the mask are stored. -/
def storeLanes (mem : Nat → M) (addr mask : Nat) (v : Nat → M) : Nat → M := fun p =>
  if addr ≤ p ∧ p < addr + mask then v (p - addr) else mem p

/-- The loops of a fold; what a round stores is computed from the memory it finds. -/
def foldLoop (outer inner : Nat) (addr mask : Nat → Nat → Nat)
    (value : (Nat → M) → Nat → Nat → Nat → M) (mem : Nat → M) : Nat → M :=
  (List.range outer).foldl (fun mem o =>
    (List.range inner).foldl (fun mem c =>
      storeLanes mem (addr o c) (mask o c) (value mem (addr o c) (mask o c))) mem) mem

theorem storeLanes_lane (mem : Nat → M) (addr : Nat) {mask l : Nat} (hl : l < mask)
    (v : Nat → M) : storeLanes mem addr mask v (addr + l) = v l := by
  unfold storeLanes
  rw [if_pos ⟨Nat.le_add_right _ _, Nat.add_lt_add_left hl _⟩, Nat.add_sub_cancel_left]

theorem storeLanes_of_ne (mem : Nat → M) {addr mask p : Nat} (v : Nat → M)
    (hp : ∀ l < mask, p ≠ addr + l) : storeLanes mem addr mask v p = mem p := by
  unfold storeLanes
  refine if_neg fun ⟨hle, hlt⟩ => ?_
  exact hp (p - addr) (by omega) (Nat.add_sub_cancel' hle).symm

/-- A loop that stores block after block leaves at each place the value of its lane. -/
theorem foldl_storeLanes_blocks {width : Nat} {mask : Nat → Nat} (hmask : ∀ o, mask o ≤ width)
    (v : Nat → Nat → M) (mem : Nat → M) (hlane : a % width < mask (a / width)) :
    ∀ outer, a / width < outer →
      (List.range outer).foldl (fun mem o => storeLanes mem (o * width) (mask o) (v o)) mem a =
        v (a / width) (a % width)
  | 0, h => absurd h (Nat.not_lt_zero _)
  | outer + 1, h => by
    rw [List.range_succ, List.foldl_append, List.foldl_cons, List.foldl_nil]
    have ha := Nat.div_add_mod' a width
    by_cases hlast : a / width = outer
    · subst hlast
      have hstored := storeLanes_lane ((List.range (a / width)).foldl
        (fun mem o => storeLanes mem (o * width) (mask o) (v o)) mem) (a / width * width) hlane
        (v (a / width))
      rwa [ha] at hstored
    · rw [storeLanes_of_ne _ _ fun l hl heq => hlast ?_]
      · exact foldl_storeLanes_blocks hmask v mem hlane outer (by omega)
      · have hl' := Nat.lt_of_lt_of_le hl (hmask outer)
        rw [heq, Nat.add_comm, Nat.add_mul_div_right _ _ (Nat.zero_lt_of_lt hl'),
          Nat.div_eq_of_lt hl', Nat.zero_add]

variable [CommMonoid M]

/-- Two registers, lane by lane. -/
def mulLanes (mask : Nat) (v w : Nat → M) : Nat → M := fun l => if l < mask then v l * w l else v l

/-- `2 ^ j` registers: each half of them is multiplied onto the other, down to one. -/
def mulTree (mask : Nat) : Nat → (Nat → Nat → M) → Nat → M
  | 0, v => v 0
  | j + 1, v => mulTree mask j fun i => mulLanes mask (v i) (v (i + 2 ^ j))

/-- The tree of multiplications is the product, where the lane is not masked. -/
theorem mulTree_eq {mask l : Nat} (hl : l < mask) : ∀ (j : Nat) (v : Nat → Nat → M),
    mulTree mask j v l = ∏ k ∈ range (2 ^ j), v k l
  | 0, v => (prod_range_one fun k => v k l).symm
  | j + 1, v => by
    have hlane : ∀ i, mulLanes mask (v i) (v (i + 2 ^ j)) l = v i l * v (2 ^ j + i) l := fun i => by
      rw [Nat.add_comm (2 ^ j)]
      exact if_pos hl
    unfold mulTree
    rw [mulTree_eq hl j, prod_congr rfl fun i _ => hlane i, prod_mul_distrib, Nat.pow_succ,
      Nat.mul_two, prod_range_add]

/-! ## Rounds that keep apart -/

/-- Operations that do not touch one another's places can be taken one by one. -/
theorem foldl_storeLanes {ι : Type} (addr mask : ι → Nat) {n offset : Nat}
    {value : (Nat → M) → Nat → Nat → Nat → M}
    (hvalue : ∀ mem addr mask, ∀ l < mask,
      value mem addr mask l = ∏ k ∈ range n, mem (addr + offset * k + l)) :
    ∀ (ops : List ι) (mem : Nat → M), ops.Nodup →
    (∀ i ∈ ops, ∀ j ∈ ops, i ≠ j → ∀ l < mask i, ∀ l' < mask j, addr i + l ≠ addr j + l' ∧
      ∀ k < n, addr i + l ≠ addr j + offset * k + l') →
    let mem' := ops.foldl
      (fun mem i => storeLanes mem (addr i) (mask i) (value mem (addr i) (mask i))) mem
    (∀ i ∈ ops, ∀ l < mask i, mem' (addr i + l) = ∏ k ∈ range n, mem (addr i + offset * k + l)) ∧
      ∀ p, (∀ i ∈ ops, ∀ l < mask i, p ≠ addr i + l) → mem' p = mem p
  | [], _, _, _ => ⟨nofun, fun _ _ => rfl⟩
  | i :: ops, mem, hnodup, happart => by
    have ⟨hi, hops⟩ := List.nodup_cons.mp hnodup
    have ⟨hstored, hframe⟩ := foldl_storeLanes addr mask hvalue ops
      (storeLanes mem (addr i) (mask i) (value mem (addr i) (mask i))) hops
      fun j hj j' hj' => happart j (List.mem_cons_of_mem i hj) j' (List.mem_cons_of_mem i hj')
    have hne : ∀ j ∈ ops, i ≠ j := fun j hj h => hi (h ▸ hj)
    refine ⟨?_, fun p hp => ?_⟩
    · intro j hj l hl
      rcases List.mem_cons.mp hj with rfl | hj'
      · -- the later stores keep away from these lanes
        have hleft := hframe (addr j + l) fun j' hj' l' hl' =>
          (happart j List.mem_cons_self j' (List.mem_cons_of_mem j hj') (hne j' hj') l hl l' hl').1
        rw [List.foldl_cons, hleft, storeLanes_lane mem (addr j) hl, hvalue _ _ _ l hl]
      · rw [List.foldl_cons, hstored j hj' l hl]
        refine prod_congr rfl fun k hk => storeLanes_of_ne mem _ fun l' hl' h => ?_
        exact (happart i List.mem_cons_self j hj (hne j hj') l' hl' l hl).2 k
          (mem_range.mp hk) h.symm
    · rw [List.foldl_cons, hframe p fun j hj => hp j (List.mem_cons_of_mem i hj)]
      exact storeLanes_of_ne mem _ (hp i List.mem_cons_self)

/-! ## Rows -/

theorem prod_range_folds (f : Nat → M) (N : Nat) : ∀ n,
    ∏ r ∈ range N, ∏ k ∈ range n, f (r + k * N) = ∏ r ∈ range (n * N), f r
  | 0 => by simp
  | n + 1 => by
    simp only [prod_range_succ, prod_mul_distrib]
    rw [prod_range_folds f N n, Nat.succ_mul, prod_range_add]
    simp only [Nat.add_comm]

/-- The first `T` elements of each row are stored, each by the lane of the round that `op` names,
and the registers are `N` elements of the row apart. -/
structure Rounds (pos : Nat → Nat → Nat) (dimA dimR outer inner : Nat)
    (addr mask : Nat → Nat → Nat) (n offset N T : Nat) (op : Nat → Nat → Nat × Nat × Nat) :
    Prop where
  inj : ∀ a < dimA, ∀ r < dimR, ∀ a' < dimA, ∀ r' < dimR, pos a r = pos a' r' → a = a' ∧ r = r'
  le : T ≤ N
  regs : 0 < n
  fits : T + (n - 1) * N ≤ dimR
  lane : ∀ a < dimA, ∀ r < T, (op a r).1 < outer ∧ (op a r).2.1 < inner ∧
    (op a r).2.2 < mask (op a r).1 (op a r).2.1 ∧
    ∀ k, addr (op a r).1 (op a r).2.1 + offset * k + (op a r).2.2 = pos a (r + k * N)
  onto : ∀ o < outer, ∀ c < inner, ∀ l < mask o c, ∃ a < dimA, ∃ r < T, op a r = (o, c, l)

section Rows

variable {pos : Nat → Nat → Nat} {dimA dimR outer inner : Nat} {addr mask : Nat → Nat → Nat}
  {n offset N T : Nat} {op : Nat → Nat → Nat × Nat × Nat}
  {value : (Nat → M) → Nat → Nat → Nat → M}

/-- One pass of the loop: the first rows are products of `n` rows each, and the others stay. -/
theorem foldLoop_spec (h : Rounds pos dimA dimR outer inner addr mask n offset N T op)
    (hvalue : ∀ mem addr mask, ∀ l < mask,
      value mem addr mask l = ∏ k ∈ range n, mem (addr + offset * k + l)) (mem : Nat → M)
    (ha : a < dimA) :
    (∀ r < T, foldLoop outer inner addr mask value mem (pos a r) =
      ∏ k ∈ range n, mem (pos a (r + k * N))) ∧
    ∀ r, T ≤ r → r < dimR → foldLoop outer inner addr mask value mem (pos a r) = mem (pos a r) := by
  have hloop : foldLoop outer inner addr mask value mem =
      (List.range outer ×ˢ List.range inner).foldl (fun mem i => storeLanes mem (addr i.1 i.2)
        (mask i.1 i.2) (value mem (addr i.1 i.2) (mask i.1 i.2))) mem := by
    unfold foldLoop
    show _ = ((List.range outer).flatMap _).foldl _ mem
    rw [List.foldl_flatMap]
    simp only [List.foldl_map]
  have hin : ∀ r < T, ∀ k < n, r + k * N < dimR := by
    intro r hr k hk
    have := Nat.mul_le_mul_right N (Nat.le_sub_one_of_lt hk)
    have := h.fits
    omega
  have hfirst : ∀ a < dimA, ∀ r < T,
      addr (op a r).1 (op a r).2.1 + (op a r).2.2 = pos a r := by
    intro a ha r hr
    have := (h.lane a ha r hr).2.2.2 0
    rwa [Nat.mul_zero, Nat.add_zero, Nat.zero_mul, Nat.add_zero] at this
  -- what two lanes have in common is one element of one row, so they are one lane
  have happart : ∀ i ∈ List.range outer ×ˢ List.range inner,
      ∀ j ∈ List.range outer ×ˢ List.range inner, i ≠ j → ∀ l < mask i.1 i.2,
      ∀ l' < mask j.1 j.2, ∀ k < n, addr i.1 i.2 + l ≠ addr j.1 j.2 + offset * k + l' := by
    intro i hi j hj hne l hl l' hl' k hk heq
    rw [List.mem_product, List.mem_range, List.mem_range] at hi hj
    obtain ⟨a, ha, r, hr, hop⟩ := h.onto i.1 hi.1 i.2 hi.2 l hl
    obtain ⟨a', ha', r', hr', hop'⟩ := h.onto j.1 hj.1 j.2 hj.2 l' hl'
    have hpos := hfirst a ha r hr
    have hpos' := (h.lane a' ha' r' hr').2.2.2 k
    rw [hop] at hpos
    rw [hop'] at hpos'
    have hr0 := hin r hr 0 h.regs
    rw [Nat.zero_mul, Nat.add_zero] at hr0
    obtain ⟨rfl, hrr⟩ := h.inj a ha r hr0 a' ha' _ (hin r' hr' k hk)
      (hpos.symm.trans (heq.trans hpos'))
    have hle := h.le
    have hk0 : k = 0 := by
      by_contra hk0
      have := Nat.le_mul_of_pos_left N (Nat.pos_of_ne_zero hk0)
      omega
    rw [hk0, Nat.zero_mul, Nat.add_zero] at hrr
    rw [hrr, hop'] at hop
    exact hne (Prod.ext (congrArg Prod.fst hop).symm (congrArg (fun x => x.2.1) hop).symm)
  have ⟨hstored, hframe⟩ := foldl_storeLanes (fun i : Nat × Nat => addr i.1 i.2)
    (fun i => mask i.1 i.2) hvalue (List.range outer ×ˢ List.range inner) mem
    (List.nodup_range.product List.nodup_range) fun i hi j hj hne l hl l' hl' => by
      refine ⟨fun heq => ?_, happart i hi j hj hne l hl l' hl'⟩
      exact happart i hi j hj hne l hl l' hl' 0 h.regs (by rw [heq, Nat.mul_zero, Nat.add_zero])
  rw [hloop]
  constructor
  · intro r hr
    have ⟨ho, hc, hl, hsrc⟩ := h.lane a ha r hr
    rw [← hfirst a ha r hr, hstored ((op a r).1, (op a r).2.1)
      (List.mem_product.mpr ⟨List.mem_range.mpr ho, List.mem_range.mpr hc⟩) _ hl]
    exact prod_congr rfl fun k _ => congrArg mem (hsrc k)
  · intro r hTr hr
    refine hframe _ fun i hi l hl heq => ?_
    rw [List.mem_product, List.mem_range, List.mem_range] at hi
    obtain ⟨a', ha', r', hr', hop⟩ := h.onto i.1 hi.1 i.2 hi.2 l hl
    have hpos := hfirst a' ha' r' hr'
    rw [hop] at hpos
    have hr0 := hin r' hr' 0 h.regs
    rw [Nat.zero_mul, Nat.add_zero] at hr0
    have := (h.inj a ha r hr a' ha' r' hr0 (heq.trans hpos)).2
    omega

/-- A pass keeps the product of all rows. -/
theorem foldLoop_prod (h : Rounds pos dimA dimR outer inner addr mask n offset N N op)
    (hvalue : ∀ mem addr mask, ∀ l < mask,
      value mem addr mask l = ∏ k ∈ range n, mem (addr + offset * k + l)) (mem : Nat → M)
    (ha : a < dimA) :
    ∏ r ∈ range N, foldLoop outer inner addr mask value mem (pos a r) =
      ∏ r ∈ range (n * N), mem (pos a r) := by
  rw [prod_congr rfl fun r hr => (foldLoop_spec h hvalue mem ha).1 r (mem_range.mp hr)]
  exact prod_range_folds (fun r => mem (pos a r)) N n

/-- Two registers at a time, and the second one is behind the first `N` elements. -/
theorem foldLoop_tail (h : Rounds pos dimA dimR outer inner addr mask 2 offset N T op)
    (hvalue : ∀ mem addr mask, ∀ l < mask,
      value mem addr mask l = ∏ k ∈ range 2, mem (addr + offset * k + l)) (mem : Nat → M)
    (ha : a < dimA) :
    ∏ r ∈ range N, foldLoop outer inner addr mask value mem (pos a r) =
      ∏ r ∈ range (N + T), mem (pos a r) := by
  have hspec := foldLoop_spec h hvalue mem ha
  have hfits := h.fits
  obtain ⟨d, hd⟩ := Nat.exists_eq_add_of_le h.le
  have hfront : ∀ r ∈ range T, foldLoop outer inner addr mask value mem (pos a r) =
      mem (pos a r) * mem (pos a (N + r)) := fun r hr => by
    rw [hspec.1 r (mem_range.mp hr), prod_range_succ, prod_range_one, Nat.zero_mul, Nat.one_mul,
      Nat.add_zero, Nat.add_comm r]
  have hback : ∀ x ∈ range d, foldLoop outer inner addr mask value mem (pos a (T + x)) =
      mem (pos a (T + x)) := fun x hx =>
    hspec.2 _ (Nat.le_add_right _ _) (by have := mem_range.mp hx; omega)
  calc ∏ r ∈ range N, foldLoop outer inner addr mask value mem (pos a r)
      = (∏ r ∈ range T, mem (pos a r) * mem (pos a (N + r))) *
          ∏ x ∈ range d, mem (pos a (T + x)) := by
        rw [hd, prod_range_add, prod_congr rfl hfront, prod_congr rfl hback, ← hd]
    _ = (∏ r ∈ range N, mem (pos a r)) * ∏ r ∈ range T, mem (pos a (N + r)) := by
        rw [prod_mul_distrib, mul_right_comm, ← prod_range_add (fun r => mem (pos a r)) T d, ← hd]
    _ = ∏ r ∈ range (N + T), mem (pos a r) := (prod_range_add _ N T).symm

end Rows

/-! ## Fold after fold -/

/-- The count goes down by a power of two, and that many are folded at a time. -/
def foldStep (bits : Nat) (fold : Nat → (Nat → M) → Nat → M) (s : Nat × (Nat → M)) :
    Nat × (Nat → M) :=
  (s.1 >>> bits, fold (s.1 >>> bits) s.2)

/-- Units of `unit` elements each. -/
theorem foldStep_prod (pos : Nat → Nat) (dimR unit bits rest : Nat)
    (fold : Nat → (Nat → M) → Nat → M)
    (hfold : ∀ n mem, 2 ^ bits * (n * unit) ≤ dimR → ∏ r ∈ range (n * unit), fold n mem (pos r) =
      ∏ r ∈ range (2 ^ bits * (n * unit)), mem (pos r)) :
    ∀ (times : Nat) (mem : Nat → M), 2 ^ (bits * times + rest) * unit ≤ dimR →
      ∏ r ∈ range (2 ^ rest * unit),
          ((foldStep bits fold)^[times] (2 ^ (bits * times + rest), mem)).2 (pos r) =
        ∏ r ∈ range (2 ^ (bits * times + rest) * unit), mem (pos r)
  | 0, mem, _ => by
    rw [Nat.mul_zero, Nat.zero_add]
    rfl
  | times + 1, mem, h => by
    have hpow : 2 ^ (bits * (times + 1) + rest) = 2 ^ bits * 2 ^ (bits * times + rest) := by
      rw [← Nat.pow_add, Nat.mul_succ, Nat.add_left_comm, Nat.add_assoc, Nat.add_comm bits]
    rw [hpow] at h ⊢
    rw [Function.iterate_succ_apply]
    unfold foldStep
    rw [Nat.shiftRight_eq_div_pow, Nat.mul_div_cancel_left _ (Nat.two_pow_pos bits)]
    rw [Nat.mul_assoc] at h ⊢
    have hle := (Nat.le_mul_of_pos_left _ (Nat.two_pow_pos bits)).trans h
    exact (foldStep_prod pos dimR unit bits rest fold hfold times _ hle).trans (hfold _ mem h)

end OpBase.Lib.LaneFold
