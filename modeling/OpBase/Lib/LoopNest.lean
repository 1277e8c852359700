import Mathlib

/-!
# Loop nests over the axes of a box

A loop goes along one axis and cuts it into pieces. A nest of loops is run by one counter, which
is taken apart by division with remainder, the innermost loop first; each step sets the pieces
of the axes that have a loop, and leaves the others as they are. What the pieces span is a box.

> `existsUnique_step`: a point is in the box of exactly one step.
>
> `tiles_of_perm`: the boxes of all the steps, in any order, are disjoint and make up the whole.

Two more facts are about counters that are dealt out in parts: `flatMap_parts`, to equal parts
the last of which may be cut off, and `flatMap_rows`, to rows and columns.
-/

namespace OpBase.Lib

open List
open Function (update update_of_ne update_self)

/-! ## Pieces and loops -/

/-- A part of an axis. -/
structure Piece where
  start : Nat
  stride : Nat

def Piece.Has (p : Piece) (y : Nat) : Prop := p.start ≤ y ∧ y < p.start + p.stride

structure Loop where
  axis : Nat
  count : Nat
  piece : Nat → Piece

/-- The loop cuts an axis of length `n`. -/
structure Loop.Cuts (l : Loop) (n : Nat) : Prop where
  nonempty : ∀ c < l.count, 1 ≤ (l.piece c).stride
  inside : ∀ c < l.count, (l.piece c).start + (l.piece c).stride ≤ n
  once : ∀ y < n, ∃! c, c < l.count ∧ (l.piece c).Has y

/-- The loop over single indices. -/
def unitLoop (axis n : Nat) : Loop := ⟨axis, n, fun c => ⟨c, 1⟩⟩

/-- The loop over pieces of length `f`, the last of which may be shorter. -/
def cutLoop (axis n f : Nat) : Loop := ⟨axis, (n + f - 1) / f, fun c => ⟨c * f, min f (n - c * f)⟩⟩

theorem unitLoop_cuts (axis n : Nat) : (unitLoop axis n).Cuts n where
  nonempty _ _ := Nat.le_refl 1
  inside _ hc := hc
  once y hy := ⟨y, ⟨hy, Nat.le_refl y, Nat.lt_succ_self y⟩, fun _ ⟨_, hle, hlt⟩ =>
    Nat.le_antisymm hle (Nat.le_of_lt_succ hlt)⟩

theorem cutLoop_count_pos (axis : Nat) {n f : Nat} (hf : 0 < f) (hn : 0 < n) :
    0 < (cutLoop axis n f).count :=
  Nat.div_pos (by omega) hf

theorem cutLoop_start_lt {axis n f c : Nat} (hf : 0 < f) (hc : c < (cutLoop axis n f).count) :
    c * f < n := by
  have hmul := (Nat.le_div_iff_mul_le hf).mp (Nat.succ_le_of_lt hc)
  rw [Nat.succ_mul] at hmul
  omega

/-- Pieces of `f` cut the axis, the last one being what is left. -/
theorem cutLoop_cuts (axis n : Nat) {f : Nat} (hf : 0 < f) : (cutLoop axis n f).Cuts n where
  nonempty c hc := by
    have hlt := cutLoop_start_lt hf hc
    unfold cutLoop
    dsimp only
    omega
  inside c hc := by
    have hlt := cutLoop_start_lt hf hc
    unfold cutLoop
    dsimp only
    omega
  once y hy := by
    have hdiv := Nat.div_add_mod' y f
    have hmod := Nat.mod_lt y hf
    refine ⟨y / f, ⟨?_, ?_, ?_⟩, fun c ⟨_, hle, hlt⟩ => ?_⟩
    · refine (Nat.le_div_iff_mul_le hf).mpr ?_
      rw [Nat.succ_mul]
      omega
    · exact Nat.div_mul_le_self y f
    · change y < y / f * f + min f (n - y / f * f)
      omega
    · change c * f ≤ y at hle
      change y < c * f + min f (n - c * f) at hlt
      refine (Nat.div_eq_of_lt_le hle ?_).symm
      rw [Nat.succ_mul]
      omega

/-! ## Nests -/

/-- A step of the nest. The innermost loop comes first. -/
def setAxes : List Loop → Nat → (Nat → Piece) → Nat → Piece
  | [], _, addr => addr
  | l :: ls, step, addr =>
    setAxes ls (step / l.count) (update addr l.axis (l.piece (step % l.count)))

def stepCount (ls : List Loop) : Nat := (ls.map (·.count)).prod

section Nest

variable {ls ms : List Loop} {l : Loop} {addr addr' : Nat → Piece} {step k : Nat}

theorem stepCount_cons : stepCount (l :: ls) = l.count * stepCount ls := by
  unfold stepCount
  rw [map_cons, prod_cons]

theorem stepCount_append : stepCount (ls ++ ms) = stepCount ls * stepCount ms := by
  unfold stepCount
  rw [map_append, prod_append]

theorem stepCount_pos : ∀ {ls : List Loop}, (∀ l ∈ ls, 0 < l.count) → 0 < stepCount ls
  | [], _ => Nat.one_pos
  | l :: ls, h => by
    rw [stepCount_cons]
    exact Nat.mul_pos (h l mem_cons_self) (stepCount_pos fun m hm => h m (mem_cons_of_mem l hm))

theorem setAxes_cons : setAxes (l :: ls) step addr =
    setAxes ls (step / l.count) (update addr l.axis (l.piece (step % l.count))) := rfl

theorem setAxes_of_notMem (h : k ∉ ls.map (·.axis)) : setAxes ls step addr k = addr k := by
  induction ls generalizing step addr with
  | nil => rfl
  | cons l ls ih =>
    rw [map_cons, mem_cons, not_or] at h
    rw [setAxes, ih h.2, update_of_ne h.1]

theorem setAxes_congr (h : k ∉ ls.map (·.axis) → addr k = addr' k) :
    setAxes ls step addr k = setAxes ls step addr' k := by
  induction ls generalizing step addr addr' with
  | nil => exact h not_mem_nil
  | cons l ls ih =>
    refine ih fun hk => ?_
    rcases eq_or_ne k l.axis with rfl | hne
    · rw [update_self, update_self]
    · rw [update_of_ne hne, update_of_ne hne]
      exact h fun hmem => (mem_cons.mp hmem).elim hne hk

theorem setAxes_cons_self (h : l.axis ∉ ls.map (·.axis)) :
    setAxes (l :: ls) step addr l.axis = l.piece (step % l.count) := by
  rw [setAxes, setAxes_of_notMem h, update_self]

theorem setAxes_cons_of_mem (h : k ∈ ls.map (·.axis)) :
    setAxes (l :: ls) step addr k = setAxes ls (step / l.count) addr k :=
  setAxes_congr fun hk => absurd h hk

/-- An inner and an outer nest share the step out by quotient and remainder. -/
theorem setAxes_append : setAxes (ls ++ ms) step addr =
    setAxes ms (step / stepCount ls) (setAxes ls step addr) := by
  induction ls generalizing step addr with
  | nil =>
    rw [nil_append, stepCount, map_nil, prod_nil, Nat.div_one]
    rfl
  | cons l ls ih =>
    rw [cons_append, setAxes, ih, setAxes, stepCount_cons, Nat.div_div_eq_div_mul]

theorem setAxes_mod (i : Nat) :
    setAxes ls (i * stepCount ls + step) addr = setAxes ls step addr := by
  induction ls generalizing step addr i with
  | nil => rfl
  | cons l ls ih =>
    rw [setAxes, setAxes, stepCount_cons]
    rcases Nat.eq_zero_or_pos l.count with hzero | hpos
    · rw [hzero, Nat.zero_mul, Nat.mul_zero, Nat.zero_add]
    · rw [Nat.mul_left_comm, Nat.mul_add_mod, Nat.mul_add_div hpos, ih]

/-- The two nests can be counted apart, if they run over different axes. -/
theorem setAxes_pair (hapart : ∀ k ∈ ms.map (·.axis), k ∉ ls.map (·.axis)) {i r : Nat}
    (hr : r < stepCount ls) :
    setAxes (ls ++ ms) (i * stepCount ls + r) addr = setAxes ls r (setAxes ms i addr) := by
  rw [setAxes_append, setAxes_mod, Nat.mul_comm, Nat.mul_add_div (Nat.zero_lt_of_lt hr),
    Nat.div_eq_of_lt hr, Nat.add_zero]
  funext k
  by_cases hk : k ∈ ms.map (·.axis)
  · rw [setAxes_of_notMem (hapart k hk)]
    exact setAxes_congr fun h => absurd hk h
  · rw [setAxes_of_notMem hk]
    exact setAxes_congr fun _ => (setAxes_of_notMem hk).symm

theorem exists_piece (addr : Nat → Piece) (hstep : step < stepCount ls) (hk : k ∈ ls.map (·.axis)) :
    ∃ l ∈ ls, l.axis = k ∧ ∃ c < l.count, setAxes ls step addr k = l.piece c := by
  induction ls generalizing step addr with
  | nil => exact absurd hk not_mem_nil
  | cons l ls ih =>
    rw [stepCount_cons] at hstep
    have hcount : 0 < l.count := Nat.pos_of_mul_pos_right (Nat.zero_lt_of_lt hstep)
    by_cases htail : k ∈ ls.map (·.axis)
    · obtain ⟨m, hm, hrest⟩ := ih _ (Nat.div_lt_of_lt_mul hstep) htail
      exact ⟨m, mem_cons_of_mem l hm, hrest⟩
    · obtain rfl : k = l.axis := (mem_cons.mp hk).resolve_right htail
      exact ⟨l, mem_cons_self, rfl, step % l.count, Nat.mod_lt _ hcount,
        setAxes_cons_self htail⟩

/-- Every point is in the piece of exactly one step of the nest. -/
theorem existsUnique_step (addr : Nat → Piece) {n x : Nat → Nat} (hnodup : (ls.map (·.axis)).Nodup)
    (hcuts : ∀ l ∈ ls, l.Cuts (n l.axis)) (hx : ∀ l ∈ ls, x l.axis < n l.axis) :
    ∃! step, step < stepCount ls ∧ ∀ l ∈ ls, (setAxes ls step addr l.axis).Has (x l.axis) := by
  induction ls with
  | nil => exact ⟨0, ⟨Nat.one_pos, fun _ h => absurd h not_mem_nil⟩, fun s hs =>
      Nat.lt_one_iff.mp hs.1⟩
  | cons l ls ih =>
    obtain ⟨hnot, hnodup'⟩ := nodup_cons.mp hnodup
    obtain ⟨c, ⟨hc, hhas⟩, honce⟩ := (hcuts l mem_cons_self).once _ (hx l mem_cons_self)
    obtain ⟨s, ⟨hs, hall⟩, huniq⟩ := ih hnodup' (fun m hm => hcuts m (mem_cons_of_mem l hm))
      fun m hm => hx m (mem_cons_of_mem l hm)
    have hmem : ∀ m ∈ ls, m.axis ∈ ls.map (·.axis) := fun m hm => mem_map_of_mem hm
    have hcount : 0 < l.count := Nat.zero_lt_of_lt hc
    refine ⟨l.count * s + c, ⟨?_, fun m hm => ?_⟩, fun t ⟨ht, hbox⟩ => ?_⟩
    · rw [stepCount_cons]
      have hmul := Nat.mul_le_mul_left l.count (Nat.succ_le_of_lt hs)
      rw [Nat.mul_succ] at hmul
      omega
    · rcases mem_cons.mp hm with rfl | hm
      · rw [setAxes_cons_self hnot, Nat.mul_add_mod, Nat.mod_eq_of_lt hc]
        exact hhas
      · rw [setAxes_cons_of_mem (hmem m hm), Nat.mul_add_div hcount, Nat.div_eq_of_lt hc,
          Nat.add_zero]
        exact hall m hm
    · -- the counter is put together from the step of this loop and that of the others
      have hself := hbox l mem_cons_self
      rw [setAxes_cons_self hnot] at hself
      rw [stepCount_cons] at ht
      have hdiv : t / l.count = s := huniq _ ⟨Nat.div_lt_of_lt_mul ht, fun m hm => by
        have hrest := hbox m (mem_cons_of_mem l hm)
        rwa [setAxes_cons_of_mem (hmem m hm)] at hrest⟩
      have hmod : t % l.count = c := honce _ ⟨Nat.mod_lt _ hcount, hself⟩
      rw [← hdiv, ← hmod, Nat.div_add_mod]

end Nest

/-! ## Boxes -/

/-- The first `dim` axes count. -/
def BoxHas (dim : Nat) (box : Nat → Piece) (x : Nat → Nat) : Prop := ∀ k < dim, (box k).Has (x k)

structure Tiles (dim : Nat) (n : Nat → Nat) (boxes : List (Nat → Piece)) : Prop where
  nonempty : ∀ b ∈ boxes, ∀ k < dim, 1 ≤ (b k).stride
  inside : ∀ b ∈ boxes, ∀ k < dim, (b k).start + (b k).stride ≤ n k
  disjoint : boxes.Pairwise fun b c => ∀ x, ¬(BoxHas dim b x ∧ BoxHas dim c x)
  cover : ∀ x, (∀ k < dim, x k < n k) → ∃ b ∈ boxes, BoxHas dim b x

section Tiles

variable {dim : Nat} {n : Nat → Nat} {ls : List Loop} {addr : Nat → Piece}
  {boxes : List (Nat → Piece)}

/-- No box comes twice: it would have its first point in common with itself. -/
theorem Tiles.nodup (h : Tiles dim n boxes) : boxes.Nodup := by
  refine h.disjoint.imp_of_mem fun {b c} hb _ hapart heq => ?_
  subst heq
  have hfirst : BoxHas dim b fun k => (b k).start := fun k hk =>
    ⟨Nat.le_refl _, Nat.lt_add_of_pos_right (h.nonempty b hb k hk)⟩
  exact hapart _ ⟨hfirst, hfirst⟩

theorem setAxes_bounds (hcuts : ∀ l ∈ ls, l.Cuts (n l.axis))
    (hrest : ∀ k < dim, k ∉ ls.map (·.axis) → 1 ≤ n k ∧ addr k = ⟨0, n k⟩) {step k : Nat}
    (hstep : step < stepCount ls) (hk : k < dim) :
    1 ≤ (setAxes ls step addr k).stride ∧
      (setAxes ls step addr k).start + (setAxes ls step addr k).stride ≤ n k := by
  by_cases hmem : k ∈ ls.map (·.axis)
  · obtain ⟨l, hl, rfl, c, hc, heq⟩ := exists_piece addr hstep hmem
    rw [heq]
    exact ⟨(hcuts l hl).nonempty c hc, (hcuts l hl).inside c hc⟩
  · obtain ⟨hpos, heq⟩ := hrest k hk hmem
    rw [setAxes_of_notMem hmem, heq]
    exact ⟨hpos, Nat.le_of_eq (Nat.zero_add _)⟩

/-- The boxes of all steps, in any order, tile the space. -/
theorem tiles_of_perm (ls : List Loop) (addr : Nat → Piece) (hnodup : (ls.map (·.axis)).Nodup)
    (hlt : ∀ l ∈ ls, l.axis < dim) (hcuts : ∀ l ∈ ls, l.Cuts (n l.axis))
    (hrest : ∀ k < dim, k ∉ ls.map (·.axis) → 1 ≤ n k ∧ addr k = ⟨0, n k⟩)
    (hperm : boxes.Perm ((List.range (stepCount ls)).map (setAxes ls · addr))) :
    Tiles dim n boxes := by
  have hbox : ∀ b ∈ boxes, ∃ step < stepCount ls, setAxes ls step addr = b := fun b hb => by
    obtain ⟨step, hstep, heq⟩ := mem_map.mp (hperm.mem_iff.mp hb)
    exact ⟨step, mem_range.mp hstep, heq⟩
  refine ⟨fun b hb k hk => ?_, fun b hb k hk => ?_, ?_, fun x hx => ?_⟩
  · obtain ⟨step, hstep, rfl⟩ := hbox b hb
    exact (setAxes_bounds hcuts hrest hstep hk).1
  · obtain ⟨step, hstep, rfl⟩ := hbox b hb
    exact (setAxes_bounds hcuts hrest hstep hk).2
  · refine (hperm.pairwise_iff fun h x hx => h x hx.symm).mpr (pairwise_map.mpr ?_)
    refine List.Nodup.pairwise_of_forall_ne nodup_range fun s hs t ht hne x ⟨hxs, hxt⟩ =>
      hne ?_
    have hspace : ∀ l ∈ ls, x l.axis < n l.axis := fun l hl => by
      have hin := (setAxes_bounds hcuts hrest (mem_range.mp hs) (hlt l hl)).2
      exact Nat.lt_of_lt_of_le (hxs l.axis (hlt l hl)).2 hin
    exact (existsUnique_step addr hnodup hcuts hspace).unique
      ⟨mem_range.mp hs, fun l hl => hxs l.axis (hlt l hl)⟩
      ⟨mem_range.mp ht, fun l hl => hxt l.axis (hlt l hl)⟩
  · obtain ⟨step, ⟨hstep, hall⟩, -⟩ := existsUnique_step addr hnodup hcuts
      fun l hl => hx l.axis (hlt l hl)
    refine ⟨setAxes ls step addr, hperm.mem_iff.mpr
      (mem_map.mpr ⟨step, mem_range.mpr hstep, rfl⟩), fun k hk => ?_⟩
    by_cases hmem : k ∈ ls.map (·.axis)
    · obtain ⟨l, hl, rfl⟩ := mem_map.mp hmem
      exact hall l hl
    · rw [setAxes_of_notMem hmem, (hrest k hk hmem).2]
      exact ⟨Nat.zero_le _, by rw [Nat.zero_add]; exact hx k hk⟩

end Tiles

/-! ## Counters dealt out in parts -/

/-- Parts of `c` in a row, the last one cut off, are one range. -/
theorem flatMap_parts (base c total : Nat) : ∀ parts : Nat, (List.range parts).flatMap
        (fun b => List.range' (base + b * c) (min (b * c + c) total - b * c)) =
      List.range' base (min (parts * c) total)
  | 0 => by rw [Nat.zero_mul, Nat.zero_min]; rfl
  | parts + 1 => by
    rw [range_succ, flatMap_append, flatMap_parts base c total parts,
      flatMap_singleton, Nat.succ_mul]
    rcases Nat.le_total total (parts * c) with h | h
    · rw [Nat.min_eq_right h, Nat.min_eq_right (Nat.le_add_right_of_le h), Nat.sub_eq_zero_of_le h,
        range'_zero, append_nil]
    · rw [Nat.min_eq_left h, range'_append_1]
      congr 1
      omega

/-- Two loops over rows and columns are one loop over their cells. -/
theorem flatMap_rows {β : Type} (f : Nat → List β) (n : Nat) : ∀ m : Nat,
    (List.range m).flatMap (fun i => (List.range n).flatMap fun r => f (i * n + r)) =
      (List.range (m * n)).flatMap f
  | 0 => by rw [Nat.zero_mul]; rfl
  | m + 1 => by
    rw [range_succ, flatMap_append, flatMap_rows f n m, flatMap_singleton,
      Nat.succ_mul, range_add, flatMap_append, flatMap_map]

end OpBase.Lib
