import OpBase.Mem.KernelGraph

/-!
# The workspace allocator

`src/nnopbase/composite_op/mem_mgr/memory_allocator.cpp`: `MaxAllocator` packs
the kernel tensors into *buckets*. The tensors of one bucket share one address
range and so must not be alive together; the buckets are laid out one after the
other. A storage is placed once: the first tensor over it marks it with
`OFFSET_PLACEHOLDER`, and every later one is skipped.

The result is stated for any list of tensors in the order of their start:

> `allocate_disjoint`: the first tensors over two different storages, when their
> recorded lifetimes meet, get disjoint byte ranges.
>
> `allocate_inside`: every such range ends below the returned total.
-/

namespace OpBase.Mem

open List

open Function (update)

def OFFSET_PLACEHOLDER : Nat := 2 ^ 64 - 1
def EXTRA_SIZE_IN_BYTE : Nat := 32
def ALIGN_SIZE_IN_BYTE : Nat := 512

/-- `Align`, in `uint64_t` arithmetic; the mask clears the low nine bits. -/
def align (n : Nat) : Nat :=
  (n + EXTRA_SIZE_IN_BYTE + ALIGN_SIZE_IN_BYTE - 1) % 2 ^ 64 / ALIGN_SIZE_IN_BYTE *
    ALIGN_SIZE_IN_BYTE

namespace SortedTensor

/-- `Align(static_cast<uint64_t>(tensor->GetSize()))`. -/
def alignedSize (t : SortedTensor) : Nat := align (t.tensorSize % 2 ^ 64).toNat

/-- `KernelTensor::IsLifeTimeNotOverLap`. -/
def isLifeTimeNotOverLap (t another : SortedTensor) : Bool :=
  if another.lifeTimeStart = t.lifeTimeStart then false
  else if another.lifeTimeStart > t.lifeTimeStart then t.lifeTimeEnd < another.lifeTimeStart
  else another.lifeTimeEnd < t.lifeTimeStart

/-- `KernelTensor::IsInputOf`, a comparison of `aclTensor` addresses. -/
def isInputOf (t output : SortedTensor) : Bool :=
  output.ownerInputs.any fun input => input.map (·.ptr) == t.aclTensor.map (·.ptr)

/-- The storage a tensor is over, if it has one. -/
def storage? (t : SortedTensor) : Option Nat := t.aclTensor.map (·.storage)

/-- `KernelTensor::SetOffset`; a null tensor is only logged. -/
def setOffset (t : SortedTensor) (offset : Nat) (workspaceOffset : Nat → Nat) : Nat → Nat :=
  match t.storage? with
  | none => workspaceOffset
  | some s => update workspaceOffset s offset

end SortedTensor

structure TensorBucket where
  size : Nat
  refs : List SortedTensor
deriving Repr

namespace TensorBucket

def empty : TensorBucket := ⟨0, []⟩

def isReusable (b : TensorBucket) (tensor : SortedTensor) : Bool :=
  match b.refs.getLast? with
  | none => true
  | some back => back.isLifeTimeNotOverLap tensor && !back.isInputOf tensor

def addRef (b : TensorBucket) (tensor : SortedTensor) : TensorBucket :=
  ⟨max tensor.alignedSize b.size, b.refs ++ [tensor]⟩

/-- `UpdateOffset`: every storage of the bucket gets the bucket's offset. -/
def updateOffset (b : TensorBucket) (offset : Nat) (workspaceOffset : Nat → Nat) : Nat → Nat :=
  b.refs.foldl (fun w ref => ref.setOffset offset w) workspaceOffset

end TensorBucket

namespace MaxAllocator

/-- The search loop of `GetBestFitBucket`: the *last* reusable bucket wins. -/
def firstFitIndex (buckets : List TensorBucket) (tensor : SortedTensor) : Option Nat :=
  buckets.zipIdx.foldl (fun best p => if p.1.isReusable tensor then some p.2 else best) none

/-- `GetBestFitBucket(tensor).AddRef(tensor)`. -/
def place (buckets : List TensorBucket) (tensor : SortedTensor) : List TensorBucket :=
  match firstFitIndex buckets tensor with
  | none => buckets ++ [TensorBucket.empty.addRef tensor]
  | some i => buckets.modify i (·.addRef tensor)

/-- The buckets under construction and the `workspaceOffset_` of every storage. -/
structure State where
  buckets : List TensorBucket
  workspaceOffset : Nat → Nat

/-- One round of the first loop of `Allocate`. -/
def allocateStep (st : State) (tensor : SortedTensor) : State :=
  match tensor.storage? with
  | none => { st with buckets := place st.buckets tensor }
  | some s =>
    if st.workspaceOffset s = OFFSET_PLACEHOLDER then st
    else ⟨place st.buckets tensor, update st.workspaceOffset s OFFSET_PLACEHOLDER⟩

/-- The second loop of `Allocate`, from offset `size` on. -/
def layout : List TensorBucket → Nat → (Nat → Nat) → Nat × (Nat → Nat)
  | [], size, w => (size, w)
  | b :: bs, size, w => layout bs ((size + b.size) % 2 ^ 64) (b.updateOffset size w)

/-- `MaxAllocator::Allocate` on a new allocator: the returned total and the
`workspaceOffset_` of every storage afterwards. -/
def allocate (tensors : List SortedTensor) (workspaceOffset : Nat → Nat) : Nat × (Nat → Nat) :=
  let st := tensors.foldl allocateStep ⟨[], workspaceOffset⟩
  layout st.buckets 0 st.workspaceOffset

/-! ## Sizes -/

theorem le_align {n : Nat} (h : n < 2 ^ 63) : n ≤ align n := by
  unfold align EXTRA_SIZE_IN_BYTE ALIGN_SIZE_IN_BYTE
  omega

variable {t : SortedTensor}

theorem size_le_alignedSize (h : t.tensorSize < 2 ^ 63) : t.tensorSize.toNat ≤ t.alignedSize := by
  rcases Int.lt_or_le t.tensorSize 0 with hneg | hpos
  · rw [Int.toNat_of_nonpos (Int.le_of_lt hneg)]
    exact Nat.zero_le _
  · have hmod : t.tensorSize % 2 ^ 64 = t.tensorSize := Int.emod_eq_of_lt hpos (by omega)
    unfold SortedTensor.alignedSize
    rw [hmod]
    exact le_align (by omega)

/-! ## The buckets -/

theorem firstFitIndex_spec {buckets : List TensorBucket} {i : Nat}
    (h : firstFitIndex buckets t = some i) :
    ∃ b, buckets[i]? = some b ∧ b.isReusable t = true := by
  have hgen : ∀ (ps : List (TensorBucket × Nat)) (best : Option Nat),
      (∀ j, best = some j → ∃ b, buckets[j]? = some b ∧ b.isReusable t = true) →
      (∀ p ∈ ps, buckets[p.2]? = some p.1) →
      ∀ j, ps.foldl (fun best p => if p.1.isReusable t then some p.2 else best) best = some j →
        ∃ b, buckets[j]? = some b ∧ b.isReusable t = true := by
    intro ps
    induction ps with
    | nil => intro best hbest _ j hj; exact hbest j hj
    | cons p ps ih =>
      intro best hbest hps j hj
      refine ih _ ?_ (fun q hq => hps q (mem_cons_of_mem _ hq)) j hj
      intro k hk
      by_cases hre : p.1.isReusable t = true
      · simp only [hre, if_pos] at hk
        cases hk
        exact ⟨p.1, hps p mem_cons_self, hre⟩
      · simp only [hre] at hk
        exact hbest k hk
  refine hgen buckets.zipIdx none (fun _ hj => by cases hj) ?_ i h
  intro p hp
  exact mk_mem_zipIdx_iff_getElem?.mp hp

variable (buckets : List TensorBucket) {b : TensorBucket} {done : List SortedTensor} {S : Nat}

/-- A tensor goes into a bucket that it can reuse, or a new one. -/
theorem place_cases (t : SortedTensor) :
    ∃ i b, (buckets[i]? = some b ∨ i = buckets.length ∧ b = TensorBucket.empty) ∧
      b.isReusable t = true ∧
      ∀ j, (place buckets t)[j]? = if j = i then some (b.addRef t) else buckets[j]? := by
  unfold place
  split
  next h =>
    refine ⟨buckets.length, TensorBucket.empty, Or.inr ⟨rfl, rfl⟩, rfl, ?_⟩
    intro j
    rcases Nat.lt_trichotomy j buckets.length with hlt | rfl | hgt
    · rw [getElem?_append_left hlt, if_neg (Nat.ne_of_lt hlt)]
    · simp
    · rw [if_neg (Nat.ne_of_gt hgt), getElem?_eq_none (by simp; omega),
        getElem?_eq_none (by omega)]
  next i h =>
    obtain ⟨b, hb, hre⟩ := firstFitIndex_spec h
    refine ⟨i, b, Or.inl hb, hre, ?_⟩
    intro j
    rw [getElem?_modify]
    by_cases hj : i = j
    · subst hj
      simp [hb]
    · simp [hj, Ne.symm hj]

/-- Bytes taken by a list of buckets. -/
def bytes (buckets : List TensorBucket) : Nat := (buckets.map (·.size)).sum

theorem bytes_append (xs ys : List TensorBucket) : bytes (xs ++ ys) = bytes xs + bytes ys := by
  simp [bytes]

theorem bytes_modify_le (t : SortedTensor) : ∀ (buckets : List TensorBucket) (i : Nat),
    bytes (buckets.modify i (·.addRef t)) ≤ bytes buckets + t.alignedSize
  | [], i => by simp [bytes]
  | b :: bs, 0 => by
    simp only [modify_zero_cons, bytes, map_cons, sum_cons, TensorBucket.addRef]
    omega
  | b :: bs, i + 1 => by
    have := bytes_modify_le t bs i
    simp only [modify_succ_cons, bytes, map_cons, sum_cons] at this ⊢
    omega

theorem bytes_place_le (t : SortedTensor) :
    bytes (place buckets t) ≤ bytes buckets + t.alignedSize := by
  unfold place
  split
  next => rw [bytes_append]; simp [bytes, TensorBucket.addRef, TensorBucket.empty]
  next i _ => exact bytes_modify_le t buckets i

/-- The tensors of a bucket in the order they came: each ends before the next starts. -/
def Apart (refs : List SortedTensor) : Prop :=
  refs.Pairwise fun x y => x.lifeTimeEnd < y.lifeTimeStart

theorem Apart.mem_or {refs : List SortedTensor} (h : Apart refs) {x y : SortedTensor}
    (hx : x ∈ refs) (hy : y ∈ refs) (hne : x ≠ y) :
    x.lifeTimeEnd < y.lifeTimeStart ∨ y.lifeTimeEnd < x.lifeTimeStart := by
  obtain ⟨i, hi, rfl⟩ := getElem_of_mem hx
  obtain ⟨j, hj, rfl⟩ := getElem_of_mem hy
  rcases Nat.lt_trichotomy i j with hlt | rfl | hgt
  · exact Or.inl (pairwise_iff_getElem.mp h i j hi hj hlt)
  · exact absurd rfl hne
  · exact Or.inr (pairwise_iff_getElem.mp h j i hj hi hgt)

/-- The life times in a bucket stay apart. -/
theorem addRef_apart (h : Apart b.refs) (hre : b.isReusable t = true)
    (hstart : ∀ r ∈ b.refs, r.lifeTimeStart ≤ r.lifeTimeEnd ∧ r.lifeTimeStart ≤ t.lifeTimeStart) :
    Apart (b.addRef t).refs := by
  refine pairwise_append.mpr ⟨h, pairwise_singleton _ _, ?_⟩
  intro r hr y hy
  rw [mem_singleton.mp hy]
  -- only the last tensor was compared with `t`; the others end before it starts
  obtain ⟨front, back, hrefs⟩ : ∃ front back, b.refs = front ++ [back] :=
    ⟨_, _, (dropLast_append_getLast (ne_nil_of_mem hr)).symm⟩
  have hback : back.lifeTimeEnd < t.lifeTimeStart := by
    have hle := (hstart back (by simp [hrefs])).2
    simp only [TensorBucket.isReusable, hrefs, getLast?_append, getLast?_singleton,
      Option.some_or, Bool.and_eq_true, SortedTensor.isLifeTimeNotOverLap] at hre
    obtain ⟨hlife, -⟩ := hre
    split at hlife
    next => cases hlife
    next hne => rw [if_pos (by omega)] at hlife; simpa using hlife
  rw [hrefs] at hr
  rcases mem_append.mp hr with hfront | hlast
  · rw [Apart, hrefs] at h
    have hlt := (pairwise_append.mp h).2.2 r hfront back (by simp)
    have := (hstart back (by simp [hrefs])).1
    omega
  · rw [mem_singleton.mp hlast]
    exact hback

/-! ## The first loop -/

/-- The first tensor of a list over storage `S`: the one that gets placed. -/
def firstOver (tensors : List SortedTensor) (S : Nat) : Option SortedTensor :=
  tensors.find? fun t => t.storage? == some S

/-- Bucket `i` holds a tensor over storage `S`. -/
def Holds (buckets : List TensorBucket) (i S : Nat) : Prop :=
  ∃ b, buckets[i]? = some b ∧ ∃ r ∈ b.refs, r.storage? = some S

/-- What the first loop has achieved after the tensors `done`; of the marks, what those of the
`used` storages say. -/
structure Packed (used : Nat → Prop) (done : List SortedTensor) (st : State) : Prop where
  apart : ∀ (i : Nat) (b : TensorBucket), st.buckets[i]? = some b → Apart b.refs
  fits : ∀ (i : Nat) (b : TensorBucket), st.buckets[i]? = some b →
    ∀ r ∈ b.refs, r.alignedSize ≤ b.size
  seen : ∀ (i : Nat) (b : TensorBucket), st.buckets[i]? = some b → ∀ r ∈ b.refs, r ∈ done
  bytes_le : bytes st.buckets ≤ (done.map (·.alignedSize)).sum
  marked : ∀ S, used S → (st.workspaceOffset S = OFFSET_PLACEHOLDER ↔ (firstOver done S).isSome)
  placed : ∀ S t, firstOver done S = some t →
    ∃ (i : Nat) (b : TensorBucket), st.buckets[i]? = some b ∧ t ∈ b.refs ∧
    ∀ j, Holds st.buckets j S → j = i

theorem firstOver_concat (done : List SortedTensor) (t : SortedTensor) (S : Nat) :
    firstOver (done ++ [t]) S =
      (firstOver done S).or (if t.storage? = some S then some t else none) := by
  unfold firstOver
  rw [find?_append, find?_singleton]
  simp

theorem firstOver_isSome_of_mem {r : SortedTensor} (hr : r ∈ done) (hS : r.storage? = some S) :
    (firstOver done S).isSome :=
  find?_isSome.mpr ⟨r, hr, by simp [hS]⟩

/-- Placing `t` adds `t` to one bucket and moves no other tensor. -/
theorem place_holds (t : SortedTensor) :
    ∃ (i : Nat) (b : TensorBucket), (place buckets t)[i]? = some b ∧ t ∈ b.refs ∧
      (∀ (j : Nat) (b : TensorBucket), buckets[j]? = some b → ∀ r ∈ b.refs,
        ∃ b', (place buckets t)[j]? = some b' ∧ r ∈ b'.refs) ∧
      ∀ j S, Holds (place buckets t) j S → Holds buckets j S ∨ j = i ∧ t.storage? = some S := by
  obtain ⟨i, b, hb, -, hplace⟩ := place_cases buckets t
  refine ⟨i, b.addRef t, by rw [hplace, if_pos rfl], by simp [TensorBucket.addRef], ?_, ?_⟩
  · intro j b' hb' r hr
    by_cases hj : j = i
    · subst hj
      refine ⟨b.addRef t, by rw [hplace, if_pos rfl], ?_⟩
      rcases hb with hb | ⟨rfl, -⟩
      · rw [hb'] at hb; cases hb
        exact mem_append_left _ hr
      · rw [getElem?_eq_none (Nat.le_refl _)] at hb'; cases hb'
    · exact ⟨b', by rw [hplace, if_neg hj]; exact hb', hr⟩
  · rintro j S ⟨b', hb', r, hr, hS⟩
    rw [hplace] at hb'
    split at hb'
    next hj =>
      cases hb'
      rcases mem_append.mp hr with hr | hr
      · left
        rcases hb with hb | ⟨-, rfl⟩
        · exact ⟨b, by rw [hj]; exact hb, r, hr, hS⟩
        · cases hr
      · right
        rw [mem_singleton.mp hr] at hS
        exact ⟨hj, hS⟩
    next => exact Or.inl ⟨b', hb', r, hr, hS⟩

variable {w : Nat → Nat} {used : Nat → Prop}

/-- Placing a tensor whose storage, if any, has not been seen. -/
theorem place_packed {st : State} (h : Packed used done st)
    (hnew : ∀ S, t.storage? = some S → firstOver done S = none)
    (hstart : ∀ r ∈ done, r.lifeTimeStart ≤ r.lifeTimeEnd ∧ r.lifeTimeStart ≤ t.lifeTimeStart)
    (hw : ∀ S, used S → (w S = OFFSET_PLACEHOLDER ↔ (firstOver (done ++ [t]) S).isSome)) :
    Packed used (done ++ [t]) ⟨place st.buckets t, w⟩ := by
  have hkeep : ∀ (i : Nat) (b : TensorBucket), (place st.buckets t)[i]? = some b →
      Apart b.refs ∧ (∀ r ∈ b.refs, r.alignedSize ≤ b.size) ∧ ∀ r ∈ b.refs, r ∈ done ++ [t] := by
    -- `Apart` needs that the earlier tensors of the bucket are among `done`
    obtain ⟨i₀, b₀, hb₀, hre, hplace⟩ := place_cases st.buckets t
    have hold : Apart b₀.refs ∧ (∀ r ∈ b₀.refs, r.alignedSize ≤ b₀.size) ∧
        ∀ r ∈ b₀.refs, r ∈ done := by
      rcases hb₀ with hb₀ | ⟨-, rfl⟩
      · exact ⟨h.apart _ _ hb₀, h.fits _ _ hb₀, h.seen _ _ hb₀⟩
      · exact ⟨List.Pairwise.nil, fun r hr => (by cases hr), fun r hr => (by cases hr)⟩
    intro i b hb
    rw [hplace] at hb
    split at hb
    next =>
      cases hb
      refine ⟨addRef_apart hold.1 hre fun r hr => hstart r (hold.2.2 r hr), ?_, ?_⟩
      · intro r hr
        simp only [TensorBucket.addRef, mem_append, mem_singleton] at hr ⊢
        rcases hr with hr | rfl
        · exact Nat.le_trans (hold.2.1 r hr) (Nat.le_max_right _ _)
        · exact Nat.le_max_left _ _
      · intro r hr
        simp only [TensorBucket.addRef, mem_append] at hr ⊢
        exact hr.imp_left (hold.2.2 r)
    next =>
      exact ⟨h.apart _ _ hb, h.fits _ _ hb, fun r hr => mem_append_left _ (h.seen _ _ hb r hr)⟩
  refine ⟨fun i b hb => (hkeep i b hb).1, fun i b hb => (hkeep i b hb).2.1,
    fun i b hb => (hkeep i b hb).2.2, ?_, hw, ?_⟩
  · have := bytes_place_le st.buckets t
    have := h.bytes_le
    simp only [map_append, map_cons, map_nil, sum_append, sum_cons, sum_nil]
    omega
  · intro S t' ht'
    obtain ⟨i, b, hb, ht, hstay, hholds⟩ := place_holds st.buckets t
    rw [firstOver_concat] at ht'
    cases hfirst : firstOver done S with
    | some t₀ =>
      rw [hfirst] at ht'
      cases ht'
      obtain ⟨k, bk, hbk, hmem, honly⟩ := h.placed S t' hfirst
      obtain ⟨bk', hbk', hmem'⟩ := hstay k bk hbk t' hmem
      refine ⟨k, bk', hbk', hmem', ?_⟩
      intro j hj
      rcases hholds j S hj with hold | ⟨-, hS⟩
      · exact honly j hold
      · rw [hnew S hS] at hfirst; cases hfirst
    | none =>
      rw [hfirst, Option.none_or] at ht'
      split at ht'
      next hS =>
        cases ht'
        refine ⟨i, b, hb, ht, ?_⟩
        intro j hj
        rcases hholds j S hj with ⟨b', hb', r, hr, hrS⟩ | ⟨hj', -⟩
        · have := firstOver_isSome_of_mem (h.seen j b' hb' r hr) hrS
          rw [hfirst] at this; cases this
        · exact hj'
      next => cases ht'

/-- One tensor more keeps the buckets packed. -/
theorem allocateStep_packed {st : State} (h : Packed used done st)
    (hused : ∀ S, t.storage? = some S → used S)
    (hstart : ∀ r ∈ done, r.lifeTimeStart ≤ r.lifeTimeEnd ∧ r.lifeTimeStart ≤ t.lifeTimeStart) :
    Packed used (done ++ [t]) (allocateStep st t) := by
  unfold allocateStep
  split
  next hs =>
    refine place_packed h (fun S hS => by rw [hs] at hS; cases hS) hstart ?_
    intro S hS
    rw [firstOver_concat, hs]
    simpa using h.marked S hS
  next s hs =>
    split
    next hmark =>
      -- the storage is placed already: the tensor is skipped
      have hsome : (firstOver done s).isSome := (h.marked s (hused s hs)).mp hmark
      have hsame : ∀ S, firstOver (done ++ [t]) S = firstOver done S := by
        intro S
        rw [firstOver_concat, hs]
        by_cases hS : s = S
        · subst hS; rw [Option.or_of_isSome hsome]
        · simp [hS]
      refine ⟨h.apart, h.fits, fun i b hb r hr => mem_append_left _ (h.seen i b hb r hr), ?_,
        fun S => by rw [hsame]; exact h.marked S, fun S t' ht' => ?_⟩
      · have := h.bytes_le
        simp only [map_append, sum_append]
        omega
      · rw [hsame] at ht'
        exact h.placed S t' ht'
    next hmark =>
      have hnone : firstOver done s = none := by
        rw [← Option.not_isSome_iff_eq_none]
        exact fun hsome => hmark ((h.marked s (hused s hs)).mpr hsome)
      refine place_packed h (fun S hS => by rw [hs] at hS; cases hS; exact hnone) hstart ?_
      intro S hin
      rw [firstOver_concat, hs]
      by_cases hS : S = s
      · subst hS
        simp [hnone]
      · have hne : s ≠ S := Ne.symm hS
        simpa [update, hS, hne] using h.marked S hin

/-- The lists `CalcLifeTimeAndSize` produces: tensors in the order of their
start, none ending before it starts. -/
structure InOrder (tensors : List SortedTensor) : Prop where
  sorted : tensors.Pairwise fun x y => x.lifeTimeStart ≤ y.lifeTimeStart
  le : ∀ t ∈ tensors, t.lifeTimeStart ≤ t.lifeTimeEnd

theorem foldl_packed (rest : List SortedTensor) : ∀ (done : List SortedTensor) (st : State),
    InOrder (done ++ rest) → (∀ t ∈ rest, ∀ S, t.storage? = some S → used S) →
      Packed used done st → Packed used (done ++ rest) (rest.foldl allocateStep st) := by
  induction rest with
  | nil => intro done st _ _ h; rw [append_nil]; exact h
  | cons t rest ih =>
    intro done st hord hused h
    obtain ⟨ht, hrest⟩ := forall_mem_cons.mp hused
    have hstep : Packed used (done ++ [t]) (allocateStep st t) :=
      allocateStep_packed h ht fun r hr => ⟨hord.le r (mem_append_left _ hr),
        (pairwise_append.mp hord.sorted).2.2 r hr t mem_cons_self⟩
    have := ih (done ++ [t]) (allocateStep st t) (by rw [append_assoc]; exact hord) hrest hstep
    rw [append_assoc] at this
    exact this

variable {tensors : List SortedTensor}

/-- No storage of the tensors carries the mark of one that is placed. -/
def Unmarked (tensors : List SortedTensor) (w : Nat → Nat) : Prop :=
  ∀ t ∈ tensors, ∀ S, t.storage? = some S → w S ≠ OFFSET_PLACEHOLDER

theorem packed (hord : InOrder tensors) (hw : Unmarked tensors w) :
    Packed (w · ≠ OFFSET_PLACEHOLDER) tensors (tensors.foldl allocateStep ⟨[], w⟩) := by
  refine foldl_packed tensors [] ⟨[], w⟩ hord hw ⟨?_, ?_, ?_, Nat.le_refl _, ?_, ?_⟩
  · intro i b hb; cases hb
  · intro i b hb; cases hb
  · intro i b hb; cases hb
  · intro S hS
    simp [firstOver, hS]
  · intro S t ht; cases ht

/-! ## The second loop -/

theorem setOffset_eq (t : SortedTensor) (offset : Nat) (w : Nat → Nat) (S : Nat) :
    t.setOffset offset w S = if t.storage? = some S then offset else w S := by
  unfold SortedTensor.setOffset
  cases t.storage? with
  | none => simp
  | some s =>
    by_cases hs : S = s
    · subst hs; simp
    · simp [hs, Ne.symm hs]

theorem updateOffset_eq (b : TensorBucket) (offset : Nat) (w : Nat → Nat) (S : Nat) :
    b.updateOffset offset w S = if (∃ r ∈ b.refs, r.storage? = some S) then offset else w S := by
  unfold TensorBucket.updateOffset
  generalize b.refs = refs
  induction refs using List.reverseRecOn with
  | nil => simp
  | append_singleton refs r ih =>
    rw [foldl_append, foldl_cons, foldl_nil, setOffset_eq, ih]
    by_cases hr : r.storage? = some S
    · rw [if_pos hr, if_pos ⟨r, by simp, hr⟩]
    · simp [hr, or_and_right, exists_or]

theorem layout_skip (S : Nat) : ∀ (bs : List TensorBucket) (size : Nat) (w : Nat → Nat),
    (∀ j, ¬ Holds bs j S) → (layout bs size w).2 S = w S
  | [], _, _, _ => rfl
  | b :: bs, size, w, h => by
    show (layout bs _ _).2 S = w S
    rw [layout_skip S bs _ _ fun j hj => h (j + 1) hj, updateOffset_eq, if_neg]
    exact fun hr => h 0 ⟨b, rfl, hr⟩

theorem layout_offset (S : Nat) : ∀ (bs : List TensorBucket) (size : Nat) (w : Nat → Nat) (i : Nat),
    size + bytes bs < 2 ^ 64 → Holds bs i S → (∀ j, Holds bs j S → j = i) →
    (layout bs size w).2 S = size + bytes (bs.take i)
  | [], _, _, i, _, ⟨_, hb, _⟩, _ => by cases hb
  | b :: bs, size, w, 0, _, ⟨b', hb, hr⟩, honly => by
    cases hb
    show (layout bs _ _).2 S = size + 0
    rw [layout_skip S bs _ _ fun j hj => absurd (honly (j + 1) hj) (Nat.succ_ne_zero j),
      updateOffset_eq, if_pos hr, Nat.add_zero]
  | b :: bs, size, w, i + 1, hlt, hi, honly => by
    have hb : bytes (b :: bs) = b.size + bytes bs := by simp [bytes]
    show (layout bs ((size + b.size) % 2 ^ 64) _).2 S = _
    rw [Nat.mod_eq_of_lt (by omega),
      layout_offset S bs (size + b.size) _ i (by omega) hi fun j hj =>
        Nat.succ.inj (honly (j + 1) hj)]
    simp [bytes, Nat.add_assoc]

theorem layout_total : ∀ (bs : List TensorBucket) (size : Nat) (w : Nat → Nat),
    size + bytes bs < 2 ^ 64 → (layout bs size w).1 = size + bytes bs
  | [], _, _, _ => rfl
  | b :: bs, size, w, hlt => by
    have hb : bytes (b :: bs) = b.size + bytes bs := by simp [bytes]
    show (layout bs ((size + b.size) % 2 ^ 64) _).1 = _
    rw [Nat.mod_eq_of_lt (by omega), layout_total bs _ _ (by omega)]
    omega

theorem bytes_take_succ {bs : List TensorBucket} {i : Nat} (h : bs[i]? = some b) :
    bytes (bs.take (i + 1)) = bytes (bs.take i) + b.size := by
  rw [take_add_one, h, bytes_append]
  simp [bytes]

theorem bytes_take_le (bs : List TensorBucket) {i j : Nat} (h : i ≤ j) :
    bytes (bs.take i) ≤ bytes (bs.take j) := by
  obtain ⟨k, rfl⟩ := Nat.le.dest h
  rw [take_add, bytes_append]
  omega

/-! ## The plan -/

section

variable (hord : InOrder tensors) (hw : Unmarked tensors w)
  (hfit : (tensors.map (·.alignedSize)).sum < 2 ^ 64)
include hord hw hfit

/-- Where the allocator put the first tensor over `S`: a bucket of its own range
`[offset, offset + size)`. -/
theorem allocate_bucket (ht : firstOver tensors S = some t) :
    ∃ (i : Nat) (b : TensorBucket),
      (tensors.foldl allocateStep ⟨[], w⟩).buckets[i]? = some b ∧ t ∈ b.refs ∧
      (allocate tensors w).2 S = bytes ((tensors.foldl allocateStep ⟨[], w⟩).buckets.take i) := by
  have hp := packed hord hw
  obtain ⟨i, b, hb, hmem, honly⟩ := hp.placed S t ht
  have hS : t.storage? = some S := by simpa using find?_some ht
  refine ⟨i, b, hb, hmem, ?_⟩
  have := layout_offset S _ 0 (tensors.foldl allocateStep ⟨[], w⟩).workspaceOffset i
    (by have := hp.bytes_le; omega) ⟨b, hb, t, hmem, hS⟩ honly
  rw [Nat.zero_add] at this
  exact this

/-- Storages that are alive at once get disjoint places. -/
theorem allocate_disjoint
    {S₁ S₂ : Nat} {t₁ t₂ : SortedTensor} (ht₁ : firstOver tensors S₁ = some t₁)
    (ht₂ : firstOver tensors S₂ = some t₂) (hne : S₁ ≠ S₂)
    (hmeet₁ : t₁.lifeTimeStart ≤ t₂.lifeTimeEnd) (hmeet₂ : t₂.lifeTimeStart ≤ t₁.lifeTimeEnd) :
    Disjoint (Set.Ico ((allocate tensors w).2 S₁) ((allocate tensors w).2 S₁ + t₁.alignedSize))
      (Set.Ico ((allocate tensors w).2 S₂) ((allocate tensors w).2 S₂ + t₂.alignedSize)) := by
  have hp := packed hord hw
  obtain ⟨i₁, b₁, hb₁, hmem₁, hoff₁⟩ := allocate_bucket hord hw hfit ht₁
  obtain ⟨i₂, b₂, hb₂, hmem₂, hoff₂⟩ := allocate_bucket hord hw hfit ht₂
  have hfit₁ := hp.fits i₁ b₁ hb₁ t₁ hmem₁
  have hfit₂ := hp.fits i₂ b₂ hb₂ t₂ hmem₂
  have hend₁ := bytes_take_succ hb₁
  have hend₂ := bytes_take_succ hb₂
  rw [Set.disjoint_left]
  intro x hx₁ hx₂
  rw [Set.mem_Ico] at hx₁ hx₂
  rcases Nat.lt_trichotomy i₁ i₂ with hlt | heq | hgt
  · have := bytes_take_le (tensors.foldl allocateStep ⟨[], w⟩).buckets (Nat.succ_le_of_lt hlt)
    simp only [Nat.succ_eq_add_one] at this
    omega
  · -- the same bucket: its tensors are never alive together
    subst heq
    rw [hb₁] at hb₂
    cases hb₂
    have htne : t₁ ≠ t₂ := by
      rintro rfl
      have h₁ := find?_some ht₁
      have h₂ := find?_some ht₂
      simp only [beq_iff_eq] at h₁ h₂
      rw [h₁] at h₂
      exact hne (Option.some.inj h₂)
    rcases (hp.apart i₁ b₁ hb₁).mem_or hmem₁ hmem₂ htne with h | h
    · omega
    · omega
  · have := bytes_take_le (tensors.foldl allocateStep ⟨[], w⟩).buckets (Nat.succ_le_of_lt hgt)
    simp only [Nat.succ_eq_add_one] at this
    omega

/-- Every place lies inside the total. -/
theorem allocate_inside (ht : firstOver tensors S = some t) :
    (allocate tensors w).2 S + t.alignedSize ≤ (allocate tensors w).1 := by
  have hp := packed hord hw
  obtain ⟨i, b, hb, hmem, hoff⟩ := allocate_bucket hord hw hfit ht
  have htotal : (allocate tensors w).1 = bytes (tensors.foldl allocateStep ⟨[], w⟩).buckets := by
    have := layout_total (tensors.foldl allocateStep ⟨[], w⟩).buckets 0
      (tensors.foldl allocateStep ⟨[], w⟩).workspaceOffset (by have := hp.bytes_le; omega)
    rw [Nat.zero_add] at this
    exact this
  have hle := bytes_take_le (tensors.foldl allocateStep ⟨[], w⟩).buckets
    (Nat.succ_le_of_lt (List.getElem?_eq_some_iff.mp hb).1)
  rw [Nat.succ_eq_add_one, bytes_take_succ hb, take_length] at hle
  have := hp.fits i b hb t hmem
  omega

/-- The total is at most the sum of the sizes. -/
theorem allocate_total_le :
    (allocate tensors w).1 ≤ (tensors.map (·.alignedSize)).sum := by
  have hp := packed hord hw
  have := layout_total (tensors.foldl allocateStep ⟨[], w⟩).buckets 0
      (tensors.foldl allocateStep ⟨[], w⟩).workspaceOffset (by have := hp.bytes_le; omega)
  have := hp.bytes_le
  unfold allocate
  simp only
  omega

end

end MaxAllocator

end OpBase.Mem
