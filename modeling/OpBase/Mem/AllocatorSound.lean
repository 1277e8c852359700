import OpBase.Mem.MaxAllocator

/-!
# The two allocators side by side

`memory_allocator.cpp` has a second allocator, `LinearAllocator`, that gives every tensor
bytes of its own. `MaxAllocator` is to be as sound and to need no more:

> `allocate_sound`: over distinct storages, `MaxAllocator` hands out aligned ranges that
> lie inside of the total and keep tensors apart that are alive together, and the total
> is at most that of `LinearAllocator`.

Both count in `uint64_t` and neither looks for an overflow, so the bytes of the linear plan
must stay below `2 ^ 64`.
-/

namespace OpBase.Mem

open List

/-! ## The linear allocator -/

variable {tensors : List SortedTensor}

namespace LinearAllocator

/-- One round of the loop of `Allocate`: `size_` and the `workspaceOffset_` of the storages. -/
def allocateStep (st : Nat × (Nat → Nat)) (tensor : SortedTensor) : Nat × (Nat → Nat) :=
  ((st.1 + tensor.alignedSize) % 2 ^ 64, tensor.setOffset st.1 st.2)

/-- `LinearAllocator::Allocate` on a new allocator. -/
def allocate (tensors : List SortedTensor) (workspaceOffset : Nat → Nat) : Nat × (Nat → Nat) :=
  tensors.foldl allocateStep (0, workspaceOffset)

theorem foldl_total : ∀ (tensors : List SortedTensor) (st : Nat × (Nat → Nat)),
    st.1 + (tensors.map (·.alignedSize)).sum < 2 ^ 64 →
      (tensors.foldl allocateStep st).1 = st.1 + (tensors.map (·.alignedSize)).sum
  | [], _, _ => rfl
  | t :: ts, st, h => by
    rw [map_cons, sum_cons] at h
    have hst : (allocateStep st t).1 = st.1 + t.alignedSize := Nat.mod_eq_of_lt (by omega)
    rw [foldl_cons, foldl_total ts _ (by rw [hst]; omega), hst, map_cons, sum_cons]
    omega

theorem allocate_total (w : Nat → Nat) (hfit : (tensors.map (·.alignedSize)).sum < 2 ^ 64) :
    (allocate tensors w).1 = (tensors.map (·.alignedSize)).sum := by
  have := foldl_total tensors (0, w) (by rw [Nat.zero_add]; exact hfit)
  rw [Nat.zero_add] at this
  exact this

end LinearAllocator

namespace MaxAllocator

/-! ## Aligned buckets -/

theorem align_dvd (n : Nat) : ALIGN_SIZE_IN_BYTE ∣ align n := Nat.dvd_mul_left _ _

/-- The sizes of the buckets are multiples of the alignment. -/
def Aligned (buckets : List TensorBucket) : Prop := ∀ b ∈ buckets, ALIGN_SIZE_IN_BYTE ∣ b.size

theorem addRef_aligned {b : TensorBucket} (t : SortedTensor) (h : ALIGN_SIZE_IN_BYTE ∣ b.size) :
    ALIGN_SIZE_IN_BYTE ∣ (b.addRef t).size := by
  show ALIGN_SIZE_IN_BYTE ∣ max t.alignedSize b.size
  rcases Nat.le_total t.alignedSize b.size with hle | hle
  · rw [Nat.max_eq_right hle]
    exact h
  · rw [Nat.max_eq_left hle]
    exact align_dvd _

variable {buckets : List TensorBucket}

theorem place_aligned (t : SortedTensor) (h : Aligned buckets) :
    Aligned (place buckets t) := by
  obtain ⟨i, b, hb, -, hplace⟩ := place_cases buckets t
  have hbs : ALIGN_SIZE_IN_BYTE ∣ b.size := by
    rcases hb with hb | ⟨-, rfl⟩
    · exact h b (mem_of_getElem? hb)
    · exact Nat.dvd_zero _
  intro b' hb'
  obtain ⟨j, hj⟩ := getElem?_of_mem hb'
  rw [hplace] at hj
  split at hj
  next =>
    cases hj
    exact addRef_aligned t hbs
  next => exact h b' (mem_of_getElem? hj)

theorem foldl_aligned : ∀ (tensors : List SortedTensor) (st : State),
    Aligned st.buckets → Aligned (tensors.foldl allocateStep st).buckets
  | [], _, h => h
  | t :: ts, st, h => by
    refine foldl_aligned ts (allocateStep st t) ?_
    unfold allocateStep
    split
    next => exact place_aligned t h
    next =>
      split
      next => exact h
      next => exact place_aligned t h

theorem bytes_aligned : ∀ {buckets : List TensorBucket}, Aligned buckets →
    ALIGN_SIZE_IN_BYTE ∣ bytes buckets
  | [], _ => Nat.dvd_zero _
  | b :: bs, h => by
    have hbs : Aligned bs := fun b' hb' => h b' (mem_cons_of_mem b hb')
    show ALIGN_SIZE_IN_BYTE ∣ ((b :: bs).map (·.size)).sum
    rw [map_cons, sum_cons]
    exact Nat.dvd_add (h b mem_cons_self) (bytes_aligned hbs)

theorem Aligned.take (h : Aligned buckets) (i : Nat) :
    Aligned (buckets.take i) :=
  fun b hb => h b (mem_of_mem_take hb)

/-! ## The plan -/

/-- No two of the tensors are over one storage. A null tensor is over none. -/
def DistinctStorages (tensors : List SortedTensor) : Prop :=
  tensors.Pairwise fun x y => ∀ s, x.storage? = some s → y.storage? ≠ some s

theorem DistinctStorages.firstOver : ∀ {tensors : List SortedTensor}, DistinctStorages tensors →
    ∀ {t : SortedTensor} {s : Nat}, t ∈ tensors → t.storage? = some s → firstOver tensors s = some t
  | [], _, _, _, ht, _ => nomatch ht
  | x :: xs, h, t, s, ht, hs => by
    rw [MaxAllocator.firstOver, find?_cons]
    rcases mem_cons.mp ht with rfl | hxs
    · simp [hs]
    · -- the head is over another storage, as the two are distinct
      have hx : (x.storage? == some s) = false :=
        beq_false_of_ne fun hx => (rel_of_pairwise_cons h hxs) s hx hs
      rw [hx]
      exact DistinctStorages.firstOver (List.Pairwise.of_cons h) hxs hs

/-- A plan, the total and the offsets of the storages, that the tensors can live with. -/
structure Sound (tensors : List SortedTensor) (plan : Nat × (Nat → Nat)) : Prop where
  aligned : ∀ t ∈ tensors, ∀ s, t.storage? = some s → ALIGN_SIZE_IN_BYTE ∣ plan.2 s
  inside : ∀ t ∈ tensors, ∀ s, t.storage? = some s →
    Set.Ico (plan.2 s) (plan.2 s + t.alignedSize) ⊆ Set.Ico 0 plan.1
  apart : ∀ t₁ ∈ tensors, ∀ t₂ ∈ tensors, ∀ s₁ s₂, t₁.storage? = some s₁ → t₂.storage? = some s₂ →
    s₁ ≠ s₂ → t₁.lifeTimeStart ≤ t₂.lifeTimeEnd → t₂.lifeTimeStart ≤ t₁.lifeTimeEnd →
      Disjoint (Set.Ico (plan.2 s₁) (plan.2 s₁ + t₁.alignedSize))
        (Set.Ico (plan.2 s₂) (plan.2 s₂ + t₂.alignedSize))

/-- `MaxAllocator` is sound, and needs no more than `LinearAllocator`. -/
theorem allocate_sound (hord : InOrder tensors) (hdist : DistinctStorages tensors) {w : Nat → Nat}
    (hw : Unmarked tensors w) (hfit : (tensors.map (·.alignedSize)).sum < 2 ^ 64) :
    Sound tensors (allocate tensors w) ∧
      (allocate tensors w).1 ≤ (LinearAllocator.allocate tensors w).1 := by
  refine ⟨⟨?_, ?_, ?_⟩, ?_⟩
  · intro t ht s hs
    obtain ⟨i, b, -, -, hoff⟩ := allocate_bucket hord hw hfit (hdist.firstOver ht hs)
    rw [hoff]
    exact bytes_aligned ((foldl_aligned tensors ⟨[], w⟩ (fun b hb => nomatch hb)).take i)
  · intro t ht s hs x hx
    have := allocate_inside hord hw hfit (hdist.firstOver ht hs)
    exact ⟨Nat.zero_le x, Nat.lt_of_lt_of_le hx.2 this⟩
  · intro t₁ ht₁ t₂ ht₂ s₁ s₂ hs₁ hs₂ hne hmeet₁ hmeet₂
    exact allocate_disjoint hord hw hfit (hdist.firstOver ht₁ hs₁) (hdist.firstOver ht₂ hs₂) hne
      hmeet₁ hmeet₂
  · rw [LinearAllocator.allocate_total w hfit]
    exact allocate_total_le hord hw hfit

/-- An op and the two behind it: the first output dies before the third op starts. -/
def chain : List SortedTensor :=
  [⟨some ⟨0, 0, .DT_FLOAT, 256⟩, 0, 1, 1024, []⟩,
    ⟨some ⟨1, 1, .DT_FLOAT, 256⟩, 1, 2, 1024, [some ⟨0, 0, .DT_FLOAT, 256⟩]⟩,
    ⟨some ⟨2, 2, .DT_FLOAT, 512⟩, 2, 2, 2048, [some ⟨1, 1, .DT_FLOAT, 256⟩]⟩]

theorem allocate_sound_chain :
    (InOrder chain ∧ DistinctStorages chain) ∧
      Sound chain (allocate chain fun _ => 0) ∧
        (allocate chain fun _ => 0).1 ≤ (LinearAllocator.allocate chain fun _ => 0).1 := by
  have hord : InOrder chain := ⟨by decide, by decide⟩
  have hdist : DistinctStorages chain := by
    unfold DistinctStorages chain
    simp [SortedTensor.storage?]
  exact ⟨⟨hord, hdist⟩, allocate_sound hord hdist (fun _ _ _ _ => by decide) (by decide)⟩

/-- Two tensors of `2 ^ 63 - 512` bytes that are alive together: the total wraps to zero. -/
def huge : List SortedTensor :=
  [⟨some ⟨0, 0, .DT_INT8, 2 ^ 63 - 512⟩, 0, 1, 2 ^ 63 - 512, []⟩,
    ⟨some ⟨1, 1, .DT_INT8, 2 ^ 63 - 512⟩, 1, 1, 2 ^ 63 - 512, []⟩]

/-- A plan need not be sound: the sizes may wrap, and a storage may carry the mark of one
that is placed. -/
theorem allocate_unsound :
    (InOrder huge ∧ DistinctStorages huge ∧ ¬ Sound huge (allocate huge fun _ => 0)) ∧
      InOrder chain ∧ DistinctStorages chain ∧
        ¬ Sound chain (allocate chain fun _ => OFFSET_PLACEHOLDER) := by
  refine ⟨⟨⟨by decide, by decide⟩, ?_, ?_⟩, ⟨by decide, by decide⟩, ?_, ?_⟩
  · unfold DistinctStorages huge
    simp [SortedTensor.storage?]
  · intro h
    have hin := h.inside _ mem_cons_self 0 rfl
    have h0 := hin (show 0 ∈ Set.Ico _ _ from ⟨by decide, by decide⟩)
    exact absurd h0.2 (by decide)
  · unfold DistinctStorages chain
    simp [SortedTensor.storage?]
  · intro h
    have hal := h.aligned _ mem_cons_self 0 rfl
    exact absurd hal (by decide)

end MaxAllocator

end OpBase.Mem
