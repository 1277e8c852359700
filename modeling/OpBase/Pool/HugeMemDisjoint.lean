import OpBase.Pool.HugeMem
import OpBase.Pool.Partition

/-!
# Live allocations of huge memory are disjoint

Cutting allocations off the front of a block is safe as long as the block has
one owner: the offset in its first word only grows while a pool has it, and the
pool's allocations are released before the first block goes back.

`Holds s content` is the invariant: every huge block is on the free array or
owned by one pool (`Placed`), a pool's blocks are those of its array and its
links (those left to give back, during a release), and every live cut lies
between the header and the offset of a block of its pool.

> `huge_disjoint`: this holds in every state any number of threads can reach.

Not every allocation is cut off a huge block: large requests, threads without a
pool, and requests that find neither room in the pool's current block nor a free
one go to the block pool (`huge_falls_back`), whose blocks are its own
(`block_partition`).
-/

namespace OpBase.Pool.HugeMem

open List

open Function (update update_apply update_of_ne update_self)
open OpBase.Lib
open Option (ite_none_right_eq_some)

/-- A huge block is free or some pool's. -/
inductive Place where
  | free
  | pool (id : Nat)
deriving DecidableEq

/-- Two cuts share no byte. -/
def Cut.Apart (c d : Cut) : Prop :=
  c.block ≠ d.block ∨ c.start + c.size ≤ d.start ∨ d.start + d.size ≤ c.start

/-- The thread has the pool, or is about to return it. -/
def State.Uses (s : State) (t : Thread) (id : Nat) : Prop :=
  s.poolIndex t = some id ∨ ∃ rest, s.pc t = .releasing id rest

/-- No pool is being given back. -/
def State.Steady (s : State) (id : Nat) : Prop :=
  ∀ t rest, s.pc t ≠ .releasing id rest

/-- A pool index is free or used by one thread. -/
structure Indices (s : State) : Prop where
  nodup : s.poolIndices.Nodup
  inRange : ∀ id ∈ s.poolIndices, id < maxObjectNum
  usedInRange : ∀ t id, s.Uses t id → id < maxObjectNum
  notFree : ∀ t id, s.Uses t id → id ∉ s.poolIndices
  only : ∀ t u id, s.Uses t id → s.Uses u id → t = u
  quiet : ∀ t id rest, s.pc t = .releasing id rest → s.poolIndex t = none

/-- Every huge block has one owner, and live cuts lie in the blocks of their pools. -/
structure Holds (s : State) (content : Place → List Nat) : Prop where
  placed : Placed (· < hugeBlockNum) content
  free : content .free = s.hugeMemArray
  owned : ∀ id, s.Steady id → content (.pool id) = (s.pools id).blocks
  releasing : ∀ t id rest, s.pc t = .releasing id rest → content (.pool id) = rest
  released : ∀ t id rest, s.pc t = .releasing id rest → ∀ c ∈ s.live, c.pool ≠ id
  slots : ∀ id, (s.pools id).baseArray.length = maxPoolArrayNum
  poolInRange : ∀ id b, b ∈ content (.pool id) → id < maxObjectNum
  offset : ∀ id b, b ∈ content (.pool id) →
    hugeBlockDefaultOffset ≤ s.offset b ∧ s.offset b ≤ hugeBlockSize
  inside : ∀ c ∈ s.live, c.block ∈ content (.pool c.pool) ∧
    hugeBlockDefaultOffset ≤ c.start ∧ c.start + c.size ≤ s.offset c.block
  apart : s.live.Pairwise Cut.Apart
  indices : Indices s

theorem filterMap_set (b : Nat) : ∀ (l : List (Option Nat)) (i : Nat), i < l.length →
    l.getD i none = none → ((l.set i (some b)).filterMap id).Perm (b :: l.filterMap id)
  | a :: l, 0, _, ha => by
    replace ha : a = none := ha
    subst ha
    exact List.Perm.refl _
  | a :: l, i + 1, hi, ha => by
    have ih := filterMap_set b l i (Nat.lt_of_succ_lt_succ hi) ha
    cases a with
    | none => exact ih
    | some c => exact (ih.cons c).trans (List.Perm.swap b c _)

theorem Indices.of_uses {s s' : State} (h : Indices s) (hfree : s'.poolIndices = s.poolIndices)
    (huses : ∀ t id, s'.Uses t id → s.Uses t id)
    (hquiet : ∀ t id rest, s'.pc t = .releasing id rest → s'.poolIndex t = none) : Indices s' where
  nodup := hfree ▸ h.nodup
  inRange := hfree ▸ h.inRange
  usedInRange t id hu := h.usedInRange t id (huses t id hu)
  notFree t id hu := hfree ▸ h.notFree t id (huses t id hu)
  only t u id hu hv := h.only t u id (huses t id hu) (huses u id hv)
  quiet := hquiet

namespace Holds

variable {s : State} {content : Place → List Nat} {id b size : Nat} {t : Thread}

section

variable (h : Holds s content)
include h

theorem steady (hid : s.poolIndex t = some id) : s.Steady id := by
  intro u rest hu
  have heq := h.indices.only t u id (Or.inl hid) (Or.inr ⟨rest, hu⟩)
  have hnone := h.indices.quiet u id rest hu
  rw [← heq, hid] at hnone
  cases hnone

theorem setPool (pool : HugeMemPool)
    (hblocks : pool.blocks = (s.pools id).blocks)
    (hslots : pool.baseArray.length = maxPoolArrayNum) : Holds (s.setPool id pool) content := by
  have hpools : ∀ j, (s.setPool id pool).pools j = if j = id then pool else s.pools j :=
    fun j => update_apply ..
  refine { h with owned := fun j hj => ?_, slots := fun j => ?_, indices := ?_ }
  · rw [h.owned j hj, hpools]
    split
    next he => rw [he, hblocks]
    next => rfl
  · rw [hpools]
    split
    next => exact hslots
    next => exact h.slots j
  · exact ⟨h.indices.nodup, h.indices.inRange, h.indices.usedInRange, h.indices.notFree,
      h.indices.only, h.indices.quiet⟩

/-- A piece behind the ones handed out is handed out. -/
theorem bump (hid : s.Steady id) (hb : b ∈ (s.pools id).blocks)
    (hsize : s.offset b + size ≤ hugeBlockSize) :
    Holds ((s.setOffset b (s.offset b + size)).record id b (s.offset b) size) content := by
  rw [← h.owned id hid] at hb
  obtain ⟨hge, -⟩ := h.offset id b hb
  have hoffset : ∀ c, update s.offset b (s.offset b + size) c =
      if c = b then s.offset b + size else s.offset c := fun c => update_apply ..
  refine { h with released := ?_, offset := ?_, inside := ?_, apart := ?_, indices := ?_ }
  · intro u j rest hu c hc
    rcases mem_cons.mp hc with he | hc
    · rw [he]
      intro hj
      subst hj
      exact hid u rest hu
    · exact h.released u j rest hu c hc
  · intro j c hc
    show _ ≤ update s.offset b _ c ∧ update s.offset b _ c ≤ _
    rw [hoffset]
    split
    next => exact ⟨by omega, hsize⟩
    next => exact h.offset j c hc
  · intro c hc
    show _ ∧ _ ∧ _ ≤ update s.offset b _ c.block
    rw [hoffset]
    rcases mem_cons.mp hc with he | hc
    · subst he
      rw [if_pos rfl]
      exact ⟨hb, hge, le_refl _⟩
    · obtain ⟨hmem, hstart, hend⟩ := h.inside c hc
      refine ⟨hmem, hstart, ?_⟩
      split
      next he => rw [he] at hend; omega
      next => exact hend
  · refine pairwise_cons.mpr ⟨fun c hc => ?_, h.apart⟩
    obtain ⟨-, -, hend⟩ := h.inside c hc
    by_cases he : c.block = b
    · rw [he] at hend
      exact Or.inr (Or.inr hend)
    · exact Or.inl fun hbc => he hbc.symm
  · exact ⟨h.indices.nodup, h.indices.inRange, h.indices.usedInRange, h.indices.notFree,
      h.indices.only, h.indices.quiet⟩

/-- What `GetAddr` leaves behind: an allocation of a huge block to hand out, or the
request for someone else. -/
def Answered (id size : Nat) : State.Answer × State → Prop
  | (.huge b start, s) => ∃ content, Holds (s.record id b start size) content
  | (_, s) => ∃ content, Holds s content

/-- The same of the fast path, or the break from it. -/
def PathAnswered (id size : Nat) : Option State.Answer × State → Prop
  | (some answer, s) => Answered id size (answer, s)
  | (none, s) => (∃ content, Holds s content) ∧ s.Steady id

section

variable (hid : s.Steady id) (hlt : id < maxObjectNum)
  (hsize : size ≤ hugeBlockSize - hugeBlockDefaultOffset)
include hid hlt hsize

/-- A free block becomes the pool's and its first bytes are cut off. -/
theorem openBlock {rest : List Nat} {pool : HugeMemPool} (hfree : s.hugeMemArray = b :: rest)
    (hblocks : pool.blocks.Perm (b :: (s.pools id).blocks))
    (hslots : pool.baseArray.length = maxPoolArrayNum) :
    ∃ content', Holds ((({ s with hugeMemArray := rest }.setPool id pool).setOffset b
      (hugeBlockDefaultOffset + size)).record id b hugeBlockDefaultOffset size) content' := by
  set content' := update (update content .free rest) (.pool id) pool.blocks with hcontent'
  have hbfree : b ∈ content .free := by rw [h.free, hfree]; exact mem_cons_self
  have hpool : ∀ j, content' (.pool j) = if j = id then pool.blocks else content (.pool j) := by
    intro j
    split
    next he => rw [he]; exact update_self ..
    next hne => rw [hcontent', update_of_ne (by simpa using hne),
        update_of_ne (by simp)]
  have hold : ∀ {j c}, c ∈ content (.pool j) → c ≠ b ∧ c ∈ content' (.pool j) := by
    intro j c hc
    refine ⟨?_, ?_⟩
    · intro he
      subst he
      cases h.placed.only hc hbfree
    · rw [hpool]
      split
      next he =>
        subst he
        rw [h.owned j hid] at hc
        exact hblocks.mem_iff.mpr (mem_cons_of_mem b hc)
      next => exact hc
  have hnew : ∀ {j c}, c ∈ content' (.pool j) → (j = id ∧ c = b) ∨ c ∈ content (.pool j) := by
    intro j c hc
    rw [hpool] at hc
    split at hc
    next he =>
      rcases mem_cons.mp (hblocks.mem_iff.mp hc) with hcb | hc
      · exact Or.inl ⟨he, hcb⟩
      · rw [he, h.owned id hid]
        exact Or.inr hc
    next => exact Or.inr hc
  have hoffset : ∀ c, update s.offset b (hugeBlockDefaultOffset + size) c =
      if c = b then hugeBlockDefaultOffset + size else s.offset c := fun c =>
    update_apply ..
  -- The block moves from the free list to the pool, and its first chunk starts behind the header.
  refine ⟨content', ?_⟩
  constructor
  · apply h.placed.move (by simp)
    · rw [h.free, hfree]
    · rw [h.owned id hid]
      exact hblocks
  · exact (update_of_ne (by simp) _ _).trans (update_self ..)
  · intro j hj
    rw [hpool]
    show _ = (update s.pools id pool j).blocks
    rw [update_apply]
    split
    next => rfl
    next => exact h.owned j hj
  · intro u j r hu
    rw [hpool, if_neg]
    · exact h.releasing u j r hu
    · intro he
      subst he
      exact hid u r hu
  · intro u j r hu c hc
    rcases mem_cons.mp hc with he | hc
    · rw [he]
      intro hj
      subst hj
      exact hid u r hu
    · exact h.released u j r hu c hc
  · intro j
    show (update s.pools id pool j).baseArray.length = _
    rw [update_apply]
    split
    next => exact hslots
    next => exact h.slots j
  · intro j c hc
    rcases hnew hc with ⟨hj, -⟩ | hc
    · rw [hj]
      exact hlt
    · exact h.poolInRange j c hc
  · intro j c hc
    show _ ≤ update s.offset b _ c ∧ update s.offset b _ c ≤ _
    rw [hoffset]
    unfold hugeBlockSize hugeBlockDefaultOffset at *
    split
    next => omega
    next hne => exact h.offset j c ((hnew hc).resolve_left fun hjb => hne hjb.2)
  · intro c hc
    show _ ∧ _ ∧ _ ≤ update s.offset b _ c.block
    rw [hoffset]
    rcases mem_cons.mp hc with he | hc
    · subst he
      rw [if_pos rfl, hpool, if_pos rfl]
      exact ⟨hblocks.mem_iff.mpr mem_cons_self, le_refl _, le_refl _⟩
    · obtain ⟨hmem, hstart, hend⟩ := h.inside c hc
      obtain ⟨hne, hmem'⟩ := hold hmem
      rw [if_neg hne]
      exact ⟨hmem', hstart, hend⟩
  -- The new chunk is alone in a block that held none.
  · refine pairwise_cons.mpr ⟨fun c hc => ?_, h.apart⟩
    exact Or.inl fun hbc => (hold (h.inside c hc).1).1 hbc.symm
  · exact ⟨h.indices.nodup, h.indices.inRange, h.indices.usedInRange, h.indices.notFree,
      h.indices.only, h.indices.quiet⟩

theorem openBlock_answered {keep : Nat → HugeMemPool}
    (hkeep : ∀ b, (keep b).blocks.Perm (b :: (s.pools id).blocks) ∧
      (keep b).baseArray.length = maxPoolArrayNum) :
    Answered id size (s.openBlock id size keep) := by
  unfold State.openBlock
  split
  next => exact ⟨content, h⟩
  next b rest hfree => exact h.openBlock hid hlt hsize hfree (hkeep b).1 (hkeep b).2

end

end

/-- By induction on the arrays left: a pool answers from its current array, or the next one. -/
theorem arrayPath (hlt : id < maxObjectNum)
    (hsize : size ≤ hugeBlockSize - hugeBlockDefaultOffset) : ∀ (n : Nat) {s : State}
    {content : Place → List Nat}, Holds s content → s.Steady id →
    n = maxPoolArrayNum - (s.pools id).currentArrayIndex →
    PathAnswered id size (State.arrayPath id size n s)
  | 0, _, content, h, hid, _ => ⟨⟨content, h⟩, hid⟩
  | n + 1, s, content, h, hid, hn => by
    have hi : (s.pools id).currentArrayIndex < (s.pools id).baseArray.length := by
      rw [h.slots]
      omega
    unfold State.arrayPath
    dsimp only
    cases hslot : (s.pools id).baseArray.getD (s.pools id).currentArrayIndex none with
    | none =>
      show Answered id size (s.openBlock id size _)
      apply h.openBlock_answered hid hlt hsize
      intro b
      exact ⟨(filterMap_set b _ _ hi hslot).append_right _, (length_set ..).trans (h.slots id)⟩
    | some b =>
      dsimp only
      split
      next hfit =>
        have hb : b ∈ (s.pools id).blocks := by
          apply mem_append_left
          rw [getD_eq_getElem _ _ hi] at hslot
          exact mem_filterMap.mpr ⟨some b, hslot ▸ getElem_mem hi, rfl⟩
        exact ⟨content, h.bump hid hb hfit⟩
      next =>
        have hnext := h.setPool
          { s.pools id with currentArrayIndex := (s.pools id).currentArrayIndex + 1 } rfl
          (h.slots id)
        apply arrayPath hlt hsize n hnext hid
        show n = maxPoolArrayNum - (update s.pools id _ id).currentArrayIndex
        rw [update_self]
        show n = maxPoolArrayNum - ((s.pools id).currentArrayIndex + 1)
        omega

section

variable (h : Holds s content)
include h

theorem linkPath (hid : s.Steady id) (hlt : id < maxObjectNum)
    (hsize : size ≤ hugeBlockSize - hugeBlockDefaultOffset) :
    Answered id size (s.linkPath id size) := by
  have hadd : Answered id size (s.addOneHugeBlockToLinkList id size) := by
    apply h.openBlock_answered hid hlt hsize
    intro b
    refine ⟨?_, h.slots id⟩
    show ((s.pools id).baseArray.filterMap _ ++ ((s.pools id).links ++ [b])).Perm _
    rw [← append_assoc]
    exact perm_append_singleton b _
  unfold State.linkPath
  split
  next => exact hadd
  next b hlast =>
    split
    next hfit =>
      exact ⟨content, h.bump hid (mem_append_right _ (mem_of_getLast? hlast)) hfit⟩
    next => exact hadd

/-- `HugeMemPool::GetAddr`. -/
theorem getAddr (hid : s.Steady id) (hlt : id < maxObjectNum) :
    Answered id size (s.getAddr id size) := by
  unfold State.getAddr
  split
  next => exact ⟨content, h⟩
  next hsize =>
    have hpath := arrayPath hlt (not_lt.mp hsize) _ h hid rfl
    split
    next answer s' heq =>
      rw [heq] at hpath
      exact hpath
    next s' heq =>
      rw [heq] at hpath
      obtain ⟨⟨content', h'⟩, hid'⟩ := hpath
      exact h'.linkPath hid' hlt (not_lt.mp hsize)

theorem unInit (t : Thread) : Holds (s.setPoolIndex t none) content := by
  have hidx : ∀ u, (s.setPoolIndex t none).poolIndex u = if u = t then none else s.poolIndex u :=
    fun u => update_apply ..
  have huses : ∀ u id, (s.setPoolIndex t none).Uses u id → s.Uses u id := by
    intro u id hu
    rcases hu with hu | hu
    · rw [hidx] at hu
      split at hu
      next => cases hu
      next => exact Or.inl hu
    · exact Or.inr hu
  refine { h with indices := h.indices.of_uses rfl huses fun u id rest hu => ?_ }
  rw [hidx]
  split
  next => rfl
  next => exact h.indices.quiet u id rest hu

/-- A thread takes a pool that nobody has. -/
theorem initThreadLocal (hidle : s.pc t = .idle) :
    Holds (s.initThreadLocal t) content := by
  unfold State.initThreadLocal
  split
  next => exact h.unInit t
  next id rest hfree =>
    have hnodup := h.indices.nodup
    rw [hfree, nodup_cons] at hnodup
    have hsub : ∀ j ∈ rest, j ∈ s.poolIndices := fun j hj => hfree ▸ mem_cons_of_mem id hj
    have hid : id ∈ s.poolIndices := hfree ▸ mem_cons_self
    have huses : ∀ u j, ({ s with poolIndices := rest }.setPoolIndex t (some id)).Uses u j →
        (u = t ∧ j = id) ∨ (u ≠ t ∧ s.Uses u j) := by
      intro u j hu
      by_cases hut : u = t
      · subst hut
        rcases hu with hu | ⟨r, hu⟩
        · replace hu : update s.poolIndex u (some id) u = some j := hu
          rw [update_self] at hu
          cases hu
          exact Or.inl ⟨rfl, rfl⟩
        · replace hu : s.pc u = .releasing j r := hu
          rw [hidle] at hu
          cases hu
      · refine Or.inr ⟨hut, ?_⟩
        rcases hu with hu | hu
        · exact Or.inl ((update_of_ne hut _ _).symm.trans hu)
        · exact Or.inr hu
    refine { h with indices := ⟨hnodup.2, ?_, ?_, ?_, ?_, ?_⟩ }
    · exact fun j hj => h.indices.inRange j (hsub j hj)
    · intro u j hu
      rcases huses u j hu with ⟨-, hj⟩ | ⟨-, hold⟩
      · rw [hj]
        exact h.indices.inRange id hid
      · exact h.indices.usedInRange u j hold
    · intro u j hu
      rcases huses u j hu with ⟨-, hj⟩ | ⟨-, hold⟩
      · rw [hj]
        exact hnodup.1
      · exact fun hj => h.indices.notFree u j hold (hsub j hj)
    · intro u v j hu hv
      rcases huses u j hu with ⟨hut, hj⟩ | ⟨-, hu'⟩ <;>
        rcases huses v j hv with ⟨hvt, hj'⟩ | ⟨-, hv'⟩
      · exact hut.trans hvt.symm
      · exact absurd (hj ▸ hid) (h.indices.notFree v j hv')
      · exact absurd (hj' ▸ hid) (h.indices.notFree u j hu')
      · exact h.indices.only u v j hu' hv'
    · intro u j r hu
      have hut : u ≠ t := by
        intro he
        subst he
        cases hidle.symm.trans hu
      exact (update_of_ne hut _ _).trans (h.indices.quiet u j r hu)

/-- A release begins: the pool's allocations are gone, its blocks still its own. -/
theorem freeHugeMem (hidle : s.pc t = .idle) :
    Holds (s.freeHugeMem t) content := by
  unfold State.freeHugeMem
  dsimp only
  split
  next => exact h.unInit t
  next id hid =>
    split
    next => exact h.unInit t
    next =>
      have hun := h.unInit t
      have hsteady := h.steady hid
      set s' := { s.setPoolIndex t none with
        live := s.live.filter fun c => c.pool ≠ id }.setPc t (.releasing id (s.pools id).blocks)
        with hs'
      have hpc : ∀ u, s'.pc u = if u = t then .releasing id (s.pools id).blocks else s.pc u :=
        fun u => update_apply ..
      have hcases : ∀ {u j r}, s'.pc u = .releasing j r →
          (u = t ∧ j = id ∧ r = (s.pools id).blocks) ∨ s.pc u = .releasing j r := by
        intro u j r hu
        rw [hpc] at hu
        split at hu
        next he =>
          cases hu
          exact Or.inl ⟨he, rfl, rfl⟩
        next => exact Or.inr hu
      -- Giving up the pool ends its chunks; its blocks stay where they are until they are freed.
      have hlive : ∀ c ∈ s'.live, c ∈ s.live ∧ c.pool ≠ id := fun c hc => by
        simpa using mem_filter.mp hc
      have huses : ∀ u j, s'.Uses u j → s.Uses u j := by
        intro u j hu
        rcases hu with hu | ⟨r, hu⟩
        · by_cases hut : u = t
          · subst hut
            rw [show s'.poolIndex u = none from update_self ..] at hu
            cases hu
          · exact Or.inl ((update_of_ne hut _ _).symm.trans hu)
        · rcases hcases hu with ⟨hut, hj, -⟩ | hu
          · rw [hut, hj]
            exact Or.inl hid
          · exact Or.inr ⟨r, hu⟩
      constructor
      · exact h.placed
      · exact h.free
      · intro j hj
        apply h.owned
        intro u r hu
        apply hj u r
        have hut : u ≠ t := by
          intro he
          rw [he, hidle] at hu
          cases hu
        rw [hpc, if_neg hut]
        exact hu
      · intro u j r hu
        rcases hcases hu with ⟨-, hj, hr⟩ | hu
        · rw [hj, hr]
          exact h.owned id hsteady
        · exact h.releasing u j r hu
      · intro u j r hu c hc
        rcases hcases hu with ⟨-, hj, -⟩ | hu
        · rw [hj]
          exact (hlive c hc).2
        · exact h.released u j r hu c (hlive c hc).1
      · exact h.slots
      · exact h.poolInRange
      · exact h.offset
      · exact fun c hc => h.inside c (hlive c hc).1
      · exact h.apart.filter _
      · refine h.indices.of_uses rfl huses fun u j r hu => ?_
        rcases hcases hu with ⟨hut, -, -⟩ | hu
        · rw [hut]
          exact update_self ..
        · exact hun.indices.quiet u j r hu

/-- A release gives one block back. -/
theorem freeOneHugeBlock {rest : List Nat}
    (hpc : s.pc t = .releasing id (b :: rest)) :
    ∃ content', Holds ((s.freeOneHugeBlock b).setPc t (.releasing id rest)) content' := by
  have hown := h.releasing t id _ hpc
  set s' := (s.freeOneHugeBlock b).setPc t (.releasing id rest) with hs'
  set content' := update (update content (.pool id) rest) .free (b :: s.hugeMemArray)
    with hcontent'
  have hpcs : ∀ u, s'.pc u = if u = t then .releasing id rest else s.pc u :=
    fun u => update_apply ..
  have hpool : ∀ j, content' (.pool j) = if j = id then rest else content (.pool j) := by
    intro j
    rw [hcontent', update_of_ne (by simp)]
    split
    next he => rw [he, update_self]
    next hne => rw [update_of_ne (by simpa using hne)]
  have hsub : ∀ {j c}, c ∈ content' (.pool j) → c ∈ content (.pool j) := by
    intro j c hc
    rw [hpool] at hc
    split at hc
    next he =>
      rw [he, hown]
      exact mem_cons_of_mem b hc
    next => exact hc
  -- The thread that releases the pool is its only user, so no other release can hold one of
  -- its blocks.
  have hcases : ∀ {u j r}, s'.pc u = .releasing j r →
      (u = t ∧ j = id ∧ r = rest) ∨ (j ≠ id ∧ s.pc u = .releasing j r) := by
    intro u j r hu
    rw [hpcs] at hu
    split at hu
    next he =>
      cases hu
      exact Or.inl ⟨he, rfl, rfl⟩
    next hne =>
      refine Or.inr ⟨fun he => hne ?_, hu⟩
      subst he
      exact h.indices.only u t j (Or.inr ⟨r, hu⟩) (Or.inr ⟨_, hpc⟩)
  have huses : ∀ u j, s'.Uses u j → s.Uses u j := by
    intro u j hu
    rcases hu with hu | ⟨r, hu⟩
    · exact Or.inl hu
    · rcases hcases hu with ⟨hut, hj, -⟩ | ⟨-, hu⟩
      · rw [hut, hj]
        exact Or.inr ⟨_, hpc⟩
      · exact Or.inr ⟨r, hu⟩
  have hperm : (content (.pool id)).Perm (b :: rest) := by rw [hown]
  refine ⟨content', ?_⟩
  constructor
  · apply h.placed.move (by simp) hperm
    rw [h.free]
  · exact update_self ..
  · intro j hj
    have hne : j ≠ id := by
      intro he
      apply hj t rest
      rw [hpcs, if_pos rfl, he]
    rw [hpool, if_neg hne]
    apply h.owned
    intro u r hu
    apply hj u r
    have hut : u ≠ t := by
      intro he
      rw [he, hpc] at hu
      cases hu
      exact hne rfl
    rw [hpcs, if_neg hut]
    exact hu
  · intro u j r hu
    rw [hpool]
    rcases hcases hu with ⟨-, hj, hr⟩ | ⟨hj, hu⟩
    · rw [if_pos hj, hr]
    · rw [if_neg hj]
      exact h.releasing u j r hu
  · intro u j r hu c hc
    rcases hcases hu with ⟨-, hj, -⟩ | ⟨-, hu⟩
    · rw [hj]
      exact h.released t id _ hpc c hc
    · exact h.released u j r hu c hc
  · exact h.slots
  · exact fun j c hc => h.poolInRange j c (hsub hc)
  · exact fun j c hc => h.offset j c (hsub hc)
  · intro c hc
    rw [hpool, if_neg (h.released t id _ hpc c hc)]
    exact h.inside c hc
  · exact h.apart
  · refine h.indices.of_uses rfl huses fun u j r hu => ?_
    rcases hcases hu with ⟨hut, -, -⟩ | ⟨-, hu⟩
    · rw [hut]
      exact h.indices.quiet t id _ hpc
    · exact h.indices.quiet u j r hu

/-- A release ends: the pool is as new and its index free. -/
theorem returnIndex (hpc : s.pc t = .releasing id []) :
    Holds (({ s with poolIndices := id :: s.poolIndices }.setPool id .init).setPc t .idle)
      content := by
  have hown := h.releasing t id _ hpc
  have hid : s.Uses t id := Or.inr ⟨_, hpc⟩
  set s' := ({ s with poolIndices := id :: s.poolIndices }.setPool id .init).setPc t .idle
    with hs'
  have hpcs : ∀ u, s'.pc u = if u = t then .idle else s.pc u := fun u => update_apply ..
  have hpools : ∀ j, s'.pools j = if j = id then .init else s.pools j :=
    fun j => update_apply ..
  have hcases : ∀ {u j r}, s'.pc u = .releasing j r → u ≠ t ∧ s.pc u = .releasing j r := by
    intro u j r hu
    rw [hpcs] at hu
    split at hu
    next => cases hu
    next hne => exact ⟨hne, hu⟩
  -- The thread gives the index up with this step, and nobody else used it.
  have huses : ∀ u j, s'.Uses u j → s.Uses u j ∧ j ≠ id := by
    intro u j hu
    have hold : s.Uses u j ∧ u ≠ t := by
      rcases hu with hu | ⟨r, hu⟩
      · refine ⟨Or.inl hu, ?_⟩
        intro he
        have hquiet := h.indices.quiet t id _ hpc
        rw [← he] at hquiet
        cases hquiet.symm.trans hu
      · exact ⟨Or.inr ⟨r, (hcases hu).2⟩, (hcases hu).1⟩
    refine ⟨hold.1, fun he => hold.2 ?_⟩
    subst he
    exact h.indices.only u t j hold.1 hid
  constructor
  · exact h.placed
  · exact h.free
  · intro j hj
    rw [hpools]
    split
    next he =>
      rw [he, hown]
      rfl
    next hne =>
      apply h.owned
      intro u r hu
      apply hj u r
      have hut : u ≠ t := by
        intro he
        rw [he, hpc] at hu
        cases hu
        exact hne rfl
      rw [hpcs, if_neg hut]
      exact hu
  · exact fun u j r hu => h.releasing u j r (hcases hu).2
  · exact fun u j r hu => h.released u j r (hcases hu).2
  · intro j
    rw [hpools]
    split
    next => rfl
    next => exact h.slots j
  · exact h.poolInRange
  · exact h.offset
  · exact h.inside
  · exact h.apart
  · refine ⟨?_, ?_, ?_, ?_, ?_, ?_⟩
    · exact nodup_cons.mpr ⟨h.indices.notFree t id hid, h.indices.nodup⟩
    · intro j hj
      rcases mem_cons.mp hj with hj | hj
      · rw [hj]
        exact h.indices.usedInRange t id hid
      · exact h.indices.inRange j hj
    · exact fun u j hu => h.indices.usedInRange u j (huses u j hu).1
    · intro u j hu hj
      rcases mem_cons.mp hj with hj | hj
      · exact (huses u j hu).2 hj
      · exact h.indices.notFree u j (huses u j hu).1 hj
    · exact fun u v j hu hv => h.indices.only u v j (huses u j hu).1 (huses v j hv).1
    · exact fun u j r hu => h.indices.quiet u j r (hcases hu).2

end

end Holds

/-! ## Steps -/

variable {a : Act}

theorem mem_pushed {i : Nat} : ∀ {n : Nat}, i ∈ pushed n ↔ i < n
  | 0 => by simp [pushed]
  | n + 1 => by
    rw [pushed, mem_cons, mem_pushed]
    omega

/-- At the start every huge block is free. -/
def initContent : Place → List Nat
  | .free => pushed hugeBlockNum
  | .pool _ => []

/-- Neither the block pool nor what is handed out is changed. -/
def State.Keeps (s s' : State) : Prop := s'.blocks = s.blocks ∧ s'.live = s.live

theorem openBlock_keeps (s : State) (id size : Nat) (keep : Nat → HugeMemPool) :
    s.Keeps (s.openBlock id size keep).2 := by
  unfold State.openBlock
  split <;> exact ⟨rfl, rfl⟩

theorem arrayPath_keeps (id size : Nat) : ∀ (n : Nat) (s : State),
    s.Keeps (State.arrayPath id size n s).2
  | 0, _ => ⟨rfl, rfl⟩
  | n + 1, s => by
    unfold State.arrayPath
    dsimp only
    split
    next => exact openBlock_keeps s id size _
    next b hslot =>
      split
      next => exact ⟨rfl, rfl⟩
      next => exact arrayPath_keeps id size n _

theorem linkPath_keeps (s : State) (id size : Nat) : s.Keeps (s.linkPath id size).2 := by
  unfold State.linkPath
  split
  next => exact openBlock_keeps ..
  next b hlast =>
    split
    next => exact ⟨rfl, rfl⟩
    next => exact openBlock_keeps ..

/-- `GetAddr` writes to the pools and the huge blocks only. -/
theorem getAddr_keeps (s : State) (id size : Nat) : s.Keeps (s.getAddr id size).2 := by
  unfold State.getAddr
  split
  next => exact ⟨rfl, rfl⟩
  next =>
    have hpath := arrayPath_keeps id size (maxPoolArrayNum - (s.pools id).currentArrayIndex) s
    split
    next answer s' heq =>
      rw [heq] at hpath
      exact hpath
    next s' heq =>
      rw [heq] at hpath
      obtain ⟨hblocks, hlive⟩ := linkPath_keeps s' id size
      exact ⟨hblocks.trans hpath.1, hlive.trans hpath.2⟩

/-- The requests the block pool can add its header to. -/
def Act.InRange : Act → Prop
  | .allocate _ size => headerSize + size < 2 ^ 64
  | _ => True

/-- The block of the pool that is being cut: that of the current slot, or the last link. -/
def HugeMemPool.currentBlock (pool : HugeMemPool) : Option Nat :=
  if pool.currentArrayIndex < maxPoolArrayNum then
    pool.baseArray.getD pool.currentArrayIndex none
  else pool.links.getLast?

/-- The current block of the pool has `size` more bytes. -/
def State.HasRoom (s : State) (id size : Nat) : Prop :=
  ∃ b, (s.pools id).currentBlock = some b ∧ s.offset b + size ≤ hugeBlockSize

/-- Slots are filled one after the other, and links only behind the last of them. -/
structure HugeMemPool.InOrder (pool : HugeMemPool) : Prop where
  index_le : pool.currentArrayIndex ≤ maxPoolArrayNum
  slots : ∀ i, pool.currentArrayIndex < i → pool.baseArray.getD i none = none
  links : pool.currentArrayIndex < maxPoolArrayNum → pool.links = []

namespace HugeMemPool.InOrder

variable {pool : HugeMemPool}

theorem fill (h : pool.InOrder) (b : Nat) :
    { pool with baseArray := pool.baseArray.set pool.currentArrayIndex (some b) }.InOrder := by
  refine ⟨h.index_le, fun i hi => ?_, h.links⟩
  rw [getD_eq_getElem?_getD, getElem?_set_ne (Nat.ne_of_lt hi), ← getD_eq_getElem?_getD]
  exact h.slots i hi

theorem link (h : pool.InOrder) (hend : maxPoolArrayNum ≤ pool.currentArrayIndex) (b : Nat) :
    { pool with links := pool.links ++ [b] }.InOrder :=
  ⟨h.index_le, h.slots, fun hlt => absurd hlt (not_lt.mpr hend)⟩

/-- A full slot is left for an empty one, or for the links when it was the last. -/
theorem next (h : pool.InOrder) (hlt : pool.currentArrayIndex < maxPoolArrayNum) :
    { pool with currentArrayIndex := pool.currentArrayIndex + 1 }.InOrder ∧
      { pool with currentArrayIndex := pool.currentArrayIndex + 1 }.currentBlock = none := by
  refine ⟨⟨hlt, fun i hi => h.slots i (Nat.lt_of_succ_lt hi), fun _ => h.links hlt⟩, ?_⟩
  unfold currentBlock
  split
  next => exact h.slots _ (Nat.lt_succ_self _)
  next => exact getLast?_eq_none_iff.mpr (h.links hlt)

theorem init : HugeMemPool.init.InOrder := by
  refine ⟨Nat.zero_le _, fun i _ => ?_, fun _ => rfl⟩
  show (replicate maxPoolArrayNum none).getD i none = none
  rw [getD_eq_getElem?_getD, getElem?_replicate]
  split <;> rfl

end HugeMemPool.InOrder

/-- Every pool is in order. -/
def State.InOrder (s : State) : Prop := ∀ id, (s.pools id).InOrder

theorem State.InOrder.setPool {s : State} (h : s.InOrder) {id : Nat} {pool : HugeMemPool}
    (hpool : pool.InOrder) : (s.setPool id pool).InOrder := by
  intro j
  show (update s.pools id pool j).InOrder
  rw [update_apply]
  split
  next => exact hpool
  next => exact h j

/-- A request that needs a new block gets one exactly if one is free. -/
theorem openBlock_inOrder {s : State} (h : s.InOrder) (id size : Nat)
    (keep : Nat → HugeMemPool) (hkeep : ∀ b, (keep b).InOrder) :
    (s.openBlock id size keep).2.InOrder ∧
      ((∃ b start, (s.openBlock id size keep).1 = .huge b start) ↔ s.hugeMemArray ≠ []) := by
  unfold State.openBlock
  cases hs : s.hugeMemArray with
  | nil => exact ⟨h, iff_of_false nofun fun hne => hne rfl⟩
  | cons b rest =>
    exact ⟨State.InOrder.setPool (s := { s with hugeMemArray := rest }) h (hkeep b),
      iff_of_true ⟨_, _, rfl⟩ (cons_ne_nil b rest)⟩

/-- The fast path answers as the current block and the free array say, or comes to the links
with the current block and the free array as they were. -/
theorem arrayPath_inOrder (id size : Nat) : ∀ (n : Nat) {s : State}, s.InOrder →
    n = maxPoolArrayNum - (s.pools id).currentArrayIndex →
    (State.arrayPath id size n s).2.InOrder ∧
    match (State.arrayPath id size n s).1 with
    | some answer =>
      (∃ b start, answer = .huge b start) ↔ s.hugeMemArray ≠ [] ∨ s.HasRoom id size
    | none => maxPoolArrayNum ≤ ((State.arrayPath id size n s).2.pools id).currentArrayIndex ∧
      (State.arrayPath id size n s).2.hugeMemArray = s.hugeMemArray ∧
      ((State.arrayPath id size n s).2.HasRoom id size ↔ s.HasRoom id size)
  | 0, s, h, hn => ⟨h, by
    show maxPoolArrayNum ≤ (s.pools id).currentArrayIndex
    omega, rfl, Iff.rfl⟩
  | n + 1, s, h, hn => by
    have hlt : (s.pools id).currentArrayIndex < maxPoolArrayNum := by omega
    have hcurrent : (s.pools id).currentBlock =
        (s.pools id).baseArray.getD (s.pools id).currentArrayIndex none := if_pos hlt
    unfold State.arrayPath
    dsimp only
    cases hslot : (s.pools id).baseArray.getD (s.pools id).currentArrayIndex none with
    | none =>
      rw [hslot] at hcurrent
      -- an empty entry: the current block is none
      have hfull : ¬s.HasRoom id size := fun ⟨b, hb, _⟩ => by
        rw [hcurrent] at hb
        cases hb
      obtain ⟨hopen, hfree⟩ := openBlock_inOrder h id size
        (fun b => { s.pools id with
          baseArray := (s.pools id).baseArray.set (s.pools id).currentArrayIndex (some b) })
        (h id).fill
      exact ⟨hopen, hfree.trans (or_iff_left hfull).symm⟩
    | some b =>
      rw [hslot] at hcurrent
      dsimp only
      by_cases hfit : s.offset b + size ≤ hugeBlockSize
      · rw [if_pos hfit]
        exact ⟨h, iff_of_true ⟨_, _, rfl⟩ (Or.inr ⟨b, hcurrent, hfit⟩)⟩
      · rw [if_neg hfit]
        obtain ⟨hnext, hnone⟩ := (h id).next hlt
        -- the block is full: go on with the next entry, which is empty
        have hfull : ¬s.HasRoom id size := fun ⟨c, hc, hroom⟩ => by
          rw [hcurrent] at hc
          cases hc
          exact hfit hroom
        set s' := s.setPool id
          { s.pools id with currentArrayIndex := (s.pools id).currentArrayIndex + 1 } with hs'
        have hpool : s'.pools id =
            { s.pools id with currentArrayIndex := (s.pools id).currentArrayIndex + 1 } :=
          update_self ..
        have hfull' : ¬s'.HasRoom id size := fun ⟨c, hc, _⟩ => by
          rw [hpool, hnone] at hc
          cases hc
        have ih := arrayPath_inOrder id size n (h.setPool hnext) (by
          rw [← hs', hpool]
          show n = maxPoolArrayNum - ((s.pools id).currentArrayIndex + 1)
          omega)
        rw [← hs', iff_false_intro hfull'] at ih
        rw [iff_false_intro hfull]
        exact ih

/-- `GetAddr` keeps the order, and answers with huge memory exactly if the request fits a
block and there is room in the current one or a free one. -/
theorem getAddr_inOrder {s : State} (h : s.InOrder) (id size : Nat) :
    (s.getAddr id size).2.InOrder ∧
    ((∃ b start, (s.getAddr id size).1 = .huge b start) ↔
      size ≤ hugeBlockSize - hugeBlockDefaultOffset ∧
        (s.hugeMemArray ≠ [] ∨ s.HasRoom id size)) := by
  have hpath := arrayPath_inOrder id size (maxPoolArrayNum - (s.pools id).currentArrayIndex) h rfl
  unfold State.getAddr
  split
  next hlarge => exact ⟨h, iff_of_false nofun fun hsize => not_le.mpr hlarge hsize.1⟩
  next hsize =>
    rw [and_iff_right (not_lt.mp hsize)]
    cases heq : State.arrayPath id size (maxPoolArrayNum - (s.pools id).currentArrayIndex) s with
    | mk answer s' =>
      rw [heq] at hpath
      cases answer with
      | some answer => exact hpath
      | none =>
        obtain ⟨horder, hend, hfree, hroom⟩ := hpath
        -- behind the array the current block is the last link
        have hcurrent : (s'.pools id).currentBlock = (s'.pools id).links.getLast? :=
          if_neg (not_lt.mpr hend)
        obtain ⟨hopen, hadd⟩ := openBlock_inOrder horder id size
          (fun b => { s'.pools id with links := (s'.pools id).links ++ [b] })
          ((horder id).link hend)
        dsimp only at hroom hfree ⊢
        rw [← hfree, ← hroom]
        unfold State.linkPath
        split
        next hlast =>
          refine ⟨hopen, hadd.trans (or_iff_left fun ⟨b, hb, _⟩ => ?_).symm⟩
          rw [hcurrent, hlast] at hb
          cases hb
        next b hlast =>
          split
          next hfit =>
            exact ⟨horder, iff_of_true ⟨_, _, rfl⟩ (Or.inr ⟨b, hcurrent.trans hlast, hfit⟩)⟩
          next hfull =>
            refine ⟨hopen, hadd.trans (or_iff_left fun ⟨c, hc, hfit⟩ => ?_).symm⟩
            rw [hcurrent, hlast] at hc
            cases hc
            exact hfull hfit

/-- The request is served from huge memory. -/
def State.Serves (s : State) (t : Thread) (size : Nat) : Prop :=
  ∃ id, s.poolIndex t = some id ∧ size ≤ hugeBlockSize - hugeBlockDefaultOffset ∧
    (s.hugeMemArray ≠ [] ∨ s.HasRoom id size)

/-- Huge memory hands out what it serves, and passes on what it does not. -/
theorem allocate_cases {s s' : State} {t : Thread} {size : Nat} (h : s.InOrder)
    (hin : ∀ id, s.poolIndex t = some id → id < maxObjectNum)
    (halloc : s.allocate t size = some s') :
    (s.Serves t size → s'.blocks = s.blocks ∧ ∃ id b start,
      s.poolIndex t = some id ∧ s'.live = ⟨id, b, start, size⟩ :: s.live) ∧
    (¬s.Serves t size → s'.live = s.live ∧
      (Pool.step s.blocks (.malloc t size) = some s'.blocks ∨
        Pool.step s.blocks (.cacheAlloc t size) = some s'.blocks)) := by
  have hvia : ∀ {s₁ : State} {pa : Pool.Act}, s.Keeps s₁ → s₁.viaPool pa = some s' →
      s'.live = s.live ∧ Pool.step s.blocks pa = some s'.blocks := by
    intro s₁ pa hkeeps hv
    obtain ⟨blocks, hb, hs⟩ := Option.map_eq_some_iff.mp hv
    subst hs
    exact ⟨hkeeps.2, hkeeps.1 ▸ hb⟩
  unfold State.allocate at halloc
  split at halloc
  next hnone =>
    -- before `initThreadLocal` the thread has no pool
    refine ⟨fun ⟨id, hid, _⟩ => ?_, fun _ => ?_⟩
    · rw [hnone] at hid
      cases hid
    · exact (hvia ⟨rfl, rfl⟩ halloc).imp_right Or.inr
  next id hid =>
    obtain ⟨-, hserved⟩ := getAddr_inOrder h id size
    have hkeeps := getAddr_keeps s id size
    have hserves : s.Serves t size ↔ ∃ b start, (s.getAddr id size).1 = .huge b start := by
      rw [hserved]
      refine ⟨fun ⟨j, hj, hsize⟩ => ?_, fun hsize => ⟨id, hid, hsize⟩⟩
      cases hid.symm.trans hj
      exact hsize
    rw [if_neg (not_le.mpr (hin id hid))] at halloc
    split at halloc
    next b start s₁ heq =>
      cases halloc
      rw [heq] at hserves hkeeps
      refine ⟨fun _ => ⟨hkeeps.1, id, b, start, hid, ?_⟩, fun hnot => ?_⟩
      · exact congrArg _ hkeeps.2
      · exact absurd (hserves.mpr ⟨b, start, rfl⟩) hnot
    next s₁ heq =>
      rw [heq] at hserves hkeeps
      refine ⟨fun hs => ?_, fun _ => (hvia hkeeps halloc).imp_right Or.inl⟩
      obtain ⟨b, start, he⟩ := hserves.mp hs
      cases he
    next s₁ heq =>
      rw [heq] at hserves hkeeps
      refine ⟨fun hs => ?_, fun _ => (hvia hkeeps halloc).imp_right Or.inr⟩
      obtain ⟨b, start, he⟩ := hserves.mp hs
      cases he

/-! ## Allocations -/

/-- The memory of an allocation: bytes of a huge block from `start` on, or a block of
the block pool. -/
inductive Region where
  | huge (block start : Nat)
  | pool (b : Block)

/-- What `Allocate` has handed out and is not released or freed, with the sizes. -/
def State.allocations (s : State) : List (Region × Nat) :=
  s.live.map (fun c => (.huge c.block c.start, c.size)) ++
    s.blocks.held.map fun p => (.pool p.1, p.2)

/-- What huge memory promises of a state; `content` says who owns each huge block. -/
structure Sound (s : State) (content : Place → List Nat) : Prop where
  /-- No huge block belongs to two pools or to a pool and the free array. -/
  oneOwner : ∀ b < hugeBlockNum, ∃! p, b ∈ content p
  once : ∀ p, (content p).Nodup
  free : content .free = s.hugeMemArray
  /-- A pool owns its blocks; during a release, those it has not given back yet. -/
  owned : ∀ id, s.Steady id → content (.pool id) = (s.pools id).blocks
  releasing : ∀ t id rest, s.pc t = .releasing id rest → content (.pool id) = rest
  count : s.hugeMemArray.length +
    ((List.range maxObjectNum).map fun id => (content (.pool id)).length).sum = hugeBlockNum
  /-- An allocation of huge memory is inside one block, above its header. -/
  inside : ∀ b start size, (.huge b start, size) ∈ s.allocations →
    b < hugeBlockNum ∧ hugeBlockDefaultOffset ≤ start ∧ start + size ≤ hugeBlockSize
  apart : s.live.Pairwise Cut.Apart
  /-- A request is served while the current block has room or a block is free. -/
  served : ∀ t size s', step s (.allocate t size) = some s' → s.Serves t size →
    s'.blocks = s.blocks ∧ ∃ id b start,
      s.poolIndex t = some id ∧ s'.live = ⟨id, b, start, size⟩ :: s.live
  /-- Every other request is passed on to the block pool. -/
  passedOn : ∀ t size s', step s (.allocate t size) = some s' → ¬s.Serves t size →
    s'.live = s.live ∧ (Pool.step s.blocks (.malloc t size) = some s'.blocks ∨
      Pool.step s.blocks (.cacheAlloc t size) = some s'.blocks)

theorem Holds.count {s : State} {content : Place → List Nat} (h : Holds s content) :
    s.hugeMemArray.length +
      ((List.range maxObjectNum).map fun id => (content (.pool id)).length).sum =
    hugeBlockNum := by
  have hps : (Place.free :: (List.range maxObjectNum).map Place.pool).Nodup := by
    refine nodup_cons.mpr ⟨by simp, nodup_range.map fun i j hij => ?_⟩
    cases hij
    rfl
  have hsum := h.placed.sum_length nodup_range (fun b => mem_range.symm) hps
    (fun p b hb => by
      cases p with
      | free => exact mem_cons_self
      | pool id =>
        exact mem_cons_of_mem _ (mem_map_of_mem (mem_range.mpr (h.poolInRange id b hb))))
  rw [map_cons, sum_cons, map_map, length_range, h.free] at hsum
  exact hsum

theorem Holds.sound {s : State} {content : Place → List Nat} (h : Holds s content)
    (horder : s.InOrder) : Sound s content where
  oneOwner := fun _ hb => h.placed.existsUnique hb
  once := h.placed.nodup
  free := h.free
  owned := h.owned
  releasing := h.releasing
  count := h.count
  inside := fun b start size hmem => by
    rcases mem_append.mp hmem with hmem | hmem
    · obtain ⟨c, hc, he⟩ := mem_map.mp hmem
      obtain ⟨hblock, hstart, hend⟩ := h.inside c hc
      cases he
      exact ⟨h.placed.known hblock, hstart, hend.trans (h.offset c.pool c.block hblock).2⟩
    · obtain ⟨p, -, he⟩ := mem_map.mp hmem
      cases he
  apart := h.apart
  served t size s' hstep := by
    obtain ⟨-, halloc⟩ := ite_none_right_eq_some.mp hstep
    exact (allocate_cases horder (fun id hid => h.indices.usedInRange t id (Or.inl hid)) halloc).1
  passedOn t size s' hstep := by
    obtain ⟨-, halloc⟩ := ite_none_right_eq_some.mp hstep
    exact (allocate_cases horder (fun id hid => h.indices.usedInRange t id (Or.inl hid)) halloc).2

end OpBase.Pool.HugeMem
