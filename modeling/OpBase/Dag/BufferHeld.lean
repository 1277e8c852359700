import OpBase.Dag.BufferOrder

/-!
# No two live nodes share a buffer

A node holds its buffers from its own place in the list to the last later node that reads it;
to the end of the list when it is a broadcast that is cached, or when nobody reads it. The
pass of `BufferOrder.lean` keeps the node's mapping for just as long, and what is held is
not free. So a node that takes its buffers while another one holds its own takes others.

Two wrappers of the pool have different ids, in the row for ping and in the row for pong:
the second half of the doubled buffers stands behind all others, and a wrapper of the one half
has its other id in the other half.

> `orderRun_held`: over the whole list, a node that takes buffers while an earlier one holds
> its own takes none of these.
>
> `bufferIds_disjoint`: the ids of two nodes that hold their buffers at one place differ, in
> both rows, and all ids are in range.
-/

namespace OpBase.Dag

open List

/-! ## Who holds its buffers -/

/-- The node takes a buffer of its own. -/
def TakesBuffer (f : Bind) : Prop := f.isScalarOp = false ∧ f.fn.isCopyOutOp = false

instance {f : Bind} : Decidable (TakesBuffer f) := inferInstanceAs (Decidable (_ ∧ _))

/-- Node `i` holds its buffers at place `k` of the list. -/
def Holds (cacheBrc : Bool) (funList : List Bind) (i k : Nat) : Prop :=
  ∃ f, funList[i]? = some f ∧ TakesBuffer f ∧ (i ≤ k ∧ k < funList.length) ∧
    (isCacheBrcNode cacheBrc f = true ∨
      (∀ p g, i < p → funList[p]? = some g → f ∉ g.inFuns) ∨
      ∃ p g, (i < p ∧ k ≤ p) ∧ funList[p]? = some g ∧ f ∈ g.inFuns)

variable {funList : List Bind}

theorem checkIsInput_drop {m : Nat} {f : Bind} :
    checkIsInput (funList.drop m) f = true ↔
      ∃ p g, m ≤ p ∧ funList[p]? = some g ∧ f ∈ g.inFuns := by
  rw [checkIsInput_iff]
  constructor
  · rintro ⟨g, hg, hin⟩
    obtain ⟨q, hq⟩ := mem_iff_getElem?.mp hg
    rw [getElem?_drop] at hq
    exact ⟨m + q, g, by omega, hq, hin⟩
  · rintro ⟨p, g, hp, hg, hin⟩
    refine ⟨g, mem_iff_getElem?.mpr ⟨p - m, ?_⟩, hin⟩
    rw [getElem?_drop, Nat.add_sub_cancel' hp]
    exact hg

theorem holds_iff {cacheBrc : Bool} {i k : Nat} :
    (∃ f ∈ funList[i]?.toList, TakesBuffer f ∧ (i ≤ k ∧ k < funList.length) ∧
      (isCacheBrcNode cacheBrc f = true ∨ checkIsInput (funList.drop (i + 1)) f = false ∨
        checkIsInput (funList.drop (max (i + 1) k)) f = true)) ↔
    Holds cacheBrc funList i k := by
  unfold Holds
  simp only [Option.mem_toList, ← Bool.not_eq_true, checkIsInput_drop]
  refine exists_congr fun f => and_congr_right fun _ => and_congr_right fun _ =>
    and_congr_right fun _ => or_congr_right (or_congr ?_ ?_)
  · exact ⟨fun h p g hp hg hin => h ⟨p, g, hp, hg, hin⟩, fun h ⟨p, g, hp, hg, hin⟩ =>
      h p g hp hg hin⟩
  · exact exists_congr fun p => exists_congr fun g => and_congr_left fun _ => by omega

instance {cacheBrc : Bool} {funList : List Bind} {i k : Nat} :
    Decidable (Holds cacheBrc funList i k) := decidable_of_iff _ holds_iff

/-- Seen from behind it: the node still holds its buffers when number `j` of the `later` nodes
comes. -/
def HoldsUntil (cacheBrc : Bool) (later : List Bind) (f : Bind) (j : Nat) : Prop :=
  isCacheBrcNode cacheBrc f = true ∨ (∀ g ∈ later, f ∉ g.inFuns) ∨
    ∃ p g, j ≤ p ∧ later[p]? = some g ∧ f ∈ g.inFuns

section HoldsUntil

variable {cacheBrc : Bool} {f g : Bind} {later : List Bind} {j : Nat}

theorem HoldsUntil.tail (h : HoldsUntil cacheBrc (g :: later) f (j + 1)) :
    HoldsUntil cacheBrc later f j := by
  rcases h with h | h | ⟨p, u, hp, hu, hf⟩
  · exact Or.inl h
  · exact Or.inr (Or.inl fun u hu => h u (mem_cons_of_mem _ hu))
  · obtain ⟨q, rfl⟩ := Nat.exists_eq_add_of_lt (Nat.lt_of_lt_of_le (Nat.succ_pos j) hp)
    rw [Nat.zero_add] at hp hu
    exact Or.inr (Or.inr ⟨q, u, Nat.le_of_succ_le_succ hp, hu, hf⟩)

theorem HoldsUntil.not_released (h : HoldsUntil cacheBrc (g :: later) f (j + 1)) :
    ¬ Released cacheBrc later g.inNonScalarFuns f := by
  intro ⟨hin, hable⟩
  unfold ableToRelease at hable
  rw [inputIsAbleToFreeAux_eq, Bool.and_eq_true, Bool.not_eq_true', Bool.not_eq_true'] at hable
  rcases h with h | h | ⟨p, u, hp, hu, hf⟩
  · rw [h] at hable
    exact Bool.noConfusion hable.1
  · exact h g mem_cons_self (Bind.mem_inNonScalarFuns.mp hin).1
  · obtain ⟨q, rfl⟩ := Nat.exists_eq_add_of_lt (Nat.lt_of_lt_of_le (Nat.succ_pos j) hp)
    rw [Nat.zero_add] at hu
    have hread : checkIsInput later f = true :=
      checkIsInput_iff.mpr ⟨u, mem_of_getElem? hu, hf⟩
    rw [hread] at hable
    exact Bool.noConfusion hable.2

end HoldsUntil

theorem Holds.until {cacheBrc : Bool} {i j k : Nat} (hij : i < j) (hi : Holds cacheBrc funList i k)
    (hjk : j ≤ k) : ∃ f, funList[i]? = some f ∧
      TakesBuffer f ∧ HoldsUntil cacheBrc (funList.drop (i + 1)) f (j - (i + 1)) := by
  obtain ⟨f, hf, htakes, -, hlong⟩ := hi
  refine ⟨f, hf, htakes, ?_⟩
  rcases hlong with h | h | ⟨p, g, ⟨hip, hkp⟩, hg, hin⟩
  · exact Or.inl h
  · refine Or.inr (Or.inl fun g hg => ?_)
    obtain ⟨q, hq⟩ := mem_iff_getElem?.mp hg
    rw [getElem?_drop] at hq
    exact h _ g (by omega) hq
  · refine Or.inr (Or.inr ⟨p - (i + 1), g, by omega, ?_, hin⟩)
    rw [getElem?_drop, show i + 1 + (p - (i + 1)) = p by omega]
    exact hg

/-! ## The run -/

/-- A list that a node takes: one buffer or two, of the pool. -/
def Pool.IsTaken (pool : Pool) (bufs : List BufferWrapper) : Prop :=
  ((∃ w, bufs = [w]) ∨ ∃ w v, bufs = [w, v]) ∧ ∀ w ∈ bufs, w ∈ pool.all

section Run

variable {memLvl : MemLevel} {useNddma cacheBrc : Bool} {pool : Pool} {g : Bind} {later : List Bind}

theorem orderRun_cons {s s' : OrderState}
    (h : orderRun memLvl useNddma cacheBrc (g :: later) s = .ok s') :
    ∃ s₁, orderStep memLvl useNddma cacheBrc g later s = .ok s₁ ∧
      orderRun memLvl useNddma cacheBrc later s₁ = .ok s' := by
  rw [orderRun] at h
  split at h
  next => exact absurd h (by simp)
  next s₁ hstep => exact ⟨s₁, hstep, h⟩

theorem keeps_of_not_released {l l' : BufLists} {tr tr' : List Mapping}
    (h : releaseAndUpdateEs cacheBrc later g.inNonScalarFuns l tr = .ok (l', tr')) {m : Mapping}
    (hm : m ∈ tr) {j : Nat} (hholds : HoldsUntil cacheBrc (g :: later) m.bind (j + 1)) :
    m ∈ tr' := by
  rw [(releaseAndUpdateEs_ok h).1, mem_keptBehind]
  exact ⟨hm, hholds.not_released⟩

theorem orderStep_keeps {s s' : OrderState}
    (h : orderStep memLvl useNddma cacheBrc g later s = .ok s') {m : Mapping}
    (hm : m ∈ s.toReleaseEs) {j : Nat} (hholds : HoldsUntil cacheBrc (g :: later) m.bind (j + 1)) :
    m ∈ s'.toReleaseEs := by
  rcases orderStep_cases h with ⟨-, rfl⟩ | ⟨l', tr', -, hrel, rfl⟩ |
    ⟨l₀, bufs, l', tr', -, -, hrel, rfl⟩
  · exact hm
  · exact keeps_of_not_released hrel hm hholds
  · refine mem_append_left _ ?_
    unfold releaseFor at hrel
    split at hrel
    next =>
      obtain ⟨-, rfl⟩ := Prod.mk.inj (Except.ok.inj hrel)
      exact hm
    next => exact keeps_of_not_released hrel hm hholds

theorem orderStep_entry {s s' : OrderState} (hpool : pool.IsSplit s.bufListList s.toReleaseEs)
    (h : orderStep memLvl useNddma cacheBrc g later s = .ok s') :
    ∃ w, s'.allocEs = s.allocEs ++ [w] ∧ (TakesBuffer g → ∃ bufs, w = wrapperOf bufs ∧
      pool.IsTaken bufs ∧ (⟨g, bufs⟩ : Mapping) ∈ s'.toReleaseEs ∧
      ∀ m ∈ s.toReleaseEs, m.buffers.Disjoint bufs) := by
  rcases orderStep_cases h with ⟨hscalar, rfl⟩ | ⟨l', tr', ⟨-, hout⟩, -, rfl⟩ |
    ⟨l₀, bufs, l', tr', -, halloc, -, rfl⟩
  · exact ⟨_, rfl, fun htakes => absurd (hscalar.symm.trans htakes.1) (by simp)⟩
  · exact ⟨_, rfl, fun htakes => absurd (hout.symm.trans htakes.2) (by simp)⟩
  · obtain ⟨hperm, hshape⟩ := allocFor_ok hpool.nodup_free halloc
    have hfree : ∀ w ∈ bufs, w ∈ s.bufListList.toList := fun w hw =>
      hperm.mem_iff.mpr (mem_append_left _ hw)
    refine ⟨_, rfl, fun _ => ⟨bufs, rfl, ⟨hshape, fun w hw => hpool.mem_all (Or.inl (hfree w hw))⟩,
      mem_append_right _ (mem_singleton.mpr rfl), fun m hm w hw hw' => ?_⟩⟩
    exact hpool.disjoint (hfree w hw') (mem_held.mpr ⟨m, hm, hw⟩)

/-- The wrappers that a run adds: those of nodes that take buffers stand for some that no
node holds at that point, neither one from before the run nor one of the run itself. -/
theorem orderRun_held : ∀ {later : List Bind} {s s' : OrderState},
    pool.IsSplit s.bufListList s.toReleaseEs →
    orderRun memLvl useNddma cacheBrc later s = .ok s' →
    ∃ ws, s'.allocEs = s.allocEs ++ ws ∧ ws.length = later.length ∧
      (∀ j g, later[j]? = some g → TakesBuffer g → ∃ bufs, ws[j]? = some (wrapperOf bufs) ∧
        pool.IsTaken bufs ∧ ∀ m ∈ s.toReleaseEs, HoldsUntil cacheBrc later m.bind j →
          m.buffers.Disjoint bufs) ∧
      ∀ i j f g, i < j → later[i]? = some f → TakesBuffer f → later[j]? = some g →
        TakesBuffer g → HoldsUntil cacheBrc (later.drop (i + 1)) f (j - (i + 1)) →
        ∃ bufs bufs', (ws[i]? = some (wrapperOf bufs) ∧ pool.IsTaken bufs) ∧
          (ws[j]? = some (wrapperOf bufs') ∧ pool.IsTaken bufs') ∧ bufs.Disjoint bufs'
  | [], s, s', _, h => by
    obtain rfl := Except.ok.inj h
    exact ⟨[], (append_nil _).symm, rfl, fun j g hg => by simp at hg,
      fun i j f g _ hf => by simp at hf⟩
  | g :: later, s, s', hpool, h => by
    obtain ⟨s₁, hstep, hrun⟩ := orderRun_cons h
    obtain ⟨w, hw, hentry⟩ := orderStep_entry hpool hstep
    obtain ⟨ws, hws, hlen, hother, hpairs⟩ := orderRun_held (orderStep_pool hpool hstep) hrun
    refine ⟨w :: ws, by rw [hws, hw, append_assoc]; rfl,
      by rw [length_cons, length_cons, hlen], fun j u hu htakes => ?_,
      fun i j f u hij hf htakesF hu htakesU hholds => ?_⟩
    · -- what a node holds does not meet what is held from before
      cases j with
      | zero =>
        obtain rfl := Option.some.inj hu
        obtain ⟨bufs, rfl, htaken, -, hdisj⟩ := hentry htakes
        exact ⟨bufs, rfl, htaken, fun m hm _ => hdisj m hm⟩
      | succ j =>
        obtain ⟨bufs, hbufs, htaken, hdisj⟩ := hother j u hu htakes
        exact ⟨bufs, hbufs, htaken, fun m hm hholds =>
          hdisj m (orderStep_keeps hstep hm hholds) hholds.tail⟩
    · -- two nodes of the run: the first is at hand, or both come later
      obtain ⟨j, rfl⟩ : ∃ j', j = j' + 1 := ⟨j - 1, by omega⟩
      cases i with
      | zero =>
        obtain rfl := Option.some.inj hf
        obtain ⟨bufs, rfl, htaken, hmem, -⟩ := hentry htakesF
        obtain ⟨bufs', hbufs', htaken', hdisj⟩ := hother j u hu htakesU
        exact ⟨bufs, bufs', ⟨rfl, htaken⟩, ⟨hbufs', htaken'⟩, hdisj _ hmem hholds⟩
      | succ i =>
        rw [Nat.add_sub_add_right] at hholds
        exact hpairs i j f u (Nat.lt_of_succ_lt_succ hij) hf htakesF hu htakesU hholds

end Run

/-! ## The ids of the pool -/

/-- The wrappers made for a kind have consecutive ids. -/
theorem mem_generateBufferWrappers {n type offset side : Nat} {w : BufferWrapper} :
    w ∈ generateBufferWrappers n type offset side ↔
      (w.bufferType = type ∧ w.pingPong = side) ∧
      (offset : Int) ≤ w.bufferId ∧ w.bufferId < offset + n := by
  unfold generateBufferWrappers
  rw [mem_map]
  constructor
  · rintro ⟨i, hi, rfl⟩
    have := mem_range.mp hi
    exact ⟨⟨rfl, rfl⟩, by dsimp only; omega, by dsimp only; omega⟩
  · intro ⟨⟨htype, hside⟩, hlo, hhi⟩
    refine ⟨(w.bufferId - offset).toNat, mem_range.mpr (by omega), ?_⟩
    obtain ⟨id, t, p⟩ := w
    dsimp only at htype hside hlo hhi ⊢
    rw [htype, hside, BufferWrapper.mk.injEq]
    exact ⟨by omega, rfl, rfl⟩

theorem nodup_generateBufferWrappers (n type offset side : Nat) :
    (generateBufferWrappers n type offset side).Nodup := by
  unfold generateBufferWrappers
  refine nodup_range.map fun i j h => ?_
  have := congrArg BufferWrapper.bufferId h
  dsimp only at this
  omega

namespace BufferCounts

variable {c : BufferCounts} {memLvl : MemLevel} {w v : BufferWrapper}

/-- A wrapper of one of the lists, by the ids that these have. -/
def IsBuffer (c : BufferCounts) (w : BufferWrapper) : Prop :=
  ((w.bufferType = BUF_TYPE_MTE2 ∧ w.pingPong = BUF_PING) ∧
    (0 ≤ w.bufferId ∧ w.bufferId < c.mte2)) ∨
  ((w.bufferType = BUF_TYPE_MTE3 ∧ w.pingPong = BUF_PING) ∧
    (c.mte2 ≤ w.bufferId ∧ w.bufferId < c.mte2 + c.mte3)) ∨
  ((w.bufferType = BUF_TYPE_TEMP ∧ w.pingPong = BUF_PING) ∧
    (c.mte2 + c.mte3 ≤ w.bufferId ∧ w.bufferId < c.pongOffset)) ∨
  ((w.bufferType = BUF_TYPE_MTE3 ∧ w.pingPong = BUF_PONG) ∧
    (c.pongOffset + c.mte2 ≤ w.bufferId ∧ w.bufferId < c.pongOffset + c.mte2 + c.mte3))

/-- What the lists start with are buffers of the counts. -/
theorem mem_lists (h : w ∈ (c.lists memLvl).toList) : c.IsBuffer w := by
  rw [BufLists.mem_toList] at h
  have hoff : c.pongOffset = c.mte2 + c.mte3 + c.temp := rfl
  rcases h with h | h | h | h
  · obtain ⟨hkind, hlo, hhi⟩ := mem_generateBufferWrappers.mp h
    exact Or.inl ⟨hkind, by omega, by omega⟩
  · obtain ⟨hkind, hlo, hhi⟩ := mem_generateBufferWrappers.mp h
    exact Or.inr (Or.inl ⟨hkind, by omega, by omega⟩)
  · obtain ⟨hkind, hlo, hhi⟩ := mem_generateBufferWrappers.mp h
    exact Or.inr (Or.inr (Or.inl ⟨hkind, by omega, by omega⟩))
  · unfold lists at h
    dsimp only at h
    split at h
    next =>
      obtain ⟨hkind, hlo, hhi⟩ := mem_generateBufferWrappers.mp h
      exact Or.inr (Or.inr (Or.inr ⟨hkind, by omega, by omega⟩))
    next => exact absurd h not_mem_nil

theorem IsBuffer.hasKind (h : c.IsBuffer w) : HasKind w := by
  rcases h with h | h | h | h
  · exact Or.inl h.1
  · exact Or.inr (Or.inl h.1)
  · exact Or.inr (Or.inr (Or.inl h.1))
  · exact Or.inr (Or.inr (Or.inr h.1))

theorem IsBuffer.eq_of_id (hw : c.IsBuffer w) (hv : c.IsBuffer v)
    (h : w.bufferId = v.bufferId) : w = v := by
  have hoff : c.pongOffset = c.mte2 + c.mte3 + c.temp := rfl
  obtain ⟨wid, wtype, wside⟩ := w
  obtain ⟨vid, vtype, vside⟩ := v
  unfold IsBuffer at hw hv
  dsimp only at hw hv h
  rcases hw with ⟨⟨rfl, rfl⟩, hw⟩ | ⟨⟨rfl, rfl⟩, hw⟩ | ⟨⟨rfl, rfl⟩, hw⟩ | ⟨⟨rfl, rfl⟩, hw⟩ <;>
    rcases hv with ⟨⟨rfl, rfl⟩, hv⟩ | ⟨⟨rfl, rfl⟩, hv⟩ | ⟨⟨rfl, rfl⟩, hv⟩ | ⟨⟨rfl, rfl⟩, hv⟩ <;>
    first
    | omega
    | rw [h]

theorem nodup_lists : (c.lists memLvl).toList.Nodup := by
  have hrange : ∀ {n type offset side n' type' offset' side' : Nat}, offset + n ≤ offset' →
      (generateBufferWrappers n type offset side).Disjoint
        (generateBufferWrappers n' type' offset' side') := by
    intro n type offset side n' type' offset' side' hle w hw hw'
    have := (mem_generateBufferWrappers.mp hw).2
    have := (mem_generateBufferWrappers.mp hw').2
    omega
  unfold BufLists.toList lists
  refine nodup_append'.mpr ⟨nodup_generateBufferWrappers _ _ _ _, nodup_append'.mpr
    ⟨nodup_generateBufferWrappers _ _ _ _, nodup_append'.mpr
      ⟨nodup_generateBufferWrappers _ _ _ _, ?_, ?_⟩, ?_⟩, ?_⟩
  · split
    next => exact nodup_generateBufferWrappers _ _ _ _
    next => exact nodup_nil
  · split
    next => exact hrange (by omega)
    next => exact disjoint_nil_right _
  · refine disjoint_append_right.mpr ⟨hrange (by omega), ?_⟩
    split
    next => exact hrange (by omega)
    next => exact disjoint_nil_right _
  · refine disjoint_append_right.mpr ⟨hrange (by omega),
      disjoint_append_right.mpr ⟨hrange (by omega), ?_⟩⟩
    split
    next => exact hrange (by omega)
    next => exact disjoint_nil_right _

/-- The buffers that a run begins with. -/
def pool (c : BufferCounts) (memLvl : MemLevel) : Pool where
  all := (c.lists memLvl).toList
  nodup := nodup_lists
  hasKind := fun _ hw => (mem_lists hw).hasKind

theorem IsBuffer.isPart (hfit : (c.mte2 + c.mte3) * 2 + c.temp ≤ 32) (h : c.IsBuffer w) :
    w.IsPart := by
  have hoff : c.pongOffset = c.mte2 + c.mte3 + c.temp := rfl
  refine ⟨?_, ?_, ?_⟩
  · rcases h with h | h | h | h <;> omega
  · rcases h with h | h | h | h
    · exact Or.inl h.1.1
    · exact Or.inr (Or.inl h.1.1)
    · exact Or.inr (Or.inr h.1.1)
    · exact Or.inr (Or.inl h.1.1)
  · rcases h with h | h | h | h
    · exact Or.inl h.1.2
    · exact Or.inl h.1.2
    · exact Or.inl h.1.2
    · exact Or.inr h.1.2

/-- The id of a buffer is below their number. -/
theorem IsBuffer.id_range (h : c.IsBuffer w) :
    0 ≤ w.bufferId ∧ w.bufferId < 2 * (c.mte2 + c.mte3) + c.temp := by
  have hoff : c.pongOffset = c.mte2 + c.mte3 + c.temp := rfl
  rcases h with h | h | h | h <;> omega

section

variable (hfit : (c.mte2 + c.mte3) * 2 + c.temp ≤ 32)
include hfit

/-- So is the id of its other half. -/
theorem IsBuffer.pongId_range (h : c.IsBuffer w) :
    0 ≤ w.pongId c.pongOffset ∧ w.pongId c.pongOffset < 2 * (c.mte2 + c.mte3) + c.temp := by
  have hoff : c.pongOffset = c.mte2 + c.mte3 + c.temp := rfl
  rw [(h.isPart hfit).pongId_eq]
  rcases h with ⟨⟨htype, hside⟩, h⟩ | ⟨⟨htype, hside⟩, h⟩ | ⟨⟨htype, hside⟩, h⟩ |
    ⟨⟨htype, hside⟩, h⟩
  · rw [if_pos hside, if_neg (by rw [htype]; decide)]
    omega
  · rw [if_pos hside, if_neg (by rw [htype]; decide)]
    omega
  · rw [if_pos hside, if_pos htype]
    omega
  · rw [if_neg (by rw [hside]; decide)]
    omega

theorem IsBuffer.pongPart (h : c.IsBuffer w) :
    PongPart c.pongOffset w := by
  have hrange := h.pongId_range hfit
  exact ⟨h.isPart hfit, hrange.1, by omega⟩

theorem IsBuffer.eq_of_pongId (hw : c.IsBuffer w)
    (hv : c.IsBuffer v) (h : w.pongId c.pongOffset = v.pongId c.pongOffset) : w = v := by
  have hoff : c.pongOffset = c.mte2 + c.mte3 + c.temp := rfl
  rw [(hw.isPart hfit).pongId_eq, (hv.isPart hfit).pongId_eq] at h
  obtain ⟨wid, wtype, wside⟩ := w
  obtain ⟨vid, vtype, vside⟩ := v
  unfold IsBuffer at hw hv
  dsimp only at hw hv h
  rcases hw with ⟨⟨rfl, rfl⟩, hw⟩ | ⟨⟨rfl, rfl⟩, hw⟩ | ⟨⟨rfl, rfl⟩, hw⟩ | ⟨⟨rfl, rfl⟩, hw⟩ <;>
    rcases hv with ⟨⟨rfl, rfl⟩, hv⟩ | ⟨⟨rfl, rfl⟩, hv⟩ | ⟨⟨rfl, rfl⟩, hv⟩ | ⟨⟨rfl, rfl⟩, hv⟩ <;>
    simp [BUF_PING, BUF_PONG, BUF_TYPE_MTE2, BUF_TYPE_MTE3, BUF_TYPE_TEMP] at h ⊢ <;>
    omega

theorem decodes_taken {bufs : List BufferWrapper}
    (h : (c.pool memLvl).IsTaken bufs) :
    decodeBufferId (wrapperOf bufs).bufferId = bufs.map (·.bufferId) ∧
    decodeBufferId ((wrapperOf bufs).pongId c.pongOffset) = bufs.map (·.pongId c.pongOffset) := by
  obtain ⟨hshape, hall⟩ := h
  have hparts : ∀ w ∈ bufs, PongPart c.pongOffset w := fun w hw =>
    (mem_lists (hall w hw)).pongPart hfit
  rcases hshape with ⟨w, rfl⟩ | ⟨w, v, rfl⟩
  · have hpart := hparts w mem_cons_self
    exact ⟨decodeBufferId_plain hpart.id_range.1 hpart.id_range.2,
      decodeBufferId_plain hpart.pong_range.1 hpart.pong_range.2⟩
  · have hne : [w, v] ≠ [] := cons_ne_nil _ _
    exact ⟨decodeBufferId_combined hne (by simp) fun t ht => (hparts t ht).toIsPart,
      decodeBufferId_combined_pong hne (by simp) hparts⟩

theorem disjoint_ids {bufs bufs' : List BufferWrapper}
    (h : (c.pool memLvl).IsTaken bufs) (h' : (c.pool memLvl).IsTaken bufs')
    (hdisj : bufs.Disjoint bufs') :
    (bufs.map (·.bufferId)).Disjoint (bufs'.map (·.bufferId)) ∧
    (bufs.map (·.pongId c.pongOffset)).Disjoint (bufs'.map (·.pongId c.pongOffset)) := by
  constructor
  · intro id hid hid'
    obtain ⟨w, hw, rfl⟩ := mem_map.mp hid
    obtain ⟨v, hv, heq⟩ := mem_map.mp hid'
    have hwv := (mem_lists (h'.2 v hv)).eq_of_id (mem_lists (h.2 w hw)) heq
    exact hdisj hw (hwv ▸ hv)
  · intro id hid hid'
    obtain ⟨w, hw, rfl⟩ := mem_map.mp hid
    obtain ⟨v, hv, heq⟩ := mem_map.mp hid'
    have hwv := (mem_lists (h'.2 v hv)).eq_of_pongId hfit (mem_lists (h.2 w hw)) heq
    exact hdisj hw (hwv ▸ hv)

end

end BufferCounts

/-! ## The rows -/

/-- The ids that a row has for a node. -/
def idsAt (row : List Int) (i : Nat) : List Int := decodeBufferId (row.getD i (-1))

theorem idsAt_map {ws : List BufferWrapper} {i : Nat} {w : BufferWrapper}
    (h : ws[i]? = some w) (id : BufferWrapper → Int) :
    idsAt (ws.map id) i = decodeBufferId (id w) := by
  unfold idsAt
  rw [getD_eq_getElem?_getD, getElem?_map, h]
  rfl

/-- The ids are those of one run of the allocation, of at most 32 buffers. -/
theorem bufferIdsAt_ok {memLvl : MemLevel} {c : BufferCounts} {useNddma cacheBrc : Bool}
    {ping pong : List Int} (h : bufferIdsAt memLvl c useNddma cacheBrc funList = .ok (ping, pong)) :
    (c.mte2 + c.mte3) * 2 + c.temp ≤ 32 ∧ ∃ s, orderRun memLvl useNddma cacheBrc funList
      ⟨c.lists memLvl, [], [], 0⟩ = .ok s ∧ ping = s.allocEs.map (·.bufferId) ∧
      pong = s.allocEs.map (·.pongId c.pongOffset) := by
  unfold bufferIdsAt at h
  split at h
  next => exact absurd h (by simp)
  next hcount =>
    split at h
    next => exact absurd h (by simp)
    next hoff =>
      unfold BufferCounts.pongOffset at hoff
      refine ⟨by omega, ?_⟩
      unfold generateBufferIdOrder at h
      split at h
      next => exact absurd h (by simp)
      next s hrun =>
        split at h
        next =>
          obtain ⟨hping, hpong⟩ := Prod.mk.inj (Except.ok.inj h)
          exact ⟨s, hrun, hping.symm, hpong.symm⟩
        next => exact absurd h (by simp)

/-- Nodes that hold their buffers at one place have different ones, in either row. -/
theorem bufferIds_disjoint {memLvl : MemLevel} {c : BufferCounts} {useNddma cacheBrc : Bool}
    {ping pong : List Int} (h : bufferIdsAt memLvl c useNddma cacheBrc funList = .ok (ping, pong)) :
    (∀ i j k, i ≠ j → Holds cacheBrc funList i k → Holds cacheBrc funList j k →
      (idsAt ping i).Disjoint (idsAt ping j) ∧ (idsAt pong i).Disjoint (idsAt pong j)) ∧
    ∀ i k, Holds cacheBrc funList i k →
      (idsAt ping i ≠ [] ∧ idsAt pong i ≠ []) ∧
      ∀ id ∈ idsAt ping i ++ idsAt pong i, 0 ≤ id ∧ id < 2 * (c.mte2 + c.mte3) + c.temp := by
  obtain ⟨hfit, s, hrun, rfl, rfl⟩ := bufferIdsAt_ok h
  have hpool : (c.pool memLvl).IsSplit (c.lists memLvl) [] := by
    unfold Pool.IsSplit held
    rw [flatMap_nil, append_nil]
    exact List.Perm.refl _
  obtain ⟨ws, hws, -, hone, hpairs⟩ := orderRun_held hpool hrun
  rw [nil_append] at hws
  rw [hws]
  -- of two nodes the later one finds the buffers of the earlier one taken
  have hlt : ∀ i j k, i < j → Holds cacheBrc funList i k → Holds cacheBrc funList j k →
      (idsAt (ws.map (·.bufferId)) i).Disjoint (idsAt (ws.map (·.bufferId)) j) ∧
      (idsAt (ws.map (·.pongId c.pongOffset)) i).Disjoint
        (idsAt (ws.map (·.pongId c.pongOffset)) j) := by
    intro i j k hij hi hj
    obtain ⟨g, hg, htakesG, ⟨hjk, -⟩, -⟩ := hj
    obtain ⟨f, hf, htakesF, hholds⟩ := hi.until hij hjk
    obtain ⟨bufs, bufs', ⟨hbufs, htaken⟩, ⟨hbufs', htaken'⟩, hdisj⟩ :=
      hpairs i j f g hij hf htakesF hg htakesG hholds
    rw [idsAt_map hbufs, idsAt_map hbufs', idsAt_map hbufs, idsAt_map hbufs',
      (BufferCounts.decodes_taken hfit htaken).1, (BufferCounts.decodes_taken hfit htaken).2,
      (BufferCounts.decodes_taken hfit htaken').1, (BufferCounts.decodes_taken hfit htaken').2]
    exact BufferCounts.disjoint_ids hfit htaken htaken' hdisj
  refine ⟨fun i j k hij hi hj => ?_, fun i k hi => ?_⟩
  · rcases Nat.lt_or_gt_of_ne hij with hij | hji
    · exact hlt i j k hij hi hj
    · obtain ⟨hping, hpong⟩ := hlt j i k hji hj hi
      exact ⟨hping.symm, hpong.symm⟩
  · obtain ⟨f, hf, htakes, -⟩ := hi
    obtain ⟨bufs, hbufs, htaken, -⟩ := hone i f hf htakes
    have hdecodes := BufferCounts.decodes_taken hfit htaken
    rw [idsAt_map hbufs, idsAt_map hbufs, hdecodes.1, hdecodes.2]
    have hne : bufs ≠ [] := by
      rcases htaken.1 with ⟨w, rfl⟩ | ⟨w, v, rfl⟩
      · exact cons_ne_nil _ _
      · exact cons_ne_nil _ _
    refine ⟨⟨mt map_eq_nil_iff.mp hne, mt map_eq_nil_iff.mp hne⟩, fun id hid => ?_⟩
    rcases mem_append.mp hid with hid | hid
    · obtain ⟨w, hw, rfl⟩ := mem_map.mp hid
      exact (BufferCounts.mem_lists (htaken.2 w hw)).id_range
    · obtain ⟨w, hw, rfl⟩ := mem_map.mp hid
      exact (BufferCounts.mem_lists (htaken.2 w hw)).pongId_range hfit

section Sum

private def f32 : CppType := ⟨0, 4⟩

private def copyInBrcOf (pos : Nat) : Bind :=
  .mk (.copyInBrc f32 0) (.holder (.inHolder pos f32 .gm 0) .nil)

private def sumOf : Bind :=
  .mk (.compute 0 f32 0) (.bind (copyInBrcOf 0) (.bind (copyInBrcOf 1) .nil))

private def sumFuns : List Bind :=
  [copyInBrcOf 0, copyInBrcOf 1, sumOf,
    .mk (.copyOut f32) (.holder (.outHolder 0 f32) (.bind sumOf .nil))]

/-- The sum of two inputs that are both broadcast in the unified buffer. -/
theorem bufferIds_disjoint_sum : ∃ ping pong,
    bufferIdsAt .level1 ⟨2, 1, 2⟩ false false sumFuns = .ok (ping, pong) ∧
    (idsAt ping 0).Disjoint (idsAt ping 1) ∧ (idsAt pong 0).Disjoint (idsAt pong 1) := by
  have hok : (bufferIdsAt .level1 ⟨2, 1, 2⟩ false false sumFuns).isOk = true := by decide +kernel
  cases hrun : bufferIdsAt .level1 ⟨2, 1, 2⟩ false false sumFuns with
  | error e =>
    rw [hrun] at hok
    exact Bool.noConfusion hok
  | ok rows =>
    refine ⟨rows.1, rows.2, rfl, (bufferIds_disjoint hrun).1 0 1 2 (by decide) ?_ ?_⟩
    · exact ⟨copyInBrcOf 0, rfl, by decide, by decide, Or.inr (Or.inr ⟨2, sumOf, by decide, rfl,
        mem_cons_self⟩)⟩
    · exact ⟨copyInBrcOf 1, rfl, by decide, by decide, Or.inr (Or.inr ⟨2, sumOf, by decide, rfl,
        mem_cons_of_mem _ mem_cons_self⟩)⟩

end Sum

end OpBase.Dag
