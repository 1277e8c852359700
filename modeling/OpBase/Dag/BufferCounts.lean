import OpBase.Dag.BufferBooks

/-!
# When the counts are enough

The counts of `NodeInfo.lean` give every place of a well-formed list what it wants, but for two
cases. At level 0 the buffers for copying in are counted before the first computation; where
the copies go out again at once, they are more than are ever alive, and the difference that the
temporaries are counted by wraps. The formula for level 1 looks before it subtracts.

Above level 0 no buffer for copying out is counted where the placeholders, the scalar nodes
and the outputs are as many as the whole list, as if nothing but copies were there. They may
be so while a node of another kind feeds an output.

> `countsSuffice_iff`: the counts are enough in all other cases, and in no others.
-/

namespace OpBase.Dag

open List

section Counts

variable {n : DagNodeInfo} {bufferLvl : MemLevel} {useNddma cacheBrc : Bool} {memLvl : MemLevel}
  {c : Nat} {f : Bind}

/-! ## Counts that are enough -/

/-- The differences are those of the numbers. -/
def NoWrap (n : DagNodeInfo) (bufferLvl : MemLevel) (useNddma cacheBrc : Bool) : Prop :=
  (n.inputSizeWoScalar : Int) = n.inHolders.length - n.inScalarHolders.length ∧
  (bufferLvl = .level0 → (n.getLvl0TmpSize useNddma cacheBrc : Int) =
    n.getMaxAliveNodeSize useNddma cacheBrc -
      (n.gmCountBeforeFirstCalcNode + n.getFirstCopyOutNodeGMCount useNddma cacheBrc)) ∧
  (bufferLvl = .level1 → 0 < n.getTempCalcNodeSize useNddma cacheBrc →
    n.inputSizeWoScalar < n.getMaxAliveNodeSize useNddma cacheBrc →
    (n.getLvl1TmpSize useNddma cacheBrc : Int) =
      n.getMaxAliveNodeSize useNddma cacheBrc - n.inputSizeWoScalar)

/-- The counts of a level do not wrap, and every allocation finds a free buffer. -/
def CountsSuffice (n : DagNodeInfo) (bufferLvl : MemLevel) (useNddma cacheBrc : Bool) : Prop :=
  let counts := n.bufferCounts bufferLvl useNddma cacheBrc
  NoWrap n bufferLvl useNddma cacheBrc ∧
  generateBufferIdOrder bufferLvl useNddma cacheBrc n.funList (counts.lists bufferLvl)
    counts.pongOffset ≠ .error .noFreeBuffer

/-! ## When it holds -/

/-- How much is copied in before the first node that computes. -/
def copyInsFirst (funList : List Bind) : Nat :=
  (funList.takeWhile fun f => f.isScalarOp || f.fn.isCopyInOp || f.fn.isCopyOut).countP
    fun f => !f.isScalarOp && f.fn.isCopyInOp

/-- A node that computes, or broadcasts in the unified buffer, and that is copied out. -/
def FeedsOutput (n : DagNodeInfo) (useNddma : Bool) (f : Bind) : Prop :=
  TakesBuffer f ∧ checkIsInput n.outList f = true ∧
    (f.fn.isCopyInOp = false ∨ (f.fn.isCopyInBrcOp = true ∧ useNddma = false))

/-- At level 0, as much is wanted at some place as is copied in first. Above it, if the list is
as long as one of copies alone, it has no node that computes an output. -/
def CountsCondition (n : DagNodeInfo) (bufferLvl : MemLevel) (useNddma cacheBrc : Bool) : Prop :=
  (bufferLvl = .level0 → copyInsFirst n.funList = 0 ∨ ∃ k, k < n.funList.length ∧
    copyInsFirst n.funList ≤ load useNddma cacheBrc n.funList k) ∧
  (bufferLvl ≠ .level0 →
    n.funList.length = (n.inHolders.filter fun h => !h.isInScalar).length +
      n.scalarOpNodes.length + n.outList.length →
    ∀ f ∈ n.funList, ¬ FeedsOutput n useNddma f)

/-! ## The formulas -/

theorem inputSizeWoScalar_eq : n.inScalarHolders.length ≤ n.inHolders.length ∧
    n.inputSizeWoScalar = (n.inHolders.filter fun h => !h.isInScalar).length := by
  have hperm : n.inScalarHolders.Perm (n.inHolders.filter (·.isInScalar)) := by
    refine (perm_ext_iff_of_nodup (nodup_unique _) ((nodup_unique _).filter _)).mpr fun h => ?_
    exact mem_unique
  have hlen := hperm.length_eq
  have hsplit := n.inHolders.length_eq_length_filter_add (·.isInScalar)
  have hle : n.inScalarHolders.length ≤ n.inHolders.length := by omega
  refine ⟨hle, ?_⟩
  unfold DagNodeInfo.inputSizeWoScalar sub32
  rw [if_pos hle]
  omega

theorem getCopyInCount_eq : ∀ {funs acc : List Bind},
    getCopyInCountBeforeFirstCalcNode funs acc = acc.length + copyInsFirst funs
  | [], acc => rfl
  | func :: later, acc => by
    rw [getCopyInCountBeforeFirstCalcNode]
    unfold copyInsFirst
    rw [takeWhile_cons]
    cases hscalar : func.isScalarOp with
    | true =>
      rw [if_pos rfl, getCopyInCount_eq]
      simp [copyInsFirst, hscalar]
    | false =>
      rw [if_neg Bool.false_ne_true]
      cases hin : func.fn.isCopyInOp with
      | true =>
        rw [if_pos rfl, getCopyInCount_eq]
        simp [copyInsFirst, hscalar, hin]
        omega
      | false =>
        rw [if_neg Bool.false_ne_true]
        cases hout : func.fn.isCopyOut with
        | true =>
          rw [if_pos rfl, getCopyInCount_eq]
          simp [copyInsFirst, hin]
        | false =>
          rw [if_neg Bool.false_ne_true]
          simp

theorem gmCount_eq : n.gmCountBeforeFirstCalcNode = copyInsFirst n.funList := by
  unfold DagNodeInfo.gmCountBeforeFirstCalcNode
  rw [getCopyInCount_eq, length_nil, Nat.zero_add]

/-- No difference wraps just when, at level 0, no more inputs are copied in first than are alive at
some node. -/
theorem noWrap_iff : NoWrap n bufferLvl useNddma cacheBrc ↔ (bufferLvl = .level0 →
    n.gmCountBeforeFirstCalcNode ≤ n.getMaxAliveNodeSize useNddma cacheBrc) := by
  obtain ⟨hle, -⟩ := inputSizeWoScalar_eq (n := n)
  have hin : (n.inputSizeWoScalar : Int) = n.inHolders.length - n.inScalarHolders.length := by
    unfold DagNodeInfo.inputSizeWoScalar sub32
    rw [if_pos hle]
    omega
  unfold NoWrap DagNodeInfo.getLvl0TmpSize DagNodeInfo.getFirstCopyOutNodeGMCount
    DagNodeInfo.getLvl1TmpSize sub32
  constructor
  · rintro ⟨-, h, -⟩ hlvl
    have h := h hlvl
    -- else one of the differences wraps
    by_contra hlt
    rw [if_neg (show ¬ n.gmCountBeforeFirstCalcNode < _ by omega)] at h
    rw [if_neg (by omega)] at h
    omega
  · intro h
    refine ⟨hin, fun hlvl => ?_, fun _ htemp hlt => ?_⟩
    · have h := h hlvl
      split
      next hlt =>
        rw [if_pos (by omega)]
        omega
      next hlt =>
        rw [if_pos (by omega)]
        omega
    · rw [if_pos htemp, if_pos hlt, if_pos (by omega)]
      omega

/-! ## The shares of the lists -/

theorem countP_generate {p : BufferWrapper → Bool} {b : Bool} {count type offset side : Nat}
    (h : ∀ id, p ⟨id, type, side⟩ = b) :
    (generateBufferWrappers count type offset side).countP p = if b then count else 0 := by
  cases b with
  | true =>
    rw [if_pos rfl, countP_eq_length.mpr]
    · unfold generateBufferWrappers
      rw [length_map, length_range]
    · intro w hw
      obtain ⟨⟨rfl, rfl⟩, -⟩ := mem_generateBufferWrappers.mp hw
      exact h w.bufferId
  | false =>
    rw [if_neg Bool.false_ne_true, countP_eq_zero]
    intro w hw
    obtain ⟨⟨rfl, rfl⟩, -⟩ := mem_generateBufferWrappers.mp hw
    exact fun hp => Bool.false_ne_true ((h w.bufferId).symm.trans hp)

/-- How many buffers of each share the lists start with. -/
theorem countP_lists {counts : BufferCounts} :
    (counts.lists .level0).toList.countP (inShare .level0 0) =
      counts.mte2 + counts.temp + counts.mte3 ∧
    (counts.lists .level1).toList.countP (inShare .level1 0) = counts.mte2 + counts.temp ∧
    (counts.lists .level1).toList.countP (inShare .level1 1) = counts.mte3 ∧
    (counts.lists .level2).toList.countP (inShare .level2 0) = counts.mte2 ∧
    (counts.lists .level2).toList.countP (inShare .level2 1) = counts.mte3 ∧
    (counts.lists .level2).toList.countP (inShare .level2 2) = counts.temp := by
  have hpong : (counts.lists .level1).pongMte3 = [] ∧ (counts.lists .level2).pongMte3 = [] :=
    ⟨rfl, rfl⟩
  have hzero : (counts.lists .level0).pongMte3 = generateBufferWrappers counts.mte3
    BUF_TYPE_MTE3 (counts.mte2 * 2 + counts.mte3 + counts.temp) BUF_PONG := rfl
  unfold BufLists.toList
  simp only [countP_append, hpong, hzero, countP_nil]
  unfold BufferCounts.lists
  dsimp only
  refine ⟨?_, ?_, ?_, ?_, ?_, ?_⟩
  · rw [countP_generate (b := true) fun _ => rfl, countP_generate (b := false) fun _ => rfl,
      countP_generate (b := true) fun _ => rfl, countP_generate (b := true) fun _ => rfl]
    simp
    omega
  · rw [countP_generate (b := true) fun _ => rfl, countP_generate (b := false) fun _ => rfl,
      countP_generate (b := true) fun _ => rfl]
    simp
  · rw [countP_generate (b := false) fun _ => rfl, countP_generate (b := true) fun _ => rfl,
      countP_generate (b := false) fun _ => rfl]
    simp
  · rw [countP_generate (b := true) fun _ => rfl, countP_generate (b := false) fun _ => rfl,
      countP_generate (b := false) fun _ => rfl]
    simp
  · rw [countP_generate (b := false) fun _ => rfl, countP_generate (b := true) fun _ => rfl,
      countP_generate (b := false) fun _ => rfl]
    simp
  · rw [countP_generate (b := false) fun _ => rfl, countP_generate (b := false) fun _ => rfl,
      countP_generate (b := true) fun _ => rfl]
    simp

/-! ## The shares that are wanted -/

theorem sum_indicator {α : Type} (p : α → Bool) : ∀ l : List α,
    (l.map fun a => if p a then 1 else 0).sum = (l.filter p).length
  | [] => rfl
  | a :: l => by
    rw [map_cons, sum_cons, sum_indicator p l, filter_cons]
    cases p a
    · rw [if_neg Bool.false_ne_true, if_neg Bool.false_ne_true, Nat.zero_add]
    · rw [if_pos rfl, if_pos rfl, length_cons, Nat.add_comm]

/-- The node wants a buffer for copying out. -/
def wantsMte3 (n : DagNodeInfo) (useNddma : Bool) (f : Bind) : Bool :=
  checkIsInput n.outList f && (!f.fn.isCopyInOp || (f.fn.isCopyInBrcOp && !useNddma))

theorem demand_eq (f : Bind) : demand n .level0 useNddma 0 f = weight useNddma f ∧
    demand n .level1 useNddma 0 f ≤ weight useNddma f ∧
    demand n .level1 useNddma 0 f = (if f.fn.isCopyInOp then 1 else 0) +
      (if isTempCalc n useNddma f then 1 else 0) ∧
    demand n .level1 useNddma 1 f = (if wantsMte3 n useNddma f then 1 else 0) ∧
    demand n .level2 useNddma 0 f = (if f.fn.isCopyInOp then 1 else 0) ∧
    demand n .level2 useNddma 1 f = (if wantsMte3 n useNddma f then 1 else 0) ∧
    demand n .level2 useNddma 2 f = (if isTempCalc n useNddma f then 1 else 0) := by
  have hbrcIn : f.fn.isCopyInBrcOp = true → f.fn.isCopyInOp = true := by
    cases hfn : f.fn <;> simp [VecFun.isCopyInBrcOp, VecFun.isCopyInOp]
  unfold demand wanted wantsOf weight isTempCalc wantsMte3
  cases hbrc : f.fn.isCopyInBrcOp with
  | true =>
    rw [hbrcIn hbrc]
    cases useNddma <;> cases checkIsInput n.outList f <;> decide
  | false =>
    cases f.fn.isCopyInOp <;> cases useNddma <;> cases checkIsInput n.outList f <;> decide

theorem demand_eq_zero (f : Bind) (h : ∀ u, shareOf memLvl u ≠ c) :
    demand n memLvl useNddma c f = 0 := by
  unfold demand wanted
  exact countP_eq_zero.mpr fun u _ => by
    rw [decide_eq_true_iff]
    exact h u

theorem mem_inHolderAux {h : Holder} : ∀ {fs : List Bind},
    h ∈ inHolderAux fs ↔ ∃ f ∈ fs, h ∈ f.inHolders
  | [] => by simp [inHolderAux]
  | [f] => by simp [inHolderAux]
  | f :: g :: fs => by
    rw [inHolderAux, mem_union, mem_inHolderAux]
    · simp
    · exact cons_ne_nil g fs

theorem takes_of_alive {k : Nat} (hf : f ∈ aliveAt cacheBrc n.funList k) :
    f ∈ n.funList ∧ TakesBuffer f := by
  obtain ⟨i, hi, u, hu, htakes, -⟩ := mem_aliveAt.mp hf
  obtain rfl := Option.some.inj (hi.symm.trans hu)
  exact ⟨mem_of_getElem? hi, htakes⟩

theorem WellFormed.copyIn_holder (hwf : WellFormed n) (hf : f ∈ n.funList)
    (hscalar : f.isScalarOp = false) (hin : f.fn.isCopyInOp = true) :
    ∃ h, f.inHolders = [h] ∧ h.isInScalar = false := by
  obtain ⟨hfuns, hlen⟩ := hwf.copyIn f hf hin
  obtain ⟨h, hh⟩ := length_eq_one_iff.mp hlen
  refine ⟨h, hh, ?_⟩
  by_contra hholder
  rw [Bool.not_eq_false] at hholder
  have hdup : f.fn.isDuplicateOp = false := by
    cases hfn : f.fn <;> simp_all [VecFun.isCopyInOp, VecFun.isDuplicateOp]
  have hall : f.isScalarOp = true := Bind.isScalarOp_iff.mpr
    ⟨by unfold Bind.inScalarHolders; rw [hh]; simp [hholder],
      by unfold Bind.inScalarFuns; rw [hfuns]; rfl, hdup⟩
  rw [hall] at hscalar
  exact Bool.noConfusion hscalar

/-- No more copies of inputs are alive than there are inputs. -/
theorem WellFormed.copyIns_le (hwf : WellFormed n) (k : Nat) :
    ((aliveAt cacheBrc n.funList k).filter (·.fn.isCopyInOp)).length ≤ n.inputSizeWoScalar := by
  have hmem : ∀ f ∈ (aliveAt cacheBrc n.funList k).filter (·.fn.isCopyInOp),
      f ∈ n.funList ∧ f.isScalarOp = false ∧ f.fn.isCopyInOp = true := fun f hf => by
    obtain ⟨hf, hin⟩ := mem_filter.mp hf
    obtain ⟨hfun, htakes⟩ := takes_of_alive hf
    exact ⟨hfun, htakes.1, hin⟩
  have hnodup : (((aliveAt cacheBrc n.funList k).filter (·.fn.isCopyInOp)).map
      (·.inHolders)).Nodup := by
    refine ((hwf.nodup_aliveAt k).filter _).map_on fun f hf g hg heq => ?_
    obtain ⟨hfun, hfs, hfin⟩ := hmem f hf
    obtain ⟨hgun, hgs, hgin⟩ := hmem g hg
    exact hwf.once f hfun g hgun hfs hgs hfin hgin heq
  have hsub : ((aliveAt cacheBrc n.funList k).filter (·.fn.isCopyInOp)).map (·.inHolders) ⊆
      (n.inHolders.filter fun h => !h.isInScalar).map ([·]) := by
    intro hs hhs
    obtain ⟨f, hf, rfl⟩ := mem_map.mp hhs
    obtain ⟨hfun, hscalar, hin⟩ := hmem f hf
    obtain ⟨h, hh, hholder⟩ := hwf.copyIn_holder hfun hscalar hin
    refine mem_map.mpr ⟨h, mem_filter.mpr ⟨?_, by rw [hholder]; rfl⟩, hh.symm⟩
    refine mem_unique.mpr (mem_inHolderAux.mpr ⟨f, hfun, ?_⟩)
    rw [hh]
    exact mem_singleton_self h
  have hle := (subperm_of_subset hnodup hsub).length_le
  rw [length_map, length_map] at hle
  rw [inputSizeWoScalar_eq.2]
  exact hle

theorem WellFormed.copyOuts_le (hwf : WellFormed n) (k : Nat) :
    ((aliveAt cacheBrc n.funList k).filter (wantsMte3 n useNddma)).length ≤ n.outList.length := by
  have hsub : (aliveAt cacheBrc n.funList k).filter (wantsMte3 n useNddma) ⊆
      n.outList.flatMap (·.inFuns) := by
    intro f hf
    obtain ⟨-, hwants⟩ := mem_filter.mp hf
    obtain ⟨g, hg, hin⟩ := checkIsInput_iff.mp (Bool.and_eq_true_iff.mp hwants).1
    exact mem_flatMap.mpr ⟨g, hg, hin⟩
  have hle := (subperm_of_subset ((hwf.nodup_aliveAt k).filter _) hsub).length_le
  have hone : ∀ g ∈ n.outList, g.inFuns.length = 1 := fun g hg => by
    obtain ⟨hfun, hout⟩ := mem_filter.mp (hwf.outs.mem_iff.mp hg)
    exact hwf.copyOut g hfun hout
  rw [length_flatMap, map_congr_left hone, map_const', sum_replicate_nat, Nat.mul_one] at hle
  exact hle

theorem WellFormed.mte3_le (hwf : WellFormed n) (hmte3 : n.getLvl12Mte3Count = 0 →
      ∀ f ∈ n.funList, TakesBuffer f → wantsMte3 n useNddma f = false) (k : Nat) :
    ((aliveAt cacheBrc n.funList k).filter (wantsMte3 n useNddma)).length ≤
      n.getLvl12Mte3Count := by
  by_cases hzero : n.getLvl12Mte3Count = 0
  · have hnil : (aliveAt cacheBrc n.funList k).filter (wantsMte3 n useNddma) = [] := by
      refine filter_eq_nil_iff.mpr fun f hf => ?_
      obtain ⟨hfun, htakes⟩ := takes_of_alive hf
      rw [hmte3 hzero f hfun htakes]
      exact Bool.false_ne_true
    rw [hnil]
    exact Nat.zero_le _
  · have hcount : n.getLvl12Mte3Count = n.outList.length := by
      unfold DagNodeInfo.getLvl12Mte3Count at hzero ⊢
      split at hzero
      next => exact absurd rfl hzero
      next hne => exact if_neg hne
    rw [hcount]
    exact hwf.copyOuts_le k

/-! ## The counts fit -/

theorem sum_demand {p : Bind → Bool} (h : ∀ f, demand n memLvl useNddma c f = if p f then 1 else 0)
    (l : List Bind) :
    (l.map (demand n memLvl useNddma c)).sum = (l.filter p).length := by
  rw [← sum_indicator, funext h]

theorem sum_demand_zero (h : ∀ u, shareOf memLvl u ≠ c) (l : List Bind) :
    (l.map (demand n memLvl useNddma c)).sum = 0 := by
  have hzero : demand n memLvl useNddma c = fun _ => 0 := funext fun f => demand_eq_zero f h
  rw [hzero, map_const', sum_replicate_nat, Nat.mul_zero]

section Fits

variable {k : Nat}

/-- At level 0 the counts are enough at every node, the difference not wrapping. -/
theorem WellFormed.fits_level0 (hwf : WellFormed n) (hbrc : n.supportBrc = true ∨ cacheBrc = false)
    (hzero : n.gmCountBeforeFirstCalcNode ≤ n.getMaxAliveNodeSize useNddma cacheBrc)
    (hk : k < n.funList.length) :
    Fits n .level0 useNddma cacheBrc (n.bufferCounts .level0 useNddma cacheBrc) k := by
  have hload : load useNddma cacheBrc n.funList k ≤ _ := (hwf.aliveSize_spec hbrc).1 k hk
  intro c
  cases c with
  | zero =>
    have hdemand : demand n .level0 useNddma 0 = weight useNddma :=
      funext fun f => (demand_eq f).1
    rw [countP_lists.1, hdemand]
    show _ ≤ n.gmCountBeforeFirstCalcNode + n.getLvl0TmpSize useNddma cacheBrc +
      n.getFirstCopyOutNodeGMCount useNddma cacheBrc
    unfold load at hload
    unfold DagNodeInfo.getLvl0TmpSize DagNodeInfo.getFirstCopyOutNodeGMCount sub32
    split
    next =>
      rw [if_pos (by omega)]
      omega
    next =>
      rw [if_pos (by omega)]
      omega
  | succ c =>
    rw [sum_demand_zero fun u => by cases u <;> exact Nat.ne_of_lt (Nat.succ_pos c)]
    exact Nat.zero_le _

section

variable (hwf : WellFormed n) (hbrc : n.supportBrc = true ∨ cacheBrc = false)
  (hmte3 : n.getLvl12Mte3Count = 0 → ∀ f ∈ n.funList, TakesBuffer f → wantsMte3 n useNddma f =
    false) (hk : k < n.funList.length)
include hwf hbrc hmte3 hk

theorem WellFormed.fits_level1 :
    Fits n .level1 useNddma cacheBrc (n.bufferCounts .level1 useNddma cacheBrc) k := by
  have hload : load useNddma cacheBrc n.funList k ≤ _ := (hwf.aliveSize_spec hbrc).1 k hk
  have htemp : ((aliveAt cacheBrc n.funList k).filter (isTempCalc n useNddma)).length ≤ _ :=
    hwf.tempSize_spec hbrc hk
  have hin : ((aliveAt cacheBrc n.funList k).filter (·.fn.isCopyInOp)).length ≤ _ :=
    hwf.copyIns_le k
  intro c
  match c with
  | 0 =>
    rw [countP_lists.2.1]
    show _ ≤ n.inputSizeWoScalar + n.getLvl1TmpSize useNddma cacheBrc
    unfold DagNodeInfo.getLvl1TmpSize sub32
    split
    next =>
      have hle : ((aliveAt cacheBrc n.funList k).map (demand n .level1 useNddma 0)).sum ≤
          ((aliveAt cacheBrc n.funList k).map (weight useNddma)).sum :=
        sum_le_sum fun f _ => (demand_eq f).2.1
      unfold load at hload
      split
      next =>
        rw [if_pos (by omega)]
        omega
      next => omega
    next hnone =>
      -- no node of the place is a temporary one
      have hnil : (aliveAt cacheBrc n.funList k).filter (isTempCalc n useNddma) = [] :=
        length_eq_zero_iff.mp (by omega)
      have hcopy : ∀ f ∈ aliveAt cacheBrc n.funList k,
          demand n .level1 useNddma 0 f = if f.fn.isCopyInOp then 1 else 0 := fun f hf => by
        rw [(demand_eq f).2.2.1, if_neg (filter_eq_nil_iff.mp hnil f hf), Nat.add_zero]
      rw [map_congr_left hcopy, sum_indicator]
      omega
  | 1 =>
    rw [countP_lists.2.2.1, sum_demand fun f => (demand_eq f).2.2.2.1]
    exact hwf.mte3_le hmte3 k
  | c + 2 =>
    rw [sum_demand_zero fun u => by cases u <;> simp [shareOf]]
    exact Nat.zero_le _

theorem WellFormed.fits_level2 :
    Fits n .level2 useNddma cacheBrc (n.bufferCounts .level2 useNddma cacheBrc) k := by
  intro c
  match c with
  | 0 =>
    rw [countP_lists.2.2.2.1, sum_demand fun f => (demand_eq f).2.2.2.2.1]
    exact hwf.copyIns_le k
  | 1 =>
    rw [countP_lists.2.2.2.2.1, sum_demand fun f => (demand_eq f).2.2.2.2.2.1]
    exact hwf.mte3_le hmte3 k
  | 2 =>
    rw [countP_lists.2.2.2.2.2, sum_demand fun f => (demand_eq f).2.2.2.2.2.2]
    exact hwf.tempSize_spec hbrc hk
  | c + 3 =>
    rw [sum_demand_zero fun u => by cases u <;> simp [shareOf]]
    exact Nat.zero_le _

end

end Fits

/-! ## Enough or not -/

theorem wantsMte3_iff : (TakesBuffer f ∧ wantsMte3 n useNddma f = true) ↔
    FeedsOutput n useNddma f := by
  unfold wantsMte3 FeedsOutput
  rw [Bool.and_eq_true, Bool.or_eq_true, Bool.not_eq_true', Bool.and_eq_true, Bool.not_eq_true']

theorem wantsMte3_wants (h : wantsMte3 n useNddma f = true) :
    Want.mte3 ∈ wantsOf useNddma (checkIsInput n.outList f) f := by
  unfold wantsMte3 at h
  unfold wantsOf
  cases hconn : checkIsInput n.outList f <;> cases hin : f.fn.isCopyInOp <;>
    cases hbrc : f.fn.isCopyInBrcOp <;> cases useNddma <;> simp_all

theorem getLvl12Mte3Count_eq_zero : n.getLvl12Mte3Count = 0 ↔
    n.funList.length = (n.inHolders.filter fun h => !h.isInScalar).length +
      n.scalarOpNodes.length + n.outList.length ∨ n.outList = [] := by
  unfold DagNodeInfo.getLvl12Mte3Count
  rw [inputSizeWoScalar_eq.2]
  split
  next h => exact ⟨fun _ => Or.inl h, fun _ => rfl⟩
  next h =>
    rw [length_eq_zero_iff]
    exact ⟨Or.inr, fun h' => h'.resolve_left h⟩

/-- The counts are enough where the condition holds, and nowhere else. -/
theorem countsSuffice_iff (hwf : WellFormed n) (hbrc : n.supportBrc = true ∨ cacheBrc = false) :
    CountsSuffice n bufferLvl useNddma cacheBrc ↔
      CountsCondition n bufferLvl useNddma cacheBrc := by
  have hspec : _ ∧ (n.getMaxAliveNodeSize useNddma cacheBrc = 0 ∨ _) := hwf.aliveSize_spec hbrc
  have hlevel0 : n.gmCountBeforeFirstCalcNode ≤ n.getMaxAliveNodeSize useNddma cacheBrc ↔
      (copyInsFirst n.funList = 0 ∨ ∃ k, k < n.funList.length ∧
        copyInsFirst n.funList ≤ load useNddma cacheBrc n.funList k) := by
    rw [gmCount_eq]
    constructor
    · intro hle
      rcases hspec.2 with hzero | ⟨k, hk, hload⟩
      · exact Or.inl (by omega)
      · exact Or.inr ⟨k, hk, by omega⟩
    · rintro (hzero | ⟨k, hk, hle⟩)
      · omega
      · exact hle.trans (hspec.1 k hk)
  unfold CountsSuffice CountsCondition
  rw [noWrap_iff, hlevel0]
  refine and_congr_right fun hzero => ?_
  constructor
  · -- a node that feeds an output has found a buffer
    intro hne hlvl hlen f hf hfeeds
    obtain ⟨htakes, hwants⟩ := wantsMte3_iff.mpr hfeeds
    have hmte3 : (n.bufferCounts bufferLvl useNddma cacheBrc).mte3 = 0 :=
      (if_neg hlvl).trans (getLvl12Mte3Count_eq_zero.mpr (Or.inl hlen))
    have hb : Books n bufferLvl useNddma cacheBrc (n.bufferCounts bufferLvl useNddma cacheBrc) 0
      ⟨(n.bufferCounts bufferLvl useNddma cacheBrc).lists bufferLvl, [], [], 0⟩ := books_init
    rcases orderRun_outcome hwf hbrc hb drop_zero with ⟨s', hrun⟩ | ⟨hrun, -⟩
    · obtain ⟨w, hw, hw₃⟩ := orderRun_mte3 hwf hbrc hlvl hb drop_zero hrun f hf htakes
        (wantsMte3_wants hwants)
      obtain ⟨htype, hside⟩ := Bool.and_eq_true_iff.mp hw₃
      have htype := of_decide_eq_true htype
      have hside := of_decide_eq_true hside
      rcases BufferCounts.mem_lists hw with h | h | h | h
      · exact absurd (htype.symm.trans h.1.1) (by decide)
      · omega
      · exact absurd (htype.symm.trans h.1.1) (by decide)
      · exact absurd (hside.symm.trans h.1.2) (by decide)
    · refine hne ?_
      unfold generateBufferIdOrder
      rw [hrun]
  · intro hcond hfail
    rcases generateBufferIdOrder_outcome hwf hbrc _ with ⟨r, hr⟩ | ⟨-, k, hk, hfits⟩
    · rw [hr] at hfail
      exact absurd hfail (by simp)
    · refine hfits ?_
      have hmte3 : bufferLvl ≠ .level0 → n.getLvl12Mte3Count = 0 →
          ∀ f ∈ n.funList, TakesBuffer f → wantsMte3 n useNddma f = false := by
        intro hlvl hcount f hf htakes
        by_contra hwants
        rw [Bool.not_eq_false] at hwants
        rcases getLvl12Mte3Count_eq_zero.mp hcount with hlen | hnil
        · exact hcond hlvl hlen f hf (wantsMte3_iff.mp ⟨htakes, hwants⟩)
        · have hconn := (Bool.and_eq_true_iff.mp hwants).1
          rw [hnil] at hconn
          exact Bool.noConfusion hconn
      cases hlvl : bufferLvl with
      | level0 => exact hwf.fits_level0 hbrc (hlevel0.mpr (hzero hlvl)) hk
      | level1 => exact hwf.fits_level1 hbrc (hmte3 (by rw [hlvl]; decide)) hk
      | level2 => exact hwf.fits_level2 hbrc (hmte3 (by rw [hlvl]; decide)) hk

end Counts

/-! ## Copies -/

section Copies

private def half : CppType := ⟨1, 2⟩

private def copyInAt (pos : Nat) : Bind :=
  .mk (.copyIn half) (.holder (.inHolder pos half .gm 0) .nil)

private def brcInAt (pos : Nat) : Bind :=
  .mk (.copyInBrc half 0) (.holder (.inHolder pos half .gm 0) .nil)

private def copyOutAt (pos : Nat) (b : Bind) : Bind :=
  .mk (.copyOut half) (.holder (.outHolder pos half) (.bind b .nil))

/-- Six tensors, each copied in and out again. -/
private def sixCopies : DagNodeInfo where
  funList := (List.range 6).flatMap fun i => [copyInAt i, copyOutAt i (copyInAt i)]
  outList := (List.range 6).map fun i => copyOutAt i (copyInAt i)

/-- One tensor, broadcast in the unified buffer and copied out. -/
private def oneBrc : DagNodeInfo where
  funList := [brcInAt 0, copyOutAt 0 (brcInAt 0)]
  outList := [copyOutAt 0 (brcInAt 0)]

/-- Of the six only one is ever alive, so that level 0 counts one less six temporaries. The
broadcast wants a buffer for copying out, where none is counted. -/
theorem counts_not_suffice :
    (WellFormed sixCopies ∧
      chooseBufferLevelImpl .level0 sixCopies true false = .level0 ∧
      ¬ CountsSuffice sixCopies (chooseBufferLevelImpl .level0 sixCopies true false) true false) ∧
    WellFormed oneBrc ∧ chooseBufferLevelImpl .level0 oneBrc false false = .level2 ∧
      ¬ CountsSuffice oneBrc (chooseBufferLevelImpl .level0 oneBrc false false) false false := by
  have hsix : chooseBufferLevelImpl .level0 sixCopies true false = .level0 := by decide +kernel
  have hone : chooseBufferLevelImpl .level0 oneBrc false false = .level2 := by decide +kernel
  refine ⟨⟨by decide +kernel, hsix, ?_⟩, by decide +kernel, hone, ?_⟩
  · rw [hsix]
    intro h
    exact absurd (h.1.2.1 rfl) (by decide +kernel)
  · rw [hone]
    intro h
    exact h.2 rfl

private def calcAt (pos : Nat) : Bind := .mk (.compute 0 half 0) (.bind (copyInAt pos) .nil)

/-- One tensor, computed with on its way. -/
private def oneCalc : DagNodeInfo where
  funList := [copyInAt 0, calcAt 0, copyOutAt 0 (calcAt 0)]
  outList := [copyOutAt 0 (calcAt 0)]

/-- The computed tensor has its buffers at every level; the six copies have none at level 0, and
have them at level 2. -/
theorem countsSuffice_iff_copies :
    (∀ bufferLvl, CountsSuffice oneCalc bufferLvl true false) ∧
      CountsSuffice sixCopies .level2 true false ∧
      ¬ CountsSuffice sixCopies .level0 true false := by
  refine ⟨fun bufferLvl => ?_, ?_, fun h => ?_⟩
  · refine (countsSuffice_iff (by decide +kernel) (Or.inl rfl)).mpr ⟨fun _ => ?_, fun _ h => ?_⟩
    · exact Or.inr ⟨1, by decide +kernel, by decide +kernel⟩
    · exact absurd h (by decide +kernel)
  · refine (countsSuffice_iff (by decide +kernel) (Or.inl rfl)).mpr
      ⟨(nomatch ·), fun _ _ => ?_⟩
    unfold FeedsOutput
    decide +kernel
  · rcases ((countsSuffice_iff (by decide +kernel) (Or.inl rfl)).mp h).1 rfl with
      hnone | ⟨k, hk, hle⟩
    · exact absurd hnone (by decide +kernel)
    · have hfew : ∀ k < 12,
          ¬ copyInsFirst sixCopies.funList ≤ load true false sixCopies.funList k := by
        decide +kernel
      exact hfew k hk hle

end Copies

end OpBase.Dag
