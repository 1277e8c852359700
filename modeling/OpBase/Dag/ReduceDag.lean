import OpBase.Dag.NodeInfo

/-!
# The two halves of a computation with a reduction

`DAGSch` of `op_common/atvoss/util/dag.h`: the nodes up to the first reduction get their
buffers apart from those behind it. The first half ends with the reduction, which passes for
what copies out there.

Where the reduction stands right behind the copy in, a table of four ids takes the place of
the ids that the pass over the nodes would give.

> `reduceBufferIds_plain`: in the first half each node has one buffer, and both rows have ids
> of the buffers counted.
-/

namespace OpBase.Dag

open OpBase.Lib

/-- `GetReducePosition` -/
def getReducePosition : List Bind → Nat → Int
  | [], _ => -1
  | func :: rest, pos => if func.fn.isReduceOp then pos else getReducePosition rest (pos + 1)

/-- `CheckPre` -/
def checkPre (reducePos : Int) (pos : Nat) : Bool := pos ≤ reducePos

/-- `FilterDagAux` -/
def filterDagAux (check : Int → Nat → Bool) (reducePos : Int) : List Bind → Nat → List Bind
  | [], _ => []
  | t :: ts, pos =>
    if check reducePos pos then t :: filterDagAux check reducePos ts (pos + 1)
    else filterDagAux check reducePos ts (pos + 1)

/-- `PreReduceOnlyCopyInBufferId` -/
def preReduceOnlyCopyInBufferId : List Int × List Int := ([0, 1], [2, 3])

/-- `DAGSch`, where `FunList` has no casts without effect any more. -/
structure DagSch where
  funList : List Bind
  outList : List Bind
  memoryLevel : MemLevel

namespace DagSch

def reduceOpPos (d : DagSch) : Int := getReducePosition d.funList 0

def fullNodeInfo (d : DagSch) : DagNodeInfo := ⟨d.funList, d.outList, true⟩

def vecPreReduceNodes (d : DagSch) : List Bind := filterDagAux checkPre d.reduceOpPos d.funList 0

def preReduceNodeInfo (d : DagSch) : DagNodeInfo :=
  if 0 < d.reduceOpPos then
    ⟨d.vecPreReduceNodes, d.funList[d.reduceOpPos.toNat]?.toList, false⟩
  else d.fullNodeInfo

def bufLevel (d : DagSch) : MemLevel :=
  chooseBufferLevelImpl d.memoryLevel d.fullNodeInfo true false

def maxDtypeBytes (d : DagSch) : Nat := d.fullNodeInfo.maxAliveNodeInfo.maxDtypeBytes

/-- The level that is chosen for the first half. -/
def preLevel (d : DagSch) : MemLevel :=
  chooseBufferLevelImpl d.memoryLevel d.preReduceNodeInfo true false

/-- The counts of the first half. -/
def preCounts (d : DagSch) : BufferCounts := d.preReduceNodeInfo.bufferCounts d.preLevel true false

/-- `GetReduceBufferIds<true>` -/
def getReduceBufferIds (d : DagSch) : Except OrderFault (List Int × List Int) :=
  if d.reduceOpPos = 1 ∧ d.vecPreReduceNodes.head?.any (·.fn.isCopyInOp) then
    .ok preReduceOnlyCopyInBufferId
  else d.preReduceNodeInfo.getBufferIdsImpl d.memoryLevel true false

end DagSch

/-! ## The first half -/

theorem getReducePosition_spec : ∀ (funs : List Bind) (pos : Nat),
    getReducePosition funs pos = -1 ∨
      ∃ k g, getReducePosition funs pos = (pos + k : Nat) ∧ funs[k]? = some g ∧
        g.fn.isReduceOp = true
  | [], _ => Or.inl rfl
  | func :: rest, pos => by
    unfold getReducePosition
    split
    next h => exact Or.inr ⟨0, func, rfl, rfl, h⟩
    next =>
      rcases getReducePosition_spec rest (pos + 1) with h | ⟨k, g, h, hg, hred⟩
      · exact Or.inl h
      · exact Or.inr ⟨k + 1, g, by rw [h, Nat.add_right_comm, Nat.add_assoc], hg, hred⟩

theorem filterDagAux_checkPre {reducePos : Int} : ∀ {funs : List Bind} {pos : Nat},
    filterDagAux checkPre reducePos funs pos = funs.take (reducePos + 1 - pos).toNat
  | [], _ => List.take_nil.symm
  | t :: ts, pos => by
    unfold filterDagAux
    rw [filterDagAux_checkPre]
    unfold checkPre
    split
    next h =>
      rw [decide_eq_true_iff] at h
      obtain ⟨n, hn⟩ : ∃ n, (reducePos + 1 - pos).toNat = n + 1 :=
        ⟨(reducePos - pos).toNat, by omega⟩
      rw [hn, List.take_succ_cons, show (reducePos + 1 - (pos + 1 : Nat)).toNat = n by omega]
    next h =>
      rw [decide_eq_true_iff] at h
      rw [show (reducePos + 1 - (pos + 1 : Nat)).toNat = 0 by omega,
        show (reducePos + 1 - pos).toNat = 0 by omega]
      rfl

namespace DagSch

variable {d : DagSch}

theorem vecPreReduceNodes_eq : d.vecPreReduceNodes = d.funList.take (d.reduceOpPos + 1).toNat := by
  unfold vecPreReduceNodes
  rw [filterDagAux_checkPre, Int.natCast_zero, Int.sub_zero]

/-- The position is that of a reduction. -/
theorem reduceOpPos_spec (h : 0 < d.reduceOpPos) :
    ∃ g, d.funList[d.reduceOpPos.toNat]? = some g ∧ g.fn.isReduceOp = true := by
  unfold reduceOpPos at h ⊢
  rcases getReducePosition_spec d.funList 0 with hnone | ⟨k, g, hk, hg, hred⟩
  · rw [hnone] at h
    omega
  · rw [hk, Int.toNat_natCast, Nat.zero_add]
    exact ⟨g, hg, hred⟩

end DagSch

/-! ## One buffer for each node -/

section Plain

variable {memLvl : MemLevel} {cacheBrc : Bool} {pool : Pool}

theorem allocFor_nddma {fun_ : Bind} {later : List Bind} {l l' : BufLists}
    {bufs : List BufferWrapper} (h : allocFor memLvl true fun_ later l = .ok (l', bufs)) :
    ∃ w, bufs = [w] := by
  unfold allocFor at h
  rw [if_neg (by simp)] at h
  obtain ⟨⟨next, w⟩, -, h⟩ := bind_eq_ok.mp h
  exact ⟨w, (Prod.mk.inj (Except.ok.inj h)).2.symm⟩

theorem orderRun_plain : ∀ {later : List Bind} {s s' : OrderState},
    pool.IsSplit s.bufListList s.toReleaseEs → orderRun memLvl true cacheBrc later s = .ok s' →
    ∃ ws : List BufferWrapper, s'.allocEs = s.allocEs ++ ws ∧
      ∀ (j : Nat) g, later[j]? = some g → TakesBuffer g → ∃ w ∈ pool.all, ws[j]? = some w
  | [], s, s', _, h => by
    obtain rfl := Except.ok.inj h
    exact ⟨[], (List.append_nil _).symm, fun j g hg => by simp at hg⟩
  | g :: later, s, s', hpool, h => by
    obtain ⟨s₁, hstep, hrun⟩ := orderRun_cons h
    obtain ⟨ws, hws, hrest⟩ := orderRun_plain (orderStep_pool hpool hstep) hrun
    obtain ⟨w, hw, hentry⟩ : ∃ w, s₁.allocEs = s.allocEs ++ [w] ∧
        (TakesBuffer g → w ∈ pool.all) := by
      rcases orderStep_cases hstep with ⟨hscalar, rfl⟩ | ⟨l', tr', ⟨-, hout⟩, -, rfl⟩ |
        ⟨l₀, bufs, l', tr', -, halloc, -, rfl⟩
      · exact ⟨_, rfl, fun htakes => absurd (hscalar.symm.trans htakes.1) (by simp)⟩
      · exact ⟨_, rfl, fun htakes => absurd (hout.symm.trans htakes.2) (by simp)⟩
      · obtain ⟨w, rfl⟩ := allocFor_nddma halloc
        obtain ⟨hperm, -⟩ := allocFor_ok hpool.nodup_free halloc
        exact ⟨w, rfl, fun _ => hpool.mem_all (Or.inl (hperm.mem_iff.mpr List.mem_cons_self))⟩
    refine ⟨w :: ws, by rw [hws, hw, List.append_assoc]; rfl, fun j u hu htakes => ?_⟩
    cases j with
    | zero =>
      obtain rfl := Option.some.inj hu
      exact ⟨w, hentry htakes, rfl⟩
    | succ j => exact hrest j u hu htakes

end Plain

/-- With NDDMA all ids are plain and below the number of buffers. -/
theorem reduceBufferIds_plain {memLvl : MemLevel} {c : BufferCounts} {cacheBrc : Bool}
    {funList : List Bind} {ping pong : List Int}
    (h : bufferIdsAt memLvl c true cacheBrc funList = .ok (ping, pong)) {i : Nat} {f : Bind}
    (hf : funList[i]? = some f) (htakes : TakesBuffer f) :
    ∃ id id' : Nat, ping[i]? = some (id : Int) ∧ pong[i]? = some (id' : Int) ∧
      id < 2 * (c.mte2 + c.mte3) + c.temp ∧ id' < 2 * (c.mte2 + c.mte3) + c.temp := by
  obtain ⟨hfit, s, hrun, rfl, rfl⟩ := bufferIdsAt_ok h
  have hpool : (c.pool memLvl).IsSplit (c.lists memLvl) [] := by
    unfold Pool.IsSplit held
    rw [List.flatMap_nil, List.append_nil]
    exact List.Perm.refl _
  obtain ⟨ws, hws, hone⟩ := orderRun_plain hpool hrun
  rw [List.nil_append] at hws
  obtain ⟨w, hw, hget⟩ := hone i f hf htakes
  have hid := (BufferCounts.mem_lists hw).id_range
  have hid' := (BufferCounts.mem_lists hw).pongId_range hfit
  refine ⟨w.bufferId.toNat, (w.pongId c.pongOffset).toNat, ?_, ?_, by omega, by omega⟩
  · rw [hws, List.getElem?_map, hget, Int.toNat_of_nonneg hid.1]
    rfl
  · rw [hws, List.getElem?_map, hget, Int.toNat_of_nonneg hid'.1]
    rfl

end OpBase.Dag
