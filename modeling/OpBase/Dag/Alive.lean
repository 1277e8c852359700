import OpBase.Dag.NodeInfo

/-!
# What the scan counts

The scan of `NodeInfo.lean` adds a node when it runs, and drops what nobody reads any more.
On a list that is well formed, what it has at a node are the nodes that hold their buffers
there, each of them once. So its sums are those of the buffers held.

> `mem_alive_iff`: the nodes alive at place `k` are those that hold their buffers at `k`.
>
> `aliveSize_spec`: the largest sum is the load of some place, and no place has more.
-/

namespace OpBase.Dag

open List

/-- A list of nodes as a computation makes it, with the nodes that copy out of it. -/
structure WellFormed (n : DagNodeInfo) : Prop where
  nodup : n.funList.Nodup
  /-- What copies out are the outputs. -/
  outs : n.outList.Perm (n.funList.filter (·.fn.isCopyOutOp))
  /-- Inputs come earlier; the scalars and the result of a reduction take no buffer here. -/
  earlier : ∀ k g, n.funList[k]? = some g → ∀ f ∈ g.inNonScalarFuns, f ∈ n.funList.take k
  /-- `CopyIn` reads a `GlobalTensor`. -/
  copyIn : ∀ f ∈ n.funList, f.fn.isCopyInOp = true → f.inFuns = [] ∧ f.inHolders.length = 1
  /-- `CopyOut` and a reduction read one `LocalTensor`. -/
  copyOut : ∀ f ∈ n.funList, f.fn.isCopyOutOp = true → f.inFuns.length = 1
  /-- The result of `CopyOut` is a `GlobalTensor`, which no function reads. -/
  notRead : ∀ g ∈ n.funList, ∀ f ∈ g.inFuns, f.fn.isCopyOut = false
  /-- No placeholder is copied in twice. -/
  once : ∀ f ∈ n.funList, ∀ g ∈ n.funList, f.isScalarOp = false → g.isScalarOp = false →
    f.fn.isCopyInOp = true → g.fn.isCopyInOp = true → f.inHolders = g.inHolders → f = g

instance {n : DagNodeInfo} : Decidable (WellFormed n) :=
  decidable_of_iff
    ((n.funList.Nodup ∧ n.outList.Perm (n.funList.filter (·.fn.isCopyOutOp))) ∧
    (∀ x ∈ n.funList.zipIdx, ∀ f ∈ x.1.inNonScalarFuns, f ∈ n.funList.take x.2) ∧
    (∀ f ∈ n.funList, f.fn.isCopyInOp = true → f.inFuns = [] ∧ f.inHolders.length = 1) ∧
    (∀ f ∈ n.funList, f.fn.isCopyOutOp = true → f.inFuns.length = 1) ∧
    (∀ g ∈ n.funList, ∀ f ∈ g.inFuns, f.fn.isCopyOut = false) ∧
    ∀ f ∈ n.funList, ∀ g ∈ n.funList, f.isScalarOp = false → g.isScalarOp = false →
      f.fn.isCopyInOp = true → g.fn.isCopyInOp = true → f.inHolders = g.inHolders → f = g)
    ⟨fun ⟨⟨hnodup, houts⟩, hearlier, hin, hout, hread, honce⟩ =>
      ⟨hnodup, houts, fun k g hg => hearlier (g, k) (mem_zipIdx_iff_getElem?.mpr hg), hin,
        hout, hread, honce⟩,
    fun h => ⟨⟨h.nodup, h.outs⟩, fun x hx => h.earlier x.2 x.1
      (mem_zipIdx_iff_getElem?.mp hx), h.copyIn, h.copyOut, h.notRead, h.once⟩⟩

/-- The nodes that are never dropped, where broadcasts are cached. -/
def DagNodeInfo.rsvList (n : DagNodeInfo) (cacheBrc : Bool) : List Bind :=
  if cacheBrc then union n.copyBrcNodes n.vecBrcNodes else []

/-- The nodes of the scan, each with the ones alive while it runs. -/
def scan (rsvList : List Bind) : List Bind → List Bind → List (Bind × List Bind)
  | [], _ => []
  | func :: later, acc =>
    (func, aliveNodes func acc) :: scan rsvList later
      (remove (aliveNodes func acc) (tryDelInOutAux later rsvList func.inNonScalarFuns))

theorem maxAliveNode_eq {outList rsvList : List Bind} : ∀ {funs acc : List Bind}
    {info : DagMaxAliveInfo}, maxAliveNode outList rsvList funs acc info =
      (scan rsvList funs acc).foldl (fun info x => maxAliveStep outList x.1 x.2 info) info
  | [], _, _ => rfl
  | func :: later, acc, info => by
    rw [maxAliveNode, scan, foldl_cons]
    exact maxAliveNode_eq

/-! ## Alive is held -/

/-- A node of the first `k` that holds its buffers when number `k` comes. -/
def LiveBefore (cacheBrc : Bool) (funList : List Bind) (k : Nat) (f : Bind) : Prop :=
  ∃ i, i < k ∧ funList[i]? = some f ∧ TakesBuffer f ∧ (isCacheBrcNode cacheBrc f = true ∨
    (∀ p g, i < p → funList[p]? = some g → f ∉ g.inFuns) ∨
    ∃ p g, (i < p ∧ k ≤ p) ∧ funList[p]? = some g ∧ f ∈ g.inFuns)

variable {f : Bind} {k : Nat}

section Scan

variable {n : DagNodeInfo} {cacheBrc : Bool} {acc : List Bind}

/-- What is reserved are the nodes that are cached for a broadcast. -/
theorem mem_rsvList (hbrc : n.supportBrc = true ∨ cacheBrc = false) (hf : f ∈ n.funList) :
    f ∈ n.rsvList cacheBrc ↔ isCacheBrcNode cacheBrc f = true := by
  unfold DagNodeInfo.rsvList isCacheBrcNode
  cases hcache : cacheBrc with
  | false => simp
  | true =>
    have hsup : n.supportBrc = true := hbrc.resolve_right (by rw [hcache]; decide)
    unfold DagNodeInfo.copyBrcNodes DagNodeInfo.vecBrcNodes
    rw [if_pos rfl, if_pos hsup, if_pos hsup, mem_union, mem_filter, mem_filter]
    simp [hf]

/-- A node takes its own buffer and keeps those of its inputs. -/
theorem mem_aliveNodes {func : Bind} : f ∈ aliveNodes func acc ↔
    f ∈ acc ∨ f ∈ func.inNonScalarFuns ∨ (TakesBuffer func ∧ f = func) := by
  unfold aliveNodes TakesBuffer
  dsimp only
  rw [mem_unique, mem_union]
  cases func.fn.isCopyOutOp <;> cases func.isScalarOp <;> simp

theorem nodup_aliveNodes (func : Bind) (acc : List Bind) : (aliveNodes func acc).Nodup :=
  nodup_unique _

/-- What a node reads is alive before it. -/
theorem WellFormed.live_of_read (h : WellFormed n) {g : Bind} (hg : n.funList[k]? = some g)
    (hf : f ∈ g.inNonScalarFuns) :
    LiveBefore cacheBrc n.funList k f := by
  obtain ⟨hin, hscalar, hreduce⟩ := Bind.mem_inNonScalarFuns.mp hf
  obtain ⟨i, hi⟩ := mem_iff_getElem?.mp (h.earlier k g hg f hf)
  have hlt : i < k := by
    by_contra hge
    rw [getElem?_take, if_neg hge] at hi
    exact absurd hi (by simp)
  rw [getElem?_take_of_lt hlt] at hi
  have hcopyOut := h.notRead g (mem_of_getElem? hg) f hin
  have hout : f.fn.isCopyOutOp = false := by
    cases hfn : f.fn <;> simp_all [VecFun.isCopyOutOp, VecFun.isCopyOut, VecFun.isReduceOp]
  exact ⟨i, hlt, hi, ⟨hscalar, hout⟩, Or.inr (Or.inr ⟨k, g, ⟨hlt, le_refl k⟩, hg, hin⟩)⟩

theorem inNonScalarFuns_of_takes {g : Bind} (hf : TakesBuffer f) (hin : f ∈ g.inFuns) :
    f ∈ g.inNonScalarFuns := by
  have hreduce : f.fn.isReduceOp = false := by
    have hout := hf.2
    cases hfn : f.fn <;> simp_all [VecFun.isCopyOutOp, VecFun.isReduceOp]
  exact Bind.mem_inNonScalarFuns.mpr ⟨hin, hf.1, hreduce⟩

theorem WellFormed.index_unique (h : WellFormed n) {i j : Nat} (hi : n.funList[i]? = some f)
    (hj : n.funList[j]? = some f) : i = j := by
  obtain ⟨hilt, hieq⟩ := List.getElem?_eq_some_iff.mp hi
  obtain ⟨hjlt, hjeq⟩ := List.getElem?_eq_some_iff.mp hj
  exact (List.Nodup.getElem_inj_iff h.nodup).mp (hieq.trans hjeq.symm)

/-- While number `k` runs: what was live before it, and the node itself. -/
theorem WellFormed.mem_alive_iff (h : WellFormed n) {func : Bind}
    (hfunc : n.funList[k]? = some func) (hacc : ∀ f, f ∈ acc ↔ LiveBefore cacheBrc n.funList k f) :
    f ∈ aliveNodes func acc ↔ ∃ i, n.funList[i]? = some f ∧ Holds cacheBrc n.funList i k := by
  obtain ⟨hk, -⟩ := List.getElem?_eq_some_iff.mp hfunc
  rw [mem_aliveNodes, hacc]
  constructor
  · rintro (hlive | hread | ⟨htakes, rfl⟩)
    · obtain ⟨i, hik, hi, htakes, hlong⟩ := hlive
      exact ⟨i, hi, f, hi, htakes, ⟨hik.le, hk⟩, hlong⟩
    · obtain ⟨i, hik, hi, htakes, hlong⟩ := h.live_of_read hfunc hread
      exact ⟨i, hi, f, hi, htakes, ⟨hik.le, hk⟩, hlong⟩
    · refine ⟨k, hfunc, f, hfunc, htakes, ⟨le_refl k, hk⟩, Or.inr ?_⟩
      by_cases hread : ∃ p g, (k < p ∧ k ≤ p) ∧ n.funList[p]? = some g ∧ f ∈ g.inFuns
      · exact Or.inr hread
      · refine Or.inl fun p g hp hg hin => hread ⟨p, g, ⟨hp, hp.le⟩, hg, hin⟩
  · rintro ⟨i, hi, u, hu, htakes, ⟨hik, -⟩, hlong⟩
    obtain rfl := Option.some.inj (hi.symm.trans hu)
    rcases Nat.lt_or_eq_of_le hik with hik | rfl
    · exact Or.inl ⟨i, hik, hi, htakes, hlong⟩
    · exact Or.inr (Or.inr ⟨Option.some.inj (hfunc.symm.trans hi) ▸ htakes,
        Option.some.inj (hi.symm.trans hfunc)⟩)

/-- One node more: its buffer becomes alive, and those read for the last time go. -/
theorem WellFormed.live_succ (h : WellFormed n) (hbrc : n.supportBrc = true ∨ cacheBrc = false)
    {func : Bind} {later : List Bind} (hdrop : n.funList.drop k = func :: later)
    (hacc : ∀ f, f ∈ acc ↔ LiveBefore cacheBrc n.funList k f) :
    f ∈ remove (aliveNodes func acc)
        (tryDelInOutAux later (n.rsvList cacheBrc) func.inNonScalarFuns) ↔
      LiveBefore cacheBrc n.funList (k + 1) f := by
  have hfunc : n.funList[k]? = some func := by
    have hhead : (n.funList.drop k)[0]? = some func := by rw [hdrop]; rfl
    rwa [getElem?_drop, Nat.add_zero] at hhead
  have hlater : ∀ g, g ∈ later ↔ ∃ p, k + 1 ≤ p ∧ n.funList[p]? = some g := fun g => by
    rw [mem_iff_getElem?]
    have htail : ∀ q, later[q]? = n.funList[k + 1 + q]? := fun q => by
      rw [← getElem?_drop, ← drop_drop, hdrop]
      rfl
    constructor
    · rintro ⟨q, hq⟩
      rw [htail] at hq
      exact ⟨k + 1 + q, by omega, hq⟩
    · rintro ⟨p, hp, hg⟩
      refine ⟨p - (k + 1), ?_⟩
      rw [htail, show k + 1 + (p - (k + 1)) = p by omega]
      exact hg
  have hdel : f ∈ tryDelInOutAux later (n.rsvList cacheBrc) func.inNonScalarFuns ↔
      f ∈ func.inNonScalarFuns ∧ f ∉ n.rsvList cacheBrc ∧ ¬ ∃ g ∈ later, f ∈ g.inFuns := by
    unfold tryDelInOutAux
    rw [mem_filter, ← checkIsInput_iff]
    simp
  rw [mem_remove, h.mem_alive_iff hfunc hacc, hdel]
  constructor
  · rintro ⟨⟨i, hi, u, hu, htakes, ⟨hik, -⟩, hlong⟩, hkept⟩
    obtain rfl := Option.some.inj (hi.symm.trans hu)
    refine ⟨i, by omega, hi, htakes, ?_⟩
    rcases hlong with hcache | hnever | ⟨p, g, ⟨hip, hkp⟩, hg, hin⟩
    · exact Or.inl hcache
    · exact Or.inr (Or.inl hnever)
    · rcases Nat.lt_or_eq_of_le hkp with hkp | rfl
      · exact Or.inr (Or.inr ⟨p, g, ⟨hip, hkp⟩, hg, hin⟩)
      · -- read by `func` itself: it stays only if it is kept or read again
        obtain rfl := Option.some.inj (hfunc.symm.trans hg)
        by_cases hrsv : f ∈ n.rsvList cacheBrc
        · exact Or.inl ((mem_rsvList hbrc (mem_of_getElem? hi)).mp hrsv)
        · by_cases hread : ∃ g ∈ later, f ∈ g.inFuns
          · obtain ⟨g, hg, hin⟩ := hread
            obtain ⟨p, hp, hg⟩ := (hlater g).mp hg
            exact Or.inr (Or.inr ⟨p, g, ⟨by omega, hp⟩, hg, hin⟩)
          · exact absurd ⟨inNonScalarFuns_of_takes htakes hin, hrsv, hread⟩ hkept
  · intro ⟨i, hik, hi, htakes, hlong⟩
    have hlen : k < n.funList.length := (List.getElem?_eq_some_iff.mp hfunc).1
    refine ⟨⟨i, hi, f, hi, htakes, ⟨by omega, hlen⟩, ?_⟩, fun ⟨hread, hrsv, hnot⟩ => ?_⟩
    · rcases hlong with hcache | hnever | ⟨p, g, ⟨hip, hkp⟩, hg, hin⟩
      · exact Or.inl hcache
      · exact Or.inr (Or.inl hnever)
      · exact Or.inr (Or.inr ⟨p, g, ⟨hip, by omega⟩, hg, hin⟩)
    · rcases hlong with hcache | hnever | ⟨p, g, ⟨-, hkp⟩, hg, hin⟩
      · exact hrsv ((mem_rsvList hbrc (mem_of_getElem? hi)).mpr hcache)
      · obtain ⟨j, hjk, hj, -⟩ : LiveBefore cacheBrc n.funList k f := h.live_of_read hfunc hread
        have hij := h.index_unique hi hj
        exact hnever k func (by omega) hfunc (Bind.mem_inNonScalarFuns.mp hread).1
      · exact hnot ⟨g, (hlater g).mpr ⟨p, hkp, hg⟩, hin⟩

theorem WellFormed.scan_spec (h : WellFormed n) (hbrc : n.supportBrc = true ∨ cacheBrc = false) :
    ∀ {later acc : List Bind} {k : Nat}, n.funList.drop k = later →
    (∀ f, f ∈ acc ↔ LiveBefore cacheBrc n.funList k f) →
    ∀ j x, (scan (n.rsvList cacheBrc) later acc)[j]? = some x →
      n.funList[k + j]? = some x.1 ∧ x.2.Nodup ∧
      ∀ f, f ∈ x.2 ↔ ∃ i, n.funList[i]? = some f ∧ Holds cacheBrc n.funList i (k + j)
  | [], _, _, _, _, j, x, hx => by simp [scan] at hx
  | func :: later, acc, k, hdrop, hacc, j, x, hx => by
    cases j with
    | zero =>
      obtain rfl := Option.some.inj hx
      have hhead : (n.funList.drop k)[0]? = some func := by rw [hdrop]; rfl
      rw [getElem?_drop, Nat.add_zero] at hhead
      exact ⟨hhead, nodup_aliveNodes func acc, fun f => h.mem_alive_iff hhead hacc⟩
    | succ j =>
      rw [← Nat.add_assoc, Nat.add_right_comm]
      refine h.scan_spec hbrc ?_ (fun f => h.live_succ hbrc hdrop hacc) j x hx
      rw [← drop_drop, hdrop]
      rfl

theorem length_scan {rsvList : List Bind} : ∀ {later acc : List Bind},
    (scan rsvList later acc).length = later.length
  | [], _ => rfl
  | _ :: later, _ => by rw [scan, length_cons, length_scan, length_cons]

end Scan

/-! ## The sums -/

/-- A broadcast that is done in the unified buffer counts twice. -/
def weight (useNddma : Bool) (f : Bind) : Nat :=
  if f.fn.isCopyInBrcOp && !useNddma then 2 else 1

/-- The temporaries of a function; that of a broadcast on the way in is its second buffer. -/
def funcTemp (f : Bind) : Nat := if f.fn.isCopyInBrcOp then 0 else f.fn.tempSize

/-- The node is neither copied in nor copied out, so its buffer is a temporary one. -/
def isTempCalc (n : DagNodeInfo) (useNddma : Bool) (f : Bind) : Bool :=
  !(checkIsInput n.outList f || (f.fn.isCopyInOp && (useNddma || !f.fn.isCopyInBrcOp)))

namespace DagMaxAliveInfo

def aliveSize (info : DagMaxAliveInfo) (useNddma : Bool) : Nat :=
  if useNddma then info.aliveNodeNoCopyBrcTmpBuf else info.aliveNode

def tempSize (info : DagMaxAliveInfo) (useNddma : Bool) : Nat :=
  if useNddma then info.tempCalcNodeNoCopyBrcTmpBuf else info.tempCalcNode

end DagMaxAliveInfo

theorem sum_weight (alive : List Bind) : (alive.map (weight false)).sum = alive.length -
    (alive.filter (·.fn.isCopyInBrcOp)).length +
      2 * (alive.filter (·.fn.isCopyInBrcOp)).length := by
  have hle := length_filter_le (·.fn.isCopyInBrcOp) alive
  have hsum : (alive.map (weight false)).sum =
      alive.length + (alive.filter (·.fn.isCopyInBrcOp)).length := by
    induction alive with
    | nil => rfl
    | cons f fs ih =>
      have := ih (length_filter_le _ _)
      rw [map_cons, sum_cons, length_cons, this, filter_cons]
      unfold weight
      cases f.fn.isCopyInBrcOp
      · simp
        omega
      · simp
        omega
  omega

theorem sum_weight_nddma (alive : List Bind) : (alive.map (weight true)).sum = alive.length := by
  induction alive with
  | nil => rfl
  | cons f fs ih =>
    rw [map_cons, sum_cons, length_cons, ih]
    unfold weight
    rw [Bool.not_true, Bool.and_false]
    exact Nat.add_comm _ _

section Step

variable (n : DagNodeInfo) (useNddma : Bool) (func : Bind) (alive : List Bind)
  (info : DagMaxAliveInfo)

theorem aliveSize_step : (maxAliveStep n.outList func alive info).aliveSize useNddma =
    max ((alive.map (weight useNddma)).sum + funcTemp func) (info.aliveSize useNddma) := by
  unfold maxAliveStep DagMaxAliveInfo.aliveSize funcTemp
  cases useNddma with
  | false => simp [sum_weight]
  | true => cases func.fn.isCopyInBrcOp <;> simp [sum_weight_nddma]

theorem tempSize_step : (maxAliveStep n.outList func alive info).tempSize useNddma =
    max ((alive.filter (isTempCalc n useNddma)).length + funcTemp func)
      (info.tempSize useNddma) := by
  have hbrc : filterTempCalcNode n.outList alive true = alive.filter (isTempCalc n false) := by
    unfold filterTempCalcNode isTempCalc
    refine filter_congr fun f _ => ?_
    simp
  have hnddma : filterTempCalcNode n.outList (alive.filter (isTempCalc n false)) false =
      alive.filter (isTempCalc n true) := by
    unfold filterTempCalcNode isTempCalc
    rw [filter_filter]
    refine filter_congr fun f _ => ?_
    cases checkIsInput n.outList f <;> cases f.fn.isCopyInOp <;> simp
  unfold maxAliveStep DagMaxAliveInfo.tempSize funcTemp
  dsimp only
  rw [hbrc, hnddma]
  cases useNddma with
  | false => simp
  | true => cases func.fn.isCopyInBrcOp <;> simp

end Step

theorem foldl_max {σ α : Type} (step : σ → α → σ) (size : σ → Nat) (v : α → Nat)
    (hstep : ∀ s x, size (step s x) = max (v x) (size s)) : ∀ {l : List α} {s : σ},
    size s ≤ size (l.foldl step s) ∧ (∀ x ∈ l, v x ≤ size (l.foldl step s)) ∧
      (size (l.foldl step s) = size s ∨ ∃ x ∈ l, size (l.foldl step s) = v x)
  | [], s => ⟨le_refl _, fun x hx => absurd hx not_mem_nil, Or.inl rfl⟩
  | x :: l, s => by
    obtain ⟨hle, hall, hex⟩ := foldl_max step size v hstep (l := l) (s := step s x)
    have hx := hstep s x
    rw [foldl_cons]
    refine ⟨by omega, fun y hy => ?_, ?_⟩
    · rcases mem_cons.mp hy with rfl | hy
      · omega
      · exact hall y hy
    · rcases hex with hex | ⟨y, hy, hex⟩
      · rcases Nat.le_total (v x) (size s) with hle' | hle'
        · exact Or.inl (by omega)
        · exact Or.inr ⟨x, mem_cons_self, by omega⟩
      · exact Or.inr ⟨y, mem_cons_of_mem _ hy, hex⟩

/-! ## The load of a place -/

/-- The nodes that hold their buffers at a place. -/
def aliveAt (cacheBrc : Bool) (funList : List Bind) (k : Nat) : List Bind :=
  ((List.range (k + 1)).filter fun i => Holds cacheBrc funList i k).filterMap (funList[·]?)

/-- The buffers that are wanted at a place: those held, and the temporaries of the function. -/
def load (useNddma cacheBrc : Bool) (funList : List Bind) (k : Nat) : Nat :=
  ((aliveAt cacheBrc funList k).map (weight useNddma)).sum + (funList[k]?.map funcTemp).getD 0

section Load

variable {n : DagNodeInfo} {useNddma cacheBrc : Bool}

/-- Alive at a node are the buffers that are held there. -/
theorem mem_aliveAt {funList : List Bind} : f ∈ aliveAt cacheBrc funList k ↔
    ∃ i, funList[i]? = some f ∧ Holds cacheBrc funList i k := by
  unfold aliveAt
  rw [mem_filterMap]
  constructor
  · rintro ⟨i, hi, hf⟩
    obtain ⟨-, hholds⟩ := mem_filter.mp hi
    exact ⟨i, hf, of_decide_eq_true hholds⟩
  · rintro ⟨i, hf, hholds⟩
    have hik : i ≤ k := by
      obtain ⟨-, -, -, ⟨hik, -⟩, -⟩ := hholds
      exact hik
    exact ⟨i, mem_filter.mpr ⟨mem_range.mpr (by omega), decide_eq_true hholds⟩, hf⟩

theorem WellFormed.nodup_aliveAt (h : WellFormed n) (k : Nat) :
    (aliveAt cacheBrc n.funList k).Nodup := by
  refine List.Nodup.filterMap (fun i j f hi hj => ?_) (nodup_range.filter _)
  exact h.index_unique hi hj

/-- Both numbers come from one pass over the alive nodes. -/
theorem getMaxAliveNodeSize_eq : n.getMaxAliveNodeSize useNddma cacheBrc =
    ((scan (n.rsvList cacheBrc) n.funList []).foldl
      (fun info x => maxAliveStep n.outList x.1 x.2 info) {}).aliveSize useNddma ∧
    n.getTempCalcNodeSize useNddma cacheBrc =
    ((scan (n.rsvList cacheBrc) n.funList []).foldl
      (fun info x => maxAliveStep n.outList x.1 x.2 info) {}).tempSize useNddma := by
  have hcache : n.maxAliveNodeInfoForCacheBrc =
      maxAliveNode n.outList (n.rsvList true) n.funList [] {} := by
    unfold DagNodeInfo.maxAliveNodeInfoForCacheBrc DagNodeInfo.rsvList
    rw [if_pos rfl]
    split
    next hnone =>
      rw [length_eq_zero_iff.mp hnone.1, length_eq_zero_iff.mp hnone.2]
      rfl
    next => rfl
  have hplain : n.maxAliveNodeInfo = maxAliveNode n.outList (n.rsvList false) n.funList [] {} := rfl
  rw [← maxAliveNode_eq]
  unfold DagNodeInfo.getMaxAliveNodeSize DagNodeInfo.getTempCalcNodeSize
    DagMaxAliveInfo.aliveSize DagMaxAliveInfo.tempSize
  cases useNddma <;> cases cacheBrc <;> simp [hcache, hplain]

section

variable (h : WellFormed n) (hbrc : n.supportBrc = true ∨ cacheBrc = false)
include h hbrc

theorem WellFormed.scan_perm {x : Bind × List Bind}
    (hx : (scan (n.rsvList cacheBrc) n.funList [])[k]? = some x) :
    n.funList[k]? = some x.1 ∧ x.2.Perm (aliveAt cacheBrc n.funList k) := by
  have hempty : ∀ f, f ∈ ([] : List Bind) ↔ LiveBefore cacheBrc n.funList 0 f := fun f =>
    ⟨fun hf => absurd hf not_mem_nil, fun ⟨i, hi, _⟩ => absurd hi (Nat.not_lt_zero i)⟩
  obtain ⟨hfunc, hnodup, hmem⟩ := h.scan_spec hbrc (drop_zero) hempty k x hx
  rw [Nat.zero_add] at hfunc hmem
  refine ⟨hfunc, (perm_ext_iff_of_nodup hnodup (h.nodup_aliveAt k)).mpr fun f => ?_⟩
  rw [hmem, mem_aliveAt]

/-- The number of alive buffers is the largest load of a node. -/
theorem WellFormed.aliveSize_spec :
    (∀ k, k < n.funList.length →
      load useNddma cacheBrc n.funList k ≤ n.getMaxAliveNodeSize useNddma cacheBrc) ∧
    (n.getMaxAliveNodeSize useNddma cacheBrc = 0 ∨ ∃ k, k < n.funList.length ∧
      n.getMaxAliveNodeSize useNddma cacheBrc = load useNddma cacheBrc n.funList k) := by
  -- what the scan counts at `k` is the load there
  have hload : ∀ k x, (scan (n.rsvList cacheBrc) n.funList [])[k]? = some x →
      (x.2.map (weight useNddma)).sum + funcTemp x.1 = load useNddma cacheBrc n.funList k := by
    intro k x hx
    obtain ⟨hfunc, hperm⟩ := h.scan_perm hbrc hx
    unfold load
    rw [hfunc, (hperm.map (weight useNddma)).sum_eq]
    rfl
  obtain ⟨-, hall, hex⟩ := foldl_max
    (fun info (x : Bind × List Bind) => maxAliveStep n.outList x.1 x.2 info)
    (DagMaxAliveInfo.aliveSize · useNddma)
    (fun x => (x.2.map (weight useNddma)).sum + funcTemp x.1)
    (fun info x => aliveSize_step n useNddma x.1 x.2 info)
    (l := scan (n.rsvList cacheBrc) n.funList []) (s := {})
  rw [getMaxAliveNodeSize_eq.1]
  have hlen : (scan (n.rsvList cacheBrc) n.funList []).length = n.funList.length := length_scan
  refine ⟨fun k hk => ?_, ?_⟩
  · rw [← hlen] at hk
    have hx := getElem?_eq_getElem hk
    rw [← hload k _ hx]
    exact hall _ (mem_of_getElem? hx)
  · rcases hex with hex | ⟨x, hx, hex⟩
    · left
      rw [hex]
      cases useNddma <;> rfl
    · right
      obtain ⟨k, hk⟩ := mem_iff_getElem?.mp hx
      refine ⟨k, ?_, hex.trans (hload k x hk)⟩
      rw [← hlen]
      exact (List.getElem?_eq_some_iff.mp hk).1

/-- No node needs more temporary buffers than are counted. -/
theorem WellFormed.tempSize_spec (hk : k < n.funList.length) :
    ((aliveAt cacheBrc n.funList k).filter (isTempCalc n useNddma)).length ≤
      n.getTempCalcNodeSize useNddma cacheBrc := by
  obtain ⟨-, hall, -⟩ := foldl_max
    (fun info (x : Bind × List Bind) => maxAliveStep n.outList x.1 x.2 info)
    (DagMaxAliveInfo.tempSize · useNddma)
    (fun x => (x.2.filter (isTempCalc n useNddma)).length + funcTemp x.1)
    (fun info x => tempSize_step n useNddma x.1 x.2 info)
    (l := scan (n.rsvList cacheBrc) n.funList []) (s := {})
  have hlen : (scan (n.rsvList cacheBrc) n.funList []).length = n.funList.length := length_scan
  rw [getMaxAliveNodeSize_eq.2]
  rw [← hlen] at hk
  have hx := getElem?_eq_getElem hk
  have hle := hall _ (mem_of_getElem? hx)
  rw [((h.scan_perm hbrc hx).2.filter _).length_eq] at hle
  omega

end

end Load

end OpBase.Dag
