import OpBase.Lib.LoopNest
import OpBase.Reduce.Bisection

/-!
# The loops of a reduction

`ReduceSchAux::Process` in `reduce_sch_aux.h`. The axes of the input are kept and reduced in
turn. On some of them there are loops: on the first kept ones, the last of which is cut by
`ubFactorA`, and on the first reduced ones, the last of which is cut by `ubFactorR`. The tiling
key says how many there are, and whether the reduced ones are dealt out to the cores.

Where they are not, a core has some of the tiles of the kept axes and goes through all of R for
each. Where they are, a group of `groupR` cores shares the R of one such tile, and one counter
runs through both. The index boxes of the tiles are kept in `iterAddr_`, which is written axis
by axis and keeps what was there; it is read in `PreReduce`.

> `process_normal`, `process_group`: the boxes a core reads are steps of one loop nest.
-/

namespace OpBase.Reduce

open List OpBase.Lib
open Function (update)

/-! ## The keys -/

/-- The fields that the loops look at. -/
structure ReduceSchLoopInfo where
  patternID : Nat
  loopACount : Nat
  loopAAxis : List Nat
  loopRCount : Nat
  loopRAxis : List Nat
  loopInnerACount : Nat
  loopInnerAAxis : List Nat
  loopInnerRCount : Nat
  loopInnerRAxis : List Nat

/-- `Dim` of the pattern -/
def patternDim (patternID : Nat) : Nat :=
  if patternID = 10 then 1 else if patternID = 0 then 2 else patternID + 1

/-- What `GetSchLoopInfo0` to `GetSchLoopInfo5` have in common. -/
def schLoopInfo (loopAAxis loopRAxis : List Nat) (patternID loopARCount loopInnerARCount : Nat) :
    ReduceSchLoopInfo where
  patternID := patternID / 10
  loopACount := loopARCount / 10
  loopAAxis
  loopRCount := loopARCount % 10
  loopRAxis
  loopInnerACount := loopInnerARCount / 10
  loopInnerAAxis := [0, 2, 4, 6, 8]
  loopInnerRCount := loopInnerARCount % 10
  loopInnerRAxis := [1, 3, 5, 7]

def getSchLoopInfo0 : Nat → Nat → Nat → ReduceSchLoopInfo := schLoopInfo [] [1, 3, 5, 7]

def getSchLoopInfo1 : Nat → Nat → Nat → ReduceSchLoopInfo := schLoopInfo [0] [0, 1, 3, 5, 7]

def getSchLoopInfo2 : Nat → Nat → Nat → ReduceSchLoopInfo :=
  schLoopInfo [0, 2] [0, 2, 1, 3, 5, 7]

def getSchLoopInfo3 : Nat → Nat → Nat → ReduceSchLoopInfo :=
  schLoopInfo [0, 2, 4] [0, 2, 4, 1, 3, 5, 7]

def getSchLoopInfo4 : Nat → Nat → Nat → ReduceSchLoopInfo :=
  schLoopInfo [0, 2, 4, 6] [0, 2, 4, 6, 1, 3, 5, 7]

def getSchLoopInfo5 : Nat → Nat → Nat → ReduceSchLoopInfo :=
  schLoopInfo [0, 2, 4, 6, 8] [0, 2, 4, 6, 8, 1, 3, 5, 7]

/-- The second stage of a group reduction. -/
def getGroupSchLoopInfo : ReduceSchLoopInfo where
  patternID := 0
  loopACount := 1
  loopAAxis := [1]
  loopRCount := 0
  loopRAxis := []
  loopInnerACount := 0
  loopInnerAAxis := []
  loopInnerRCount := 1
  loopInnerRAxis := [0]

/-- `GetSchLoopInfo`; there is none for six loops. -/
def getSchLoopInfo (patternID loopARCount loopInnerARCount : Nat) : Option ReduceSchLoopInfo :=
  match loopARCount / 10 with
  | 0 => some (getSchLoopInfo0 patternID loopARCount loopInnerARCount)
  | 1 => some (getSchLoopInfo1 patternID loopARCount loopInnerARCount)
  | 2 => some (getSchLoopInfo2 patternID loopARCount loopInnerARCount)
  | 3 => some (getSchLoopInfo3 patternID loopARCount loopInnerARCount)
  | 4 => some (getSchLoopInfo4 patternID loopARCount loopInnerARCount)
  | 5 => some (getSchLoopInfo5 patternID loopARCount loopInnerARCount)
  | _ => none

/-! ## The loops -/

/-- The fields that the loops look at. -/
structure ReduceOpTilingData where
  factorACntPerCore : Nat
  factorATotalCnt : Nat
  ubFactorA : Nat
  factorRCntPerCore : Nat
  factorRTotalCnt : Nat
  ubFactorR : Nat
  groupR : Nat
  shape : Nat → Nat

/-- `iterAddr_`, an entry for each axis -/
abbrev IterAddr : Type := Nat → Piece

/-- The state of the loops: `iterAddr_`, and what it was in each `PreReduce` so far. -/
structure IterState where
  iterAddr : IterAddr
  read : List IterAddr

/-- The members that `SetLoopRange` sets. -/
structure LoopRange where
  loopAStartIndex : Nat
  loopAEndIndex : Nat
  loopAAxisStep : Nat
  loopRStartIndex : Nat
  loopREndIndex : Nat
  loopRAxisStep : Nat

/-- The members are zero until they are set. -/
def setLoopRange (info : ReduceSchLoopInfo) (tiling : ReduceOpTilingData) (blockId : Nat) :
    LoopRange :=
  let loopAAxisStep :=
    ceilDiv (tiling.shape (info.loopAAxis.getD (info.loopACount - 1) 0)) tiling.ubFactorA
  if info.loopRCount = 0 then
    let loopAStartIndex := blockId * tiling.factorACntPerCore % 2 ^ 64
    let loopAEndIndex := (loopAStartIndex + tiling.factorACntPerCore) % 2 ^ 64
    { loopAStartIndex
      loopAEndIndex :=
        if tiling.factorATotalCnt < loopAEndIndex then tiling.factorATotalCnt else loopAEndIndex
      loopAAxisStep
      loopRStartIndex := 0
      loopREndIndex := 0
      loopRAxisStep :=
        if 0 < info.loopInnerRCount then
          ceilDiv (tiling.shape (info.loopInnerRAxis.getD (info.loopInnerRCount - 1) 0))
            tiling.ubFactorR
        else 0 }
  else
    let loopRStartIndex := (blockId / tiling.groupR * tiling.factorRTotalCnt +
      blockId % tiling.groupR * tiling.factorRCntPerCore) % 2 ^ 64
    let loopREndIndex := (loopRStartIndex + tiling.factorRCntPerCore) % 2 ^ 64
    let maxRCnt := (blockId / tiling.groupR + 1) * tiling.factorRTotalCnt % 2 ^ 64
    let totalCnt := tiling.factorATotalCnt * tiling.factorRTotalCnt % 2 ^ 64
    let maxRCnt := if totalCnt < maxRCnt then totalCnt else maxRCnt
    { loopAStartIndex := 0
      loopAEndIndex := 0
      loopAAxisStep := if 0 < info.loopACount then loopAAxisStep else 0
      loopRStartIndex := if maxRCnt < loopRStartIndex then maxRCnt else loopRStartIndex
      loopREndIndex := if maxRCnt < loopREndIndex then maxRCnt else loopREndIndex
      loopRAxisStep :=
        ceilDiv (tiling.shape (info.loopRAxis.getD (info.loopRCount - 1) 0)) tiling.ubFactorR }

/-- The entry of an axis that is cut. -/
def cutEntry (shape ubFactor cur : Nat) : Piece :=
  let start := cur * ubFactor % 2 ^ 64
  let stride := (shape + 2 ^ 64 - start) % 2 ^ 64
  ⟨start, if ubFactor ≤ stride then ubFactor else stride⟩

/-- The first `n` of the axes are set, the last one first; if these are all of them, it is the
one that is cut. What `CalculateIterA` and `CalculateInnerIterR` have in common. -/
def calculateAxes (shape : Nat → Nat) (axes : List Nat) (count axisStep ubFactor : Nat) :
    Nat → Nat → IterAddr → IterAddr
  | 0, _, addr => addr
  | n + 1, step, addr =>
    let axis := axes.getD n 0
    if n + 1 = count then
      calculateAxes shape axes count axisStep ubFactor n (step / axisStep)
        (update addr axis (cutEntry (shape axis) ubFactor (step % axisStep)))
    else
      calculateAxes shape axes count axisStep ubFactor n (step / shape axis)
        (update addr axis ⟨step % shape axis, 1⟩)

section Process

variable (info : ReduceSchLoopInfo) (tiling : ReduceOpTilingData) (aux : LoopRange)

def calculateIterA : Nat → Nat → IterAddr → IterAddr :=
  calculateAxes tiling.shape info.loopAAxis info.loopACount aux.loopAAxisStep tiling.ubFactorA

def calculateInnerIterR : Nat → Nat → IterAddr → IterAddr :=
  calculateAxes tiling.shape info.loopInnerRAxis info.loopInnerRCount aux.loopRAxisStep
    tiling.ubFactorR

def isLoopSpliteAAxis (axis : Nat) : Bool :=
  info.loopACount ≠ 0 && info.loopAAxis.getD (info.loopACount - 1) 0 == axis

/-- The loop of `CalculateIterR`, for the axes up to this one. -/
def calculateIterRLoop : Nat → Nat → IterAddr → IterAddr
  | 0, _, addr => addr
  | idx + 1, temp, addr =>
    let axis := info.loopRAxis.getD idx 0
    if idx = info.loopRCount - 1 then
      calculateIterRLoop idx (temp / aux.loopRAxisStep) (update addr axis
        (cutEntry (tiling.shape axis) tiling.ubFactorR (temp % aux.loopRAxisStep)))
    else if isLoopSpliteAAxis info axis then
      calculateIterRLoop idx (temp / aux.loopAAxisStep) (update addr axis
        (cutEntry (tiling.shape axis) tiling.ubFactorA (temp % aux.loopAAxisStep)))
    else
      calculateIterRLoop idx (temp / tiling.shape axis)
        (update addr axis ⟨temp % tiling.shape axis, 1⟩)

def calculateIterR (step : Nat) : IterAddr → IterAddr :=
  calculateIterRLoop info tiling aux info.loopRCount step

/-- The box is set, and it is read. -/
def preReduce (s : IterState) (rIndex : Nat) : IterState :=
  let iterAddr :=
    if 0 < info.loopRCount then
      calculateIterR info tiling aux ((rIndex + aux.loopRStartIndex) % 2 ^ 64) s.iterAddr
    else calculateInnerIterR info tiling aux info.loopInnerRCount rIndex s.iterAddr
  ⟨iterAddr, s.read ++ [iterAddr]⟩

/-- The blocks of R, in the order of `LinearComputeR`. -/
def iterateR (range : BisectionRange) (s : IterState) : IterState :=
  (readOrder range).foldl (preReduce info tiling aux) s

/-- `n` of the inner axes are left. `reduceDichotomy` is one in all keys. -/
def iterateInnerA (range : BisectionRange) : Nat → IterState → IterState
  | 0, s => iterateR info tiling aux range s
  | n + 1, s =>
    let axis := info.loopInnerAAxis.getD (info.loopInnerACount - (n + 1)) 0
    let shape := tiling.shape axis
    if n = 0 then
      let loopSize := shape / tiling.ubFactorA
      let tail := shape - loopSize * tiling.ubFactorA
      let s := { s with iterAddr := update s.iterAddr axis ⟨0, tiling.ubFactorA⟩ }
      let s := (List.range loopSize).foldl (fun s _ =>
        let s := iterateInnerA range n s
        let start := (s.iterAddr axis).start + tiling.ubFactorA
        { s with
          iterAddr := update s.iterAddr axis ⟨start, (s.iterAddr axis).stride⟩ }) s
      if tail ≠ 0 then
        let start := (s.iterAddr axis).start
        iterateInnerA range n
          { s with iterAddr := update s.iterAddr axis ⟨start, shape - start⟩ }
      else s
    else
      (List.range shape).foldl (fun s i => iterateInnerA range n
        { s with iterAddr := update s.iterAddr axis ⟨i, (s.iterAddr axis).stride⟩ }) s

/-- The number that `SetIterRRange` is about. -/
def iterRCount : Nat :=
  if info.loopRCount = 0 then tiling.factorRCntPerCore
  else (aux.loopREndIndex + 2 ^ 64 - aux.loopRStartIndex) % 2 ^ 64

/-- `Process` from the loops on. -/
def processLoops (range : BisectionRange) : IterState → IterState := fun s =>
  if info.loopRCount = 0 then
    (List.range' aux.loopAStartIndex (aux.loopAEndIndex - aux.loopAStartIndex)).foldl
      (fun s i => iterateInnerA info tiling aux range info.loopInnerACount
        { s with iterAddr := calculateIterA info tiling aux info.loopACount i s.iterAddr }) s
  else if aux.loopRStartIndex = aux.loopREndIndex then s
  else iterateInnerA info tiling aux range info.loopInnerACount s

end Process

/-- The constructor sets all of the shape. -/
def initAddr (tiling : ReduceOpTilingData) : IterAddr := fun k => ⟨0, tiling.shape k⟩

/-- The boxes that the core with this index reads, in their order; none at all where
`SetIterRRange` is not defined. -/
def process (info : ReduceSchLoopInfo) (tiling : ReduceOpTilingData) (blockId : Nat) :
    Option (List IterAddr) :=
  let aux := setLoopRange info tiling blockId
  (setIterRRange (iterRCount info tiling aux)).map fun range =>
    (processLoops info tiling aux range ⟨initAddr tiling, []⟩).read

/-! ## The counters set a nest -/

/-- The loops along these axes, the last of which is cut; the last one is the innermost. -/
def nestOf (shape : Nat → Nat) (ubFactor : Nat) (axes : List Nat) : List Loop :=
  match axes.reverse with
  | [] => []
  | last :: rest => cutLoop last (shape last) ubFactor :: rest.map fun k => unitLoop k (shape k)

/-- The last axis is cut and innermost, the others run one by one. -/
theorem nestOf_concat (shape : Nat → Nat) (ubFactor : Nat) (init : List Nat) (last : Nat) :
    nestOf shape ubFactor (init ++ [last]) =
      cutLoop last (shape last) ubFactor :: init.reverse.map fun k => unitLoop k (shape k) := by
  unfold nestOf
  rw [reverse_append]
  rfl

theorem nestOf_axes (shape : Nat → Nat) (ubFactor : Nat) (axes : List Nat) :
    (nestOf shape ubFactor axes).map (·.axis) = axes.reverse := by
  unfold nestOf
  split
  next h => exact h.symm
  next last rest h =>
    rw [h, map_cons, map_map]
    exact congrArg (last :: ·) (map_id rest)

/-- The bounds in which nothing wraps round on an axis that is cut. -/
def CutFits (shape ubFactor : Nat) : Prop := 1 ≤ ubFactor ∧ shape + ubFactor ≤ 2 ^ 64

variable {init : List Nat}

section Nest

variable {shape : Nat → Nat} {axes : List Nat} {addr : IterAddr}

/-- The rounded-up quotient is the number of pieces. -/
theorem ceilDiv_eq_count {n f : Nat} (h : CutFits n f) (axis : Nat) :
    ceilDiv n f = (cutLoop axis n f).count := by
  obtain ⟨hpos, hle⟩ := h
  unfold ceilDiv
  rw [Nat.mod_eq_of_lt (by omega)]
  rfl

theorem cutEntry_eq {n f c : Nat} (h : CutFits n f) {axis : Nat}
    (hc : c < (cutLoop axis n f).count) : cutEntry n f c = (cutLoop axis n f).piece c := by
  obtain ⟨hpos, hle⟩ := h
  have hlt := cutLoop_start_lt hpos hc
  have hstride : (n + 2 ^ 64 - c * f) % 2 ^ 64 = n - c * f := by
    rw [Nat.add_comm, Nat.add_sub_assoc (Nat.le_of_lt hlt), Nat.add_mod_left,
      Nat.mod_eq_of_lt (by omega)]
  unfold cutEntry cutLoop
  dsimp only
  rw [Nat.mod_eq_of_lt (by omega), hstride, Nat.min_def]

theorem getD_of_prefix {axes : List Nat} {k : Nat} (h : init ++ [k] <+: axes) :
    axes.getD init.length 0 = k := by
  obtain ⟨rest, rfl⟩ := h
  rw [append_assoc, getD_eq_getElem?_getD, getElem?_append_right (Nat.le_refl _), Nat.sub_self]
  rfl

theorem calculateAxes_units {axisStep ubFactor count : Nat} :
    init <+: axes → init.length < count → ∀ step addr,
      calculateAxes shape axes count axisStep ubFactor init.length step addr =
        setAxes (init.reverse.map fun k => unitLoop k (shape k)) step addr := by
  induction init using List.reverseRecOn with
  | nil => exact fun _ _ _ _ => rfl
  | append_singleton init k ih =>
    intro hpre hlt step addr
    rw [length_append, length_singleton] at hlt ⊢
    rw [calculateAxes, getD_of_prefix hpre, if_neg (by omega),
      ih ((prefix_append init [k]).trans hpre) (by omega), reverse_append]
    rfl

/-- The counters of `CalculateIterA` and `CalculateInnerIterR` set a nest. -/
theorem calculateAxes_eq {rs : List Nat} (hpre : rs <+: axes) {axisStep ubFactor : Nat}
    (hstep : rs ≠ [] → axisStep = ceilDiv (shape (axes.getD (rs.length - 1) 0)) ubFactor)
    (hfits : ∀ k ∈ rs, CutFits (shape k) ubFactor) (hpos : ∀ k ∈ rs, 1 ≤ shape k) (step : Nat) :
    calculateAxes shape axes rs.length axisStep ubFactor rs.length step addr =
      setAxes (nestOf shape ubFactor rs) step addr := by
  rcases eq_nil_or_concat' rs with rfl | ⟨init, k, rfl⟩
  · rfl
  · have hmem : k ∈ init ++ [k] := mem_append_right _ mem_cons_self
    have hcut := hfits k hmem
    have hstep' := hstep (append_ne_nil_of_right_ne_nil _ (cons_ne_nil _ _))
    rw [length_append, length_singleton] at hstep' ⊢
    rw [Nat.add_sub_cancel, getD_of_prefix hpre, ceilDiv_eq_count hcut k] at hstep'
    have hlt : step % axisStep < (cutLoop k (shape k) ubFactor).count := by
      rw [hstep']
      exact Nat.mod_lt step (cutLoop_count_pos k hcut.1 (hpos k hmem))
    rw [calculateAxes, getD_of_prefix hpre, if_pos rfl, calculateAxes_units
      ((prefix_append init [k]).trans hpre) (Nat.lt_succ_self _), nestOf_concat, setAxes,
      ← hstep', cutEntry_eq hcut hlt]
    rfl

end Nest

/-! ## The axes of a key -/

/-- There are loops along `aAxes`, and along `rAxes`: one counter for the former and for each of
its values one for the latter, or a single counter that runs through the latter first. -/
structure ReduceSchLoopInfo.HasAxes (info : ReduceSchLoopInfo) (aAxes rAxes : List Nat) : Prop where
  aAxes_ne : aAxes ≠ []
  loopA : info.loopACount = aAxes.length ∧ aAxes <+: info.loopAAxis
  loopInnerA : info.loopInnerACount = 0
  loopR : (info.loopRCount = 0 ∧ info.loopInnerRCount = rAxes.length ∧
      rAxes <+: info.loopInnerRAxis) ∨
    (rAxes ≠ [] ∧ info.loopRCount = (aAxes ++ rAxes).length ∧ aAxes ++ rAxes <+: info.loopRAxis)
  nodup : (aAxes ++ rAxes).Nodup

/-- The tiling data is about a shape that the loops go through without a word wrapping round. -/
structure ReduceOpTilingData.Fits (tiling : ReduceOpTilingData) (aAxes rAxes : List Nat) :
    Prop where
  shape_pos : ∀ k ∈ aAxes ++ rAxes, 1 ≤ tiling.shape k
  cutA : ∀ k ∈ aAxes, CutFits (tiling.shape k) tiling.ubFactorA
  cutR : ∀ k ∈ rAxes, CutFits (tiling.shape k) tiling.ubFactorR

variable {range : BisectionRange}

section Axes

variable {info : ReduceSchLoopInfo} {tiling : ReduceOpTilingData} {aAxes rAxes : List Nat}
  {aux : LoopRange} {addr : IterAddr} {ls : List Loop}

/-- The axis that is cut by `ubFactorA`. -/
theorem ReduceSchLoopInfo.HasAxes.cutAxis (h : info.HasAxes aAxes rAxes) :
    ∃ init k, aAxes = init ++ [k] ∧ info.loopAAxis.getD (info.loopACount - 1) 0 = k := by
  obtain ⟨init, k, rfl⟩ := (eq_nil_or_concat' aAxes).resolve_left h.aAxes_ne
  refine ⟨init, k, rfl, ?_⟩
  rw [h.loopA.1, length_append, length_singleton, Nat.add_sub_cancel]
  exact getD_of_prefix h.loopA.2

theorem calculateInnerIterR_eq (hcount : info.loopInnerRCount = rAxes.length)
    (hpre : rAxes <+: info.loopInnerRAxis) (hfits : tiling.Fits aAxes rAxes)
    (haux : rAxes ≠ [] → aux.loopRAxisStep =
      ceilDiv (tiling.shape (info.loopInnerRAxis.getD (info.loopInnerRCount - 1) 0))
        tiling.ubFactorR) (step : Nat) :
    calculateInnerIterR info tiling aux info.loopInnerRCount step addr =
      setAxes (nestOf tiling.shape tiling.ubFactorR rAxes) step addr := by
  unfold calculateInnerIterR
  rw [hcount] at haux ⊢
  exact calculateAxes_eq hpre haux hfits.cutR
    (fun k hk => hfits.shape_pos k (mem_append_right _ hk)) step

/-- A loop of `CalculateIterR`, the innermost one excepted. -/
def loopOfR (info : ReduceSchLoopInfo) (tiling : ReduceOpTilingData) (k : Nat) : Loop :=
  if isLoopSpliteAAxis info k then cutLoop k (tiling.shape k) tiling.ubFactorA
  else unitLoop k (tiling.shape k)

theorem isLoopSpliteAAxis_iff (h : info.HasAxes aAxes rAxes) {k : Nat} (hk : aAxes = init ++ [k])
    (axis : Nat) : isLoopSpliteAAxis info axis = true ↔ axis = k := by
  obtain ⟨init', k', hk', hlast⟩ := h.cutAxis
  obtain ⟨rfl, hkk⟩ := append_inj' (hk.symm.trans hk') rfl
  obtain rfl := singleton_inj.mp hkk
  have hcount : info.loopACount ≠ 0 := by
    rw [h.loopA.1, hk, length_append]
    exact Nat.succ_ne_zero _
  unfold isLoopSpliteAAxis
  rw [hlast, Bool.and_eq_true, decide_eq_true_iff, beq_iff_eq]
  exact ⟨fun h => h.2.symm, fun h => ⟨hcount, h.symm⟩⟩

section

variable (h : info.HasAxes aAxes rAxes) (hfits : tiling.Fits aAxes rAxes)
  (haux : aux.loopAAxisStep = ceilDiv (tiling.shape (info.loopAAxis.getD (info.loopACount - 1)
    0)) tiling.ubFactorA)
include h hfits haux

theorem calculateIterA_eq (step : Nat) :
    calculateIterA info tiling aux info.loopACount step addr =
      setAxes (nestOf tiling.shape tiling.ubFactorA aAxes) step addr := by
  unfold calculateIterA
  rw [h.loopA.1] at haux ⊢
  exact calculateAxes_eq h.loopA.2 (fun _ => haux) hfits.cutA
    (fun k hk => hfits.shape_pos k (mem_append_left _ hk)) step

/-- By induction on the axes: each takes its step and leaves the rest of the number to those before
it. -/
theorem calculateIterRLoop_eq :
    init <+: info.loopRAxis → init.length < info.loopRCount → ∀ temp addr,
      calculateIterRLoop info tiling aux init.length temp addr =
        setAxes (init.reverse.map (loopOfR info tiling)) temp addr := by
  induction init using List.reverseRecOn with
  | nil => exact fun _ _ _ _ => rfl
  | append_singleton init k ih =>
    intro hpre hlt temp addr
    have hrest := ih ((prefix_append init [k]).trans hpre)
    rw [length_append, length_singleton] at hlt ⊢
    rw [calculateIterRLoop, getD_of_prefix hpre, if_neg (by omega), reverse_append,
      reverse_singleton, singleton_append, map_cons, setAxes_cons]
    obtain ⟨aInit, a, ha, hlast⟩ := h.cutAxis
    unfold loopOfR
    split
    next hsplit =>
      -- the cut axis takes its share of `temp`
      obtain rfl := (isLoopSpliteAAxis_iff h ha k).mp hsplit
      have hmem : k ∈ aAxes := ha ▸ mem_append_right _ mem_cons_self
      have hcut := hfits.cutA k hmem
      rw [hlast, ceilDiv_eq_count hcut k] at haux
      have hlt' : temp % aux.loopAAxisStep <
          (cutLoop k (tiling.shape k) tiling.ubFactorA).count := by
        rw [haux]
        exact Nat.mod_lt temp (cutLoop_count_pos k hcut.1
          (hfits.shape_pos k (mem_append_left _ hmem)))
      rw [hrest (by omega), ← haux, cutEntry_eq hcut hlt']
      rfl
    next => exact hrest (by omega) _ _

end

/-- The counter of `CalculateIterR` sets both nests. -/
theorem calculateIterR_eq (h : info.HasAxes aAxes rAxes) (hfits : tiling.Fits aAxes rAxes)
    (hne : rAxes ≠ []) (hcount : info.loopRCount = (aAxes ++ rAxes).length)
    (hpre : aAxes ++ rAxes <+: info.loopRAxis)
    (hauxA : aux.loopAAxisStep =
      ceilDiv (tiling.shape (info.loopAAxis.getD (info.loopACount - 1) 0)) tiling.ubFactorA)
    (hauxR : aux.loopRAxisStep =
      ceilDiv (tiling.shape (info.loopRAxis.getD (info.loopRCount - 1) 0)) tiling.ubFactorR)
    (step : Nat) :
    calculateIterR info tiling aux step addr =
      setAxes (nestOf tiling.shape tiling.ubFactorR rAxes ++
        nestOf tiling.shape tiling.ubFactorA aAxes) step addr := by
  obtain ⟨init, k, rfl⟩ := (eq_nil_or_concat' rAxes).resolve_left hne
  obtain ⟨aInit, a, rfl, hlast⟩ := h.cutAxis
  have hmem : k ∈ init ++ [k] := mem_append_right _ mem_cons_self
  have hcut := hfits.cutR k hmem
  rw [← append_assoc] at hcount hpre
  have hlen : info.loopRCount = (aInit ++ [a] ++ init).length + 1 := by
    rw [hcount, length_append, length_singleton]
  rw [hlen, Nat.add_sub_cancel, getD_of_prefix hpre, ceilDiv_eq_count hcut k] at hauxR
  have hlt : step % aux.loopRAxisStep < (cutLoop k (tiling.shape k) tiling.ubFactorR).count := by
    rw [hauxR]
    exact Nat.mod_lt step (cutLoop_count_pos k hcut.1 (hfits.shape_pos k (mem_append_right _ hmem)))
  have hunit : ∀ axis ≠ a, loopOfR info tiling axis = unitLoop axis (tiling.shape axis) :=
    fun axis hax => if_neg fun hs => hax ((isLoopSpliteAAxis_iff h rfl axis).mp hs)
  have hsplit : loopOfR info tiling a = cutLoop a (tiling.shape a) tiling.ubFactorA :=
    if_pos ((isLoopSpliteAAxis_iff h rfl a).mpr rfl)
  obtain ⟨hnodupA, -, hapart⟩ := nodup_append.mp h.nodup
  obtain ⟨-, -, hapartA⟩ := nodup_append.mp hnodupA
  have hinit : ∀ axis ∈ init.reverse, loopOfR info tiling axis =
      unitLoop axis (tiling.shape axis) := fun axis hax =>
    hunit axis (hapart a (mem_append_right _ mem_cons_self) axis
      (mem_append_left _ (mem_reverse.mp hax))).symm
  have haInit : ∀ axis ∈ aInit.reverse, loopOfR info tiling axis =
      unitLoop axis (tiling.shape axis) := fun axis hax =>
    hunit axis (hapartA axis (mem_reverse.mp hax) a mem_cons_self)
  unfold calculateIterR
  rw [hlen, calculateIterRLoop, getD_of_prefix hpre, if_pos (by rw [hlen, Nat.add_sub_cancel]),
    calculateIterRLoop_eq h hfits hauxA ((prefix_append _ [k]).trans hpre) (by omega),
    cutEntry_eq hcut hlt, nestOf_concat, nestOf_concat, reverse_append, reverse_append,
    reverse_singleton, map_append, map_append, map_cons, map_nil, hsplit,
    map_congr_left hinit, map_congr_left haInit, cons_append, nil_append, hauxR]
  rfl

/-! ## What a core reads -/

/-- Off the axes of the nest nothing has changed. -/
def SameOff (ls : List Loop) (addr addr' : IterAddr) : Prop :=
  ∀ k, k ∉ ls.map (·.axis) → addr k = addr' k

/-- With `addr` off the axes of the nest these boxes are read, and it is still there behind. -/
def Reads (ls : List Loop) (addr : IterAddr) (f : IterState → IterState)
    (boxes : List IterAddr) : Prop :=
  ∀ s, SameOff ls s.iterAddr addr → SameOff ls (f s).iterAddr addr ∧ (f s).read = s.read ++ boxes

theorem SameOff.setAxes_eq {addr' : IterAddr} (h : SameOff ls addr' addr) (step : Nat) :
    setAxes ls step addr' = setAxes ls step addr :=
  funext fun k => setAxes_congr (h k)

theorem Reads.foldl {f : IterState → Nat → IterState} {boxes : Nat → List IterAddr} {l : List Nat}
    (h : ∀ i ∈ l, Reads ls addr (f · i) (boxes i)) :
    Reads ls addr (l.foldl f) (l.flatMap boxes) := by
  induction l with
  | nil => exact fun s hs => ⟨hs, (append_nil _).symm⟩
  | cons i l ih =>
    intro s hs
    obtain ⟨hsame, hread⟩ := h i mem_cons_self s hs
    obtain ⟨hsame', hread'⟩ := ih (fun j hj => h j (mem_cons_of_mem i hj)) _ hsame
    refine ⟨hsame', hread'.trans ?_⟩
    rw [hread, append_assoc, flatMap_cons]

theorem Reads.nested {ms : List Loop} {i : Nat} {f : IterState → IterState} {boxes : List IterAddr}
    (h : Reads ls (setAxes ms i addr) f boxes) :
    Reads (ls ++ ms) addr (fun s => f ⟨setAxes ms i s.iterAddr, s.read⟩) boxes := by
  have hmem : ∀ k, k ∉ (ls ++ ms).map (·.axis) ↔ k ∉ ls.map (·.axis) ∧ k ∉ ms.map (·.axis) :=
    fun k => by rw [map_append, mem_append, not_or]
  intro s hs
  obtain ⟨hsame, hread⟩ := h ⟨setAxes ms i s.iterAddr, s.read⟩ fun k hk =>
    setAxes_congr fun hk' => hs k ((hmem k).mpr ⟨hk, hk'⟩)
  refine ⟨fun k hk => ?_, hread⟩
  obtain ⟨hls, hms⟩ := (hmem k).mp hk
  exact (hsame k hls).trans (setAxes_of_notMem hms)

theorem preReduce_reads {r step : Nat} (h : ∀ addr, (if 0 < info.loopRCount then
        calculateIterR info tiling aux ((r + aux.loopRStartIndex) % 2 ^ 64) addr
      else calculateInnerIterR info tiling aux info.loopInnerRCount r addr) =
        setAxes ls step addr) :
    Reads ls addr (preReduce info tiling aux · r) [setAxes ls step addr] := by
  intro s hs
  unfold preReduce
  dsimp only
  rw [h, hs.setAxes_eq]
  exact ⟨fun k hk => setAxes_of_notMem hk, rfl⟩

theorem iterateInnerA_reads {f : Nat → Nat} (h : ∀ r ∈ readOrder range,
      Reads ls addr (preReduce info tiling aux · r) [setAxes ls (f r) addr]) :
    Reads ls addr (iterateInnerA info tiling aux range 0)
      ((readOrder range).map fun r => setAxes ls (f r) addr) := by
  have hall := Reads.foldl h
  rw [← map_eq_flatMap] at hall
  exact hall

end Axes

section Read

variable {info : ReduceSchLoopInfo} {tiling : ReduceOpTilingData} {aAxes rAxes : List Nat}

/-- All loops of the key, those along the reduced axes being the inner ones. -/
def ReduceOpTilingData.nest (tiling : ReduceOpTilingData) (aAxes rAxes : List Nat) : List Loop :=
  nestOf tiling.shape tiling.ubFactorR rAxes ++ nestOf tiling.shape tiling.ubFactorA aAxes

/-- The box of a step. -/
def ReduceOpTilingData.tile (tiling : ReduceOpTilingData) (aAxes rAxes : List Nat) (step : Nat) :
    IterAddr :=
  setAxes (tiling.nest aAxes rAxes) step (initAddr tiling)

section

variable (h : info.HasAxes aAxes rAxes)
include h

theorem ReduceSchLoopInfo.HasAxes.innerR (hloopR : info.loopRCount = 0) :
    info.loopInnerRCount = rAxes.length ∧ rAxes <+: info.loopInnerRAxis := by
  rcases h.loopR with hinner | ⟨hne, hcount, -⟩
  · exact hinner.2
  · rw [hcount, length_append] at hloopR
    have hlen := length_pos_of_ne_nil hne
    omega

/-- The kept and the reduced axes are apart. -/
theorem ReduceSchLoopInfo.HasAxes.apart (tiling : ReduceOpTilingData) :
    ∀ k ∈ (nestOf tiling.shape tiling.ubFactorA aAxes).map (·.axis),
      k ∉ (nestOf tiling.shape tiling.ubFactorR rAxes).map (·.axis) := by
  intro k hkA hkR
  rw [nestOf_axes, mem_reverse] at hkA hkR
  exact (nodup_append.mp h.nodup).2.2 k hkA k hkR rfl

/-- A core of the first kind reads all reduced tiles of each of its kept tiles. -/
theorem process_normal (hfits : tiling.Fits aAxes rAxes) (hloopR : info.loopRCount = 0)
    (hset : setIterRRange tiling.factorRCntPerCore = some range) (blockId : Nat) :
    process info tiling blockId = some
      ((List.range' (setLoopRange info tiling blockId).loopAStartIndex
        ((setLoopRange info tiling blockId).loopAEndIndex -
          (setLoopRange info tiling blockId).loopAStartIndex)).flatMap fun i =>
      (readOrder range).map fun r =>
        setAxes (nestOf tiling.shape tiling.ubFactorR rAxes) r
          (setAxes (nestOf tiling.shape tiling.ubFactorA aAxes) i (initAddr tiling))) := by
  obtain ⟨hcount, hpre⟩ := h.innerR hloopR
  have hauxA : (setLoopRange info tiling blockId).loopAAxisStep =
      ceilDiv (tiling.shape (info.loopAAxis.getD (info.loopACount - 1) 0)) tiling.ubFactorA := by
    unfold setLoopRange
    rw [if_pos hloopR]
  have hauxR : rAxes ≠ [] → (setLoopRange info tiling blockId).loopRAxisStep =
      ceilDiv (tiling.shape (info.loopInnerRAxis.getD (info.loopInnerRCount - 1) 0))
        tiling.ubFactorR := fun hne => by
    unfold setLoopRange
    rw [if_pos hloopR]
    exact if_pos (hcount ▸ length_pos_of_ne_nil hne)
  unfold process processLoops iterRCount
  dsimp only
  generalize setLoopRange info tiling blockId = aux at *
  rw [if_pos hloopR, hset, Option.map_some, if_pos hloopR, h.loopInnerA]
  simp only [calculateIterA_eq h hfits hauxA]
  -- a step of the outer loop reads the boxes of its A index
  have hstep : ∀ i ∈ List.range' aux.loopAStartIndex (aux.loopAEndIndex - aux.loopAStartIndex),
      Reads (tiling.nest aAxes rAxes) (initAddr tiling) (fun s => iterateInnerA info tiling aux
          range 0 ⟨setAxes (nestOf tiling.shape tiling.ubFactorA aAxes) i s.iterAddr, s.read⟩)
        ((readOrder range).map fun r => setAxes (nestOf tiling.shape tiling.ubFactorR rAxes) r
          (setAxes (nestOf tiling.shape tiling.ubFactorA aAxes) i (initAddr tiling))) := by
    intro i _
    refine Reads.nested (iterateInnerA_reads fun r _ => preReduce_reads fun addr => ?_)
    rw [if_neg (by omega)]
    exact calculateInnerIterR_eq hcount hpre hfits hauxR r
  obtain ⟨-, hread⟩ := Reads.foldl hstep ⟨initAddr tiling, []⟩ fun _ _ => rfl
  rw [hread]
  rfl

/-- A core of a group reads its share of the reduced tiles of one kept tile. -/
theorem process_group (hfits : tiling.Fits aAxes rAxes) (hloopR : info.loopRCount ≠ 0)
    {blockId : Nat}
    (hset : setIterRRange (iterRCount info tiling (setLoopRange info tiling blockId)) =
      some range) :
    process info tiling blockId = some ((readOrder range).map fun r =>
      tiling.tile aAxes rAxes
        ((r + (setLoopRange info tiling blockId).loopRStartIndex) % 2 ^ 64)) := by
  obtain ⟨hne, hcount, hpre⟩ := h.loopR.resolve_left fun hzero => hloopR hzero.1
  have hpos : 0 < info.loopACount := h.loopA.1 ▸ length_pos_of_ne_nil h.aAxes_ne
  have hauxA : (setLoopRange info tiling blockId).loopAAxisStep =
      ceilDiv (tiling.shape (info.loopAAxis.getD (info.loopACount - 1) 0)) tiling.ubFactorA := by
    unfold setLoopRange
    rw [if_neg hloopR]
    exact if_pos hpos
  have hauxR : (setLoopRange info tiling blockId).loopRAxisStep =
      ceilDiv (tiling.shape (info.loopRAxis.getD (info.loopRCount - 1) 0)) tiling.ubFactorR := by
    unfold setLoopRange
    rw [if_neg hloopR]
  unfold process processLoops
  dsimp only
  rw [hset, Option.map_some, if_neg hloopR, h.loopInnerA]
  generalize setLoopRange info tiling blockId = aux at *
  split
  next heq =>
    -- an empty range: nothing is read
    unfold iterRCount at hset
    rw [if_neg hloopR, ← heq, Nat.add_sub_cancel_left] at hset
    obtain rfl := Option.some.inj hset
    rfl
  next =>
    have hstep : ∀ r ∈ readOrder range,
        Reads (tiling.nest aAxes rAxes) (initAddr tiling) (preReduce info tiling aux · r)
          [tiling.tile aAxes rAxes ((r + aux.loopRStartIndex) % 2 ^ 64)] := fun r _ =>
      preReduce_reads fun addr => by
        rw [if_pos (Nat.pos_of_ne_zero hloopR)]
        exact calculateIterR_eq h hfits hne hcount hpre hauxA hauxR _
    obtain ⟨-, hread⟩ := iterateInnerA_reads hstep ⟨initAddr tiling, []⟩ fun _ _ => rfl
    rw [hread]
    rfl

end

end Read

end OpBase.Reduce
