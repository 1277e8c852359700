import OpBase.Dag.BufferHeld

/-!
# How many buffers a list of nodes gets

`op_common/atvoss/util/aux1.h`, `node.h` and `dag.h`: one scan over the list, before any
buffer is handed out, adds up what is alive at each node. The counts of the buffers are taken
from its largest sum, from the placeholders and from the nodes that copy out, by a formula
for each memory level.

All numbers are `uint32_t`. They count nodes, so only a difference can leave that range.
-/

namespace OpBase.Dag

/-- The difference of two `uint32_t`. -/
def sub32 (a b : Nat) : Nat := if b ≤ a then a - b else a + 2 ^ 32 - b

/-! ## The scan -/

def MAX_DTYPE_BYTES : Nat := 32

structure DagMaxAliveInfo where
  aliveNode : Nat := 0
  tempCalcNode : Nat := 0
  maxDtypeBytes : Nat := 0
  minDtypeBytes : Nat := MAX_DTYPE_BYTES
  aliveNodeNoCopyBrcTmpBuf : Nat := 0
  tempCalcNodeNoCopyBrcTmpBuf : Nat := 0

/-- `TryDelInOutAux` -/
def tryDelInOutAux (later rsvList inputs : List Bind) : List Bind :=
  inputs.filter fun t => !(decide (t ∈ rsvList) || checkIsInput later t)

/-- `FilterTempCalcNode` -/
def filterTempCalcNode (outList toFilterList : List Bind) (skipCopyInBrc : Bool) : List Bind :=
  toFilterList.filter fun t =>
    let isCopyIn := t.fn.isCopyInOp
    let isCopyInBrc := t.fn.isCopyInBrcOp
    let isConnectToCopyOut := checkIsInput outList t
    !(isConnectToCopyOut || (if skipCopyInBrc then isCopyIn && !isCopyInBrc else isCopyIn))

/-- The nodes that are alive while `func` runs, if `acc` were before it. -/
def aliveNodes (func : Bind) (acc : List Bind) : List Bind :=
  let inOutNodes :=
    if func.fn.isCopyOutOp || func.isScalarOp then func.inNonScalarFuns
    else func.inNonScalarFuns ++ [func]
  unique (union acc inOutNodes)

/-- What `MaxAliveNode` keeps of one node. -/
def maxAliveStep (outList : List Bind) (func : Bind) (alive : List Bind) (info : DagMaxAliveInfo) :
    DagMaxAliveInfo :=
  let copyInBrcNodes := alive.filter (·.fn.isCopyInBrcOp)
  let tempCalcNodesWithCopyBrc := filterTempCalcNode outList alive true
  let tempCalcNodes := filterTempCalcNode outList tempCalcNodesWithCopyBrc false
  let funcTmpSize := if func.fn.isCopyInBrcOp then 0 else func.fn.tempSize
  let aliveNodeSize :=
    alive.length - copyInBrcNodes.length + 2 * copyInBrcNodes.length + funcTmpSize
  let tempCalcNodeWithCopyBrcSize := tempCalcNodesWithCopyBrc.length + funcTmpSize
  let curDtypeBytes := func.fn.outDataType.size
  { aliveNode := max aliveNodeSize info.aliveNode
    tempCalcNode := max tempCalcNodeWithCopyBrcSize info.tempCalcNode
    aliveNodeNoCopyBrcTmpBuf :=
      if func.fn.isCopyInBrcOp then max alive.length info.aliveNodeNoCopyBrcTmpBuf
      else max (alive.length + func.fn.tempSize) info.aliveNodeNoCopyBrcTmpBuf
    tempCalcNodeNoCopyBrcTmpBuf :=
      if func.fn.isCopyInBrcOp then max tempCalcNodes.length info.tempCalcNodeNoCopyBrcTmpBuf
      else max (tempCalcNodes.length + func.fn.tempSize) info.tempCalcNodeNoCopyBrcTmpBuf
    maxDtypeBytes := max curDtypeBytes info.maxDtypeBytes
    minDtypeBytes := if curDtypeBytes < info.minDtypeBytes then curDtypeBytes
      else info.minDtypeBytes }

/-- `MaxAliveNode`, from the nodes that are left on -/
def maxAliveNode (outList rsvList : List Bind) :
    List Bind → List Bind → DagMaxAliveInfo → DagMaxAliveInfo
  | [], _, info => info
  | func :: later, acc, info =>
    let delVar := tryDelInOutAux later rsvList func.inNonScalarFuns
    let alive := aliveNodes func acc
    maxAliveNode outList rsvList later (remove alive delVar)
      (maxAliveStep outList func alive info)

/-- `GetCopyInCountBeforeFirstCalcNode` -/
def getCopyInCountBeforeFirstCalcNode : List Bind → List Bind → Nat
  | [], acc => acc.length
  | func :: later, acc =>
    if func.isScalarOp then getCopyInCountBeforeFirstCalcNode later acc
    else if func.fn.isCopyInOp then getCopyInCountBeforeFirstCalcNode later (acc ++ [func])
    else if func.fn.isCopyOut then getCopyInCountBeforeFirstCalcNode later acc
    else acc.length

/-! ## The counts -/

/-- `InHolderAux` -/
def inHolderAux : List Bind → List Holder
  | [] => []
  | [t] => t.inHolders
  | t :: ts => union t.inHolders (inHolderAux ts)

structure DagNodeInfo where
  funList : List Bind
  outList : List Bind
  supportBrc : Bool := true

namespace DagNodeInfo

def inHolders (n : DagNodeInfo) : List Holder := unique (inHolderAux n.funList)

def copyBrcNodes (n : DagNodeInfo) : List Bind :=
  if n.supportBrc then n.funList.filter (·.fn.isCopyInBrcOp) else []

def vecBrcNodes (n : DagNodeInfo) : List Bind :=
  if n.supportBrc then n.funList.filter (·.fn.isVecBrcOp) else []

def inScalarHolders (n : DagNodeInfo) : List Holder := unique (n.inHolders.filter (·.isInScalar))

def scalarOpNodes (n : DagNodeInfo) : List Bind := n.funList.filter (·.isScalarOp)

def inputSizeWoScalar (n : DagNodeInfo) : Nat :=
  sub32 n.inHolders.length n.inScalarHolders.length

def maxAliveNodeInfo (n : DagNodeInfo) : DagMaxAliveInfo :=
  maxAliveNode n.outList [] n.funList [] {}

/-- `GetAliveNodeInfoForCacheBrc` -/
def maxAliveNodeInfoForCacheBrc (n : DagNodeInfo) : DagMaxAliveInfo :=
  if n.copyBrcNodes.length = 0 ∧ n.vecBrcNodes.length = 0 then n.maxAliveNodeInfo
  else maxAliveNode n.outList (union n.copyBrcNodes n.vecBrcNodes) n.funList [] {}

def gmCountBeforeFirstCalcNode (n : DagNodeInfo) : Nat :=
  getCopyInCountBeforeFirstCalcNode n.funList []

def getMaxAliveNodeSize (n : DagNodeInfo) (useNddma cacheBrc : Bool) : Nat :=
  if useNddma && cacheBrc then n.maxAliveNodeInfoForCacheBrc.aliveNodeNoCopyBrcTmpBuf
  else if useNddma && !cacheBrc then n.maxAliveNodeInfo.aliveNodeNoCopyBrcTmpBuf
  else if !useNddma && cacheBrc then n.maxAliveNodeInfoForCacheBrc.aliveNode
  else n.maxAliveNodeInfo.aliveNode

def getTempCalcNodeSize (n : DagNodeInfo) (useNddma cacheBrc : Bool) : Nat :=
  if useNddma && cacheBrc then n.maxAliveNodeInfoForCacheBrc.tempCalcNodeNoCopyBrcTmpBuf
  else if useNddma && !cacheBrc then n.maxAliveNodeInfo.tempCalcNodeNoCopyBrcTmpBuf
  else if !useNddma && cacheBrc then n.maxAliveNodeInfoForCacheBrc.tempCalcNode
  else n.maxAliveNodeInfo.tempCalcNode

def getFirstCopyOutNodeGMCount (n : DagNodeInfo) (useNddma cacheBrc : Bool) : Nat :=
  if n.gmCountBeforeFirstCalcNode < n.getMaxAliveNodeSize useNddma cacheBrc then 1 else 0

/-- All that is copied in is copied out, so no MTE3 is needed; else one for each output. -/
def getLvl12Mte3Count (n : DagNodeInfo) : Nat :=
  if n.funList.length = n.inputSizeWoScalar + n.scalarOpNodes.length + n.outList.length then 0
  else n.outList.length

def getLvl1TmpSize (n : DagNodeInfo) (useNddma cacheBrc : Bool) : Nat :=
  if 0 < n.getTempCalcNodeSize useNddma cacheBrc then
    if n.inputSizeWoScalar < n.getMaxAliveNodeSize useNddma cacheBrc then
      sub32 (n.getMaxAliveNodeSize useNddma cacheBrc) n.inputSizeWoScalar
    else 0
  else 0

def getLvl0TmpSize (n : DagNodeInfo) (useNddma cacheBrc : Bool) : Nat :=
  sub32 (n.getMaxAliveNodeSize useNddma cacheBrc)
    (n.gmCountBeforeFirstCalcNode + n.getFirstCopyOutNodeGMCount useNddma cacheBrc)

def getBufferNumLevel1 (n : DagNodeInfo) (useNddma cacheBrc : Bool) : Nat :=
  n.getLvl1TmpSize useNddma cacheBrc + n.inputSizeWoScalar * 2 + n.getLvl12Mte3Count * 2

def getBufferNumLevel2 (n : DagNodeInfo) (useNddma cacheBrc : Bool) : Nat :=
  n.getTempCalcNodeSize useNddma cacheBrc + n.inputSizeWoScalar * 2 + n.getLvl12Mte3Count * 2

end DagNodeInfo

def MAX_BUFFER_NUMBER : Nat := 10

/-- `ChooseBufferLevelImpl`, for the level of the `MemOptCfg` -/
def chooseBufferLevelImpl (memoryLevel : MemLevel) (n : DagNodeInfo) (useNddma cacheBrc : Bool) :
    MemLevel :=
  if memoryLevel = .level0 then
    if n.getBufferNumLevel2 useNddma cacheBrc ≤ MAX_BUFFER_NUMBER then .level2
    else if n.getBufferNumLevel1 useNddma cacheBrc ≤ MAX_BUFFER_NUMBER then .level1
    else .level0
  else memoryLevel

namespace DagNodeInfo

/-- `GetMte2NumImpl`, `GetMte3NumImpl` and `GetTempBufNumImpl`, at the level chosen -/
def bufferCounts (n : DagNodeInfo) (bufferLvl : MemLevel) (useNddma cacheBrc : Bool) :
    BufferCounts where
  mte2 := if bufferLvl = .level0 then n.gmCountBeforeFirstCalcNode else n.inputSizeWoScalar
  mte3 :=
    if bufferLvl = .level0 then n.getFirstCopyOutNodeGMCount useNddma cacheBrc
    else n.getLvl12Mte3Count
  temp :=
    if bufferLvl = .level0 then n.getLvl0TmpSize useNddma cacheBrc
    else if bufferLvl = .level1 then n.getLvl1TmpSize useNddma cacheBrc
    else n.getTempCalcNodeSize useNddma cacheBrc

/-- `GetBufferIdsImpl` -/
def getBufferIdsImpl (memoryLevel : MemLevel) (n : DagNodeInfo) (useNddma cacheBrc : Bool) :
    Except OrderFault (List Int × List Int) :=
  let bufferLvl := chooseBufferLevelImpl memoryLevel n useNddma cacheBrc
  bufferIdsAt bufferLvl (n.bufferCounts bufferLvl useNddma cacheBrc) useNddma cacheBrc n.funList

end DagNodeInfo

end OpBase.Dag
