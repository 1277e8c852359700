import OpBase.Aicpu.ExtMsg

/-!
# The argument block of an AICPU kernel

`nnopbase/aicpu/task_handler/aicpu_args_handler.cpp` builds the block: a head, a slot
for the address of every tensor, the length of the node definition and its bytes. The
host fills in the extend info and the addresses before the launch; the device takes
the block apart in `ParseIoAddr`.

`Agrees` puts the two directions of the host and the device together. All lengths are
told in 32 bits, and nothing on the way to the device minds that the extend info is
longer.

> `encoder_decoder_agree`: the device reads exactly what the host wrote, for every
> tensors, node definition and kernel id, if the extend info is shorter than 2³² bytes.
-/

namespace OpBase.Aicpu

open List OpBase.Lib

/-! ## The host -/

section Generation

variable (A : Adapter)

/-- A slot for each of `n` tensors, no address in it yet. -/
def appendIoAddrs : Nat → Str → Str
  | 0, taskInfo => taskInfo
  | n + 1, taskInfo => appendIoAddrs n (taskInfo.append (Str.fill 8 0))

/-- `SerializeNodeDefToBuffer`: protobuf writes no message of more than `INT_MAX` bytes. -/
def serializeNodeDefToBuffer (nodeDef : List Byte) : Option (List Byte) :=
  if 0x7fffffff < nodeDef.length then none else some nodeDef

/-- `{paramLenth, ioAddrsNum, 0, extInfoAddrs}` -/
def paramHeadStr (paramLenth ioAddrsNum : Nat) : Str where
  size := A.paramHead.size
  byte :=
    let m := A.paramHead.set (fun _ => 0) 0 .length paramLenth
    let m := A.paramHead.set m 0 .ioAddrNum ioAddrsNum
    let m := A.paramHead.set m 0 .extInfoLength 0
    A.paramHead.set m 0 .extInfoAddr 0

/-- `GenCCArgs`. `nodeDef` is what the node definition serializes to. -/
def genCCArgs (inputs outputs : List AclTensor) (nodeDef : List Byte) (taskInfo : Str) :
    Option Str := do
  let paramLenth := A.paramHead.size % 2 ^ 32
  let ioAddrsNum := (inputs.length + outputs.length) % 2 ^ 32
  let ioAddrsSize := ioAddrsNum * 8 % 2 ^ 32
  let paramLenth := (paramLenth + ioAddrsSize) % 2 ^ 32
  let paramLenth := (paramLenth + 4) % 2 ^ 32
  let buffer ← serializeNodeDefToBuffer nodeDef
  let nodeDefLen := buffer.length % 2 ^ 32
  if 2 ^ 32 ≤ paramLenth + nodeDefLen then none
  else
    let taskInfo := taskInfo.append (paramHeadStr A (paramLenth + nodeDefLen) ioAddrsNum)
    let taskInfo := appendIoAddrs inputs.length taskInfo
    let taskInfo := appendIoAddrs outputs.length taskInfo
    let taskInfo := taskInfo.append ((Str.fill 4 0).store 0 4 nodeDefLen)
    some (taskInfo.append (Str.ofList (buffer.take nodeDefLen)))

/-- `SetHostArgs`, on the copy of the block in the host buffer. -/
def setHostArgs (ioNum : Nat) (argData : Str) (extInfoSize : Nat) : Option Str :=
  if A.paramHead.get argData.byte 0 .ioAddrNum ≠ ioNum then none
  else if A.paramHead.get argData.byte 0 .length < A.paramHead.size + ioNum * 8 then none
  else some { argData with
    byte := A.paramHead.set argData.byte 0 .extInfoLength extInfoSize }

/-- `UpdateDeviceExtInfoAddr`; for extend info in the host buffer the runtime does the
same. -/
def updateDeviceExtInfoAddr (s : Str) (deviceExtInfoAddr : UInt64) : Str :=
  { s with byte := A.paramHead.set s.byte 0 .extInfoAddr deviceExtInfoAddr.toNat }

/-- `UpdateIoAddr`: the address of every tensor in its slot. -/
def updateIoAddr (s : Str) (addrs : List UInt64) : Str :=
  { s with byte := s.byte.storeWords A.paramHead.size addrs }

end Generation

/-! ## The device -/

section Parse

variable (A : Adapter) (m : Mem)

/-- The addresses, where the rest of the block starts and how long it is. -/
def takeIoAddrs (paramHead : Nat) : Except KernelStatus (List UInt64 × Nat × Nat) :=
  let extendParamBase := paramHead + A.paramHead.size
  let extendParamLen :=
    (2 ^ 32 + A.paramHead.get m paramHead .length - A.paramHead.size % 2 ^ 32) % 2 ^ 32
  let ioAddrNum := A.paramHead.get m paramHead .ioAddrNum
  if 0 < ioAddrNum then
    let addrLen := ioAddrNum * 8 % 2 ^ 32
    if extendParamLen < addrLen then .error .paramInvalid
    else .ok ((List.range ioAddrNum).map (m.word extendParamBase), extendParamBase + addrLen,
      extendParamLen - addrLen)
  else .ok ([], extendParamBase, extendParamLen)

/-- `ParseIoAddr`: the addresses, the node definition and its length. -/
def parseIoAddr (paramHead : Nat) : Except KernelStatus (List UInt64 × Nat × Nat) := do
  let (ioAddrs, extendParamBase, extendParamLen) ← takeIoAddrs A m paramHead
  if extendParamLen < 4 then .error .paramInvalid
  else .ok (ioAddrs, extendParamBase + 4, m.load extendParamBase 4)

end Parse

/-! ## The block -/

section Block

variable {A : Adapter} {m : Mem}

@[simp] theorem size_appendIoAddrs : ∀ (n : Nat) (s : Str),
    (appendIoAddrs n s).size = s.size + 8 * n
  | 0, _ => rfl
  | n + 1, s => by
    rw [appendIoAddrs, size_appendIoAddrs n, Str.size_append]
    show s.size + 8 + 8 * n = s.size + 8 * (n + 1)
    omega

theorem holds_of_appendIoAddrs {a : Nat} : ∀ {n : Nat} {s : Str},
    m.Holds a (appendIoAddrs n s) → m.Holds a s
  | 0, _, h => h
  | n + 1, _, h => (holds_of_appendIoAddrs (n := n) h).left

theorem block_parts (head len : Str) (a b : Nat) (nodeDef : List Byte) :
    let s := ((appendIoAddrs b (appendIoAddrs a (Str.empty.append head))).append len).append
      (Str.ofList nodeDef)
    s.size = head.size + 8 * (a + b) + len.size + nodeDef.length ∧ s.byte.Holds 0 head ∧
    s.byte.Holds (head.size + 8 * (a + b)) len ∧
    s.byte.Holds (head.size + 8 * (a + b) + len.size) (Str.ofList nodeDef) := by
  intro s
  have hself : s.byte.Holds 0 s := fun i _ => by rw [Nat.zero_add]
  have hslots : (appendIoAddrs b (appendIoAddrs a (Str.empty.append head))).size
      = head.size + 8 * (a + b) := by
    rw [size_appendIoAddrs, size_appendIoAddrs, Str.size_append]
    show 0 + head.size + 8 * a + 8 * b = _
    omega
  have hhead := (holds_of_appendIoAddrs (holds_of_appendIoAddrs hself.left.left)).right
  have hlen := hself.left.right
  have hnodeDef := hself.right
  rw [Str.size_append] at hnodeDef
  rw [hslots, Nat.zero_add] at hlen hnodeDef
  refine ⟨?_, hhead, hlen, hnodeDef⟩
  show _ + len.size + nodeDef.length = _
  rw [hslots]

theorem paramHeadStr_length {paramLenth : Nat} (n : Nat) (h : paramLenth < 256 ^ 4) :
    A.paramHead.get (paramHeadStr A paramLenth n).byte 0 .length = paramLenth := by
  unfold paramHeadStr
  dsimp only
  rw [A.paramHead.get_set_of_ne _ _ _ ParamField.noConfusion,
    A.paramHead.get_set_of_ne _ _ _ ParamField.noConfusion,
    A.paramHead.get_set_of_ne _ _ _ ParamField.noConfusion, A.paramHead.get_set h]

theorem paramHeadStr_ioAddrNum {n : Nat} (paramLenth : Nat) (h : n < 256 ^ 4) :
    A.paramHead.get (paramHeadStr A paramLenth n).byte 0 .ioAddrNum = n := by
  unfold paramHeadStr
  dsimp only
  rw [A.paramHead.get_set_of_ne _ _ _ ParamField.noConfusion,
    A.paramHead.get_set_of_ne _ _ _ ParamField.noConfusion, A.paramHead.get_set h]

/-- What the block has that `GenCCArgs` built. -/
structure IsBlock (A : Adapter) (s : Str) (n : Nat) (nodeDef : List Byte) : Prop where
  size : s.size = A.paramHead.size + 8 * n + 4 + nodeDef.length
  length : ∃ paramLenth,
    paramLenth = ((A.paramHead.size % 2 ^ 32 + n % 2 ^ 32 * 8 % 2 ^ 32) % 2 ^ 32 + 4) % 2 ^ 32
      + nodeDef.length ∧
    paramLenth < 2 ^ 32 ∧ A.paramHead.get s.byte 0 .length = paramLenth
  ioAddrNum : A.paramHead.get s.byte 0 .ioAddrNum = n % 2 ^ 32
  nodeDefSmall : nodeDef.length ≤ 0x7fffffff
  nodeDefLen : s.byte.load (A.paramHead.size + 8 * n) 4 = nodeDef.length
  nodeDef : s.byte.Holds (A.paramHead.size + 8 * n + 4) (Str.ofList nodeDef)

variable {nodeDef : List Byte} {deviceExtInfoAddr : UInt64} {addrs : List UInt64}

/-- The block that the host builds: head, addresses, length and node definition. -/
theorem genCCArgs_isBlock {inputs outputs : List AclTensor} {s : Str}
    (h : genCCArgs A inputs outputs nodeDef Str.empty = some s) :
    IsBlock A s (inputs.length + outputs.length) nodeDef := by
  obtain ⟨buffer, hbuffer, h⟩ := Option.bind_eq_some_iff.mp h
  unfold serializeNodeDefToBuffer at hbuffer
  split at hbuffer
  · simp at hbuffer
  next hsmall =>
    obtain rfl := Option.some.inj hbuffer
    -- A node definition of at most `INT_MAX` bytes has its length uncut in 32 bits.
    have hmod : nodeDef.length % 2 ^ 32 = nodeDef.length := Nat.mod_eq_of_lt (by omega)
    obtain ⟨paramLenth, hparamLenth⟩ : ∃ paramLenth, paramLenth =
        ((A.paramHead.size % 2 ^ 32 + (inputs.length + outputs.length) % 2 ^ 32 * 8 % 2 ^ 32)
          % 2 ^ 32 + 4) % 2 ^ 32 + nodeDef.length := ⟨_, rfl⟩
    dsimp only at h
    rw [hmod, take_length, ← hparamLenth] at h
    split at h
    · simp at h
    next hfits =>
      rw [← Option.some.inj h]
      obtain ⟨hsize, hhead, hlen, hnodeDef⟩ := block_parts
        (paramHeadStr A paramLenth ((inputs.length + outputs.length) % 2 ^ 32))
        ((Str.fill 4 0).store 0 4 nodeDef.length) inputs.length outputs.length nodeDef
      have hlength : paramLenth < 256 ^ 4 := by omega
      have hnum : (inputs.length + outputs.length) % 2 ^ 32 < 256 ^ 4 := by omega
      have hdef : nodeDef.length < 256 ^ 4 := by omega
      refine ⟨hsize, ⟨paramLenth, hparamLenth, by omega, ?_⟩, ?_, by omega, ?_, hnodeDef⟩
      · exact (A.paramHead.get_holds (k := 0) hhead (Nat.le_of_eq (Nat.zero_add _)) .length).trans
          (paramHeadStr_length _ hlength)
      · exact (A.paramHead.get_holds (k := 0) hhead (Nat.le_of_eq (Nat.zero_add _))
          .ioAddrNum).trans (paramHeadStr_ioAddrNum _ hnum)
      · have hload : ((Str.fill 4 0).store 0 4 nodeDef.length).byte.load 0 4 = nodeDef.length :=
          Mem.load_store_of_lt hdef
        exact (hlen.load (k := 0) (Nat.le_refl 4)).trans hload

/-- The block as it is launched. -/
def launchBlock (A : Adapter) (b : Str) (deviceExtInfoAddr : UInt64) (addrs : List UInt64) : Str :=
  updateIoAddr A (updateDeviceExtInfoAddr A b deviceExtInfoAddr) addrs

theorem launchBlock_get {b : Str} {f : ParamField} (hf : f ≠ .extInfoAddr) :
    A.paramHead.get (launchBlock A b deviceExtInfoAddr addrs).byte 0 f
      = A.paramHead.get b.byte 0 f := by
  have hslots : A.paramHead.get (launchBlock A b deviceExtInfoAddr addrs).byte 0 f
      = A.paramHead.get (A.paramHead.set b.byte 0 .extInfoAddr deviceExtInfoAddr.toNat) 0 f := by
    have := A.paramHead.inside f
    exact A.paramHead.get_frame fun x _ hx => Mem.storeWords_of_apart (by omega)
  rw [hslots, A.paramHead.get_set_of_ne _ _ _ hf]

theorem launchBlock_extInfoAddr (b : Str) (deviceExtInfoAddr : UInt64) (addrs : List UInt64) :
    A.paramHead.get (launchBlock A b deviceExtInfoAddr addrs).byte 0 .extInfoAddr
      = deviceExtInfoAddr.toNat := by
  rw [← A.paramHead.get_set (m := b.byte) (a := 0) (f := .extInfoAddr) deviceExtInfoAddr.toNat_lt]
  have := A.paramHead.inside .extInfoAddr
  exact A.paramHead.get_frame fun x _ hx => Mem.storeWords_of_apart (by omega)

theorem launchBlock_tail {b : Str} {x : Nat} (hx : A.paramHead.size + 8 * addrs.length ≤ x) :
    (launchBlock A b deviceExtInfoAddr addrs).byte x = b.byte x := by
  show (A.paramHead.set b.byte 0 .extInfoAddr _).storeWords A.paramHead.size addrs x = _
  rw [Mem.storeWords_of_apart (by omega), A.paramHead.set_of_apart _ _ _ (by omega)]

/-- `SetHostArgs` lets no block pass whose lengths wrapped around. -/
theorem setHostArgs_spec {s b : Str} {n extInfoSize : Nat}
    (hs : IsBlock A s n nodeDef) (hn : n < 2 ^ 32) (h : setHostArgs A n s extInfoSize = some b) :
    b = { s with byte := A.paramHead.set s.byte 0 .extInfoLength extInfoSize } ∧
    s.size < 2 ^ 32 ∧ A.paramHead.get s.byte 0 .length = s.size := by
  obtain ⟨paramLenth, hparamLenth, hlt, hlength⟩ := hs.length
  have hdef := hs.nodeDefSmall
  unfold setHostArgs at h
  split at h
  · simp at h
  · split at h
    · simp at h
    next hmini =>
      rw [hlength] at hmini
      rw [Nat.mod_eq_of_lt hn] at hparamLenth
      refine ⟨(Option.some.inj h).symm, ?_, ?_⟩
      · rw [hs.size]
        omega
      · rw [hs.size, hlength]
        omega

theorem takeIoAddrs_block {paramHead n nodeDefLen : Nat} (haddrs : addrs.length = n)
    (hfits : A.paramHead.size + 8 * n + 4 + nodeDefLen < 2 ^ 32)
    (hlength : A.paramHead.get m paramHead .length = A.paramHead.size + 8 * n + 4 + nodeDefLen)
    (hnum : A.paramHead.get m paramHead .ioAddrNum = n)
    (hslots : ∀ i (hi : i < addrs.length), m.word (paramHead + A.paramHead.size) i = addrs[i]) :
    takeIoAddrs A m paramHead
      = .ok (addrs, paramHead + A.paramHead.size + 8 * n, 4 + nodeDefLen) := by
  have hlen : (2 ^ 32 + (A.paramHead.size + 8 * n + 4 + nodeDefLen) - A.paramHead.size % 2 ^ 32)
      % 2 ^ 32 = 8 * n + 4 + nodeDefLen := by omega
  unfold takeIoAddrs
  rw [hlength, hlen, hnum]
  by_cases hn : 0 < n
  · have hwrap : n * 8 % 2 ^ 32 = 8 * n := by omega
    rw [if_pos hn]
    dsimp only
    rw [hwrap, if_neg (by omega)]
    have hread : (List.range n).map (m.word (paramHead + A.paramHead.size)) = addrs := by
      apply ext_getElem (by rw [length_map, length_range, haddrs])
      intro i hi hi'
      rw [getElem_map, getElem_range, hslots i hi']
    rw [hread, show 8 * n + 4 + nodeDefLen - 8 * n = 4 + nodeDefLen by omega]
  · obtain rfl : n = 0 := by omega
    rw [if_neg hn, length_eq_zero_iff.mp haddrs]
    simp

theorem genCCArgs_isSome {inputs outputs : List AclTensor} (t : Str)
    (hdef : nodeDef.length ≤ 0x7fffffff)
    (hfits : A.paramHead.size + 8 * (inputs.length + outputs.length) + 4 + nodeDef.length <
      2 ^ 32) :
    ∃ s, genCCArgs A inputs outputs nodeDef t = some s := by
  unfold genCCArgs serializeNodeDefToBuffer
  rw [if_neg (by omega)]
  dsimp only [Option.bind_some, bind]
  rw [if_neg (by omega)]
  exact ⟨_, rfl⟩

theorem setHostArgs_isSome {s : Str} {n : Nat} (hs : IsBlock A s n nodeDef)
    (hn : n < 2 ^ 32) (hfits : s.size < 2 ^ 32) (extInfoSize : Nat) :
    ∃ b, setHostArgs A n s extInfoSize = some b := by
  obtain ⟨paramLenth, hparamLenth, hlt, hlength⟩ := hs.length
  have hsize := hs.size
  have hnum := hs.ioAddrNum
  rw [Nat.mod_eq_of_lt hn] at hnum hparamLenth
  unfold setHostArgs
  rw [if_neg (by omega), if_neg (by omega)]
  exact ⟨_, rfl⟩

/-- The device takes the launched block apart into what it was built of. -/
theorem parseIoAddr_block {s b : Str} {n extInfoSize : Nat} {paramHead : Nat}
    (hs : IsBlock A s n nodeDef) (hn : n < 2 ^ 32) (hset : setHostArgs A n s extInfoSize = some b)
    (haddrs : addrs.length = n) (hm : m.Holds paramHead (launchBlock A b deviceExtInfoAddr addrs)) :
    parseIoAddr A m paramHead = .ok (addrs, paramHead + A.paramHead.size + 8 * n + 4,
      nodeDef.length) ∧
    m.Holds (paramHead + A.paramHead.size + 8 * n + 4) (Str.ofList nodeDef) ∧
    A.paramHead.get m paramHead .extInfoAddr = deviceExtInfoAddr.toNat ∧
    A.paramHead.get m paramHead .extInfoLength = extInfoSize % 2 ^ 32 := by
  obtain ⟨rfl, hfits, hlength⟩ := setHostArgs_spec hs hn hset
  rw [hs.size] at hfits hlength
  have hsize : (launchBlock A { s with
      byte := A.paramHead.set s.byte 0 .extInfoLength extInfoSize } deviceExtInfoAddr addrs).size
      = A.paramHead.size + 8 * n + 4 + nodeDef.length := hs.size
  -- Behind the addresses the block is as `GenCCArgs` left it.
  have htail : ∀ x, A.paramHead.size + 8 * n ≤ x → x < A.paramHead.size + 8 * n + 4
      + nodeDef.length → m (paramHead + x) = s.byte x := by
    intro x hx hx'
    rw [hm x (by omega), launchBlock_tail (by omega)]
    exact A.paramHead.set_of_apart _ _ _ (by omega)
  have hget : ∀ f, A.paramHead.get m paramHead f = A.paramHead.get (launchBlock A { s with
      byte := A.paramHead.set s.byte 0 .extInfoLength extInfoSize } deviceExtInfoAddr addrs).byte
      0 f := fun f => A.paramHead.get_holds (k := 0) hm (by omega) f
  -- The two fields the parser reads first are kept by the later writes to the header.
  have hL : A.paramHead.get m paramHead .length
      = A.paramHead.size + 8 * n + 4 + nodeDef.length := by
    rw [hget, launchBlock_get ParamField.noConfusion,
      A.paramHead.get_set_of_ne _ _ _ ParamField.noConfusion, hlength]
  have hnum : A.paramHead.get m paramHead .ioAddrNum = n := by
    rw [hget, launchBlock_get ParamField.noConfusion,
      A.paramHead.get_set_of_ne _ _ _ ParamField.noConfusion, hs.ioAddrNum, Nat.mod_eq_of_lt hn]
  have hslots : ∀ i (hi : i < addrs.length),
      m.word (paramHead + A.paramHead.size) i = addrs[i] := by
    intro i hi
    rw [hm.word (by omega)]
    exact (Mem.word_storeWords i).trans (getD_eq_getElem _ _ hi)
  have hnodeDefLen : m.load (paramHead + A.paramHead.size + 8 * n) 4 = nodeDef.length := by
    rw [← hs.nodeDefLen]
    apply Mem.load_congr
    intro i hi
    rw [← htail _ (by omega) (by omega)]
    congr 1
    omega
  refine ⟨?_, ?_, ?_, ?_⟩
  · unfold parseIoAddr
    rw [takeIoAddrs_block haddrs hfits hL hnum hslots]
    show (if 4 + nodeDef.length < 4 then _ else _) = _
    rw [if_neg (by omega), hnodeDefLen]
  · intro i hi
    have hi' : i < nodeDef.length := hi
    rw [← hs.nodeDef i hi, ← htail _ (by omega) (by omega)]
    congr 1
    omega
  · rw [hget, launchBlock_extInfoAddr]
  · rw [hget, launchBlock_get ParamField.noConfusion]
    exact Mem.load_store _ _ _ _

end Block

/-! ## Encoder and decoder -/

/-- What the device reads is what the host wrote: wherever the block and the extend info
lie in the device's memory, `ParseExtMsg` succeeds with the shapes and the kernel id, and
`ParseIoAddr` with a slot for every tensor and the node definition. -/
def Agrees (A : Adapter) (h : AicpuExtInfoHandler) (kernelId : UInt64)
    (inputs outputs : List AclTensor) (nodeDef : List Byte) : Prop :=
  ∀ (ext s b : Str) (gKernelId : UInt64) (deviceExtInfoAddr : UInt64) (addrs : List UInt64)
    (m : Mem) (paramHead fuel : Nat),
    genCCExtBuffer A h kernelId inputs outputs Str.empty = some (ext, gKernelId) →
    genCCArgs A inputs outputs nodeDef Str.empty = some s →
    setHostArgs A ((inputs.length + outputs.length) % 2 ^ 32) s ext.size = some b →
    addrs.length = inputs.length + outputs.length →
    m.Holds paramHead (launchBlock A b deviceExtInfoAddr addrs) →
    m.Holds deviceExtInfoAddr.toNat ext → deviceExtInfoAddr ≠ 0 → 6 < fuel →
    (∃ msg, parseExtMsg A m paramHead fuel {} = some (.ok msg) ∧ msg.unknownShape = true ∧
      msg.inputShapeAndType.map (getDimsFromShapeAndType A m) = inputs.map AclTensor.originalShape ∧
      msg.outputShapeAndType.map (getDimsFromShapeAndType A m)
        = outputs.map AclTensor.originalShape ∧
      msg.hasSessInfo = true ∧ msg.kernelId = kernelId) ∧
    ∃ p, parseIoAddr A m paramHead = .ok (addrs, p, nodeDef.length) ∧ m.Holds p (Str.ofList nodeDef)

section Agreement

variable {A : Adapter} {h : AicpuExtInfoHandler} {kernelId : UInt64}
  {inputs outputs : List AclTensor} {nodeDef : List Byte}

theorem tensors_lt_of_extSize
    (hsize : entriesSize A.extInfo (builtEntries A h inputs outputs) < 2 ^ 32) :
    inputs.length + outputs.length < 2 ^ 32 := by
  have hin : 1 ≤ A.shapeAndType.size := by
    have := A.shapeAndType.inside .type
    change _ + 4 ≤ _ at this
    omega
  have h₁ := Nat.mul_le_mul_right inputs.length hin
  have h₂ := Nat.mul_le_mul_right outputs.length hin
  simp only [builtEntries, entriesSize] at hsize
  omega

/-- What the host encodes the device decodes, while the extend info has a length of 32 bits. -/
theorem encoder_decoder_agree (hrank : ∀ t ∈ inputs ++ outputs, t.originalShape.length ≤ 8)
    (hflag : ∀ t ∈ inputs ++ outputs, kDimEndFlag ∉ t.originalShape)
    (hsize : entriesSize A.extInfo (builtEntries A h inputs outputs) < 2 ^ 32) :
    Agrees A h kernelId inputs outputs nodeDef := by
  intro ext s b gKernelId addr addrs m paramHead fuel hext hs hset haddrs hm hmExt hne hfuel
  have hn := tensors_lt_of_extSize hsize
  rw [Nat.mod_eq_of_lt hn] at hset
  obtain ⟨e, rfl, hb⟩ := genCCExtBuffer_entries hext
  rw [← hb.size] at hsize
  obtain ⟨hio, hnodeDef, haddr, hlen⟩ := parseIoAddr_block (genCCArgs_isBlock hs) hn hset haddrs hm
  rw [Nat.mod_eq_of_lt hsize] at hlen
  have hbase : addr.toNat ≠ 0 := fun h0 => hne (UInt64.toNat_inj.mp h0)
  obtain ⟨_, _, _, hinputs, houtputs, _⟩ := CCExt.inMem hmExt
  refine ⟨⟨_, parseExtMsg_built hb hmExt hbase hsize haddr hlen hfuel, rfl, ?_, ?_, rfl, rfl⟩,
    _, hio, hnodeDef⟩
  · exact getDims_shapePtrs hb.inputShape hinputs
      (fun t ht => hrank t (mem_append_left _ ht))
      fun t ht => hflag t (mem_append_left _ ht)
  · exact getDims_shapePtrs hb.outputShape houtputs
      (fun t ht => hrank t (mem_append_right _ ht))
      fun t ht => hflag t (mem_append_right _ ht)

end Agreement

/-- The headers with the fields of each structure behind one another. -/
def packedAdapter : Adapter where
  code
    | .shapeType => 0
    | .inputShape => 1
    | .outputShape => 2
    | .opName => 4
    | .sessionInfo => 5
    | .bitmap => 6
    | .topicType => 7
    | .asyncWait => 8
    | .unknownShapeInputIndex => 9
    | .unknownShapeOutputIndex => 10
    | .workspaceInfo => 11
  code_lt t := by cases t <;> decide
  code_injective t t' h := by
    cases t <;> cases t' <;> first | rfl | exact absurd h (by decide)
  waitTypeNull := 0
  waitTypeInvalid := 2
  extInfo :=
    { size := 8
      off := fun
        | .type => 0
        | .len => 4
      inside := fun f => by cases f <;> decide
      apart := fun f g h => by cases f <;> cases g <;> first | exact absurd rfl h | decide }
  shapeAndType :=
    { size := 68
      off := fun
        | .type => 0
        | .dims => 4
      inside := fun f => by cases f <;> decide
      apart := fun f g h => by cases f <;> cases g <;> first | exact absurd rfl h | decide }
  sessionInfo :=
    { size := 17
      off := fun
        | .sessionId => 0
        | .kernelId => 8
        | .sessFlag => 16
      inside := fun f => by cases f <;> decide
      apart := fun f g h => by cases f <;> cases g <;> first | exact absurd rfl h | decide }
  asyncWait :=
    { size := 17
      off := fun
        | .waitType => 0
        | .waitId => 1
      inside := fun f => by cases f <;> decide
      apart := fun f g h => by cases f <;> cases g <;> first | exact absurd rfl h | decide }
  workspaceInfo :=
    { size := 16
      off := fun
        | .size => 0
        | .addr => 8
      inside := fun f => by cases f <;> decide
      apart := fun f g h => by cases f <;> cases g <;> first | exact absurd rfl h | decide }
  paramHead :=
    { size := 20
      off := fun
        | .length => 0
        | .ioAddrNum => 4
        | .extInfoLength => 8
        | .extInfoAddr => 12
      inside := fun f => by cases f <;> decide
      apart := fun f g h => by cases f <;> cases g <;> first | exact absurd rfl h | decide }

/-- Two inputs and an output, one of them of full rank. -/
theorem encoder_decoder_agree_packed : Agrees packedAdapter ⟨[65, 100, 100], 3⟩ 10000
      [⟨0, [2, 3]⟩, ⟨1, [1, 2, 3, 4, 5, 6, 7, 8]⟩] [⟨0, []⟩] [10, 3] ∧
    (genCCExtBuffer packedAdapter ⟨[65, 100, 100], 3⟩ 10000
      [⟨0, [2, 3]⟩, ⟨1, [1, 2, 3, 4, 5, 6, 7, 8]⟩] [⟨0, []⟩] Str.empty).isSome = true :=
  ⟨encoder_decoder_agree (by decide) (by decide) (by decide), rfl⟩

/-- 2²⁶ scalars: the length of their entry is told modulo 2³², and what is told is no
number of shapes. -/
theorem many_scalars_disagree :
    (∀ t ∈ List.replicate (2 ^ 26) (⟨0, []⟩ : AclTensor),
      t.originalShape.length ≤ 8 ∧ kDimEndFlag ∉ t.originalShape) ∧
    ¬ Agrees packedAdapter ⟨[], 0⟩ 10000 (List.replicate (2 ^ 26) ⟨0, []⟩) [] [] := by
  refine ⟨fun t ht => ?_, ?_⟩
  · rw [eq_of_mem_replicate ht]
    exact ⟨Nat.zero_le 8, not_mem_nil⟩
  obtain ⟨inputs, hinputs⟩ :
      ∃ inputs, inputs = List.replicate (2 ^ 26) (⟨0, []⟩ : AclTensor) := ⟨_, rfl⟩
  have hn : inputs.length = 2 ^ 26 := by rw [hinputs, length_replicate]
  have hrank : ∀ t ∈ inputs, t.originalShape.length ≤ 8 := by
    intro t ht
    rw [hinputs] at ht
    rw [eq_of_mem_replicate ht]
    exact Nat.zero_le 8
  rw [← hinputs]
  intro hagree
  obtain ⟨ext, hext⟩ : ∃ ext,
      genCCExtBuffer packedAdapter ⟨[], 0⟩ 10000 inputs [] Str.empty = some (ext, 10001) :=
    genCCExtBuffer_isSome 10000 Str.empty (by decide) hrank (by simp)
  obtain ⟨e, rfl, hb⟩ := genCCExtBuffer_entries hext
  obtain ⟨s, hs⟩ : ∃ s, genCCArgs packedAdapter inputs [] [] Str.empty = some s :=
    genCCArgs_isSome Str.empty (by decide) (by rw [hn]; decide)
  have hblock := genCCArgs_isBlock hs
  have hcount : inputs.length + ([] : List AclTensor).length = 2 ^ 26 := hn
  rw [hcount] at hblock
  obtain ⟨b, hset⟩ := setHostArgs_isSome hblock (by decide) (by rw [hblock.size]; decide) e.str.size
  have hsize : e.str.size % 2 ^ 32 = 77 + 2 ^ 28 := by
    rw [hb.size]
    simp only [builtEntries, entriesSize, hn]
    decide
  obtain ⟨addrs, haddrs⟩ : ∃ addrs : List UInt64, addrs.length = 2 ^ 26 :=
    ⟨List.replicate (2 ^ 26) 0, length_replicate⟩
  have hroom : 0 + (launchBlock packedAdapter b (2 ^ 40) addrs).size ≤ 2 ^ 40 := by
    have hb : b.size = s.size := by rw [(setHostArgs_spec hblock (by decide) hset).1]
    show 0 + b.size ≤ 2 ^ 40
    rw [hb, hblock.size]
    decide
  obtain ⟨m, hm, hmExt⟩ := Mem.exists_holds (t := e.str) hroom
  obtain ⟨-, -, haddr, hlen⟩ := parseIoAddr_block hblock (by decide) hset haddrs hm
  obtain ⟨⟨msg, hmsg, -⟩, -⟩ := hagree e.str s b _ (2 ^ 40) addrs m 0 7 hext hs
    (by rw [hcount]; exact hset) (by rw [hcount, haddrs]) hm hmExt (by decide) (by decide)
  -- the fourth entry is the one the device refuses
  obtain ⟨m₁, m₂, m₃, m₄, -, -⟩ := CCExt.inMem hmExt
  obtain ⟨e₂, e₃, e₄, -, -⟩ := hb.entryAt_succ (2 ^ 40)
  have a₂ : e.entryAt (2 ^ 40) .shapeType = 2 ^ 40 + 8 := e₂.symm
  rw [a₂] at e₃ m₂
  have a₃ : e.entryAt (2 ^ 40) .bitmap = 2 ^ 40 + 20 := e₃.symm
  rw [a₃] at e₄ m₃
  have a₄ : e.entryAt (2 ^ 40) .inputShape = 2 ^ 40 + 36 := e₄.symm
  rw [a₄] at m₄
  have l₁ : packedAdapter.extInfo.get m (2 ^ 40 + 0) .len = 0 := hb.opName.get_len m₁ (by decide)
  have l₂ := hb.shapeType.get_len m₂ (by decide)
  have l₃ := hb.bitMap.get_len m₃ (by decide)
  have hzero : m.load (2 ^ 40 + 20 + packedAdapter.extInfo.size) 8 = 0 := by
    rw [m₃.load (by rw [hb.bitMap.size]), hb.bitMapZero]
  have s₁ : parseExtEntry packedAdapter m {} (packedAdapter.extInfo.get m (2 ^ 40 + 0) .type)
      (packedAdapter.extInfo.get m (2 ^ 40 + 0) .len) (2 ^ 40 + 0) = .ok {} := by
    rw [show packedAdapter.extInfo.get m (2 ^ 40 + 0) .type = _ from hb.opName.get_type m₁]
    exact parseExtEntry_opName (by decide)
  have s₂ : parseExtEntry packedAdapter m {} (packedAdapter.code .shapeType) _ (2 ^ 40 + 8)
      = .ok { unknownShape := true } := parseExtEntry_shapeType (by decide) l₂
  rw [← hb.shapeType.get_type m₂] at s₂
  have s₃ : parseExtEntry packedAdapter m { unknownShape := true } (packedAdapter.code .bitmap) _
      (2 ^ 40 + 20) = .ok { unknownShape := true } := parseExtEntry_bitmap (by decide) l₃ hzero
  rw [← hb.bitMap.get_type m₃] at s₃
  have s₄ : parseExtEntry packedAdapter m { unknownShape := true }
      (packedAdapter.extInfo.get m (2 ^ 40 + 36) .type)
      (packedAdapter.extInfo.get m (2 ^ 40 + 36) .len) (2 ^ 40 + 36) = .error .paramInvalid := by
    have hwrapped : packedAdapter.extInfo.get m (2 ^ 40 + 36) .len = 2 ^ 28 := by
      have hget : packedAdapter.extInfo.get m (2 ^ 40 + 36) .len
          = packedAdapter.extInfo.get e.inputShape.byte 0 .len :=
        packedAdapter.extInfo.get_holds (k := 0) m₄ (by rw [hb.inputShape.entry.size]; omega) _
      rw [hget, hb.inputShape.entry.len, hn]
      decide
    rw [hb.inputShape.entry.get_type m₄, hwrapped]
    unfold parseExtEntry
    rw [if_neg (by decide), packedAdapter.typeOf?_code]
    rfl
  have w₁ := walk_ok (M := 2 ^ 32) (t := 77 + 2 ^ 28) (n := 6) (by decide) s₁
  have w₂ := walk_ok (M := 2 ^ 32) (t := 77 + 2 ^ 28) (n := 5) (k := 8) (by decide) s₂
  have w₃ := walk_ok (M := 2 ^ 32) (t := 77 + 2 ^ 28) (n := 4) (k := 20) (by decide) s₃
  have w₄ := walk_error (M := 2 ^ 32) (t := 77 + 2 ^ 28) (n := 3) (k := 36) (by decide) s₄
  have haddr' : packedAdapter.paramHead.get m 0 .extInfoAddr = 2 ^ 40 := haddr.trans (by decide)
  rw [l₁] at w₁
  rw [l₂] at w₂
  rw [l₃] at w₃
  unfold parseExtMsg at hmsg
  rw [haddr', hlen, hsize] at hmsg
  exact absurd (hmsg.symm.trans (w₁.trans (w₂.trans (w₃.trans w₄)))) (by simp)

end OpBase.Aicpu
