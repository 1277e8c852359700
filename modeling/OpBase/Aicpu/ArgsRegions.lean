import OpBase.Aicpu.ArgsBuffer

/-!
# The regions of the launch buffer

Both builders put the regions one behind the other and keep 1024 bytes for host inputs among
them. A launch leaves the layout alone, so what holds of the first one holds of each.

The runtime is told offsets of 32 bits, the handler's have 64: in a buffer of more than 2³²
bytes, which only TensorFlow's builder makes, the runtime is told them modulo 2³². And that
builder rounds the size of each host input up to 64 bytes, but not the offset at which the
first of them starts.

> `argsBuffer_sound`: the regions share no byte, host inputs stay in their reserve, and the
> runtime is told the slot and the data of each, modulo 2³².
>
> `hostInputs_aligned_iff`: the data of TensorFlow's host inputs are at multiples of 64 if and
> only if the sizes before them add up to one, or there are none.
-/

namespace OpBase.Aicpu

open List OpBase.Lib ArgsHandler

variable {upd : ArgsHandler → UInt64 → ArgsHandler} {h : ArgsHandler} {A : Adapter} {F : FwkAdapter}
  {extInfoSize : Nat} {needDeviceExt : Bool}

/-! ## From one launch to the next -/

/-- A launch begins with an empty reserve, and does not change the layout. -/
def Resets (upd : ArgsHandler → UInt64 → ArgsHandler) : Prop :=
  ∀ h addr, (upd h addr).toArgsLayout = h.toArgsLayout ∧ (upd h addr).hostInputSize = 0 ∧
    (upd h addr).deviceCacheSize = 0

theorem AicpuCCArgsHandler.resets (A : Adapter) :
    Resets (AicpuCCArgsHandler.updateDeviceExtInfoAddr A) := by
  intro h addr
  unfold updateDeviceExtInfoAddr setOffsetArgs
  dsimp only
  split
  · exact ⟨rfl, rfl, rfl⟩
  · exact ⟨rfl, rfl, rfl⟩

theorem AicpuTfArgsHandler.resets (F : FwkAdapter) :
    Resets (AicpuTfArgsHandler.updateDeviceExtInfoAddr F) := by
  intro h addr
  unfold updateDeviceExtInfoAddr setOffsetArgs
  dsimp only
  split
  · exact ⟨rfl, rfl, rfl⟩
  · exact ⟨rfl, rfl, rfl⟩

/-- Inputs are aligned, and not to more than 64 bytes. -/
def Aligns (l : ArgsLayout) : Prop := 0 < l.alignBytes ∧ l.alignBytes ≤ 64

theorem Resets.ready (hupd : Resets upd) (halign : Aligns h.toArgsLayout) (addr : UInt64) :
    (upd h addr).Ready := by
  obtain ⟨hlayout, hused, -⟩ := hupd h addr
  exact ⟨hused ▸ Nat.zero_le _, hlayout ▸ halign.1, hlayout ▸ halign.2⟩

theorem Resets.launch_layout (hupd : Resets upd) (halign : Aligns h.toArgsLayout)
    (c : LaunchCall) : (h.launch upd c).1.toArgsLayout = h.toArgsLayout :=
  (updateIoAddr_writes c.env c.inputs c.outputs
    (hupd.ready halign c.deviceExtInfoAddr)).layout.trans (hupd h c.deviceExtInfoAddr).1

/-- The handler after some launches. -/
def launches (upd : ArgsHandler → UInt64 → ArgsHandler) (h : ArgsHandler)
    (calls : List LaunchCall) : ArgsHandler :=
  calls.foldl (fun h c => (h.launch upd c).1) h

theorem Resets.launches_layout (hupd : Resets upd) : ∀ (calls : List LaunchCall) {h : ArgsHandler},
    Aligns h.toArgsLayout → (launches upd h calls).toArgsLayout = h.toArgsLayout
  | [], _, _ => rfl
  | c :: calls, h, halign => by
    have hfirst := hupd.launch_layout halign c
    exact (hupd.launches_layout calls (hfirst ▸ halign)).trans hfirst

/-! ## The regions -/

/-- The regions in front of the reserve and behind it, in this order. -/
structure IsLaid (l : ArgsLayout) (front back : List Extent) : Prop where
  before : Extent.Laid 0 front l.hostMemOffset
  behind : Extent.Laid (l.hostMemOffset + kMaxTotalHostLen) back l.bufferSize
  slots : (⟨l.ioAddrOffset, l.ioNum * 8⟩ : Extent) ∈ front
  small : l.bufferSize < 2 ^ 64
  aligns : Aligns l

/-- What a launch makes of the buffer, from the time that the reserve is empty. -/
structure Sound (front back : List Extent) (h : ArgsHandler) (c : LaunchCall) : Prop where
  apart : (front ++ (embedded c.env h 0 c.inputs).map Prod.snd ++ back).Pairwise Extent.Apart
  inside : ∀ x ∈ front ++ (embedded c.env h 0 c.inputs).map Prod.snd ++ back,
    x.stop ≤ h.bufferSize
  reserve : ∀ p ∈ embedded c.env h 0 c.inputs,
    h.hostMemOffset ≤ p.2.start ∧ p.2.stop ≤ h.hostMemOffset + kMaxTotalHostLen
  input : ∀ p ∈ embedded c.env h 0 c.inputs, ∃ t, c.inputs[p.1]? = some t ∧
    t.placement = .onHost ∧ p.2.len = t.size.toInt.toNat ∧
    (h.updateIoAddr c.env c.inputs c.outputs).1.hostBuffer.Holds p.2.start ⟨p.2.len, t.content⟩
  info : (h.updateIoAddr c.env c.inputs c.outputs).1.hostInputInfo =
    h.hostInputInfo ++ (embedded c.env h 0 c.inputs).map h.placeHolder
  exact : h.bufferSize < 2 ^ 32 → ∀ p ∈ embedded c.env h 0 c.inputs,
    (h.placeHolder p).1.toNat = h.ioAddrOffset + p.1 * 8 ∧ (h.placeHolder p).2.toNat = p.2.start
  frame : ∀ x, x < h.ioAddrOffset ∨ h.ioAddrOffset + h.ioNum * 8 ≤ x →
    (∀ p ∈ embedded c.env h 0 c.inputs, x < p.2.start ∨ p.2.stop ≤ x) →
    (h.updateIoAddr c.env c.inputs c.outputs).1.hostBuffer x = h.hostBuffer x

/-- On a layout that is laid in order, a launch is sound. -/
theorem IsLaid.sound {front back : List Extent} {c : LaunchCall}
    (hlaid : IsLaid h.toArgsLayout front back) (hready : h.Ready) (hused : h.hostInputSize = 0)
    (hio : c.inputs.length + c.outputs.length ≤ h.ioNum) : Sound front back h c := by
  have hwrites := updateIoAddr_writes c.env c.inputs c.outputs hready
  have hback := hlaid.behind.le
  have hsmall := hlaid.small
  have hmem : h.hostMemOffset + kMaxTotalHostLen < 2 ^ 64 := Nat.lt_of_le_of_lt hback hsmall
  have hdata := embedded_laid c.env c.inputs h 0 hready hmem
  rw [hused, Nat.add_zero] at hdata
  have hall := (hlaid.before.append hdata).append hlaid.behind
  have hslots := (hlaid.before.bounds _ hlaid.slots).2
  unfold Extent.stop at hslots
  dsimp only at hslots
  have hreserve : ∀ p ∈ embedded c.env h 0 c.inputs,
      h.hostMemOffset ≤ p.2.start ∧ p.2.stop ≤ h.hostMemOffset + kMaxTotalHostLen :=
    fun p hp => hdata.bounds _ (mem_map_of_mem hp)
  refine ⟨hall.pairwise, fun x hx => (hall.bounds x hx).2, hreserve, ?_, hwrites.info, ?_, ?_⟩
  · exact fun p hp => updateIoAddr_holds hready hused hmem (by omega) hp
  · -- no offset loses bits in the 32 of a placeholder
    intro hbuffer p hp
    obtain ⟨-, t, ht, -⟩ := embedded_holds c.env c.inputs h 0 hready hmem (by omega) p hp
    have hindex := (List.getElem?_eq_some_iff.mp ht).1
    have hreserve := hreserve p hp
    have hstop : p.2.start ≤ p.2.stop := Nat.le_add_right _ _
    unfold kMaxTotalHostLen at hback hreserve
    unfold ArgsLayout.placeHolder
    dsimp only
    rw [UInt32.toNat_ofNat', UInt32.toNat_ofNat']
    exact ⟨Nat.mod_eq_of_lt (by omega), Nat.mod_eq_of_lt (by omega)⟩
  · intro x hx hout
    exact hwrites.frame x (by omega) hout

/-! ## The two builders -/

theorem memcpyS_snd (m : Mem) (dest destMax : Nat) (src : Str) :
    (memcpyS m dest destMax src).2 = false ↔
      destMax = 0 ∨ memMaxLen < destMax ∨ destMax < src.size := by
  unfold memcpyS
  split
  next h => exact iff_of_true rfl (by omega)
  next h =>
    split
    next h' => exact iff_of_true rfl (by omega)
    next h' => exact iff_of_false Bool.true_eq_false.mp (by omega)

namespace AicpuCCArgsHandler

/-- The head, the slots, the node definition, the names and the extend info. -/
def regions (A : Adapter) (l : ArgsLayout) (argSize kernelNameSize soNameSize : Nat) :
    List Extent :=
  [⟨0, A.paramHead.size⟩, ⟨l.ioAddrOffset, l.ioNum * 8⟩,
    ⟨l.ioAddrOffset + l.ioNum * 8, argSize - (l.ioAddrOffset + l.ioNum * 8)⟩,
    ⟨l.kernelNameOffset, kernelNameSize⟩, ⟨l.soNameOffset, soNameSize⟩,
    ⟨l.extInfoOffset, l.extInfoSize⟩]

theorem layout_isLaid {ioNum argSize kernelNameSize soNameSize : Nat} (needDeviceExt : Bool)
    (hhead : A.paramHead.size ≤ argSize)
    (hsum : argSize + ioNum * 8 + kernelNameSize + soNameSize + extInfoSize + kMaxTotalHostLen
      < 2 ^ 64) :
    IsLaid (layout A ioNum needDeviceExt argSize kernelNameSize soNameSize extInfoSize)
      (regions A (layout A ioNum needDeviceExt argSize kernelNameSize soNameSize extInfoSize)
        argSize kernelNameSize soNameSize) [] := by
  unfold kMaxTotalHostLen at hsum
  refine ⟨?_, ?_, ?_, ?_, show 0 < 4 by decide, show 4 ≤ 64 by decide⟩
  · simp only [layout, regions, Extent.Laid, Extent.stop]
    omega
  · simp only [layout, Extent.Laid, kMaxTotalHostLen]
    omega
  · exact mem_cons_of_mem _ mem_cons_self
  · exact Nat.mod_lt _ (by decide)

theorem buildCCArgs_layout {ioNum : Nat} {argData : Str} {kernelName soName : List Byte}
    {h : ArgsHandler}
    (hbuild : buildCCArgs A ioNum needDeviceExt argData kernelName soName extInfoSize = some h) :
    h.toArgsLayout = layout A ioNum needDeviceExt argData.size (kernelName.length + 1)
      (soName.length + 1) extInfoSize := by
  unfold buildCCArgs at hbuild
  dsimp only at hbuild
  split at hbuild
  · cases hbuild
  · obtain ⟨block, -, hbuild⟩ := Option.bind_eq_some_iff.mp hbuild
    split at hbuild
    · cases hbuild
    · split at hbuild
      · cases hbuild
      · obtain rfl := Option.some.inj hbuild
        split <;> rfl

/-- `memcpy_s` refuses a larger buffer. -/
theorem buildCCArgs_bufferSize {ioNum : Nat} {argData : Str} {kernelName soName : List Byte}
    {h : ArgsHandler}
    (hbuild : buildCCArgs A ioNum needDeviceExt argData kernelName soName extInfoSize = some h) :
    h.bufferSize < 2 ^ 32 := by
  rw [congrArg ArgsLayout.bufferSize (buildCCArgs_layout hbuild)]
  unfold buildCCArgs at hbuild
  dsimp only at hbuild
  split at hbuild
  · cases hbuild
  next hcopy =>
    rw [memcpyS_snd] at hcopy
    exact Nat.lt_of_le_of_lt (Nat.not_lt.mp fun h => hcopy (Or.inr (Or.inl h))) (by decide)

end AicpuCCArgsHandler

namespace AicpuTfArgsHandler

/-- The structure, the task info, the slots and the extend info. -/
def regions (F : FwkAdapter) (l : ArgsLayout) (taskInfoSize : Nat) : List Extent :=
  [⟨0, F.fwkOpKernel.size⟩, ⟨l.taskInfoOffset, taskInfoSize⟩, ⟨l.ioAddrOffset, l.ioNum * 8⟩,
    ⟨l.extInfoOffset, l.extInfoSize⟩]

/-- The places of the two names. -/
def nameRegions (l : ArgsLayout) : List Extent := [⟨l.soNameOffset, 8⟩, ⟨l.kernelNameOffset, 8⟩]

theorem layout_isLaid {ioNum taskInfoSize : Nat} (needDeviceExt : Bool)
    (hsum : F.fwkOpKernel.size + taskInfoSize + ioNum * 8 + extInfoSize + kMaxTotalHostLen + 8 + 8
      < 2 ^ 64) :
    IsLaid (layout F ioNum needDeviceExt taskInfoSize extInfoSize)
      (regions F (layout F ioNum needDeviceExt taskInfoSize extInfoSize) taskInfoSize)
      (nameRegions (layout F ioNum needDeviceExt taskInfoSize extInfoSize)) := by
  unfold kMaxTotalHostLen at hsum
  refine ⟨?_, ?_, ?_, ?_, show 0 < 64 by decide, show 64 ≤ 64 by decide⟩
  · simp only [layout, regions, Extent.Laid, Extent.stop]
    omega
  · simp only [layout, nameRegions, Extent.Laid, Extent.stop, kMaxTotalHostLen]
    omega
  · exact mem_cons_of_mem _ (mem_cons_of_mem _ mem_cons_self)
  · exact Nat.mod_lt _ (by decide)

theorem buildTfArgs_layout {ioNum : Nat} {fwkOpKernel : Mem} {taskInfo : Str} {kernelId : UInt64}
    {h : ArgsHandler}
    (hbuild : buildTfArgs F ioNum needDeviceExt fwkOpKernel taskInfo extInfoSize kernelId
      = some h) :
    h.toArgsLayout = layout F ioNum needDeviceExt taskInfo.size extInfoSize := by
  unfold buildTfArgs at hbuild
  dsimp only at hbuild
  split at hbuild
  · cases hbuild
  · split at hbuild
    · cases hbuild
    · obtain rfl := Option.some.inj hbuild
      rfl

end AicpuTfArgsHandler

theorem addHostInput_refused (idx : Nat) {data : Str} (hready : h.Ready)
    (hsize : data.size < 2 ^ 63)
    (hlarge : kMaxTotalHostLen < h.hostInputSize + roundUp data.size h.alignBytes) :
    h.addHostInput idx data (roundUp data.size h.alignBytes) = (h, false) := by
  have hused := hready.used
  have halign := hready.align_le
  have hround := (roundUp_bounds hready.align_pos halign hsize).2
  unfold kMaxTotalHostLen at hused
  unfold addHostInput
  rw [Nat.mod_eq_of_lt (by omega), if_pos hlarge]

/-! ## Every launch -/

theorem Resets.sound {front back : List Extent} (hupd : Resets upd)
    (hlaid : IsLaid h.toArgsLayout front back) (earlier : List LaunchCall) {c : LaunchCall}
    (hio : c.inputs.length + c.outputs.length ≤ h.ioNum) :
    Sound front back (upd (launches upd h earlier) c.deviceExtInfoAddr) c := by
  have hlayout : (upd (launches upd h earlier) c.deviceExtInfoAddr).toArgsLayout
      = h.toArgsLayout :=
    (hupd _ _).1.trans (hupd.launches_layout earlier hlaid.aligns)
  refine IsLaid.sound (by rw [hlayout]; exact hlaid) ?_ (hupd _ _).2.1 ?_
  · exact hupd.ready (by rw [hupd.launches_layout earlier hlaid.aligns]; exact hlaid.aligns) _
  · rw [congrArg ArgsLayout.ioNum hlayout]
    exact hio

/-- Both handlers lay their regions out inside the buffer, one behind the other and aligned, and
every launch writes into each what belongs there. -/
theorem argsBuffer_sound :
    (∀ (A : Adapter) (inputs outputs : List AclTensor) (nodeDef : List Byte) (argData : Str)
      (kernelName soName : List Byte) (extInfoSize ioNum : Nat) (needDeviceExt : Bool)
      (h : ArgsHandler) (earlier : List LaunchCall) (c : LaunchCall),
      genCCArgs A inputs outputs nodeDef Str.empty = some argData →
      AicpuCCArgsHandler.buildCCArgs A ioNum needDeviceExt argData kernelName soName extInfoSize
        = some h →
      argData.size + ioNum * 8 + (kernelName.length + 1) + (soName.length + 1) + extInfoSize
        + kMaxTotalHostLen < 2 ^ 64 →
      c.inputs.length + c.outputs.length ≤ ioNum →
      Sound (AicpuCCArgsHandler.regions A h.toArgsLayout argData.size (kernelName.length + 1)
          (soName.length + 1)) []
        (AicpuCCArgsHandler.updateDeviceExtInfoAddr A
          (launches (AicpuCCArgsHandler.updateDeviceExtInfoAddr A) h earlier)
          c.deviceExtInfoAddr) c ∧ h.bufferSize < 2 ^ 32) ∧
    (∀ (F : FwkAdapter) (fwkOpKernel : Mem) (taskInfo : Str) (kernelId : UInt64)
      (extInfoSize ioNum : Nat) (needDeviceExt : Bool) (h : ArgsHandler)
      (earlier : List LaunchCall) (c : LaunchCall),
      AicpuTfArgsHandler.buildTfArgs F ioNum needDeviceExt fwkOpKernel taskInfo extInfoSize kernelId
        = some h →
      F.fwkOpKernel.size + taskInfo.size + ioNum * 8 + extInfoSize + kMaxTotalHostLen + 8 + 8
        < 2 ^ 64 →
      c.inputs.length + c.outputs.length ≤ ioNum →
      Sound (AicpuTfArgsHandler.regions F h.toArgsLayout taskInfo.size)
        (AicpuTfArgsHandler.nameRegions h.toArgsLayout)
        (AicpuTfArgsHandler.updateDeviceExtInfoAddr F
          (launches (AicpuTfArgsHandler.updateDeviceExtInfoAddr F) h earlier)
          c.deviceExtInfoAddr) c) ∧
    ∀ (h : ArgsHandler) (idx : Nat) (data : Str), h.Ready → data.size < 2 ^ 63 →
      kMaxTotalHostLen < h.hostInputSize + roundUp data.size h.alignBytes →
      h.addHostInput idx data (roundUp data.size h.alignBytes) = (h, false) := by
  refine ⟨?_, ?_, fun h idx data => addHostInput_refused idx⟩
  · intro A inputs outputs nodeDef argData kernelName soName extInfoSize ioNum needDeviceExt h
      earlier c hgen hbuild hsum hio
    have hhead : A.paramHead.size ≤ argData.size := by
      rw [(genCCArgs_isBlock hgen).size]
      omega
    have hlayout := AicpuCCArgsHandler.buildCCArgs_layout hbuild
    have hlaid := AicpuCCArgsHandler.layout_isLaid needDeviceExt hhead hsum
    rw [← hlayout] at hlaid
    exact ⟨(AicpuCCArgsHandler.resets A).sound hlaid earlier
      (by rw [congrArg ArgsLayout.ioNum hlayout]; exact hio),
      AicpuCCArgsHandler.buildCCArgs_bufferSize hbuild⟩
  · intro F fwkOpKernel taskInfo kernelId extInfoSize ioNum needDeviceExt h earlier c hbuild hsum
      hio
    have hlayout := AicpuTfArgsHandler.buildTfArgs_layout hbuild
    have hlaid := AicpuTfArgsHandler.layout_isLaid needDeviceExt hsum
    rw [← hlayout] at hlaid
    exact (AicpuTfArgsHandler.resets F).sound hlaid earlier
      (by rw [congrArg ArgsLayout.ioNum hlayout]; exact hio)

/-! ## The alignment of host inputs -/

/-- No input is copied into an empty reserve, up to the first one that is refused. The sizes
are rounded up to `align`; `cacheSize` is what the inputs so far have taken of the cache. -/
def NoneFits (env : LaunchEnv) (align : Nat) : UInt64 → Nat → List IoTensor → Prop
  | _, _, [] => True
  | cacheSize, i, t :: ts =>
    let alignSize := roundUp t.size.toInt.toNat align
    match t.placement with
    | .onHost => t.size < 0 ∨ kMaxTotalHostLen < alignSize ∧
        (cacheSize + UInt64.ofNat alignSize ≤ env.deviceCacheRsvSize → env.memcpyAsync i = true →
          NoneFits env align (cacheSize + UInt64.ofNat alignSize) (i + 1) ts)
    | _ => NoneFits env align cacheSize (i + 1) ts

/-- An input is copied to the device just when the cache has room and the copy succeeds. -/
theorem addDeviceInput_snd (env : LaunchEnv) (h : ArgsHandler) (i a : Nat) :
    ((h.addDeviceInput env i a).2 = true ↔
      h.deviceCacheSize + UInt64.ofNat a ≤ env.deviceCacheRsvSize ∧ env.memcpyAsync i = true) ∧
    ((h.addDeviceInput env i a).2 = true →
      (h.addDeviceInput env i a).1.deviceCacheSize = h.deviceCacheSize + UInt64.ofNat a) := by
  have hcache : (h.getDeviceCacheAddr env).1.deviceCacheSize = h.deviceCacheSize := by
    unfold getDeviceCacheAddr
    dsimp only
    split <;> rfl
  unfold addDeviceInput
  split
  next hfull =>
    refine ⟨iff_of_false Bool.false_ne_true fun h => ?_, fun h => absurd h Bool.false_ne_true⟩
    exact absurd h.1 (UInt64.not_le.mpr hfull)
  next hfull =>
    dsimp only
    split
    next hcopy =>
      refine ⟨iff_of_false Bool.false_ne_true fun h => ?_, fun h => absurd h Bool.false_ne_true⟩
      exact absurd h.2 (by rw [hcopy]; exact Bool.false_ne_true)
    next hcopy =>
      refine ⟨iff_of_true rfl ⟨UInt64.not_lt.mp hfull, Bool.eq_true_of_not_eq_false hcopy⟩,
        fun _ => ?_⟩
      show (h.getDeviceCacheAddr env).1.deviceCacheSize + _ = _
      rw [hcache]

/-- Embedded inputs are aligned just when the place of the reserve is. -/
theorem embedded_dvd_iff (env : LaunchEnv) : ∀ (ts : List IoTensor) (h : ArgsHandler) (i : Nat),
    h.Ready → h.alignBytes ∣ 2 ^ 64 → h.alignBytes ∣ h.hostInputSize →
    ∀ p ∈ embedded env h i ts, (h.alignBytes ∣ p.2.start ↔ h.alignBytes ∣ h.hostMemOffset)
  | [], _, _, _, _, _, _, hp => absurd hp not_mem_nil
  | t :: ts, h, i, hready, hpow, hused, p, hp => by
    obtain ⟨hwrites, hready'⟩ := updateInput_writes env i t hready
    have hmem := congrArg ArgsLayout.hostMemOffset hwrites.layout
    have halign := congrArg ArgsLayout.alignBytes hwrites.layout
    -- every input takes a whole number of alignments
    have hused' : h.alignBytes ∣ (h.updateInput env i t).1.hostInputSize := by
      by_cases he : h.Embeds t
      · obtain ⟨ok, hok⟩ := updateInput_embeds env i hready he
        rw [hok]
        cases ok with
        | false => exact hused
        | true => exact Nat.dvd_add hused (dvd_roundUp _ _)
      · rw [(updateInput_not_embeds env i he).2]
        exact hused
    rw [embedded_cons] at hp
    rcases mem_append.mp hp with hp | hp
    · by_cases he : h.Embeds t
      · rw [placed_of_embeds i he] at hp
        obtain rfl := mem_singleton.mp hp
        dsimp only
        rw [Nat.dvd_mod_iff hpow, Nat.dvd_add_left hused]
      · rw [placed_of_not_embeds i he] at hp
        exact absurd hp not_mem_nil
    · split at hp
      · have hrest := embedded_dvd_iff env ts _ (i + 1) hready' (by rw [halign]; exact hpow)
          (by rw [halign]; exact hused') p hp
        rwa [halign, hmem] at hrest
      · exact absurd hp not_mem_nil

/-- Nothing is embedded just when no input fits, up to the first that is refused. -/
theorem embedded_nil_iff (env : LaunchEnv) : ∀ (ts : List IoTensor) (h : ArgsHandler) (i : Nat),
    h.Ready → h.hostInputSize = 0 →
    (embedded env h i ts = [] ↔ NoneFits env h.alignBytes h.deviceCacheSize i ts)
  | [], _, _, _, _ => iff_of_true rfl trivial
  | t :: ts, h, i, hready, hused => by
    have hmod := (hready.room t).2
    rw [hused, Nat.zero_add] at hmod
    rw [embedded_cons, append_eq_nil_iff, NoneFits]
    by_cases he : h.Embeds t
    · -- embedded: neither negative nor too large for the empty reserve
      have hroom := he.2.2
      rw [hused, Nat.zero_add, hmod] at hroom
      rw [placed_of_embeds i he, he.1]
      refine iff_of_false (fun h => absurd h.1 (cons_ne_nil _ _)) ?_
      rintro (hneg | ⟨hlarge, -⟩)
      · exact he.2.1 hneg
      · exact absurd hroom (Nat.not_le.mpr hlarge)
    · -- not embedded: the inputs behind decide, with the buffer as this one leaves it
      obtain ⟨hwrites, hsize⟩ := updateInput_not_embeds env i he
      have hready' := (updateInput_writes env i t hready).2
      have halign := congrArg ArgsLayout.alignBytes hwrites.layout
      have hrest := embedded_nil_iff env ts _ (i + 1) hready' (hsize.trans hused)
      rw [placed_of_not_embeds i he, and_iff_right rfl]
      have hother : t.placement ≠ .onHost →
          h.updateInput env i t = (h.storeAddr i t.data, true) := by
        intro hne
        unfold updateInput
        split
        next hhost => exact absurd hhost hne
        next => rfl
      cases hplace : t.placement with
      | onHost =>
        dsimp only
        by_cases hneg : t.size < 0
        · -- a negative size ends the launch
          have hupd : h.updateInput env i t = (h, false) := by
            unfold updateInput
            rw [hplace]
            exact if_pos hneg
          rw [hupd]
          exact iff_of_true rfl (Or.inl hneg)
        · -- too large for the empty reserve: it goes to the device
          have hlarge : ¬ roundUp t.size.toInt.toNat h.alignBytes ≤ kMaxTotalHostLen := fun hroom =>
            he ⟨hplace, hneg, by rw [hused, Nat.zero_add, hmod]; exact hroom⟩
          have hupd : h.updateInput env i t =
              h.addDeviceInput env i (roundUp t.size.toInt.toNat h.alignBytes) := by
            unfold updateInput
            rw [hplace]
            dsimp only
            rw [if_neg hneg, hused, Nat.zero_add, hmod, if_neg hlarge]
          rw [hupd] at hrest halign ⊢
          obtain ⟨hsnd, hcache⟩ := addDeviceInput_snd env h i
            (roundUp t.size.toInt.toNat h.alignBytes)
          by_cases hok : (h.addDeviceInput env i (roundUp t.size.toInt.toNat h.alignBytes)).2 = true
          · obtain ⟨hfull, hcopy⟩ := hsnd.mp hok
            rw [if_pos hok, hrest, halign, hcache hok]
            refine ⟨fun hnone => Or.inr ⟨Nat.not_le.mp hlarge, fun _ _ => hnone⟩, ?_⟩
            rintro (hneg' | ⟨-, hnone⟩)
            · exact absurd hneg' hneg
            · exact hnone hfull hcopy
          · rw [if_neg hok]
            refine iff_of_true rfl (Or.inr ⟨Nat.not_le.mp hlarge, fun hfull hcopy => ?_⟩)
            exact absurd (hsnd.mpr ⟨hfull, hcopy⟩) hok
      | onDeviceHbm =>
        rw [hother (by rw [hplace]; decide)] at hrest ⊢
        exact hrest
      | other =>
        rw [hother (by rw [hplace]; decide)] at hrest ⊢
        exact hrest

/-- The build fails just when one of its two copies would. -/
theorem AicpuTfArgsHandler.buildTfArgs_none_iff (F : FwkAdapter) (ioNum extInfoSize : Nat)
    (needDeviceExt : Bool) (fwkOpKernel : Mem) (taskInfo : Str) (kernelId : UInt64) :
    AicpuTfArgsHandler.buildTfArgs F ioNum needDeviceExt fwkOpKernel taskInfo extInfoSize kernelId
      = none ↔ memMaxLen < F.fwkOpKernel.size ∨ taskInfo.size = 0 ∨ memMaxLen < taskInfo.size := by
  have hpos : F.fwkOpKernel.size ≠ 0 := by
    have := F.fwkOpKernel.inside .opType
    unfold FwkField.width at this
    dsimp only at this
    omega
  unfold buildTfArgs
  dsimp only
  split
  next h =>
    rw [memcpyS_snd] at h
    dsimp only at h
    exact iff_of_true rfl (by omega)
  next h =>
    rw [memcpyS_snd] at h
    dsimp only at h
    split
    next h' =>
      rw [memcpyS_snd] at h'
      exact iff_of_true rfl (by omega)
    next h' =>
      rw [memcpyS_snd] at h'
      exact iff_of_false (Option.some_ne_none _) (by omega)

/-- Embedded host inputs start at multiples of 64 just when the build fails, none fits, or the sizes
of the parts in front of them add up to such a multiple. -/
theorem hostInputs_aligned_iff (F : FwkAdapter) (fwkOpKernel : Mem) (taskInfo : Str)
    (kernelId : UInt64) (extInfoSize ioNum : Nat) (needDeviceExt : Bool)
    (earlier : List LaunchCall) (c : LaunchCall) :
    (∀ h, AicpuTfArgsHandler.buildTfArgs F ioNum needDeviceExt fwkOpKernel taskInfo extInfoSize
        kernelId = some h →
      ∀ p ∈ embedded c.env (AicpuTfArgsHandler.updateDeviceExtInfoAddr F
        (launches (AicpuTfArgsHandler.updateDeviceExtInfoAddr F) h earlier) c.deviceExtInfoAddr)
        0 c.inputs, 64 ∣ p.2.start) ↔
      (memMaxLen < F.fwkOpKernel.size ∨ taskInfo.size = 0 ∨ memMaxLen < taskInfo.size) ∨
        NoneFits c.env 64 0 0 c.inputs ∨
        64 ∣ F.fwkOpKernel.size + taskInfo.size + ioNum * 8 + extInfoSize := by
  rw [← AicpuTfArgsHandler.buildTfArgs_none_iff F ioNum extInfoSize needDeviceExt fwkOpKernel
    taskInfo kernelId]
  cases hbuild : AicpuTfArgsHandler.buildTfArgs F ioNum needDeviceExt fwkOpKernel taskInfo
      extInfoSize kernelId with
  | none => exact iff_of_true (fun h hh => nomatch hh) (Or.inl rfl)
  | some h =>
    have hbuilt := AicpuTfArgsHandler.buildTfArgs_layout hbuild
    have haligns : Aligns h.toArgsLayout := by
      rw [hbuilt]
      exact ⟨show 0 < 64 by decide, show 64 ≤ 64 by decide⟩
    have hresets := AicpuTfArgsHandler.resets F
    have hlaunches := hresets.launches_layout earlier haligns
    have hready := hresets.ready (hlaunches.symm ▸ haligns) c.deviceExtInfoAddr
    obtain ⟨hlayout, hused, hcache⟩ := hresets (launches _ h earlier) c.deviceExtInfoAddr
    rw [hlaunches, hbuilt] at hlayout
    simp only [Option.some.injEq, forall_eq']
    generalize AicpuTfArgsHandler.updateDeviceExtInfoAddr F
      (launches (AicpuTfArgsHandler.updateDeviceExtInfoAddr F) h earlier) c.deviceExtInfoAddr
      = h₁ at hready hlayout hused hcache ⊢
    have h64 : h₁.alignBytes = 64 := congrArg ArgsLayout.alignBytes hlayout
    have hoff : 64 ∣ h₁.hostMemOffset ↔
        64 ∣ F.fwkOpKernel.size + taskInfo.size + ioNum * 8 + extInfoSize := by
      rw [congrArg ArgsLayout.hostMemOffset hlayout]
      show 64 ∣ (((_ + _) % 2 ^ 64 + _) % 2 ^ 64 + _) % 2 ^ 64 ↔ _
      omega
    have hdvd := embedded_dvd_iff c.env c.inputs h₁ 0 hready (by rw [h64]; decide)
      (by rw [hused]; exact Nat.dvd_zero _)
    have hnil := embedded_nil_iff c.env c.inputs h₁ 0 hready hused
    rw [h64] at hdvd hnil
    rw [hcache] at hnil
    rw [or_iff_right (by simp), ← hnil, ← hoff]
    constructor
    · intro hall
      -- any embedded input tells whether the reserve is aligned
      by_cases hempty : embedded c.env h₁ 0 c.inputs = []
      · exact Or.inl hempty
      · obtain ⟨p, hp⟩ := exists_mem_of_ne_nil _ hempty
        exact Or.inr ((hdvd p hp).mp (hall p hp))
    · rintro (hempty | hmem) p hp
      · rw [hempty] at hp
        exact absurd hp not_mem_nil
      · exact (hdvd p hp).mpr hmem

/-- `STR_FWK_OP_KERNEL` without a gap. -/
def packedFwkAdapter : FwkAdapter where
  fwkOpKernel :=
    { size := 112
      off := fun
        | .opType => 4
        | .sessionID => 8
        | .stepIDAddr => 16
        | .kernelID => 24
        | .workspaceBaseAddr => 80
        | .inputOutputAddr => 88
        | .extInfoLen => 96
        | .extInfoAddr => 104
      inside := fun f => by cases f <;> decide
      apart := fun f g h => by cases f <;> cases g <;> first | exact absurd rfl h | decide }
  runNoSess := 5

/-- Four bytes of the host. -/
def hostScalar : IoTensor where
  placement := .onHost
  data := 4096
  size := 4
  content := fun _ => 7

/-- A launch of one input of the host and one output. -/
def scalarCall : LaunchCall where
  deviceExtInfoAddr := 0
  env := { workspaceAddr := 8192, deviceCacheOffset := 0, deviceCacheRsvSize := 0,
           memcpyAsync := fun _ => true }
  inputs := [hostScalar]
  outputs := [⟨.onDeviceHbm, 65536, 4, fun _ => 0⟩]

/-- Behind 2³² bytes of extend info the data of the input are said to be where that begins. -/
theorem told_offset_wraps :
    ∃ h, AicpuTfArgsHandler.buildTfArgs packedFwkAdapter 2 false (fun _ => 0) (Str.fill 8 0)
        (2 ^ 32) 0 = some h ∧
      embedded scalarCall.env (AicpuTfArgsHandler.updateDeviceExtInfoAddr packedFwkAdapter h 0) 0
        scalarCall.inputs = [(0, ⟨2 ^ 32 + 136, 4⟩)] ∧
      (h.launch (AicpuTfArgsHandler.updateDeviceExtInfoAddr packedFwkAdapter)
        scalarCall).1.hostInputInfo = [(80, 112), (88, 120), (104, 136), (120, 136)] ∧
      h.extInfoOffset = 136 :=
  ⟨_, rfl, by decide, by decide, rfl⟩

/-- A block of one input and one output, and a launch after another one, with either builder. -/
theorem argsBuffer_sound_scalar :
    (∃ argData h, genCCArgs packedAdapter [⟨3, []⟩] [⟨3, []⟩] [10, 3] Str.empty = some argData ∧
      AicpuCCArgsHandler.buildCCArgs packedAdapter 2 false argData [82, 117, 110] [97, 46, 115, 111]
        50 = some h ∧
      Sound (AicpuCCArgsHandler.regions packedAdapter h.toArgsLayout argData.size 4 5) []
        (AicpuCCArgsHandler.updateDeviceExtInfoAddr packedAdapter
          (launches (AicpuCCArgsHandler.updateDeviceExtInfoAddr packedAdapter) h [scalarCall]) 0)
        scalarCall) ∧
    (∃ h, AicpuTfArgsHandler.buildTfArgs packedFwkAdapter 2 false (fun _ => 0) (Str.fill 8 0) 50 0
        = some h ∧
      Sound (AicpuTfArgsHandler.regions packedFwkAdapter h.toArgsLayout 8)
        (AicpuTfArgsHandler.nameRegions h.toArgsLayout)
        (AicpuTfArgsHandler.updateDeviceExtInfoAddr packedFwkAdapter
          (launches (AicpuTfArgsHandler.updateDeviceExtInfoAddr packedFwkAdapter) h [scalarCall]) 0)
        scalarCall) := by
  obtain ⟨h, hboth⟩ := Option.isSome_iff_exists.mp
    (show ((genCCArgs packedAdapter [⟨3, []⟩] [⟨3, []⟩] [10, 3] Str.empty).bind fun argData =>
      AicpuCCArgsHandler.buildCCArgs packedAdapter 2 false argData [82, 117, 110]
        [97, 46, 115, 111] 50).isSome = true from rfl)
  obtain ⟨argData, hgen, hbuild⟩ := Option.bind_eq_some_iff.mp hboth
  have hsize : argData.size = 42 := by
    rw [(genCCArgs_isBlock hgen).size]
    rfl
  refine ⟨⟨argData, h, hgen, hbuild, ?_⟩, _, rfl, ?_⟩
  · exact (argsBuffer_sound.1 packedAdapter _ _ _ argData [82, 117, 110] [97, 46, 115, 111] 50 2
      false h [scalarCall] scalarCall hgen hbuild (by rw [hsize]; decide) (by decide)).1
  · exact argsBuffer_sound.2.1 packedFwkAdapter (fun _ => 0) (Str.fill 8 0) 0 50 2 false _
      [scalarCall] scalarCall rfl (by decide) (by decide)

/-- The data of the input begin at 112 + 8 + 16 + 50 bytes. -/
theorem hostScalar_not_aligned :
    ∃ h, AicpuTfArgsHandler.buildTfArgs packedFwkAdapter 2 false (fun _ => 0) (Str.fill 8 0) 50 0
        = some h ∧
      ∃ p ∈ embedded scalarCall.env
        (AicpuTfArgsHandler.updateDeviceExtInfoAddr packedFwkAdapter h 0) 0 scalarCall.inputs,
        p.2.start = 186 ∧ ¬ h.alignBytes ∣ p.2.start :=
  ⟨_, rfl, (0, ⟨186, 4⟩), by decide, rfl, by decide⟩

end OpBase.Aicpu
