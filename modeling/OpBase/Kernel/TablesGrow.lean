import OpBase.Kernel.SelectBin

/-!
# The tables of an op while its binaries are read

`AppendDynBin` makes the keys of one binary after the other, and notes on the way what it reads
of their tensors. A key made early does not see what is noted later, while `GenerateKey` sees the
tables as they are at the end. What stays is said here: formats and implementation modes are only
added, and the rest of what is looked at is not touched, but for match modes and types of
tensors.

> `grows_appendBins`: the tables after any binaries have what they had before.
-/

namespace OpBase.Kernel

open OpBase.Lib
open Option (bind_eq_some_iff)

/-! ## One tensor -/

/-- There is a format that is not ND. -/
def FormatInfo.Mixed (env : Env) (formatInfo : FormatInfo) : Prop :=
  ∃ format ∈ formatInfo.supportFormats, format ≠ env.ND

/-- Infos that more was noted in. -/
structure TensorInfo.Grows (env : Env) (info info' : TensorInfo) : Prop where
  opType : info'.opType = info.opType
  shapeSupportType : info'.shapeSupportType = info.shapeSupportType
  formats : info.fmtInfo.supportFormats ⊆ info'.fmtInfo.supportFormats
  fmtType : info.fmtInfo.Mixed env → info.fmtInfo.fmtType ≠ .ONLY_SUPPORT_ND →
    info'.fmtInfo.fmtType ≠ .ONLY_SUPPORT_ND

namespace TensorInfo

variable {env : Env} {info info' info'' : TensorInfo}

theorem Grows.refl (info : TensorInfo) : info.Grows env info :=
  ⟨rfl, rfl, fun _ h => h, fun _ h => h⟩

theorem Grows.trans (h : info.Grows env info') (h' : info'.Grows env info'') :
    info.Grows env info'' where
  opType := h'.opType.trans h.opType
  shapeSupportType := h'.shapeSupportType.trans h.shapeSupportType
  formats _ hmem := h'.formats (h.formats hmem)
  fmtType := by
    intro ⟨format, hmem, hne⟩ hfmtType
    exact h'.fmtType ⟨format, h.formats hmem, hne⟩ (h.fmtType ⟨format, hmem, hne⟩ hfmtType)

theorem Grows.withType (tensorType : TensorType) (h : info.Grows env info') :
    info.Grows env { info' with tensorType } := ⟨h.opType, h.shapeSupportType, h.formats, h.fmtType⟩

theorem grows_noteMatchMode (tensor : TensorObj) (info : TensorInfo) :
    info.Grows env (noteMatchMode tensor info) := by
  unfold noteMatchMode
  split
  next => exact ⟨rfl, rfl, fun _ h => h, fun _ h => h⟩
  next => exact Grows.refl info

theorem grows_addFormat (info : TensorInfo) (format : Format) :
    info.Grows env (info.addFormat format) :=
  ⟨rfl, rfl, fun _ h => List.mem_insert_of_mem h, fun _ h => h⟩

end TensorInfo

/-- A table with another format does not become one for ND only. -/
theorem fmtType_updated {env : Env} {formatInfo : FormatInfo} (h : formatInfo.Mixed env) :
    (formatInfo.updated env).fmtType ≠ .ONLY_SUPPORT_ND := by
  obtain ⟨format, hmem, hne⟩ := h
  unfold FormatInfo.updated
  dsimp only
  split
  next => decide
  next hnd =>
    split
    next hlen =>
      obtain ⟨only, honly⟩ := List.length_eq_one_iff.mp hlen
      rw [honly, List.mem_singleton] at hmem hnd
      exact absurd (hmem.trans (not_not.mp hnd).symm) hne
    next => decide

variable {status : Status}

section Assemble

variable {env : Env} {opType : UInt32} {genPlaceholder hasDevPtrArg : Bool}

section

variable (tensor : TensorObj) (key : Str) (info : TensorInfo)

theorem grows_assembleFormat :
    info.Grows env (assembleKeyForSingleTensor.assembleFormat env opType tensor key info).2.2 := by
  unfold assembleKeyForSingleTensor.assembleFormat
  split
  next => exact TensorInfo.Grows.refl info
  next format _ => exact info.grows_addFormat format
  next => exact TensorInfo.Grows.refl info

theorem grows_assembleKeyForSingleTensor :
    info.Grows env (assembleKeyForSingleTensor env opType tensor key info).2.2 := by
  have hnote : info.Grows env (noteMatchMode tensor info) :=
    TensorInfo.grows_noteMatchMode tensor info
  unfold assembleKeyForSingleTensor
  dsimp only
  split
  next => exact hnote
  next => exact hnote.trans (grows_assembleFormat tensor _ _)
  next => exact hnote.trans (grows_assembleFormat tensor _ _)

theorem grows_plain :
    info.Grows env (assembleTensor.plain env opType key info tensor).2.2 := by
  unfold assembleTensor.plain
  dsimp only
  split
  next =>
    exact ((TensorInfo.Grows.refl info).withType _).trans
      (grows_assembleKeyForSingleTensor tensor _ _)
  next => exact grows_assembleKeyForSingleTensor tensor _ _

end

/-- One tensor of a description only adds to its table. -/
theorem grows_assembleTensor (tensor : TensorJson) (key : Str) (info : TensorInfo) :
    info.Grows env (assembleTensor env opType genPlaceholder hasDevPtrArg tensor key info).2.2 := by
  cases tensor with
  | null => exact (TensorInfo.Grows.refl info).withType _
  | array tensors =>
    cases tensors with
    | nil => exact grows_plain _ _ _
    | cons tensor tensors =>
      have h : info.Grows env (assembleKeyForSingleTensor env opType tensor key info).2.2 :=
        grows_assembleKeyForSingleTensor tensor key info
      unfold assembleTensor
      dsimp only
      split
      next heq =>
        rw [heq] at h
        exact h
      next heq =>
        rw [heq] at h
        split
        next => exact h.withType _
        next => exact h.withType _
  | object tensor =>
    unfold assembleTensor
    dsimp only
    split
    next => exact (TensorInfo.Grows.refl info).withType _
    next =>
      split
      next => exact (TensorInfo.Grows.refl info).withType _
      next => exact grows_plain _ _ _

theorem grows_update (infos : Nat → TensorInfo) {cnt : Nat} {info : TensorInfo}
    (h : (infos cnt).Grows env info) (i : Nat) :
    (infos i).Grows env (Function.update infos cnt info i) := by
  by_cases hi : i = cnt
  · rw [hi, Function.update_self]
    exact h
  · rw [Function.update_of_ne hi]
    exact TensorInfo.Grows.refl _

/-- So do the tensors of a list, each to its own. -/
theorem grows_assembleKeyByTensor {tensors : List TensorJson} {cnt : Nat} {key : Str}
    {infos : Nat → TensorInfo} {key' : Str} {infos' : Nat → TensorInfo}
    (h : assembleKeyByTensor env opType genPlaceholder hasDevPtrArg cnt tensors key infos =
      some (status, key', infos')) (i : Nat) : (infos i).Grows env (infos' i) := by
  induction tensors generalizing cnt key infos with
  | nil =>
    cases h
    exact TensorInfo.Grows.refl _
  | cons tensor tensors ih =>
    unfold assembleKeyByTensor at h
    split at h
    next => cases h
    next =>
      have htensor : (infos cnt).Grows env
          (assembleTensor env opType genPlaceholder hasDevPtrArg tensor key (infos cnt)).2.2 :=
        grows_assembleTensor tensor key (infos cnt)
      have hupdate := grows_update infos htensor i
      dsimp only at h
      split at h
      next =>
        cases h
        exact hupdate
      next => exact hupdate.trans (ih h)

theorem grows_updateFormatType (infos : Nat → TensorInfo) (validTensorNum i : Nat) :
    (infos i).Grows env (updateFormatType env infos validTensorNum i) := by
  unfold updateFormatType
  split
  next => exact ⟨rfl, rfl, fun _ h => h, fun h _ => fmtType_updated h⟩
  next => exact TensorInfo.Grows.refl _

end Assemble

/-! ## The tables of an op -/

namespace OpKernel

/-- Tables that more was noted in. -/
structure Grows (env : Env) (k k' : OpKernel) : Prop where
  opType : k'.opType = k.opType
  determinConfig : k'.determinConfig = k.determinConfig
  customizedSimplifiedKeyMode : k'.customizedSimplifiedKeyMode = k.customizedSimplifiedKeyMode
  ingnoreAttrSimplifiedKeyMode : k'.ingnoreAttrSimplifiedKeyMode = k.ingnoreAttrSimplifiedKeyMode
  attrInfos : k'.attrInfos = k.attrInfos
  implMode : ∀ mode, k.isSupportImplMode mode → k'.isSupportImplMode mode
  inputInfos : ∀ i, (k.inputInfos i).Grows env (k'.inputInfos i)
  outputInfos : ∀ i, (k.outputInfos i).Grows env (k'.outputInfos i)

variable {env : Env} {k k' k'' : OpKernel}

theorem Grows.refl (k : OpKernel) : k.Grows env k :=
  ⟨rfl, rfl, rfl, rfl, rfl, fun _ h => h, fun _ => TensorInfo.Grows.refl _,
    fun _ => TensorInfo.Grows.refl _⟩

theorem Grows.trans (h : k.Grows env k') (h' : k'.Grows env k'') : k.Grows env k'' where
  opType := h'.opType.trans h.opType
  determinConfig := h'.determinConfig.trans h.determinConfig
  customizedSimplifiedKeyMode :=
    h'.customizedSimplifiedKeyMode.trans h.customizedSimplifiedKeyMode
  ingnoreAttrSimplifiedKeyMode :=
    h'.ingnoreAttrSimplifiedKeyMode.trans h.ingnoreAttrSimplifiedKeyMode
  attrInfos := h'.attrInfos.trans h.attrInfos
  implMode mode hmode := h'.implMode mode (h.implMode mode hmode)
  inputInfos i := (h.inputInfos i).trans (h'.inputInfos i)
  outputInfos i := (h.outputInfos i).trans (h'.outputInfos i)

theorem Grows.ofInputs (k : OpKernel) (inputNum : Nat) {inputInfos : Nat → TensorInfo}
    (h : ∀ i, (k.inputInfos i).Grows env (inputInfos i)) :
    k.Grows env { k with inputNum, inputInfos } :=
  ⟨rfl, rfl, rfl, rfl, rfl, fun _ h => h, h, fun _ => TensorInfo.Grows.refl _⟩

theorem Grows.ofOutputs (k : OpKernel) (outputNum : Nat) {outputInfos : Nat → TensorInfo}
    (h : ∀ i, (k.outputInfos i).Grows env (outputInfos i)) :
    k.Grows env { k with outputNum, outputInfos } :=
  ⟨rfl, rfl, rfl, rfl, rfl, fun _ h => h, fun _ => TensorInfo.Grows.refl _, h⟩

theorem Grows.ofAttrLen (k : OpKernel) (maxAttrLen : Nat) : k.Grows env { k with maxAttrLen } :=
  ⟨rfl, rfl, rfl, rfl, rfl, fun _ h => h, fun _ => TensorInfo.Grows.refl _,
    fun _ => TensorInfo.Grows.refl _⟩

variable {bin : BinJson}

/-- The inputs of a description only add to the tables. -/
theorem grows_assembleInputs {key key' : Str}
    (h : assembleInputs env k bin key = some (status, key', k')) : k.Grows env k' := by
  unfold assembleInputs at h
  split at h
  next =>
    cases h
    exact Grows.refl k
  next inputs _ =>
    obtain ⟨⟨status', key'', infos⟩, hassemble, h⟩ := bind_eq_some_iff.mp h
    have hinfos := grows_assembleKeyByTensor hassemble
    cases status' with
    | error =>
      cases h
      exact Grows.ofInputs k _ hinfos
    | success =>
      cases h
      exact Grows.ofInputs k _ fun i => (hinfos i).trans (grows_updateFormatType infos _ i)

/-- The inputs do not touch the outputs' tables. -/
theorem outputInfos_assembleInputs {key key' : Str}
    (h : assembleInputs env k bin key = some (status, key', k')) :
    k'.outputInfos = k.outputInfos := by
  unfold assembleInputs at h
  split at h
  next =>
    cases h
    rfl
  next =>
    obtain ⟨⟨status', key'', infos⟩, _, h⟩ := bind_eq_some_iff.mp h
    cases status' with
    | error =>
      cases h
      rfl
    | success =>
      cases h
      rfl

/-- So do its outputs. -/
theorem grows_assembleOutputs {key key' : Str}
    (h : assembleOutputs env k bin key = some (status, key', k')) : k.Grows env k' := by
  unfold assembleOutputs at h
  split at h
  next =>
    cases h
    exact Grows.refl k
  next outputs _ =>
    obtain ⟨⟨status', key'', infos⟩, hassemble, h⟩ := bind_eq_some_iff.mp h
    have hinfos := grows_assembleKeyByTensor hassemble
    cases status' with
    | error =>
      cases h
      exact Grows.ofOutputs k _ hinfos
    | success =>
      cases h
      exact Grows.ofOutputs k _ fun i => (hinfos i).trans (grows_updateFormatType infos _ i)

theorem foldl_or_and_ne_zero (modes : List OpImplMode) (bm mode : UInt32) :
    modes.foldl (· ||| ·) bm &&& mode ≠ 0 ↔ bm &&& mode ≠ 0 ∨ ∃ m ∈ modes, m &&& mode ≠ 0 := by
  induction modes generalizing bm with
  | nil => simp
  | cons m modes ih =>
    have hor : (bm ||| m) &&& mode = bm &&& mode ||| m &&& mode :=
      UInt32.toBitVec_inj.mp BitVec.and_or_distrib_right
    rw [List.foldl_cons, ih, hor, ne_eq, UInt32.or_eq_zero_iff, not_and_or, or_assoc,
      List.exists_mem_cons_iff]

theorem grows_implModeBm (k : OpKernel) (modes : List OpImplMode) :
    k.Grows env { k with implModeBm := modes.foldl (· ||| ·) k.implModeBm } where
  opType := rfl
  determinConfig := rfl
  customizedSimplifiedKeyMode := rfl
  ingnoreAttrSimplifiedKeyMode := rfl
  attrInfos := rfl
  implMode mode h := by
    unfold isSupportImplMode at h ⊢
    rw [decide_eq_true_iff] at h ⊢
    exact (foldl_or_and_ne_zero modes _ mode).mpr (Or.inl h)
  inputInfos _ := TensorInfo.Grows.refl _
  outputInfos _ := TensorInfo.Grows.refl _

variable {params : KeyParams} {path : Str}

/-- The steps of `GenerateKeyByJson`, up to an error among the tensors. -/
theorem generateKeyByJson_cases (h : generateKeyByJson env k bin path = some (params, k')) :
    ∃ status inputKey k₁, assembleInputs env
        { k with implModeBm := (implModes bin path).foldl (· ||| ·) k.implModeBm } bin [] =
          some (status, inputKey, k₁) ∧
      (status = .error ∧ k' = k₁ ∨ status = .success ∧ ∃ status' tensorKey k₂,
          assembleOutputs env k₁ bin inputKey = some (status', tensorKey, k₂) ∧
          (status' = .error ∧ k' = k₂ ∨
            status' = .success ∧ ∃ attrKey, assembleAttrs env k₂ bin tensorKey = some attrKey ∧
              k' = { k₂ with maxAttrLen := max k₂.maxAttrLen (attrKey.length - tensorKey.length) } ∧
              params.keys = (contextKeys bin path).map fun key =>
                { key with key := key.key ++ attrKey })) := by
  unfold generateKeyByJson at h
  obtain ⟨⟨status, inputKey, k₁⟩, hinputs, h⟩ := bind_eq_some_iff.mp h
  refine ⟨status, inputKey, k₁, hinputs, ?_⟩
  cases status with
  | error =>
    cases h
    exact Or.inl ⟨rfl, rfl⟩
  | success =>
    obtain ⟨⟨status', tensorKey, k₂⟩, houtputs, h⟩ := bind_eq_some_iff.mp h
    refine Or.inr ⟨rfl, status', tensorKey, k₂, houtputs, ?_⟩
    cases status' with
    | error =>
      cases h
      exact Or.inl ⟨rfl, rfl⟩
    | success =>
      obtain ⟨attrKey, hattrs, h⟩ := bind_eq_some_iff.mp h
      cases h
      exact Or.inr ⟨rfl, attrKey, hattrs, rfl, rfl⟩

theorem grows_of_modes (h : generateKeyByJson env k bin path = some (params, k')) :
    ({ k with implModeBm := (implModes bin path).foldl (· ||| ·) k.implModeBm } : OpKernel).Grows
      env k' := by
  obtain ⟨_, _, k₁, hinputs, h⟩ := generateKeyByJson_cases h
  have hgrows := grows_assembleInputs hinputs
  obtain ⟨_, rfl⟩ | ⟨_, _, _, k₂, houtputs, h⟩ := h
  · exact hgrows
  · have hgrows' := hgrows.trans (grows_assembleOutputs houtputs)
    obtain ⟨_, rfl⟩ | ⟨_, _, _, rfl, _⟩ := h
    · exact hgrows'
    · exact hgrows'.trans (Grows.ofAttrLen k₂ _)

theorem grows_generateKeyByJson (h : generateKeyByJson env k bin path = some (params, k')) :
    k.Grows env k' :=
  (grows_implModeBm k (implModes bin path)).trans (grows_of_modes h)

/-- The modes of a description are supported once its keys are made. -/
theorem supports_of_modes {mode : OpImplMode}
    (h : generateKeyByJson env k bin path = some (params, k')) (hmem : mode ∈ implModes bin path)
    (hmode : mode ≠ 0) : k'.isSupportImplMode mode := by
  refine (grows_of_modes h).implMode mode ?_
  unfold isSupportImplMode
  rw [decide_eq_true_iff]
  refine (foldl_or_and_ne_zero _ _ mode).mpr (Or.inr ⟨mode, hmem, ?_⟩)
  rwa [UInt32.and_self]

theorem grows_hashAndInsert {enableDebug : Bool} {paths : BinPaths}
    (keys : List KeyAndDetail) (k : OpKernel) :
    k.Grows env (hashAndInsert env enableDebug paths params keys k).2 := by
  induction keys generalizing k with
  | nil => exact Grows.refl k
  | cons key keys ih =>
    have hbins : ∀ bins staticBins, k.Grows env { k with bins, staticBins } := fun _ _ =>
      ⟨rfl, rfl, rfl, rfl, rfl, fun _ h => h, fun _ => TensorInfo.Grows.refl _,
        fun _ => TensorInfo.Grows.refl _⟩
    unfold hashAndInsert
    split
    next => exact (hbins _ _).trans (ih _)
    next =>
      dsimp only
      split
      next => exact (hbins _ _).trans (ih _)
      next =>
        split
        next => exact Grows.refl k
        next =>
          split
          next => exact (hbins _ _).trans (ih _)
          next => exact ih k

/-! ## A list of binaries -/

section Append

variable {enableDebug : Bool} {dir : Str} {bin : BinJson} {binList : List BinJson}
  {determinConfig : Int}

theorem appendBins_cons (h : appendBins env enableDebug dir (bin :: binList) k =
      some (.success, k'')) :
    ∃ k', appendBin env enableDebug dir bin k = some (.success, k') ∧
      appendBins env enableDebug dir binList k' = some (.success, k'') := by
  unfold appendBins at h
  obtain ⟨⟨status, k'⟩, hbin, h⟩ := bind_eq_some_iff.mp h
  cases status with
  | error => cases h
  | success => exact ⟨k', hbin, h⟩

/-- The descriptions can be appended in two parts. -/
theorem appendBins_append {before after : List BinJson}
    (h : appendBins env enableDebug dir (before ++ after) k = some (.success, k'')) :
    ∃ k', appendBins env enableDebug dir before k = some (.success, k') ∧
      appendBins env enableDebug dir after k' = some (.success, k'') := by
  induction before generalizing k with
  | nil => exact ⟨k, rfl, h⟩
  | cons bin before ih =>
    obtain ⟨k₁, hbin, h⟩ := appendBins_cons h
    obtain ⟨k', hbefore, hafter⟩ := ih h
    refine ⟨k', ?_, hafter⟩
    unfold appendBins
    rw [hbin]
    exact hbefore

section

variable (hmode : k.customizedSimplifiedKeyMode = false)
include hmode

/-- A description that was appended has only added to the tables. -/
theorem appendBin_of_keys {pos : Nat} {params : KeyParams}
    (hpath : bin.jsonFilePath.map (resultJsonPath k) = some path)
    (hpos : find path (ascii ".json") = some pos)
    (hkeys : generateKeyByJson env k bin path = some (params, k'))
    (h : appendBin env enableDebug dir bin k = some (.success, k'')) : k'.Grows env k'' := by
  unfold appendBin at h
  rw [hpath] at h
  dsimp only at h
  rw [hpos] at h
  dsimp only at h
  rw [if_neg (by rw [hmode]; decide), hkeys] at h
  have hinsert : k'.Grows env
      (hashAndInsert env enableDebug ⟨dir, path, pos⟩ params params.keys k').2 :=
    grows_hashAndInsert params.keys k'
  dsimp only [Option.bind_eq_bind, Option.bind_some] at h
  split at h
  next => cases h
  next heq =>
    rw [heq] at hinsert
    cases h
    exact ⟨hinsert.opType, hinsert.determinConfig, hinsert.customizedSimplifiedKeyMode,
      hinsert.ingnoreAttrSimplifiedKeyMode, hinsert.attrInfos, hinsert.implMode,
      hinsert.inputInfos, hinsert.outputInfos⟩

theorem grows_appendBin
    (h : appendBin env enableDebug dir bin k = some (.success, k')) : k.Grows env k' := by
  cases hpath : bin.jsonFilePath.map (resultJsonPath k) with
  | none =>
    unfold appendBin at h
    rw [hpath] at h
    cases h
    exact Grows.refl k
  | some path =>
    cases hpos : find path (ascii ".json") with
    | none =>
      unfold appendBin at h
      rw [hpath] at h
      dsimp only at h
      rw [hpos] at h
      cases h
      exact Grows.refl k
    | some pos =>
      cases hkeys : generateKeyByJson env k bin path with
      | none =>
        unfold appendBin at h
        rw [hpath] at h
        dsimp only at h
        rw [hpos] at h
        dsimp only at h
        rw [if_neg (by rw [hmode]; decide), hkeys] at h
        cases h
      | some made =>
        exact (grows_generateKeyByJson hkeys).trans (appendBin_of_keys hmode hpath hpos hkeys h)

/-- All descriptions only add to the tables. -/
theorem grows_appendBins
    (h : appendBins env enableDebug dir binList k = some (.success, k')) : k.Grows env k' := by
  induction binList generalizing k with
  | nil =>
    cases h
    exact Grows.refl _
  | cons bin binList ih =>
    obtain ⟨k₁, hbin, h⟩ := appendBins_cons h
    have hgrows := grows_appendBin hmode hbin
    exact hgrows.trans (ih (hgrows.customizedSimplifiedKeyMode.trans hmode) h)

end

/-- The tables before the first key. -/
def lookedOver (env : Env) (determinConfig : Int) (binList : List BinJson) (k : OpKernel) :
    OpKernel :=
  let k := judgeCustomizedSimplifiedKeyMode binList { k with determinConfig }
  let attrInfos := (judgeAttrSupportAll env k.customizedSimplifiedKeyMode binList k.attrInfos).2
  let k := initTensorInfo { k with attrInfos }
  { k with inputInfos := (judgeInputSupportAll binList k.inputInfos).2 }

theorem opType_judgeInput (input : TensorJson) (info : TensorInfo) :
    (judgeInput input info).opType = info.opType := by
  unfold judgeInput
  split
  next => rfl
  next =>
    split
    next =>
      split
      next => rfl
      next =>
        unfold recordDimNumAndCheck
        split
        next => rfl
        next =>
          split
          next => rfl
          next => rfl
    next => rfl

theorem opType_judgeInputs (inputs : List TensorJson) (cnt : Nat) (infos : Nat → TensorInfo)
    (i : Nat) : ((judgeInputs cnt inputs infos).2 i).opType = (infos i).opType := by
  induction inputs generalizing cnt infos with
  | nil => rfl
  | cons input inputs ih =>
    unfold judgeInputs
    split
    next => rfl
    next =>
      rw [ih]
      by_cases hi : i = cnt
      · rw [hi, Function.update_self, opType_judgeInput]
      · rw [Function.update_of_ne hi]

theorem opType_judgeInputSupportAll (binList : List BinJson) (infos : Nat → TensorInfo)
    (i : Nat) : ((judgeInputSupportAll binList infos).2 i).opType = (infos i).opType := by
  induction binList generalizing infos with
  | nil => rfl
  | cons bin binList ih =>
    unfold judgeInputSupportAll
    split
    next => rfl
    next inputs _ =>
      have hinputs := opType_judgeInputs inputs 0 infos i
      split
      next heq =>
        rw [heq] at hinputs
        exact hinputs
      next heq =>
        rw [heq] at hinputs
        rw [ih, hinputs]

/-- After the look over the descriptions every table has the operator's type. -/
theorem opType_lookedOver {k₀ : OpKernel} {i : Nat} (hi : i < maxTensorSize) :
    ((lookedOver env determinConfig binList k₀).inputInfos i).opType =
        (lookedOver env determinConfig binList k₀).opType ∧
      ((lookedOver env determinConfig binList k₀).outputInfos i).opType =
        (lookedOver env determinConfig binList k₀).opType := by
  unfold lookedOver initTensorInfo
  dsimp only
  rw [opType_judgeInputSupportAll, if_pos hi, if_pos hi]
  exact ⟨rfl, rfl⟩

/-- What registering does: all descriptions in turn, then the attributes and the length of keys. -/
theorem appendDynBin_cases {k₀ : OpKernel}
    (h : appendDynBin env enableDebug determinConfig dir (some binList) k₀ = some (.success, k)) :
    ∃ k' attrInfos, appendBins env enableDebug dir binList
        (lookedOver env determinConfig binList k₀) = some (.success, k') ∧
      adjustAttrInfos k' = some attrInfos ∧
      k = { k' with attrInfos, maxKeyLength := keyLength k' } := by
  unfold appendDynBin at h
  dsimp only at h
  split at h
  next => cases h
  next hattrs =>
    split at h
    next => cases h
    next hinputs =>
      obtain ⟨⟨status, k'⟩, hbins, h⟩ := bind_eq_some_iff.mp h
      cases status with
      | error => cases h
      | success =>
        obtain ⟨attrInfos, hadjust, h⟩ := bind_eq_some_iff.mp h
        cases h
        refine ⟨k', attrInfos, ?_, hadjust, rfl⟩
        unfold lookedOver
        dsimp only
        rw [hattrs, hinputs]
        exact hbins

end Append

end OpKernel

end OpBase.Kernel
