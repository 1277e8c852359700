import OpBase.Kernel.TablesGrow

/-!
# Tensors in the key of a binary and in the key of a call

A binary is registered with the key that `GenerateKeyByJson` makes from its description, and a
call looks for the key that `GenerateKey` makes from its arguments. The bytes of tensors are made
by `AssembleKeyByTensor` there and by `GenKeyByArgImpl` here, from infos that are noted on the
way: those of its turn for the binary, those at the end for the call.

> `visitBy_noted`: they are the same for tensors as they are described, if every one of them is
> left out or told apart on both sides alike.
-/

namespace OpBase.Kernel

open List OpBase.Lib

variable (env : Env)

/-! ## Tensors as they are described -/

/-- A tensor has the type, the format and as many dimensions as described. -/
structure TensorObj.Fits (obj : TensorObj) (t : Tensor) : Prop where
  dtype : ∀ s, obj.dtype = some s → getDataType s = some t.dataType
  format : ∀ s, obj.format = some s → getFormat env s = some t.primaryFormat
  rank : ∀ dims, obj.shape = some (.array dims) → dims = [-2] ∨ dims.length = t.storageShape.length

/-- An argument is null where the description is, and a list as long. -/
def TensorJson.Fits : TensorJson → OpArg → Prop
  | .null, .aclTensor none => True
  | .object obj, .aclTensor none => obj.type = some (ascii "null")
  | .object obj, .aclTensor (some t) => obj.type ≠ some (ascii "null") ∧ obj.Fits env t
  | .array objs, .aclTensorList (some ts) =>
    List.Forall₂ (fun obj t => ∃ t', t = some t' ∧ obj.Fits env t') objs ts
  | _, _ => False

/-! ## What both sides treat alike -/

/-- A tensor with a key, `info` in the tables then and `final` at the end: it is described by type
and format, the match mode was known, and dimensions are given where they count. -/
structure TensorObj.Settled (info final : TensorInfo) (obj : TensorObj) (t : Tensor) : Prop where
  dtype : obj.dtype ≠ none
  format : obj.format ≠ none
  dtMatchMode : dtypeChar (noteMatchMode obj info).dtMatchMode t.dataType =
    dtypeChar final.dtMatchMode t.dataType
  c0 : final.opType = env.transDataId → t.primaryFormat = env.FRACTAL_Z →
    t.storageShape.length = fractalZSize →
    ∃ dims, obj.shape = some (.array dims) ∧ dims.length = fractalZSize ∧
      env.keyChar (dims.getD (fractalZSize - 1) 0) =
        env.keyChar (t.storageShape.getD (fractalZSize - 1) 0)
  rank : final.shapeSupportType = .NOT_SUPPORT_ALL →
    ∃ dims, obj.shape = some (.array dims) ∧
      env.keyChar dims.length = env.keyChar t.storageShape.length

/-- An argument that is left out on both sides or on none, `ignored` saying whether a call leaves
it out; a list that is not left out has a tensor, and is folded on both sides or on none. -/
def TensorJson.Settled (genPlaceholder hasDevPtrArg : Bool) (ignored : Prop)
    (info final : TensorInfo) : TensorJson → OpArg → Prop
  | .object obj, .aclTensor (some t) =>
    (genPlaceholder ∧ obj.paramType.map getTensorType = some .OPTIONAL ↔ ignored) ∧
      (¬ ignored → obj.Settled env info final t)
  | .array (obj :: objs), .aclTensorList (some (some t :: _)) =>
    ¬ ignored ∧ obj.Settled env info final t ∧
      env.keyChar ((if hasDevPtrArg then 1 else objs.length + 1 : Nat) : Int) = env.keyChar
          ((if final.tensorType = .DYNAMIC_FOLDED then 1 else objs.length + 1 : Nat) : Int)
  | .array [], _ => ignored
  | _, _ => True

/-! ## One tensor -/

section Tensors

variable {env} {opType : UInt32} {info final : TensorInfo} {obj : TensorObj} {t : Tensor}
  {noted : TensorInfo}

/-- The bytes of a tensor that has a key. -/
def tensorKey (env : Env) (final : TensorInfo) (t : Tensor) : Str :=
  [dtypeChar final.dtMatchMode t.dataType, t.primaryFormat.toUInt8] ++ c0Key ++ rankKey
where
  /-- The last dimension of a tensor to transform. -/
  c0Key : Str :=
    if final.opType = env.transDataId ∧ t.primaryFormat = env.FRACTAL_Z ∧
        t.storageShape.length = fractalZSize then
      [env.keyChar (t.storageShape.getD (fractalZSize - 1) 0)]
    else []
  /-- The number of dimensions. -/
  rankKey : Str :=
    if final.shapeSupportType = .NOT_SUPPORT_ALL then [env.keyChar t.storageShape.length] else []

theorem genKeyByTensor_eq {finals : Nat → TensorInfo} {ign : Bool} {idx : Nat} {key : KeyBuf}
    (hidx : idx < maxTensorSize)
    (hign : ¬ (ign ∧ (finals idx).tensorType = .OPTIONAL))
    (hformat : formatChar env (finals idx) t = some t.primaryFormat.toUInt8) :
    genKeyByTensor env finals ign idx (some t) key =
      (.success, (tensorKey env (finals idx) t).foldl KeyBuf.put key) := by
  unfold genKeyByTensor
  dsimp only
  rw [if_neg (Nat.not_le.mpr hidx), if_neg hign, hformat]
  unfold tensorKey genTransDataKey genDimension tensorKey.c0Key tensorKey.rankKey
  dsimp only
  rw [foldl_append, foldl_append]
  split
  next =>
    split
    next => rfl
    next => rfl
  next =>
    split
    next => rfl
    next => rfl

/-- The block size in the key is the same on both sides. -/
theorem parseC0_eq (hfits : obj.Fits env t) (h : obj.Settled env info final t)
    (hop : final.opType = opType) (key : Str) :
    (if opType = env.transDataId ∧ t.primaryFormat = env.FRACTAL_Z then parseC0 env obj key
      else key) = key ++ tensorKey.c0Key env final t := by
  unfold tensorKey.c0Key
  by_cases htrans : opType = env.transDataId ∧ t.primaryFormat = env.FRACTAL_Z
  · rw [if_pos htrans]
    by_cases hlen : t.storageShape.length = fractalZSize
    · obtain ⟨dims, hshape, hdims, hchar⟩ := h.c0 (hop.trans htrans.1) htrans.2 hlen
      rw [if_pos ⟨hop.trans htrans.1, htrans.2, hlen⟩, ← hchar]
      unfold parseC0
      rw [hshape]
      dsimp only
      rw [if_pos hdims]
    · rw [if_neg (fun hall => hlen hall.2.2), append_nil]
      unfold parseC0
      split
      next dims hshape =>
        rw [if_neg]
        intro hdims
        obtain rfl | hrank := hfits.rank dims hshape
        · cases hdims
        · exact hlen (hrank.symm.trans hdims)
      next => rfl
  · rw [if_neg htrans, if_neg, append_nil]
    intro ⟨htype, hformat, _⟩
    exact htrans ⟨hop.symm.trans htype, hformat⟩

theorem parseShapeDimNum_eq (h : obj.Settled env info final t)
    (hshape : final.shapeSupportType = noted.shapeSupportType) (key : Str) :
    parseShapeDimNum env noted obj key = key ++ tensorKey.rankKey env final t := by
  unfold parseShapeDimNum tensorKey.rankKey
  rw [← hshape]
  split
  next hnot =>
    obtain ⟨dims, hdims, hchar⟩ := h.rank hnot
    rw [hdims, ← hchar]
  next => rw [append_nil]

theorem assembleKeyForSingleTensor_eq (hfits : obj.Fits env t)
    (h : obj.Settled env info final t) (hop : final.opType = opType)
    (hshape : final.shapeSupportType = info.shapeSupportType) (key : Str) :
    assembleKeyForSingleTensor env opType obj key info =
      (.success, key ++ tensorKey env final t,
        (noteMatchMode obj info).addFormat t.primaryFormat) := by
  obtain ⟨dtype, hdtype⟩ := Option.ne_none_iff_exists'.mp h.dtype
  obtain ⟨format, hformat⟩ := Option.ne_none_iff_exists'.mp h.format
  have hnoted : final.shapeSupportType =
      ((noteMatchMode obj info).addFormat t.primaryFormat).shapeSupportType := by
    have hnote : info.Grows env (noteMatchMode obj info) := TensorInfo.grows_noteMatchMode obj info
    rw [hshape]
    exact hnote.shapeSupportType.symm
  unfold assembleKeyForSingleTensor assembleKeyForSingleTensor.assembleFormat
  rw [hdtype, hformat, Option.map_some, Option.map_some, hfits.dtype dtype hdtype,
    hfits.format format hformat]
  dsimp only
  rw [parseC0_eq hfits h hop, parseShapeDimNum_eq h hnoted, h.dtMatchMode]
  unfold tensorKey
  simp only [append_assoc, cons_append, nil_append]

theorem formatChar_eq (hmem : t.primaryFormat ∈ final.fmtInfo.supportFormats)
    (hnd : final.fmtInfo.fmtType = .ONLY_SUPPORT_ND → t.primaryFormat = env.ND) :
    formatChar env final t = some t.primaryFormat.toUInt8 := by
  unfold formatChar
  by_cases honly : final.fmtInfo.fmtType = .ONLY_SUPPORT_ND
  · rw [if_pos honly, hnd honly]
  · rw [if_neg honly, if_pos hmem]

theorem dtMatchMode_noteMatchMode (obj : TensorObj) {info info' : TensorInfo}
    (h : info'.dtMatchMode = info.dtMatchMode) :
    (noteMatchMode obj info').dtMatchMode = (noteMatchMode obj info).dtMatchMode := by
  unfold noteMatchMode
  rw [h]
  split
  next => rfl
  next => exact h

theorem TensorObj.Settled.withType (h : obj.Settled env info final t) (tensorType : TensorType) :
    obj.Settled env { info with tensorType } final t :=
  ⟨h.dtype, h.format, (congrArg (dtypeChar · t.dataType)
    (dtMatchMode_noteMatchMode obj (by rfl))).trans h.dtMatchMode, h.c0, h.rank⟩

variable {finals : Nat → TensorInfo} {genPlaceholder hasDevPtrArg ign : Bool} {idx : Nat}
  {key : Str}

theorem genKeyByTensor_noted (hfits : obj.Fits env t) (h : obj.Settled env info (finals idx) t)
    (hidx : idx < maxTensorSize) (hign : ¬ (ign ∧ (finals idx).tensorType = .OPTIONAL))
    (hop : (finals idx).opType = opType)
    (hgrows : (assembleKeyForSingleTensor env opType obj key info).2.2.Grows env (finals idx))
    (hnd : (finals idx).fmtInfo.fmtType = .ONLY_SUPPORT_ND →
      ∀ format ∈ (assembleKeyForSingleTensor env opType obj key info).2.2.fmtInfo.supportFormats,
        format = env.ND) :
    (assembleKeyForSingleTensor env opType obj key info).1 = .success ∧
      (assembleKeyForSingleTensor env opType obj key info).2.1 =
        key ++ tensorKey env (finals idx) t ∧
      ∀ buf, genKeyByTensor env finals ign idx (some t) buf =
        (.success, (tensorKey env (finals idx) t).foldl KeyBuf.put buf) := by
  have hshape : (finals idx).shapeSupportType = info.shapeSupportType :=
    hgrows.shapeSupportType.trans (grows_assembleKeyForSingleTensor obj key info).shapeSupportType
  have hassemble := assembleKeyForSingleTensor_eq hfits h hop hshape key
  rw [hassemble] at hgrows hnd ⊢
  have hmem : t.primaryFormat ∈
      ((noteMatchMode obj info).addFormat t.primaryFormat).fmtInfo.supportFormats :=
    mem_insert_self
  exact ⟨rfl, rfl, fun buf => genKeyByTensor_eq hidx hign
    (formatChar_eq (hgrows.formats hmem) fun honly => hnd honly _ hmem)⟩

theorem assembleTensor_skipped
    (h : (genPlaceholder ∧ obj.paramType.map getTensorType = some .OPTIONAL) ∨
      obj.type = some (ascii "null")) (key : Str) :
    assembleTensor env opType genPlaceholder hasDevPtrArg (.object obj) key info =
      (.success, key, { info with tensorType := .OPTIONAL }) := by
  unfold assembleTensor
  dsimp only
  split
  next => rfl
  next hnot =>
    rw [if_pos (h.resolve_left hnot)]

theorem assembleTensor_plain
    (hskip : ¬ (genPlaceholder ∧ obj.paramType.map getTensorType = some .OPTIONAL))
    (hnull : obj.type ≠ some (ascii "null")) (key : Str) :
    ∃ tensorType, assembleTensor env opType genPlaceholder hasDevPtrArg (.object obj) key info =
      (.success, (assembleKeyForSingleTensor env opType obj key { info with tensorType }).2) := by
  unfold assembleTensor
  dsimp only
  rw [if_neg hskip, if_neg hnull]
  unfold assembleTensor.plain
  split
  next => exact ⟨_, rfl⟩
  next => exact ⟨info.tensorType, rfl⟩

theorem assembleTensor_array {objs : List TensorObj} {key' : Str}
    (h : assembleKeyForSingleTensor env opType obj key info = (.success, key', noted)) :
    assembleTensor env opType genPlaceholder hasDevPtrArg (.array (obj :: objs)) key info =
      (.success, key' ++ [env.keyChar ((if hasDevPtrArg then 1 else objs.length + 1 : Nat) : Int)],
        { noted with tensorType := if hasDevPtrArg then .DYNAMIC_FOLDED else .DYNAMIC }) := by
  unfold assembleTensor
  dsimp only
  rw [h]
  cases hasDevPtrArg with
  | true => rfl
  | false => rfl

variable {tensor : TensorJson} {arg : OpArg}

/-- A settled tensor adds the same bytes on both sides. -/
theorem genKeyByArg_noted (hfits : tensor.Fits env arg)
    (h : tensor.Settled env genPlaceholder hasDevPtrArg
      (ign ∧ (finals idx).tensorType = .OPTIONAL) info (finals idx) arg)
    (hidx : idx < maxTensorSize) (hop : (finals idx).opType = opType)
    (hgrows : (assembleTensor env opType genPlaceholder hasDevPtrArg tensor key
      info).2.2.Grows env (finals idx)) (hnd : (finals idx).fmtInfo.fmtType = .ONLY_SUPPORT_ND →
      ∀ format ∈ (assembleTensor env opType genPlaceholder hasDevPtrArg tensor key
        info).2.2.fmtInfo.supportFormats, format = env.ND) :
    (assembleTensor env opType genPlaceholder hasDevPtrArg tensor key info).1 = .success ∧
      ∃ bs, (assembleTensor env opType genPlaceholder hasDevPtrArg tensor key info).2.1 =
          key ++ bs ∧
        ∀ buf, genKeyByArg env finals ign idx arg buf = (.success, bs.foldl KeyBuf.put buf) := by
  match tensor, arg with
  | .null, .aclTensor none => exact ⟨rfl, [], (append_nil key).symm, fun _ => rfl⟩
  | .object obj, .aclTensor none =>
    rw [assembleTensor_skipped (Or.inr hfits)]
    exact ⟨rfl, [], (append_nil key).symm, fun _ => rfl⟩
  | .object obj, .aclTensor (some t) =>
    obtain ⟨hnull, hobj⟩ := hfits
    obtain ⟨hskip, hsettled⟩ := h
    -- an optional tensor that is ignored adds nothing
    by_cases hign : ign ∧ (finals idx).tensorType = .OPTIONAL
    · rw [assembleTensor_skipped (Or.inl (hskip.mpr hign))]
      refine ⟨rfl, [], (append_nil key).symm, fun buf => ?_⟩
      unfold genKeyByArg genKeyByTensor
      dsimp only
      rw [if_neg (Nat.not_le.mpr hidx), if_pos hign]
      rfl
    · have hplain : ∃ tensorType,
          assembleTensor env opType genPlaceholder hasDevPtrArg (.object obj) key info = (.success,
            (assembleKeyForSingleTensor env opType obj key { info with tensorType }).2) :=
        assembleTensor_plain (fun hs => hign (hskip.mp hs)) hnull key
      obtain ⟨tensorType, hplain⟩ := hplain
      rw [hplain] at hgrows hnd ⊢
      obtain ⟨_, hkey, hbuf⟩ := genKeyByTensor_noted hobj ((hsettled hign).withType tensorType)
        hidx hign hop hgrows hnd
      exact ⟨rfl, _, hkey, hbuf⟩
  | .array [], .aclTensorList (some []) =>
    have hempty : assembleTensor env opType genPlaceholder hasDevPtrArg (.array []) key info =
        (.success, key,
          (assembleTensor env opType genPlaceholder hasDevPtrArg (.array []) key info).2.2) := by
      unfold assembleTensor assembleTensor.plain assembleKeyForSingleTensor
        assembleKeyForSingleTensor.assembleFormat parseShapeDimNum
      simp [TensorObj.empty]
    rw [hempty]
    refine ⟨rfl, [], (append_nil key).symm, fun buf => ?_⟩
    unfold genKeyByArg genKeyByTensorList
    dsimp only
    rw [if_pos ⟨h.1, hidx, h.2⟩]
    rfl
  | .array (obj :: objs), .aclTensorList (some (t :: ts)) =>
    cases hfits with
    | cons hobj hobjs =>
      obtain ⟨t, rfl, hobj⟩ := hobj
      obtain ⟨hign, hsettled, hchar⟩ := h
      have hshape : (finals idx).shapeSupportType = info.shapeSupportType :=
        hgrows.shapeSupportType.trans (grows_assembleTensor _ key info).shapeSupportType
      rw [assembleTensor_array (assembleKeyForSingleTensor_eq hobj hsettled hop hshape key)]
        at hgrows hnd ⊢
      have hmem : t.primaryFormat ∈
          ((noteMatchMode obj info).addFormat t.primaryFormat).fmtInfo.supportFormats :=
        mem_insert_self
      refine ⟨rfl, _, append_assoc _ _ _, fun buf => ?_⟩
      unfold genKeyByArg genKeyByTensorList
      dsimp only
      rw [if_neg (fun hall => hign ⟨hall.1, hall.2.2⟩), genKeyByTensor_eq hidx hign
        (formatChar_eq (hgrows.formats hmem) fun honly => hnd honly _ hmem)]
      dsimp only
      rw [foldl_append, hchar, hobjs.length_eq]
      rfl

/-- Every argument that has a description is one that both sides treat alike. -/
def AllSettled (env : Env) (genPlaceholder hasDevPtrArg ign : Bool)
    (infos finals : Nat → TensorInfo) (cnt : Nat) (tensors : List TensorJson)
    (args : List OpArg) : Prop :=
  ∀ (i : Nat) (tensor : TensorJson) (arg : OpArg),
    tensors[i]? = some tensor → args[i]? = some arg → tensor.Settled env genPlaceholder hasDevPtrArg
        (ign ∧ (finals (cnt + i)).tensorType = .OPTIONAL) (infos (cnt + i)) (finals (cnt + i)) arg

variable {infos : Nat → TensorInfo} {args : List OpArg} {cnt : Nat}

theorem AllSettled.nil :
    AllSettled env genPlaceholder hasDevPtrArg ign infos finals cnt [] args := by
  intro i tensor arg htensor _
  cases htensor

variable {tensors : List TensorJson}

/-- One tensor in front of settled ones. -/
theorem AllSettled.cons (h : tensor.Settled env genPlaceholder hasDevPtrArg
      (ign ∧ (finals cnt).tensorType = .OPTIONAL) (infos cnt) (finals cnt) arg)
    (htail : AllSettled env genPlaceholder hasDevPtrArg ign infos finals (cnt + 1) tensors args) :
    AllSettled env genPlaceholder hasDevPtrArg ign infos finals cnt (tensor :: tensors)
      (arg :: args) := by
  intro i tensor' arg' htensor harg
  cases i with
  | zero =>
    cases htensor
    cases harg
    exact h
  | succ i =>
    rw [Nat.add_comm i 1, ← Nat.add_assoc]
    exact htail i tensor' arg' htensor harg

theorem AllSettled.head
    (h : AllSettled env genPlaceholder hasDevPtrArg ign infos finals cnt (tensor :: tensors)
      (arg :: args)) :
    tensor.Settled env genPlaceholder hasDevPtrArg
      (ign ∧ (finals cnt).tensorType = .OPTIONAL) (infos cnt) (finals cnt) arg :=
  h 0 tensor arg rfl rfl

theorem AllSettled.tail
    (h : AllSettled env genPlaceholder hasDevPtrArg ign infos finals cnt (tensor :: tensors)
      (arg :: args)) (noted : TensorInfo) :
    AllSettled env genPlaceholder hasDevPtrArg ign (Function.update infos cnt noted) finals
      (cnt + 1) tensors args := by
  intro i tensor' arg' htensor harg
  have := h (i + 1) tensor' arg' htensor harg
  rw [Function.update_of_ne (by omega), Nat.add_assoc, Nat.add_comm 1 i]
  exact this

/-- By induction on the tensors: both sides write the same bytes. -/
theorem visitBy_noted {key' : Str} {infos infos' : Nat → TensorInfo} {status : Status}
    (hassemble : assembleKeyByTensor env opType genPlaceholder hasDevPtrArg cnt tensors key infos =
      some (status, key', infos')) (hfits : List.Forall₂ (TensorJson.Fits env) tensors args)
    (hsettled : AllSettled env genPlaceholder hasDevPtrArg ign infos finals cnt tensors args)
    (hop : ∀ i, i < maxTensorSize → (finals i).opType = opType)
    (hgrows : ∀ i, (infos' i).Grows env (finals i))
    (hnd : ∀ i, i < cnt + tensors.length → (finals i).fmtInfo.fmtType = .ONLY_SUPPORT_ND →
      ∀ format ∈ (infos' i).fmtInfo.supportFormats, format = env.ND) :
    status = .success ∧ ∃ bs, key' = key ++ bs ∧
      ∀ buf, visitBy (genKeyByArg env finals ign) cnt args buf =
        (.success, bs.foldl KeyBuf.put buf) := by
  induction hfits generalizing cnt key infos with
  | nil =>
    cases hassemble
    exact ⟨rfl, [], (append_nil _).symm, fun _ => rfl⟩
  | cons hfit hfits ih =>
    next tensor arg tensors args =>
      unfold assembleKeyByTensor at hassemble
      split at hassemble
      next => cases hassemble
      next hcnt =>
        dsimp only at hassemble
        -- the table entry of this tensor is the one it left
        have hnoted : (assembleTensor env opType genPlaceholder hasDevPtrArg tensor key
            (infos cnt)).2.2.Grows env (infos' cnt) := by
          split at hassemble
          next =>
            cases hassemble
            rw [Function.update_self]
            exact TensorInfo.Grows.refl _
          next =>
            have := grows_assembleKeyByTensor hassemble cnt
            rwa [Function.update_self] at this
        obtain ⟨hstatus, bs, hkey, hbuf⟩ := genKeyByArg_noted hfit
          hsettled.head (Nat.lt_of_not_le hcnt)
          (hop cnt (Nat.lt_of_not_le hcnt)) (hnoted.trans (hgrows cnt))
          fun honly format hmem => hnd cnt (by rw [length_cons]; omega) honly format
            (hnoted.formats hmem)
        rw [hstatus] at hassemble
        obtain ⟨hsuccess, bs', hkey', hbuf'⟩ := ih hassemble (hsettled.tail _)
          fun i hi => hnd i (by rw [length_cons]; omega)
        refine ⟨hsuccess, bs ++ bs', ?_, fun buf => ?_⟩
        · rw [hkey', hkey, append_assoc]
        · unfold visitBy
          rw [hbuf]
          dsimp only
          rw [hbuf', foldl_append]

/-! ## All tensors of a binary -/

theorem assembleKeyForSingleTensor_success (hfits : obj.Fits env t) (key : Str) :
    (assembleKeyForSingleTensor env opType obj key info).1 = .success := by
  have hformat : ∀ key noted,
      (assembleKeyForSingleTensor.assembleFormat env opType obj key noted).1 = .success := by
    intro key noted
    unfold assembleKeyForSingleTensor.assembleFormat
    cases hformat : obj.format with
    | none => rfl
    | some format =>
      rw [Option.map_some, hfits.format format hformat]
  unfold assembleKeyForSingleTensor
  cases hdtype : obj.dtype with
  | none => exact hformat _ _
  | some dtype =>
    rw [Option.map_some, hfits.dtype dtype hdtype]
    exact hformat _ _

theorem assembleTensor_success (hfits : tensor.Fits env arg) (key : Str) :
    (assembleTensor env opType genPlaceholder hasDevPtrArg tensor key info).1 = .success := by
  cases tensor with
  | null => rfl
  | object obj =>
    unfold assembleTensor
    dsimp only
    split
    next => rfl
    next =>
      split
      next => rfl
      next => rfl
  | array objs =>
    cases objs with
    | nil => rfl
    | cons obj objs =>
      match arg, hfits with
      | .aclTensorList (some (_ :: _)), .cons hobj _ =>
        obtain ⟨t, _, hobj⟩ := hobj
        have hsuccess : (assembleKeyForSingleTensor env opType obj key info).1 = .success :=
          assembleKeyForSingleTensor_success hobj key
        rw [assembleTensor_array (Prod.ext hsuccess rfl)]

/-- Descriptions that fit their tensors are assembled without an error. -/
theorem status_of_fits {key' : Str} {infos infos' : Nat → TensorInfo} {status : Status}
    (h : assembleKeyByTensor env opType genPlaceholder hasDevPtrArg cnt tensors key infos =
      some (status, key', infos')) (hfits : List.Forall₂ (TensorJson.Fits env) tensors args) :
    status = .success := by
  induction hfits generalizing cnt key infos with
  | nil =>
    cases h
    rfl
  | cons hfit _ ih =>
    unfold assembleKeyByTensor at h
    split at h
    next => cases h
    next =>
      dsimp only at h
      rw [assembleTensor_success hfit] at h
      exact ih h

/-- Where only ND is left, no other format was noted. -/
theorem nd_of_updated {num i : Nat} (hi : i < num)
    (hgrows : (updateFormatType env infos num i).Grows env final)
    (honly : final.fmtInfo.fmtType = .ONLY_SUPPORT_ND) :
    ∀ format ∈ (infos i).fmtInfo.supportFormats, format = env.ND := by
  intro format hmem
  by_contra hne
  unfold updateFormatType at hgrows
  rw [if_pos hi] at hgrows
  exact hgrows.fmtType ⟨format, hmem, hne⟩ (fmtType_updated ⟨format, hmem, hne⟩) honly

end Tensors

end OpBase.Kernel
