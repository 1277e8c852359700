import OpBase.Kernel.GenerateKey

/-!
# The keys of the binaries of an op

`op_kernel.cpp`: the configuration of an op has a list of binaries, each with the tensors and
attributes it was compiled for. The whole list is looked over for the attributes the binaries
differ in and the inputs whose number of dimensions differs; then `GenerateKeyByJson` makes the
keys of one binary after the other. Formats, match modes and types of tensors are noted down in
the tables on the way, so a table may change after a key was made with it.

An undertaking is `none` if an exception ends it or its behaviour is undefined. Fields of a
description are those that are looked up; one of another type than the code asks for makes it
throw.
-/

namespace OpBase.Kernel

open OpBase.Lib

/-! ## Descriptions -/

/-- A shape: an array, or `null` and anything else. -/
inductive ShapeJson where
  | array (dims : List Int)
  | other

/-- The object for a tensor. -/
structure TensorObj where
  type : Option Str
  paramType : Option Str
  dtype : Option Str
  dtypeMatchMode : Option Str
  format : Option Str
  shape : Option ShapeJson

/-- An input or output. -/
inductive TensorJson where
  | null
  | array (tensors : List TensorObj)
  | object (tensor : TensorObj)

/-- The value of an attribute: a `float` is kept as a `double`, an array counts its elements
and says whether the first is an array. -/
inductive AttrValue where
  | null
  | bool (value : Bool)
  | float (value : UInt64)
  | int (value : UInt64)
  | string (value : Str)
  | array (size : Nat) (nested : Bool)
  | object
deriving DecidableEq

structure AttrJson where
  name : Option Str
  value : Option AttrValue

/-- A binary of `binList`; a `null` among the attributes is `none`, and `jsonFilePath` is that of
`binInfo`. Of `simplifiedKeyMode` only a number counts. -/
structure BinJson where
  deterministic : Option Str
  implMode : Option Str
  optionalInputMode : Option Str
  dynamicParamMode : Option Str
  simplifiedKeyMode : Option Int
  simplifiedKey : Option (List Str)
  inputs : Option (List TensorJson)
  outputs : Option (List TensorJson)
  attrs : Option (List (Option AttrJson))
  jsonFilePath : Option Str

/-! ## Names -/

/-- `STR_2_DATA_TYPE` -/
def str2DataType : List (String × DataType) :=
  [("float", .DT_FLOAT), ("float32", .DT_FLOAT), ("float16", .DT_FLOAT16), ("bfloat16", .DT_BF16),
    ("int8", .DT_INT8), ("int16", .DT_INT16), ("uint16", .DT_UINT16), ("uint8", .DT_UINT8),
    ("int32", .DT_INT32), ("int64", .DT_INT64), ("uint32", .DT_UINT32), ("uint64", .DT_UINT64),
    ("bool", .DT_BOOL), ("double", .DT_DOUBLE), ("string", ⟨13⟩), ("bf16", .DT_BF16),
    ("int4", .DT_INT4), ("uint1", ⟨30⟩), ("int2", ⟨31⟩), ("uint2", ⟨32⟩), ("complex32", ⟨33⟩),
    ("complex64", .DT_COMPLEX64), ("complex128", .DT_COMPLEX128), ("hifloat8", ⟨34⟩),
    ("float8_e5m2", ⟨35⟩), ("float8_e4m3fn", ⟨36⟩), ("float8_e8m0", ⟨37⟩), ("float6_e3m2", ⟨38⟩),
    ("float6_e2m3", ⟨39⟩), ("float4_e2m1", ⟨40⟩), ("float4_e1m2", ⟨41⟩)]

/-- `STR_2_FORMAT` -/
def str2Format (env : Env) : List (String × Format) :=
  [("ND", env.ND), ("ALL", env.ND), ("NCHW", env.NCHW), ("NHWC", env.NHWC), ("HWCN", env.HWCN),
    ("NDHWC", env.NDHWC), ("NCDHW", env.NCDHW), ("DHWCN", env.DHWCN), ("NDC1HWC0", env.NDC1HWC0),
    ("FRACTAL_NZ", env.FRACTAL_NZ), ("NC1HWC0", env.NC1HWC0), ("FRACTAL_Z", env.FRACTAL_Z),
    ("C1HWNCoC0", env.C1HWNCoC0), ("FRACTAL_Z_C04", env.FRACTAL_Z_C04),
    ("FRACTAL_Z_3D", env.FRACTAL_Z_3D), ("FRACTAL_NZ_C0_16", env.FRACTAL_NZ_C0_16),
    ("FRACTAL_NZ_C0_32", env.FRACTAL_NZ_C0_32), ("FRACTAL_NZ_C0_2", env.FRACTAL_NZ_C0_2),
    ("FRACTAL_NZ_C0_4", env.FRACTAL_NZ_C0_4), ("FRACTAL_NZ_C0_8", env.FRACTAL_NZ_C0_8)]

/-- `STR_2_TENSOR_TYPE` -/
def str2TensorType : List (String × TensorType) :=
  [("required", .REQUIRED), ("optional", .OPTIONAL), ("dynamic", .DYNAMIC),
    ("folded_with_desc", .DYNAMIC_FOLDED)]

/-- `STRING_TO_OP_IMPL_MODE_MAP` -/
def stringToOpImplMode : List (String × OpImplMode) :=
  [("high_performance", OpImplMode.IMPL_MODE_HIGH_PERFORMANCE),
    ("high_precision", OpImplMode.IMPL_MODE_HIGH_PRECISION),
    ("super_performance", OpImplMode.IMPL_MODE_SUPER_PERFORMANCE),
    ("support_out_of_bound_index", OpImplMode.IMPL_MODE_SUPPORT_OUT_OF_BOUND_INDEX),
    ("enable_float32_execution", OpImplMode.IMPL_MODE_ENABLE_FLOAT32_EXECUTION),
    ("enable_hi_float32_execution", OpImplMode.IMPL_MODE_ENABLE_HI_FLOAT32_EXECUTION),
    ("keep_fp16", OpImplMode.IMPL_MODE_KEEP_FP16), ("default", OpImplMode.IMPL_MODE_DEFAULT)]

/-- `find` in a map by names. -/
def lookup {α : Type} (map : List (String × α)) (s : Str) : Option α :=
  (map.find? fun entry => ascii entry.1 = s).map Prod.snd

/-- `GetDataType`; nothing for `DT_UNDEFINED`. -/
def getDataType (s : Str) : Option DataType := lookup str2DataType s

/-- `GetFormat`; nothing for `FORMAT_RESERVED`. -/
def getFormat (env : Env) (s : Str) : Option Format := lookup (str2Format env) s

/-- `GetTensorType` -/
def getTensorType (s : Str) : TensorType := (lookup str2TensorType s).getD .BOTTOM

/-- `ToOpImplMode` -/
def toOpImplMode (s : Str) : OpImplMode :=
  (lookup stringToOpImplMode s).getD OpImplMode.IMPL_MODE_RESERVED

/-- `ToString` of a mode. -/
def OpImplMode.toStr (implMode : OpImplMode) : Str :=
  ascii (((stringToOpImplMode.find? fun entry => entry.2 = implMode).map Prod.fst).getD "unknown")

/-- `std::string::find` -/
def find (s needle : Str) : Option Nat :=
  (List.range (s.length + 1)).find? fun i => needle.isPrefixOf (s.drop i)

/-! ## Attributes the binaries differ in -/

variable (env : Env)

/-- `HandleAttrValue` -/
def handleAttrValue (value : AttrValue) (attrInfo : AttrInfo) : AttrInfo :=
  match attrInfo.values with
  | none =>
    match value with
    | .float v => { attrInfo with values := some (le 4 (env.toFloat v).toNat) }
    | .int v => { attrInfo with values := some (le8 v) }
    | .array size false => { attrInfo with values := some [UInt8.ofNat size] }
    | _ => attrInfo
  | some values =>
    match value with
    | .float v =>
      if env.objectBytes (le 4 (env.toFloat v).toNat) values.length ≠ values then
        { attrInfo with supportAll := false }
      else attrInfo
    | .int v =>
      if env.objectBytes (le8 v) values.length ≠ values then { attrInfo with supportAll := false }
      else attrInfo
    | .array size _ =>
      if (values.getD 0 0).toNat ≠ size then { attrInfo with supportAll := false } else attrInfo
    | _ => attrInfo

/-- What `JudgeAttrSupportAll` does with the value of an attribute of which all values were alike
so far. -/
def judgeAttrValue (value : AttrValue) (attrInfo : AttrInfo) : AttrInfo :=
  match value with
  | .null => attrInfo
  | .array 0 _ => attrInfo
  | .bool _ => { attrInfo with supportAll := false }
  | .string s => if s = ascii "ALL" then attrInfo else { attrInfo with supportAll := false }
  | value => handleAttrValue env value attrInfo

/-- The loop of `JudgeAttrSupportAll` over the attributes of a binary. -/
def judgeAttrs (customizedSimplifiedKeyMode : Bool) :
    Nat → List (Option AttrJson) → List AttrInfo → Status × List AttrInfo
  | _, [], attrInfos => (.success, attrInfos)
  | _, none :: _, attrInfos => (.error, attrInfos)
  | attrCnt, some attr :: attrs, attrInfos =>
    match attr.name with
    | none => (.error, attrInfos)
    | some name =>
      let attrInfos :=
        if attrInfos.length ≤ attrCnt then attrInfos ++ [⟨name, true, none⟩] else attrInfos
      match attrInfos[attrCnt]? with
      | none => (.error, attrInfos)
      | some attrInfo =>
        if ¬ attrInfo.supportAll ∨ customizedSimplifiedKeyMode then
          judgeAttrs customizedSimplifiedKeyMode (attrCnt + 1) attrs attrInfos
        else
          match attr.value with
          | none => (.error, attrInfos)
          | some value =>
            judgeAttrs customizedSimplifiedKeyMode (attrCnt + 1) attrs
              (attrInfos.set attrCnt (judgeAttrValue env value attrInfo))

/-- `JudgeAttrSupportAll`; a binary without attributes ends it. -/
def judgeAttrSupportAll (customizedSimplifiedKeyMode : Bool) :
    List BinJson → List AttrInfo → Status × List AttrInfo
  | [], attrInfos => (.success, attrInfos)
  | bin :: binList, attrInfos =>
    match bin.attrs with
    | none => (.success, attrInfos)
    | some attrs =>
      match judgeAttrs env customizedSimplifiedKeyMode 0 attrs attrInfos with
      | (.error, attrInfos) => (.error, attrInfos)
      | (.success, attrInfos) => judgeAttrSupportAll customizedSimplifiedKeyMode binList attrInfos

/-! ## Inputs whose dimensions differ -/

/-- `INVALID_MAX_DIM_NUM` -/
def invalidMaxDimNum : Nat := 26

/-- `RecordDimNumAndCheck` -/
def recordDimNumAndCheck (inputInfo : TensorInfo) (dimNum : Nat) : TensorInfo :=
  if inputInfo.shapeDimension = invalidMaxDimNum then { inputInfo with shapeDimension := dimNum }
  else if inputInfo.shapeDimension ≠ dimNum then
    { inputInfo with shapeSupportType := .NOT_SUPPORT_ALL }
  else inputInfo

/-- What `JudgeInputSupportAll` does with an input. -/
def judgeInput (input : TensorJson) (inputInfo : TensorInfo) : TensorInfo :=
  if inputInfo.shapeSupportType ≠ .DEFAULT then inputInfo
  else
    match input with
    | .object { shape := some (.array dims), .. } =>
      if dims = [-2] then { inputInfo with shapeSupportType := .SUPPORT_ALL }
      else recordDimNumAndCheck inputInfo dims.length
    | _ => inputInfo

/-- The loop of `JudgeInputSupportAll` over the inputs of a binary. -/
def judgeInputs : Nat → List TensorJson → (Nat → TensorInfo) → Status × (Nat → TensorInfo)
  | _, [], inputInfos => (.success, inputInfos)
  | inputsCnt, input :: inputs, inputInfos =>
    if maxTensorSize ≤ inputsCnt then (.error, inputInfos)
    else
      judgeInputs (inputsCnt + 1) inputs
        (Function.update inputInfos inputsCnt (judgeInput input (inputInfos inputsCnt)))

/-- `JudgeInputSupportAll`; a binary without inputs ends it. -/
def judgeInputSupportAll : List BinJson → (Nat → TensorInfo) → Status × (Nat → TensorInfo)
  | [], inputInfos => (.success, inputInfos)
  | bin :: binList, inputInfos =>
    match bin.inputs with
    | none => (.success, inputInfos)
    | some inputs =>
      match judgeInputs 0 inputs inputInfos with
      | (.error, inputInfos) => (.error, inputInfos)
      | (.success, inputInfos) => judgeInputSupportAll binList inputInfos

/-! ## The key of a binary -/

/-- `KeyAndDetail` -/
structure KeyAndDetail where
  key : Str
  deterministicFlag : Bool
  implMode : Str

/-- `BinType` -/
inductive BinType where
  | STATIC_BIN
  | DYNAMIC_BIN
deriving DecidableEq

/-- `KeyParams` -/
structure KeyParams where
  keys : List KeyAndDetail
  binType : BinType
  genPlaceholder : Bool
  hasDevPtrArg : Bool

/-- `DETERMINISTIC_VALUE` -/
def deterministicValue : Byte := 49

/-- `NON_DETERMINISTIC_VALUE` -/
def nonDeterministicValue : Byte := 48

/-- `ALL_PRECISION_MODE` -/
def allPrecisionMode : Str :=
  ascii "high_performance,high_precision,enable_float_32_execution,enable_hi_float_32_execution"

/-- The flags of `ParseContext`. -/
def determinFlags (bin : BinJson) : List Byte :=
  match bin.deterministic with
  | none => [deterministicValue, nonDeterministicValue]
  | some dtm =>
    if dtm = ascii "true" then [deterministicValue]
    else if dtm = ascii "false" then [nonDeterministicValue]
    else [deterministicValue, nonDeterministicValue]

/-- `ParseImplModeByJson` -/
def parseImplModeByJson (bin : BinJson) : List OpImplMode :=
  match bin.implMode with
  | none => [OpImplMode.IMPL_MODE_HIGH_PRECISION]
  | some implMode =>
    if implMode = allPrecisionMode then
      [OpImplMode.IMPL_MODE_HIGH_PERFORMANCE, OpImplMode.IMPL_MODE_HIGH_PRECISION,
        OpImplMode.IMPL_MODE_ENABLE_FLOAT32_EXECUTION,
        OpImplMode.IMPL_MODE_ENABLE_HI_FLOAT32_EXECUTION]
    else if toOpImplMode implMode ≠ OpImplMode.IMPL_MODE_RESERVED then [toOpImplMode implMode]
    else [OpImplMode.IMPL_MODE_HIGH_PRECISION]

/-- The modes of `ParseContext`. -/
def implModes (bin : BinJson) (jsonPath : Str) : List OpImplMode :=
  if (find jsonPath (ascii "high_performance")).isSome then
    [OpImplMode.IMPL_MODE_HIGH_PERFORMANCE]
  else if (find jsonPath (ascii "high_precision")).isSome then
    [OpImplMode.IMPL_MODE_HIGH_PRECISION]
  else if (find jsonPath (ascii "support_out_of_bound_index")).isSome then
    [OpImplMode.IMPL_MODE_SUPPORT_OUT_OF_BOUND_INDEX]
  else parseImplModeByJson bin

/-- The keys that `ParseContext` begins. -/
def contextKeys (bin : BinJson) (jsonPath : Str) : List KeyAndDetail :=
  (determinFlags bin).flatMap fun dtmFlag => (implModes bin jsonPath).map fun implMode =>
    ⟨[dtmFlag, slash, toIndexChar implMode, slash], dtmFlag ≠ nonDeterministicValue,
      implMode.toStr⟩

/-- `IsGenInputPlaceholder` -/
def isGenInputPlaceholder (bin : BinJson) : Bool :=
  bin.optionalInputMode = some (ascii "gen_placeholder")

/-- `HasDevPtrArg` -/
def hasDevPtrArg (bin : BinJson) : Bool := bin.dynamicParamMode = some (ascii "folded_with_desc")

/-- `ParseC0` -/
def parseC0 (tensor : TensorObj) (key : Str) : Str :=
  match tensor.shape with
  | some (.array dims) =>
    if dims.length = fractalZSize then key ++ [env.keyChar (dims.getD (fractalZSize - 1) 0)]
    else key
  | _ => key

/-- `ParseShapeDimNum` -/
def parseShapeDimNum (tensorInfo : TensorInfo) (tensor : TensorObj) (key : Str) : Str :=
  if tensorInfo.shapeSupportType = .NOT_SUPPORT_ALL then
    match tensor.shape with
    | some (.array dims) => key ++ [env.keyChar dims.length]
    | _ => key
  else key

/-- The first step of `AssembleKeyForSingleTensor`: the match mode. -/
def noteMatchMode (tensor : TensorObj) (tensorInfo : TensorInfo) : TensorInfo :=
  if tensorInfo.dtMatchMode = .NORMAL ∧ tensor.dtypeMatchMode = some (ascii "DtypeByte") then
    { tensorInfo with dtMatchMode := .DTYPE_BYTE }
  else tensorInfo

/-- `supportFormats.emplace` -/
def TensorInfo.addFormat (tensorInfo : TensorInfo) (format : Format) : TensorInfo :=
  { tensorInfo with
    fmtInfo := { tensorInfo.fmtInfo with
      supportFormats := tensorInfo.fmtInfo.supportFormats.insert format } }

/-- `AssembleKeyForSingleTensor` -/
def assembleKeyForSingleTensor (opType : UInt32) (tensor : TensorObj) (key : Str)
    (tensorInfo : TensorInfo) : Status × Str × TensorInfo :=
  let tensorInfo := noteMatchMode tensor tensorInfo
  match tensor.dtype.map getDataType with
  | some none => (.error, key, tensorInfo)
  | some (some dataType) =>
    assembleFormat (key ++ [dtypeChar tensorInfo.dtMatchMode dataType]) tensorInfo
  | none => assembleFormat key tensorInfo
where
  /-- From the format on. -/
  assembleFormat (key : Str) (tensorInfo : TensorInfo) : Status × Str × TensorInfo :=
    match tensor.format.map (getFormat env) with
    | some none => (.error, key, tensorInfo)
    | some (some format) =>
      let tensorInfo := tensorInfo.addFormat format
      let key := key ++ [format.toUInt8]
      let key :=
        if opType = env.transDataId ∧ format = env.FRACTAL_Z then parseC0 env tensor key else key
      (.success, parseShapeDimNum env tensorInfo tensor key, tensorInfo)
    | none => (.success, parseShapeDimNum env tensorInfo tensor key, tensorInfo)

/-- An empty array, as an object. -/
def TensorObj.empty : TensorObj := ⟨none, none, none, none, none, none⟩

/-- The step of `AssembleKeyByTensor` for a tensor. The errors of a tensor that is no list are
not noticed. -/
def assembleTensor (opType : UInt32) (genPlaceholder hasDevPtrArg : Bool) (tensor : TensorJson)
    (key : Str) (info : TensorInfo) : Status × Str × TensorInfo :=
  match tensor with
  | .null => (.success, key, { info with tensorType := .OPTIONAL })
  | .array (tensor :: tensors) =>
    match assembleKeyForSingleTensor env opType tensor key info with
    | (.error, key, info) => (.error, key, info)
    | (.success, key, info) =>
      if hasDevPtrArg then
        (.success, key ++ [env.keyChar 1], { info with tensorType := .DYNAMIC_FOLDED })
      else
        (.success, key ++ [env.keyChar (tensors.length + 1)],
          { info with tensorType := .DYNAMIC })
  | .array [] => plain .empty
  | .object tensor =>
    if genPlaceholder ∧ tensor.paramType.map getTensorType = some .OPTIONAL then
      (.success, key, { info with tensorType := .OPTIONAL })
    else if tensor.type = some (ascii "null") then
      (.success, key, { info with tensorType := .OPTIONAL })
    else plain tensor
where
  /-- A tensor that is no list and has a key. -/
  plain (tensor : TensorObj) : Status × Str × TensorInfo :=
    let info :=
      if info.tensorType ≠ .BOTTOM then
        { info with tensorType := (tensor.paramType.map getTensorType).getD .REQUIRED }
      else info
    let (_, key, info) := assembleKeyForSingleTensor env opType tensor key info
    (.success, key, info)

/-- `AssembleKeyByTensor`; more tensors than there are infos are written behind them. -/
def assembleKeyByTensor (opType : UInt32) (genPlaceholder hasDevPtrArg : Bool) :
    Nat → List TensorJson → Str → (Nat → TensorInfo) → Option (Status × Str × (Nat → TensorInfo))
  | _, [], key, tensorInfos => some (.success, key, tensorInfos)
  | cnt, tensor :: tensors, key, tensorInfos =>
    if maxTensorSize ≤ cnt then none
    else
      let (status, key, info) :=
        assembleTensor env opType genPlaceholder hasDevPtrArg tensor key (tensorInfos cnt)
      match status with
      | .error => some (.error, key, Function.update tensorInfos cnt info)
      | .success =>
        assembleKeyByTensor opType genPlaceholder hasDevPtrArg (cnt + 1) tensors key
          (Function.update tensorInfos cnt info)

/-- What `UpdateFormatType` finds. -/
def FormatInfo.updated (formatInfo : FormatInfo) : FormatInfo :=
  { formatInfo with
    fmtType :=
      if env.ND ∉ formatInfo.supportFormats then .NOT_SUPPORT_ND
      else if formatInfo.supportFormats.length = 1 then .ONLY_SUPPORT_ND
      else .SUPPORT_ND }

/-- `UpdateFormatType` -/
def updateFormatType (tensorInfos : Nat → TensorInfo) (validTensorNum : Nat) : Nat → TensorInfo :=
  fun i =>
    if i < validTensorNum then
      { tensorInfos i with fmtInfo := (tensorInfos i).fmtInfo.updated env }
    else tensorInfos i

/-- The value of an attribute in the key of a binary. -/
def AttrValue.key (realSize : Nat) : AttrValue → Option Str
  | bool value => some [if value then 1 else 0]
  | float value => some (env.objectBytes (le 4 (env.toFloat value).toNat) realSize)
  | int value => some (env.objectBytes (le8 value) realSize)
  | array size _ => some (arrayKey size)
  | string value => some value
  | null | object => none

/-- `ParseAttributes`, in a mode that does not ignore them. -/
def parseAttributes (attrInfos : List AttrInfo) :
    Nat → List (Option AttrJson) → Str → Option (Status × Str)
  | _, [], key => some (.success, key)
  | attrCnt, attr :: attrs, key =>
    match attrInfos[attrCnt]? with
    | none => some (.error, key)
    | some attrInfo =>
      if attrInfo.supportAll then parseAttributes attrInfos (attrCnt + 1) attrs key
      else
        match attr.bind AttrJson.value with
        | none => some (.error, key)
        | some value =>
          (value.key env attrInfo.realSize).bind fun bytes =>
            parseAttributes attrInfos (attrCnt + 1) attrs (key ++ [slash] ++ bytes)

namespace OpKernel

/-- The part of `GenerateKeyByJson` for the inputs. -/
def assembleInputs (k : OpKernel) (bin : BinJson) (key : Str) : Option (Status × Str × OpKernel) :=
  match bin.inputs with
  | none => some (.success, key, k)
  | some inputs => do
    let inputNum := max k.inputNum inputs.length
    let (status, key, inputInfos) ← assembleKeyByTensor env k.opType (isGenInputPlaceholder bin)
      (hasDevPtrArg bin) 0 inputs key k.inputInfos
    match status with
    | .error => some (.error, key, { k with inputNum, inputInfos })
    | .success =>
      some (.success, key,
        { k with inputNum, inputInfos := updateFormatType env inputInfos inputNum })

/-- The part of `GenerateKeyByJson` for the outputs. -/
def assembleOutputs (k : OpKernel) (bin : BinJson) (key : Str) : Option (Status × Str × OpKernel) :=
  match bin.outputs with
  | none => some (.success, key, k)
  | some outputs => do
    let outputNum := max k.outputNum outputs.length
    let (status, key, outputInfos) ← assembleKeyByTensor env k.opType (isGenInputPlaceholder bin)
      (hasDevPtrArg bin) 0 outputs key k.outputInfos
    match status with
    | .error => some (.error, key, { k with outputNum, outputInfos })
    | .success =>
      some (.success, key,
        { k with outputNum, outputInfos := updateFormatType env outputInfos outputNum })

/-- The part of `GenerateKeyByJson` for the attributes. -/
def assembleAttrs (k : OpKernel) (bin : BinJson) (key : Str) : Option Str :=
  if k.ingnoreAttrSimplifiedKeyMode then some key
  else
    match bin.attrs with
    | none => some key
    | some attrs => (parseAttributes env k.attrInfos 0 attrs key).map Prod.snd

/-- `GenerateKeyByJson`. What it returns is not read; after an error among the tensors the
keys have their context only. -/
def generateKeyByJson (k : OpKernel) (bin : BinJson) (jsonPath : Str) :
    Option (KeyParams × OpKernel) := do
  let keys := contextKeys bin jsonPath
  let params : KeyParams := ⟨keys, .DYNAMIC_BIN, isGenInputPlaceholder bin, hasDevPtrArg bin⟩
  let implModeBm := (implModes bin jsonPath).foldl (· ||| ·) k.implModeBm
  let (status, tensorKey, k) ← assembleInputs env { k with implModeBm } bin []
  match status with
  | .error => some (params, k)
  | .success =>
    let (status, tensorKey, k) ← assembleOutputs env k bin tensorKey
    match status with
    | .error => some (params, k)
    | .success =>
      let attrKey ← assembleAttrs env k bin tensorKey
      let maxAttrLen := max k.maxAttrLen (attrKey.length - tensorKey.length)
      some ({ params with keys := keys.map fun key => { key with key := key.key ++ attrKey } },
        { k with maxAttrLen })

/-- The loop of `GenerateKeyBySimplifiedKey`. -/
def simplifiedKeys (opTypeStr : Str) :
    List Str → List KeyAndDetail × UInt32 → Option (Status × List KeyAndDetail × UInt32)
  | [], s => some (.success, s)
  | key :: rest, (keys, implModeBm) =>
    if key.length < opTypeStr.length + 1 then none
    else
      let keyStr := key.drop (opTypeStr.length + 1)
      match env.scanKey keyStr with
      | none => some (.error, keys, implModeBm)
      | some (deterministicFlag, mode) =>
        if 32 ≤ mode.toNat then none
        else
          let implMode : OpImplMode := 1 <<< mode
          if implMode = OpImplMode.IMPL_MODE_DEFAULT ∧ opTypeStr ≠ ascii "MemSetV2" then
            simplifiedKeys opTypeStr rest (keys, implModeBm)
          else
            simplifiedKeys opTypeStr rest
              (keys ++ [⟨keyStr, deterministicFlag ≠ nonDeterministicValue.toUInt32,
                implMode.toStr⟩], implModeBm ||| implMode)

/-- `GenerateKeyBySimplifiedKey`; what it returns is not read. -/
def generateKeyBySimplifiedKey (k : OpKernel) (bin : BinJson) : Option (KeyParams × OpKernel) :=
  match bin.simplifiedKey with
  | none | some [] => some (⟨[], .DYNAMIC_BIN, false, false⟩, k)
  | some simplifiedKey => do
    let (status, keys, implModeBm) ←
      simplifiedKeys env k.opTypeStr simplifiedKey ([], k.implModeBm)
    match status with
    | .error => some (⟨keys, .DYNAMIC_BIN, false, false⟩, { k with implModeBm })
    | .success =>
      some (⟨keys, .DYNAMIC_BIN, isGenInputPlaceholder bin, hasDevPtrArg bin⟩,
        { k with implModeBm })

end OpKernel

end OpBase.Kernel
