import OpBase.Indv.BinKey
import OpBase.Kernel.KeyByJson

/-!
# The binaries of an op

`op_kernel.cpp` and `op_kernel.h`: `HashAndInsert` registers a binary with each of its keys, under
the hash of the key; a key with the hash of another is an error. `SelectBin` makes a key from
the arguments of a call and returns what is registered under its hash.

> `selectBin_key_iff`: after any registrations the binary that is found has the key that was
> made, if and only if no other key was registered under its hash.
-/

namespace OpBase.Kernel

open OpBase.Lib
open OpBase.Indv.BinKey (chunks hashWord)
open Function (update update_of_ne update_self)

variable (env : Env)

/-! ## The hash -/

/-- `HashBinary`; the length is a `uint32_t`, and the last word is filled up with zeros. -/
def hashBinary (key : Str) : UInt64 :=
  let key := key.take (key.length % 2 ^ 32)
  let seed := (chunks 8 key).foldl
    (fun seed word => hashWord env.hasher seed (UInt64.ofNat (ofLe word))) 0
  let rest := key.drop (8 * (key.length / 8))
  if rest ≠ [] then hashWord env.hasher seed (UInt64.ofNat (ofLe rest)) else seed

/-! ## Registration -/

/-- What `HashAndInsert` is told of a binary. -/
structure BinPaths where
  binAndJsonDir : Str
  binOrJsonPath : Str
  pos : Nat

def BinPaths.prefixed (paths : BinPaths) : Str :=
  paths.binAndJsonDir ++ paths.binOrJsonPath.take paths.pos

def BinPaths.binPath (paths : BinPaths) : Str := paths.prefixed ++ ascii ".o"

def BinPaths.jsonPath (paths : BinPaths) : Str := paths.prefixed ++ ascii ".json"

/-- The new binary for a key. -/
def KeyParams.bin (params : KeyParams) (paths : BinPaths) (key : KeyAndDetail) (hash : UInt64)
    (hasDevPtrArg : Bool) : OpKernelBin :=
  ⟨key.key, key.deterministicFlag, key.implMode, paths.jsonPath, paths.binOrJsonPath,
    paths.binPath, hash, params.genPlaceholder, hasDevPtrArg⟩

/-- `std::map::emplace` -/
def emplace (bins : UInt64 → Option OpKernelBin) (hash : UInt64) (bin : OpKernelBin) :
    UInt64 → Option OpKernelBin :=
  if (bins hash).isSome then bins else update bins hash (some bin)

namespace OpKernel

/-- `HashAndInsert`, from a key on. -/
def hashAndInsert (enableDebug : Bool) (paths : BinPaths) (params : KeyParams) :
    List KeyAndDetail → OpKernel → Status × OpKernel
  | [], k => (.success, k)
  | key :: keys, k =>
    match params.binType with
    | .STATIC_BIN =>
      let hash := hashBinary env paths.binPath
      let bin := params.bin paths key hash false
      hashAndInsert enableDebug paths params keys
        { k with staticBins := emplace k.staticBins hash bin }
    | .DYNAMIC_BIN =>
      let hash := hashBinary env key.key
      match k.bins hash with
      | none =>
        let bin := params.bin paths key hash params.hasDevPtrArg
        hashAndInsert enableDebug paths params keys
          { k with bins := update k.bins hash (some bin) }
      | some bin =>
        if key.key ≠ bin.key then (.error, k)
        else if enableDebug then
          let bin := { bin with jsonPath := paths.jsonPath, binPath := paths.binPath }
          hashAndInsert enableDebug paths params keys
            { k with bins := update k.bins hash (some bin) }
        else hashAndInsert enableDebug paths params keys k

/-- `JudgeCustomizedSimpliedKeyMode` -/
def judgeCustomizedSimplifiedKeyMode : List BinJson → OpKernel → OpKernel
  | [], k => k
  | bin :: binList, k =>
    if bin.simplifiedKeyMode = some 2 then { k with customizedSimplifiedKeyMode := true }
    else if bin.simplifiedKeyMode = some 0 then
      judgeCustomizedSimplifiedKeyMode binList { k with ingnoreAttrSimplifiedKeyMode := true }
    else { k with ingnoreAttrSimplifiedKeyMode := false }

/-- `InitTensorInfo`, up to the look over the inputs. -/
def initTensorInfo (k : OpKernel) : OpKernel :=
  let init (infos : Nat → TensorInfo) : Nat → TensorInfo := fun i =>
    if i < maxTensorSize then { infos i with opType := k.opType } else infos i
  { k with inputInfos := init k.inputInfos, outputInfos := init k.outputInfos }

/-- `resultJsonPath`, with the name of the repository. -/
def resultJsonPath (k : OpKernel) (path : Str) : Str :=
  if k.opsRepoName ≠ [] ∧ find path k.opsRepoName = none then
    match find path [slash] with
    | none => path
    | some pos => path.take (pos + 1) ++ k.opsRepoName ++ [slash] ++ path.drop (pos + 1)
  else path

/-- The step of `AppendDynBin` for a binary. -/
def appendBin (enableDebug : Bool) (binAndJsonDir : Str) (bin : BinJson) (k : OpKernel) :
    Option (Status × OpKernel) :=
  match bin.jsonFilePath.map (resultJsonPath k) with
  | none => some (.success, k)
  | some path =>
    match find path (ascii ".json") with
    | none => some (.success, k)
    | some pos => do
      let (params, k) ←
        if k.customizedSimplifiedKeyMode then generateKeyBySimplifiedKey env k bin
        else generateKeyByJson env k bin path
      match hashAndInsert env enableDebug ⟨binAndJsonDir, path, pos⟩ params params.keys k with
      | (.error, k) => some (.error, k)
      | (.success, k) => some (.success, { k with genPlaceholder := params.genPlaceholder })

/-- The loop of `AppendDynBin`. -/
def appendBins (enableDebug : Bool) (binAndJsonDir : Str) :
    List BinJson → OpKernel → Option (Status × OpKernel)
  | [], k => some (.success, k)
  | bin :: binList, k => do
    let (status, k) ← appendBin env enableDebug binAndJsonDir bin k
    match status with
    | .error => some (.error, k)
    | .success => appendBins enableDebug binAndJsonDir binList k

/-- `MAX_CUSTOMIZED_SIMPLIFIED_KEY_LEN + sizeof("d=1,p=1/")` -/
def maxCustomizedKeyLength : Nat := 128 + 9

/-- `DEFAULT_CONTEXT_LEN + REDUNDANT_LEN` -/
def extraKeyLength : Nat := 5 + 32

/-- The length of a key, `MAX_BIN_MATCH_ARG_KEY_COUNT` characters for a tensor. -/
def keyLength (k : OpKernel) : Nat :=
  if k.customizedSimplifiedKeyMode then maxCustomizedKeyLength
  else (k.inputNum + k.outputNum) * 2 + k.maxAttrLen + extraKeyLength

/-- What is done to the attributes of one op. -/
def adjustAttrInfos (k : OpKernel) : Option (List AttrInfo) :=
  if k.opTypeStr = ascii "LayerNormBetaGammaBackpropV2" then
    match k.attrInfos with
    | [] => none
    | info :: infos =>
      some ({ info with supportAll := true } :: infos ++
        [⟨ascii "shape_gamma_private", false, none⟩])
  else some k.attrInfos

/-- `AppendDynBin`; `determinConfig` is the system's parameter, and `binList` that of the
configuration, if there is one. -/
def appendDynBin (enableDebug : Bool) (determinConfig : Int) (binAndJsonDir : Str)
    (binList : Option (List BinJson)) (k : OpKernel) : Option (Status × OpKernel) :=
  let k := { k with determinConfig }
  match binList with
  | none => some (.error, k)
  | some binList =>
    let k := judgeCustomizedSimplifiedKeyMode binList k
    match judgeAttrSupportAll env k.customizedSimplifiedKeyMode binList k.attrInfos with
    | (.error, attrInfos) => some (.error, { k with attrInfos })
    | (.success, attrInfos) =>
      let k := initTensorInfo { k with attrInfos }
      match judgeInputSupportAll binList k.inputInfos with
      | (.error, inputInfos) => some (.error, { k with inputInfos })
      | (.success, inputInfos) => do
        let (status, k) ← appendBins env enableDebug binAndJsonDir binList { k with inputInfos }
        match status with
        | .error => some (.error, k)
        | .success =>
          let attrInfos ← adjustAttrInfos k
          some (.success, { k with attrInfos, maxKeyLength := keyLength k })

/-! ## Selection -/

/-- `SelectStaticBin` -/
def selectStaticBin (k : OpKernel) (call : Call) : Option OpKernelBin :=
  call.staticKey.bind fun simpKey => k.staticBins (hashBinary env simpKey)

/-- `SelectBin`: the binary and whether it is a dynamic one. A key that was not finished is looked
up as well. -/
def selectBin (k : OpKernel) (call : Call) : Option (BinType × OpKernelBin) :=
  match selectStaticBin env k call with
  | some bin => some (.STATIC_BIN, bin)
  | none =>
    if k.maxKeyLength = 0 then none
    else
      (k.bins (hashBinary env (generateKey env k call).2.bytes)).map fun bin => (.DYNAMIC_BIN, bin)

/-! ## What is registered where -/

/-- Every binary is under the hash of its key. -/
def Hashed (k : OpKernel) : Prop :=
  ∀ hash bin, k.bins hash = some bin → hashBinary env bin.key = hash

variable {env} {k : OpKernel} {enableDebug : Bool} {paths : BinPaths} {params : KeyParams}
  {bin : OpKernelBin}

theorem Hashed.update (h : Hashed env k) {hash : UInt64} (hbin : hashBinary env bin.key = hash) :
    Hashed env { k with bins := update k.bins hash (some bin) } := by
  intro hash' bin' hbin'
  by_cases heq : hash' = hash
  · rw [heq] at hbin' ⊢
    dsimp only at hbin'
    rw [update_self] at hbin'
    rw [← Option.some.inj hbin', hbin]
  · dsimp only at hbin'
    rw [update_of_ne heq] at hbin'
    exact h hash' bin' hbin'

theorem hashed_hashAndInsert (keys : List KeyAndDetail) (h : Hashed env k) :
    Hashed env (hashAndInsert env enableDebug paths params keys k).2 := by
  induction keys generalizing k with
  | nil => exact h
  | cons key keys ih =>
    unfold hashAndInsert
    split
    next => exact ih h
    next =>
      dsimp only
      split
      next => exact ih (h.update rfl)
      next bin hbin =>
        split
        next => exact h
        next hkey =>
          split
          next =>
            refine ih (h.update ?_)
            exact congrArg (hashBinary env) (not_not.mp hkey).symm
          next => exact ih h

/-- A call of `HashAndInsert`. -/
structure Registration where
  enableDebug : Bool
  paths : BinPaths
  params : KeyParams

/-- One registration after the other, whatever they return. -/
def register (env : Env) (regs : List Registration) (k : OpKernel) : OpKernel :=
  regs.foldl (fun k reg =>
    (hashAndInsert env reg.enableDebug reg.paths reg.params reg.params.keys k).2) k

theorem hashed_register (regs : List Registration) (h : Hashed env k) :
    Hashed env (register env regs k) := by
  induction regs generalizing k with
  | nil => exact h
  | cons reg regs ih => exact ih (hashed_hashAndInsert _ h)

/-- A dynamic binary that is found has the key that was made, if and only if no binary is
registered with another key of the same hash; unless a static binary is found first. -/
theorem selectBin_key_iff (regs : List Registration) {k : OpKernel}
    (hnew : ∀ hash, k.bins hash = none) (call : Call) {key : KeyBuf}
    (hkey : generateKey env (register env regs k) call = (.success, key)) :
    (∀ bin, selectBin env (register env regs k) call = some (.DYNAMIC_BIN, bin) →
      bin.key = key.bytes) ↔
    (selectStaticBin env (register env regs k) call = none →
      (register env regs k).maxKeyLength ≠ 0 →
      ∀ hash bin, (register env regs k).bins hash = some bin →
        hashBinary env bin.key = hashBinary env key.bytes → bin.key = key.bytes) := by
  -- every binary stands at the hash of its key
  have hhashed : Hashed env (register env regs k) :=
    hashed_register regs fun hash bin hbin => by rw [hnew hash] at hbin; cases hbin
  unfold selectBin
  rw [hkey]
  constructor
  · intro hfound hstatic hlen hash bin hbin hsame
    refine hfound bin ?_
    rw [hstatic]
    dsimp only
    rw [if_neg hlen, ← hsame, hhashed hash bin hbin, hbin]
    rfl
  · intro hnone bin hbin
    split at hbin
    next => cases hbin
    next hstatic =>
      split at hbin
      next => cases hbin
      next hlen =>
        obtain ⟨bin', hbin', heq⟩ := Option.map_eq_some_iff.mp hbin
        cases heq
        exact hnone hstatic hlen _ bin hbin' (hhashed _ bin hbin')

/-! ## Two inputs, and one -/

/-- The enumerators as GE has them. -/
def geEnv : Env where
  ND := 2
  NCHW := 0
  NHWC := 1
  HWCN := 16
  NDHWC := 27
  NCDHW := 30
  DHWCN := 31
  NDC1HWC0 := 32
  FRACTAL_NZ := 29
  NC1HWC0 := 3
  FRACTAL_Z := 4
  C1HWNCoC0 := 25
  FRACTAL_Z_C04 := 13
  FRACTAL_Z_3D := 33
  FRACTAL_NZ_C0_16 := 50
  FRACTAL_NZ_C0_32 := 51
  FRACTAL_NZ_C0_2 := 52
  FRACTAL_NZ_C0_4 := 53
  FRACTAL_NZ_C0_8 := 54
  END := 55
  transDataId := 1
  toFloat x :=
    if x = 0 then 0
    else (((x >>> 63) <<< 31) ||| (((x >>> 52 &&& 0x7ff) - 896) <<< 23) |||
      (x >>> 29 &&& 0x7fffff)).toUInt32
  behind _ := 0
  hasher := id
  scanKey _ := none

/-- A tensor nothing is known of. -/
def newTensorInfo : TensorInfo := ⟨⟨[], .BOTTOM⟩, .NORMAL, .BOTTOM, 0, .DEFAULT, invalidMaxDimNum⟩

/-- An op of which nothing was read. -/
def newKernel : OpKernel :=
  ⟨0, ascii "Pair", [], fun _ => newTensorInfo, fun _ => newTensorInfo, [], 0, 0, 0, 0, 0, 0, false,
    false, false, fun _ => none, fun _ => none⟩

/-- The description of a float tensor. -/
def floatObj (paramType : String) : TensorJson :=
  .object ⟨none, some (ascii paramType), some (ascii "float32"), none, some (ascii "NCHW"), none⟩

/-- A binary for two tensors. -/
def pairBin : BinJson :=
  ⟨none, some (ascii "high_precision"), none, none, none, none,
    some [floatObj "required", floatObj "optional"], none, none, some (ascii "pair.json")⟩

def floatTensor : Tensor := ⟨.DT_FLOAT, 0, [2, 2]⟩

/-- The call of an op with these inputs. -/
def callOf (inputs : List OpArg) : Call := ⟨inputs, [], [], 1, none, none⟩

/-- The op with its tables, and no binary. -/
def pairKernel : OpKernel :=
  { ((appendDynBin geEnv false 0 [] (some [pairBin]) newKernel).map Prod.snd).getD newKernel with
    bins := fun _ => none }

/-- The binary is registered with its key. -/
def pairRegistration : Registration :=
  ⟨false, ⟨[], ascii "pair.json", 4⟩,
    ⟨[⟨ascii "0/2/" ++ [0, 0, 0, 0], false, ascii "high_precision"⟩], .DYNAMIC_BIN, false, false⟩⟩

/-- The call with both tensors. -/
def pairCall : Call := callOf [.aclTensor (some floatTensor), .aclTensor (some floatTensor)]

theorem generateKey_pair :
    generateKey geEnv (register geEnv [pairRegistration] pairKernel) pairCall =
      (.success, ⟨ascii "0/2/" ++ [0, 0, 0, 0], 8⟩) := by decide

theorem bins_pair {hash : UInt64}
    (h : (register geEnv [pairRegistration] pairKernel).bins hash = some bin) :
    bin.key = ascii "0/2/" ++ [0, 0, 0, 0] := by
  have hbins : (register geEnv [pairRegistration] pairKernel).bins =
      update (fun _ => none) (hashBinary geEnv (ascii "0/2/" ++ [0, 0, 0, 0]))
        (some (pairRegistration.params.bin pairRegistration.paths
          ⟨ascii "0/2/" ++ [0, 0, 0, 0], false, ascii "high_precision"⟩
          (hashBinary geEnv (ascii "0/2/" ++ [0, 0, 0, 0])) false)) := rfl
  rw [hbins] at h
  by_cases heq : hash = hashBinary geEnv (ascii "0/2/" ++ [0, 0, 0, 0])
  · rw [heq, update_self] at h
    rw [← Option.some.inj h]
    rfl
  · rw [update_of_ne heq] at h
    cases h

/-- A key for both tensors finds it. -/
theorem selectBin_key_pair :
    ∃ bin, selectBin geEnv (register geEnv [pairRegistration] pairKernel) pairCall =
      some (.DYNAMIC_BIN, bin) ∧ bin.key = ascii "0/2/" ++ [0, 0, 0, 0] :=
  ⟨_, rfl, (selectBin_key_iff [pairRegistration] (fun _ => rfl) pairCall generateKey_pair).mpr
    (fun _ _ _ _ hbin _ => bins_pair hbin) _ rfl⟩

/-- The key for the first tensor alone finds it too. -/
theorem selectBin_other_key :
    ∃ key bin, generateKey geEnv (register geEnv [pairRegistration] pairKernel)
        (callOf [.aclTensor (some floatTensor), .aclTensor none]) = (.success, key) ∧
      selectBin geEnv (register geEnv [pairRegistration] pairKernel)
        (callOf [.aclTensor (some floatTensor), .aclTensor none]) = some (.DYNAMIC_BIN, bin) ∧
      bin.key ≠ key.bytes := by
  exact ⟨⟨ascii "0/2/" ++ [0, 0], 6⟩, _, by decide, rfl, by decide⟩

end OpKernel

end OpBase.Kernel
