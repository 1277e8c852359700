import OpBase.Kernel.AttrsAgree
import OpBase.Kernel.TensorsAgree

/-!
# The key of a binary and the key of a call

For a call with just the arguments that a binary describes, `GenerateKeyByJson` and `GenerateKey`
make a key each: the binary's when its turn came, the key of the call when all binaries had been
read.

> `generateKey_eq_stored`: they agree if the tables said the same both times and every argument is
> one that both sides treat alike.
-/

namespace OpBase.Kernel

open List OpBase.Lib
open OpBase.Cache.Key (securecMemMaxLen)

variable (env : Env) {mode : OpImplMode} {call : Call}

/-! ## Calls as they are described -/

/-- A call in the setting of a key, with the arguments that the binary describes. -/
structure BinJson.Fits (bin : BinJson) (k : OpKernel) (key : KeyAndDetail) (call : Call) :
    Prop where
  deterministic : key.deterministicFlag = decide (k.determinConfig = 1)
  implMode : key.implMode = call.implMode.toStr
  inputs : List.Forall₂ (TensorJson.Fits env) (bin.inputs.getD []) call.inputs
  outputs : List.Forall₂ (TensorJson.Fits env) (bin.outputs.getD []) call.outputs
  attrs : List.Forall₂ (fun attr arg => ∃ value, (attr.bind AttrJson.value) = some value ∧
    value.Fits env arg) (bin.attrs.getD []) call.attrs

/-! ## The context -/

section Context

variable {env} {k : OpKernel} {bin : BinJson} {path : Str} {entry : String × OpImplMode}

theorem toStr_of_mem (h : entry ∈ stringToOpImplMode) :
    OpImplMode.toStr entry.2 = ascii entry.1 := by
  revert h
  revert entry
  decide

theorem eq_of_toStr_eq (h : entry ∈ stringToOpImplMode) {implMode : OpImplMode}
    (heq : ascii entry.1 = implMode.toStr) : implMode = entry.2 := by
  have hunknown : ∀ entry ∈ stringToOpImplMode, ascii entry.1 ≠ ascii "unknown" := by decide
  have hnames : ∀ entry ∈ stringToOpImplMode, ∀ found ∈ stringToOpImplMode,
      ascii entry.1 = ascii found.1 → found.2 = entry.2 := by decide
  unfold OpImplMode.toStr at heq
  cases hfind : stringToOpImplMode.find? fun entry => entry.2 = implMode with
  | none =>
    rw [hfind] at heq
    exact absurd heq (hunknown entry h)
  | some found =>
    rw [hfind] at heq
    have hmode := find?_some hfind
    rw [decide_eq_true_eq] at hmode
    rw [← hmode]
    exact hnames entry h found (mem_of_find?_eq_some hfind) heq

/-- Every mode of a description is one that the table has. -/
theorem mode_mem (h : mode ∈ implModes bin path) :
    ∃ entry ∈ stringToOpImplMode, entry.2 = mode := by
  -- every mode that is listed has a name in the table
  have hknown : ∀ modes : List OpImplMode,
      modes.all (fun m => stringToOpImplMode.any (·.2 = m)) → mode ∈ modes →
        ∃ entry ∈ stringToOpImplMode, entry.2 = mode :=
    fun _ hall hmem => by simpa using all_eq_true.mp hall mode hmem
  unfold implModes at h
  split at h
  next => exact hknown _ (by decide) h
  next =>
    split at h
    next => exact hknown _ (by decide) h
    next =>
      split at h
      next => exact hknown _ (by decide) h
      next =>
        unfold parseImplModeByJson at h
        split at h
        next => exact hknown _ (by decide) h
        next implMode _ =>
          split at h
          next => exact hknown _ (by decide) h
          next =>
            split at h
            next hreserved =>
              rw [mem_singleton] at h
              rw [h]
              unfold toOpImplMode lookup at hreserved ⊢
              cases hfind : stringToOpImplMode.find? fun entry => ascii entry.1 = implMode with
              | none =>
                rw [hfind] at hreserved
                exact absurd rfl hreserved
              | some entry => exact ⟨entry, mem_of_find?_eq_some hfind, rfl⟩
            next => exact hknown _ (by decide) h

/-- The head of the key is the one noted for the same mode and setting. -/
theorem contextKey_eq {key : KeyAndDetail} (hkey : key ∈ contextKeys bin path)
    (hdeterministic : key.deterministicFlag = decide (k.determinConfig = 1))
    (himplMode : key.implMode = call.implMode.toStr)
    (hdefault : call.implMode ≠ OpImplMode.IMPL_MODE_DEFAULT)
    (hsupport : ∀ mode ∈ implModes bin path, k.isSupportImplMode mode) :
    (k.contextKey call.implMode).bytes = key.key := by
  obtain ⟨flag, hflag, hkey⟩ := mem_flatMap.mp hkey
  obtain ⟨mode, hmode, rfl⟩ := mem_map.mp hkey
  obtain ⟨entry, hentry, rfl⟩ := mode_mem hmode
  have hcall : call.implMode = entry.2 :=
    eq_of_toStr_eq hentry ((toStr_of_mem hentry).symm.trans himplMode)
  have hcurrent : k.getCurrentImplMode call.implMode = entry.2 := by
    unfold OpKernel.getCurrentImplMode
    rw [if_pos ⟨hdefault, hcall ▸ hsupport entry.2 hmode⟩, hcall]
  have hdetermin : k.determinChar = flag := by
    -- the description gives one flag, or both
    have hflags : flag = deterministicValue ∨ flag = nonDeterministicValue := by
      unfold determinFlags at hflag
      split at hflag
      next => simpa using hflag
      next =>
        split at hflag
        next => exact Or.inl (mem_singleton.mp hflag)
        next =>
          split at hflag
          next => exact Or.inr (mem_singleton.mp hflag)
          next => simpa using hflag
    unfold OpKernel.determinChar
    dsimp only at hdeterministic
    obtain rfl | rfl := hflags
    · have hconfig : k.determinConfig = 1 := of_decide_eq_true hdeterministic.symm
      rw [if_pos hconfig]
      rfl
    · have hconfig : ¬ k.determinConfig = 1 := of_decide_eq_false hdeterministic.symm
      rw [if_neg hconfig]
      rfl
  unfold OpKernel.contextKey
  rw [bytes_foldl_put, hcurrent, hdetermin]
  rfl

end Context

/-! ## The whole key -/

namespace OpKernel

section Whole

variable {env} {k k' k₁ : OpKernel} {bin : BinJson} {key key' : Str} {status : Status}
variable {finals : Nat → TensorInfo} {ign : Bool} {args : List OpArg}

/-- The launch writes the noted key of the inputs. -/
theorem visitBy_inputs_noted (h : assembleInputs env k bin key = some (status, key', k₁))
    (hgrows : ∀ i, (k₁.inputInfos i).Grows env (finals i))
    (hop : ∀ i, i < maxTensorSize → (finals i).opType = k.opType)
    (hfits : List.Forall₂ (TensorJson.Fits env) (bin.inputs.getD []) args)
    (hsettled : AllSettled env (isGenInputPlaceholder bin) (hasDevPtrArg bin) ign k.inputInfos
      finals 0 (bin.inputs.getD []) args) :
    status = .success ∧ ∃ bs, key' = key ++ bs ∧
      ∀ buf, visitBy (genKeyByArg env finals ign) 0 args buf =
        (.success, bs.foldl KeyBuf.put buf) := by
  unfold assembleInputs at h
  cases hinputs : bin.inputs with
  | none =>
    rw [hinputs] at h hfits
    cases hfits
    cases h
    exact ⟨rfl, [], (append_nil _).symm, fun _ => rfl⟩
  | some inputs =>
    rw [hinputs] at h hfits hsettled
    obtain ⟨⟨status', key'', infos⟩, hassemble, h⟩ := Option.bind_eq_some_iff.mp h
    obtain rfl := status_of_fits hassemble hfits
    cases h
    refine visitBy_noted hassemble hfits hsettled hop
      (fun i => (grows_updateFormatType infos _ i).trans (hgrows i)) fun i hi => ?_
    rw [Nat.zero_add] at hi
    exact nd_of_updated (Nat.lt_of_lt_of_le hi (Nat.le_max_right _ _)) (hgrows i)

/-- The launch writes the noted key of the outputs. -/
theorem visitBy_outputs_noted (h : assembleOutputs env k bin key = some (status, key', k₁))
    (hgrows : ∀ i, (k₁.outputInfos i).Grows env (finals i))
    (hop : ∀ i, i < maxTensorSize → (finals i).opType = k.opType)
    (hfits : List.Forall₂ (TensorJson.Fits env) (bin.outputs.getD []) args)
    (hsettled : AllSettled env (isGenInputPlaceholder bin) (hasDevPtrArg bin) ign k.outputInfos
      finals 0 (bin.outputs.getD []) args) :
    status = .success ∧ ∃ bs, key' = key ++ bs ∧
      ∀ buf, visitBy (genKeyByArg env finals ign) 0 args buf =
        (.success, bs.foldl KeyBuf.put buf) := by
  unfold assembleOutputs at h
  cases houtputs : bin.outputs with
  | none =>
    rw [houtputs] at h hfits
    cases hfits
    cases h
    exact ⟨rfl, [], (append_nil _).symm, fun _ => rfl⟩
  | some outputs =>
    rw [houtputs] at h hfits hsettled
    obtain ⟨⟨status', key'', infos⟩, hassemble, h⟩ := Option.bind_eq_some_iff.mp h
    obtain rfl := status_of_fits hassemble hfits
    cases h
    refine visitBy_noted hassemble hfits hsettled hop
      (fun i => (grows_updateFormatType infos _ i).trans (hgrows i)) fun i hi => ?_
    rw [Nat.zero_add] at hi
    exact nd_of_updated (Nat.lt_of_lt_of_le hi (Nat.le_max_right _ _)) (hgrows i)

/-- A key goes on for as long as the buffer, if there are attributes at all. -/
structure HasRoom (env : Env) (k : OpKernel) (call : Call) : Prop where
  tensors : k.tensorsRoom env call < k.maxKeyLength
  attrs : k.tensorsRoom env call + (roomOf (attrRoom env k.attrInfos
    (k.maxKeyLength - k.tensorsRoom env call)) 0 call.attrs).2 ≤ k.maxKeyLength
  securec : k.maxKeyLength ≤ securecMemMaxLen

/-- The part of `GenerateKey` behind the tensors, and that of `GenerateKeyByJson`. -/
theorem attrs_noted {ret : Status} {buf : KeyBuf} {tensorKey attrKey : Str}
    (h : assembleAttrs env k₁ bin tensorKey = some attrKey)
    (hmode : k.ingnoreAttrSimplifiedKeyMode = k₁.ingnoreAttrSimplifiedKeyMode)
    (hlen : buf.bytes.length = k.tensorsRoom env call)
    (hfits : List.Forall₂ (fun attr arg => ∃ value, attr.bind AttrJson.value = some value ∧
      value.Fits env arg) (bin.attrs.getD []) call.attrs)
    (hsettled : ¬ k.ingnoreAttrSimplifiedKeyMode →
      AttrsSettled k₁.attrInfos k.attrInfos 0 (bin.attrs.getD []) call.attrs)
    (hroom : ¬ k.ingnoreAttrSimplifiedKeyMode → call.attrs ≠ [] → k.HasRoom env call) :
    ∃ bs, attrKey = tensorKey ++ bs ∧
      (if k.maxKeyLength ≤ buf.bytes.length then (.error, buf)
        else if k.attrInfos = [] ∨ k.ingnoreAttrSimplifiedKeyMode then (ret, buf)
        else visitBy (genKeyByAttr env k.attrInfos (k.maxKeyLength - buf.bytes.length)) 0
          call.attrs buf).2.bytes = buf.bytes ++ bs := by
  -- without attributes neither side adds anything
  have hnone : call.attrs = [] → ∀ attrKey', attrKey' = tensorKey →
      ∃ bs, attrKey' = tensorKey ++ bs ∧
        (if k.maxKeyLength ≤ buf.bytes.length then (.error, buf)
          else if k.attrInfos = [] ∨ k.ingnoreAttrSimplifiedKeyMode then (ret, buf)
          else visitBy (genKeyByAttr env k.attrInfos (k.maxKeyLength - buf.bytes.length)) 0
            call.attrs buf).2.bytes = buf.bytes ++ bs := by
    intro hargs attrKey' hkey
    refine ⟨[], by rw [hkey, append_nil], ?_⟩
    rw [hargs, append_nil]
    split
    next => rfl
    next =>
      split
      next => rfl
      next => rfl
  unfold assembleAttrs at h
  by_cases hignore : k.ingnoreAttrSimplifiedKeyMode
  · rw [if_pos (hmode ▸ hignore)] at h
    cases h
    refine ⟨[], (append_nil _).symm, ?_⟩
    rw [append_nil, if_pos (Or.inr hignore)]
    split
    next => rfl
    next => rfl
  · rw [if_neg (hmode ▸ hignore)] at h
    cases hattrs : bin.attrs with
    | none =>
      rw [hattrs] at h hfits
      cases h
      exact hnone (forall₂_nil_left_iff.mp hfits) _ rfl
    | some attrs =>
      rw [hattrs] at h hfits hsettled
      obtain ⟨⟨status, attrKey'⟩, hparse, rfl⟩ := Option.map_eq_some_iff.mp h
      by_cases hargs : call.attrs = []
      · refine hnone hargs _ ?_
        rw [hargs] at hfits
        rw [Option.getD_some, forall₂_nil_right_iff] at hfits
        rw [hfits] at hparse
        cases hparse
        rfl
      · obtain ⟨htensors, hroom, hsecurec⟩ := hroom hignore hargs
        obtain ⟨bs, hkey, hbuf⟩ := visitBy_attrs_noted hparse hfits (hsettled hignore)
          (show (roomOf (attrRoom env k.attrInfos (k.maxKeyLength - k.tensorsRoom env call)) 0
            call.attrs).2 ≤ k.maxKeyLength - k.tensorsRoom env call by omega) (by omega)
        refine ⟨bs, hkey, ?_⟩
        rw [hlen, if_neg (Nat.not_le.mpr htensors)]
        split
        next hskip =>
          have hempty := hskip.resolve_right hignore
          rw [← hbuf buf, visitBy_attrs_none buf]
          intro i _
          rw [hempty]
          exact getElem?_nil
        next => exact hbuf buf

end Whole

/-- The turn of a binary in a list that was accepted: the tables when it came, and the keys it
got. -/
structure Turn (env : Env) (enableDebug : Bool) (determinConfig : Int) (dir : Str)
    (k₀ k : OpKernel) (bin : BinJson) where
  before : List BinJson
  after : List BinJson
  tables : OpKernel
  path : Str
  pos : Nat
  params : KeyParams
  made : OpKernel
  accepted : appendDynBin env enableDebug determinConfig dir (some (before ++ bin :: after)) k₀ =
    some (.success, k)
  defaultMode : (lookedOver env determinConfig (before ++ bin :: after)
    k₀).customizedSimplifiedKeyMode = false
  read : appendBins env enableDebug dir before
    (lookedOver env determinConfig (before ++ bin :: after) k₀) = some (.success, tables)
  hasPath : bin.jsonFilePath.map (resultJsonPath tables) = some path
  isJson : find path (ascii ".json") = some pos
  keys : generateKeyByJson env tables bin path = some (params, made)

/-- What a call asks of the tables, then and at the end, that both sides treat it alike. -/
structure Turn.Settled {env : Env} {enableDebug : Bool} {determinConfig : Int} {dir : Str}
    {k₀ k : OpKernel} {bin : BinJson} (turn : Turn env enableDebug determinConfig dir k₀ k bin)
    (call : Call) : Prop where
  implMode : call.implMode ≠ OpImplMode.IMPL_MODE_DEFAULT
  inputs : AllSettled env (isGenInputPlaceholder bin) (hasDevPtrArg bin) k.genPlaceholder
    turn.tables.inputInfos k.inputInfos 0 (bin.inputs.getD []) call.inputs
  outputs : AllSettled env (isGenInputPlaceholder bin) (hasDevPtrArg bin) k.genPlaceholder
    turn.tables.outputInfos k.outputInfos 0 (bin.outputs.getD []) call.outputs
  attrs : ¬ k.ingnoreAttrSimplifiedKeyMode →
    AttrsSettled turn.tables.attrInfos k.attrInfos 0 (bin.attrs.getD []) call.attrs
  room : ¬ k.ingnoreAttrSimplifiedKeyMode → call.attrs ≠ [] → k.HasRoom env call

section Agree

variable {env} {enableDebug : Bool} {determinConfig : Int} {dir : Str} {k₀ k k' : OpKernel}
variable {bin : BinJson}

section

variable (turn : Turn env enableDebug determinConfig dir k₀ k bin)
include turn

theorem Turn.grows :
    ∃ k' attrInfos, turn.made.Grows env k' ∧
      k = { k' with attrInfos, maxKeyLength := keyLength k' } ∧
      (lookedOver env determinConfig (turn.before ++ bin :: turn.after) k₀).Grows env
        turn.tables := by
  obtain ⟨k', attrInfos, hbins, _, hk⟩ := appendDynBin_cases turn.accepted
  obtain ⟨tables, hbefore, hrest⟩ := appendBins_append hbins
  obtain rfl : turn.tables = tables := by
    have := turn.read.symm.trans hbefore
    cases this
    rfl
  obtain ⟨k₁, hbin, hafter⟩ := appendBins_cons hrest
  have hstart := grows_appendBins turn.defaultMode hbefore
  have hmode := hstart.customizedSimplifiedKeyMode.trans turn.defaultMode
  have hmade := appendBin_of_keys hmode turn.hasPath turn.isJson turn.keys hbin
  have hmode' := (grows_generateKeyByJson turn.keys).customizedSimplifiedKeyMode.trans hmode
  have hlast := grows_appendBins (hmade.customizedSimplifiedKeyMode.trans hmode') hafter
  exact ⟨k', attrInfos, hmade.trans hlast, hk, hstart⟩

theorem Turn.opType {i : Nat}
    (hi : i < maxTensorSize) :
    (k.inputInfos i).opType = turn.tables.opType ∧
      (k.outputInfos i).opType = turn.tables.opType := by
  obtain ⟨k', attrInfos, hgrows, hk, hstart⟩ := turn.grows
  have hall := (hstart.trans (grows_generateKeyByJson turn.keys)).trans hgrows
  have hlooked : ∀ list, ((lookedOver env determinConfig list k₀).inputInfos i).opType =
        (lookedOver env determinConfig list k₀).opType ∧
      ((lookedOver env determinConfig list k₀).outputInfos i).opType =
        (lookedOver env determinConfig list k₀).opType := fun _ => opType_lookedOver hi
  have hinputs : k.inputInfos = k'.inputInfos := by rw [hk]
  have houtputs : k.outputInfos = k'.outputInfos := by rw [hk]
  rw [hinputs, houtputs, (hall.inputInfos i).opType, (hall.outputInfos i).opType,
    (hlooked _).1, (hlooked _).2, hstart.opType]
  exact ⟨rfl, rfl⟩

theorem Turn.supports (hmem : mode ∈ implModes bin turn.path) : k.isSupportImplMode mode := by
  obtain ⟨k', attrInfos, hgrows, hk, _⟩ := turn.grows
  have hbm : k.implModeBm = k'.implModeBm := by rw [hk]
  have hmode : mode ≠ 0 := by
    have hall : ∀ entry ∈ stringToOpImplMode, entry.2 ≠ 0 := by decide
    obtain ⟨entry, hentry, rfl⟩ := mode_mem hmem
    exact hall entry hentry
  have hsupport := hgrows.implMode mode (supports_of_modes turn.keys hmem hmode)
  unfold isSupportImplMode at hsupport ⊢
  rw [hbm]
  exact hsupport

theorem Turn.not_customized :
    ¬ k.customizedSimplifiedKeyMode := by
  obtain ⟨k', attrInfos, hgrows, hk, hstart⟩ := turn.grows
  have hall := (hstart.trans (grows_generateKeyByJson turn.keys)).trans hgrows
  have hmode : k.customizedSimplifiedKeyMode = k'.customizedSimplifiedKeyMode := by rw [hk]
  rw [hmode, hall.customizedSimplifiedKeyMode, turn.defaultMode]
  decide

end

theorem length_tensors {buf buf' : KeyBuf} {ret : Status}
    (hinputs : visitBy (genKeyByArg env k.inputInfos k.genPlaceholder) 0 call.inputs
      (k.contextKey call.implMode) = (.success, buf))
    (houtputs : visitBy (genKeyByArg env k.outputInfos k.genPlaceholder) 0 call.outputs buf =
      (ret, buf')) : buf'.bytes.length = k.tensorsRoom env call := by
  have hin := (meets_inputs env buf'.reach k call).2
  rw [hinputs] at hin
  have hout : Meets buf'.reach (roomOf (argRoom env k.outputInfos k.genPlaceholder) 0 call.outputs)
      buf (visitBy (genKeyByArg env k.outputInfos k.genPlaceholder) 0 call.outputs buf) :=
    meets_tensors k.outputInfos call.outputs hin.covers
  have hadded := hout.2
  rw [houtputs] at hadded
  exact length_start (((added_contextKey k call.implMode).trans hin).trans hadded) (Nat.le_refl _)

/-- A call with the arguments that a binary describes makes the key of the binary, if both sides
treat them alike. -/
theorem generateKey_eq_stored (turn : Turn env enableDebug determinConfig dir k₀ k bin)
    {key : KeyAndDetail} (hkey : key ∈ turn.params.keys) (hfits : bin.Fits env k key call)
    (hsettled : turn.Settled call) :
    (generateKey env k call).2.bytes = key.key := by
  obtain ⟨k', attrInfos, hgrows, hk, hstart⟩ := turn.grows
  -- the compile step leaves the tables as they are
  have hinputInfos : k.inputInfos = k'.inputInfos := by rw [hk]
  have houtputInfos : k.outputInfos = k'.outputInfos := by rw [hk]
  have hignore : k.ingnoreAttrSimplifiedKeyMode = k'.ingnoreAttrSimplifiedKeyMode := by rw [hk]
  obtain ⟨status, inputKey, k₁, hin, hrest⟩ := generateKeyByJson_cases turn.keys
  have hgrows₁ : k₁.Grows env k' := by
    obtain ⟨_, hm⟩ | ⟨_, _, _, k₂, hout, hm⟩ := hrest
    · rw [← hm]
      exact hgrows
    · refine (grows_assembleOutputs hout).trans ?_
      obtain ⟨_, hm⟩ | ⟨_, _, _, hm, _⟩ := hm
      · rw [← hm]
        exact hgrows
      · exact (Grows.ofAttrLen k₂ _).trans (hm ▸ hgrows)
  obtain ⟨rfl, inputBytes, hinputKey, hinputBuf⟩ := visitBy_inputs_noted hin
    (fun i => hinputInfos ▸ hgrows₁.inputInfos i) (fun i hi => (turn.opType hi).1) hfits.inputs
    hsettled.inputs
  obtain ⟨hbad, _⟩ | ⟨_, status', tensorKey, k₂, hout, hrest⟩ := hrest
  · cases hbad
  have hgrows₂ : k₂.Grows env k' := by
    obtain ⟨_, hm⟩ | ⟨_, _, _, hm, _⟩ := hrest
    · rw [← hm]
      exact hgrows
    · exact (Grows.ofAttrLen k₂ _).trans (hm ▸ hgrows)
  have houtputs : k₁.outputInfos = turn.tables.outputInfos :=
    (outputInfos_assembleInputs hin).trans rfl
  obtain ⟨rfl, outputBytes, houtputKey, houtputBuf⟩ := visitBy_outputs_noted hout
    (fun i => houtputInfos ▸ hgrows₂.outputInfos i)
    (fun i hi => (turn.opType hi).2.trans (grows_assembleInputs hin).opType.symm) hfits.outputs
    (houtputs ▸ hsettled.outputs)
  obtain ⟨hbad, _⟩ | ⟨_, attrKey, hattrs, _, hkeys⟩ := hrest
  · cases hbad
  rw [hkeys] at hkey
  obtain ⟨context, hcontext, rfl⟩ := mem_map.mp hkey
  have hbytes := contextKey_eq hcontext hfits.deterministic hfits.implMode hsettled.implMode
    fun mode hmode => turn.supports hmode
  have hattrInfos : k₂.attrInfos = turn.tables.attrInfos :=
    (grows_assembleOutputs hout).attrInfos.trans (grows_assembleInputs hin).attrInfos
  have hlen := length_tensors (hinputBuf (k.contextKey call.implMode)) (houtputBuf _)
  obtain ⟨attrBytes, hattrKey, hattrBuf⟩ := attrs_noted hattrs
    (hignore.trans hgrows₂.ingnoreAttrSimplifiedKeyMode) hlen hfits.attrs
    (hattrInfos ▸ hsettled.attrs) hsettled.room
  unfold generateKey
  rw [if_neg turn.not_customized, hinputBuf]
  dsimp only
  rw [houtputBuf]
  dsimp only
  rw [hattrBuf, bytes_foldl_put, bytes_foldl_put, hbytes, hattrKey, houtputKey, hinputKey]
  simp only [append_assoc, nil_append]

end Agree

/-! ## A short string, and a long one -/

/-- The turn of the binary with two modes. -/
def modesTurn : Turn geEnv false 0 [] newKernel modesKernel modesBin where
  before := []
  after := []
  tables := lookedOver geEnv 0 [modesBin] newKernel
  path := ascii "modes.json"
  pos := 5
  params := ⟨[⟨ascii "1/2/" ++ [0, 0] ++ ascii "/a/b", true, ascii "high_precision"⟩,
    ⟨ascii "0/2/" ++ [0, 0] ++ ascii "/a/b", false, ascii "high_precision"⟩], .DYNAMIC_BIN, false,
    false⟩
  made := ((generateKeyByJson geEnv (lookedOver geEnv 0 [modesBin] newKernel) modesBin
    (ascii "modes.json")).map Prod.snd).getD newKernel
  accepted := rfl
  defaultMode := rfl
  read := rfl
  hasPath := rfl
  isJson := rfl
  keys := rfl

/-- The call that the binary describes, in its mode. -/
def precisionCall (mode layout : Str) : Call :=
  { modesCall mode layout with implMode := OpImplMode.IMPL_MODE_HIGH_PRECISION }

theorem fits_float (paramType : String) :
    (floatObj paramType).Fits geEnv (.aclTensor (some floatTensor)) := by
  have hdtype : getDataType (ascii "float32") = some .DT_FLOAT := by decide
  have hformat : getFormat geEnv (ascii "NCHW") = some floatTensor.primaryFormat := by decide
  refine ⟨nofun, fun s hs => ?_, fun s hs => ?_, nofun⟩
  · cases hs
    exact hdtype
  · cases hs
    exact hformat

theorem fits_modes : modesBin.Fits geEnv modesKernel
    ⟨ascii "0/2/" ++ [0, 0] ++ ascii "/a/b", false, ascii "high_precision"⟩
    (precisionCall (ascii "a") (ascii "b")) where
  deterministic := by decide
  implMode := by decide
  inputs := .cons (fits_float _) .nil
  outputs := .nil
  attrs := .cons ⟨_, rfl, rfl⟩ (.cons ⟨_, rfl, rfl⟩ .nil)

theorem settled_modes : modesTurn.Settled (precisionCall (ascii "a") (ascii "b")) where
  implMode := by decide
  inputs := by
    refine .cons ⟨by decide, fun _ => ⟨nofun, nofun, by decide, fun h => ?_, fun h => ?_⟩⟩ .nil
    · exact absurd h (by decide)
    · exact absurd h (by decide)
  outputs := .nil
  attrs _ := by
    refine .cons rfl (fun _ _ _ _ hvalue => ?_) (.cons rfl (fun _ _ _ _ hvalue => ?_) .nil)
    · cases hvalue
      exact show (ascii "a").length ≤ 32 by decide
    · cases hvalue
      exact show (ascii "b").length ≤ 32 by decide
  room _ _ := ⟨by decide, by decide, by decide⟩

/-- The key is that of the binary. -/
theorem generateKey_modes :
    (generateKey geEnv modesKernel (precisionCall (ascii "a") (ascii "b"))).2.bytes =
      ascii "0/2/" ++ [0, 0] ++ ascii "/a/b" :=
  generateKey_eq_stored modesTurn (mem_cons_of_mem _ mem_cons_self) fits_modes
    settled_modes

/-- A mode of 33 characters. -/
def longMode : Str := ascii "aaaaaaaaaaaaaaaaaaaaaaaaaaaaaaaaa"

/-- A binary for a tensor and a long mode. -/
def longBin : BinJson :=
  { modesBin with
    attrs := some [some ⟨some (ascii "mode"), some (.string longMode)⟩]
    jsonFilePath := some (ascii "long.json") }

/-- The op with this binary. -/
def longKernel : OpKernel :=
  ((appendDynBin geEnv false 0 [] (some [longBin]) newKernel).map Prod.snd).getD newKernel

/-- Its key has the whole string. -/
def longTurn : Turn geEnv false 0 [] newKernel longKernel longBin where
  before := []
  after := []
  tables := lookedOver geEnv 0 [longBin] newKernel
  path := ascii "long.json"
  pos := 4
  params := ⟨[⟨ascii "1/2/" ++ [0, 0] ++ ascii "/" ++ longMode, true, ascii "high_precision"⟩,
    ⟨ascii "0/2/" ++ [0, 0] ++ ascii "/" ++ longMode, false, ascii "high_precision"⟩],
    .DYNAMIC_BIN, false, false⟩
  made := ((generateKeyByJson geEnv (lookedOver geEnv 0 [longBin] newKernel) longBin
    (ascii "long.json")).map Prod.snd).getD newKernel
  accepted := rfl
  defaultMode := rfl
  read := rfl
  hasPath := rfl
  isJson := rfl
  keys := rfl

/-- The call with this mode. -/
def longCall : Call :=
  ⟨[.aclTensor (some floatTensor)], [], [.string longMode], OpImplMode.IMPL_MODE_HIGH_PRECISION,
    none, none⟩

/-- The key of the call has 32 characters of it. -/
theorem generateKey_ne_stored :
    ∃ (turn : Turn geEnv false 0 [] newKernel longKernel longBin) (key : KeyAndDetail),
      key ∈ turn.params.keys ∧ longBin.Fits geEnv longKernel key longCall ∧
        (generateKey geEnv longKernel longCall).2.bytes ≠ key.key := by
  refine ⟨longTurn, _, mem_cons_of_mem _ mem_cons_self, ?_, by decide⟩
  exact ⟨by decide, by decide, .cons (fits_float _) .nil, .nil, .cons ⟨_, rfl, rfl⟩ .nil⟩

end OpKernel

end OpBase.Kernel
