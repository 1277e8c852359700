import OpBase.Kernel.SelectBin

/-!
# What a key takes of its buffer

`GenerateKey` is given a buffer of `maxKeyLength_` bytes, which `AppendDynBin` estimated from the
descriptions of the binaries: two bytes for a tensor, the longest attributes of a binary, and some
more. A call may take more than that. A tensor list takes three bytes, and one more where
dimensions count; a string takes up to 32, whatever its binary has; and `GenKeyByAttrs` tells every
copy that as much is left as before the first attribute.

> `reach_le_iff`: a key stays inside its buffer if and only if the bytes that its arguments
> take, one after the other up to the first that has no key, are not more than the buffer has.
-/

namespace OpBase.Kernel

open OpBase.Lib
open OpBase.Cache.Key (securecMemMaxLen)

variable (env : Env)

/-! ## The bytes of an argument -/

/-- What a tensor takes, and whether its key is made. -/
def tensorRoom (tensorInfos : Nat → TensorInfo) (ignoreOptional : Bool) (idx : Nat) :
    Option Tensor → Status × Nat
  | none => (.success, 0)
  | some t =>
    if maxTensorSize ≤ idx then (.error, 0)
    else if ignoreOptional ∧ (tensorInfos idx).tensorType = .OPTIONAL then (.success, 0)
    else if formatChar env (tensorInfos idx) t = none then (.error, 1)
    else (.success, 2 + c0Room (tensorInfos idx) t + dimensionRoom (tensorInfos idx))
where
  /-- The last dimension of a tensor to transform. -/
  c0Room (info : TensorInfo) (t : Tensor) : Nat :=
    if info.opType = env.transDataId ∧ t.primaryFormat = env.FRACTAL_Z ∧
        t.storageShape.length = fractalZSize then 1
    else 0
  /-- The number of dimensions. -/
  dimensionRoom (info : TensorInfo) : Nat :=
    if info.shapeSupportType = .NOT_SUPPORT_ALL then 1 else 0

/-- What an argument takes; a list has its size behind its first tensor. -/
def argRoom (tensorInfos : Nat → TensorInfo) (ignoreOptional : Bool) (idx : Nat) :
    OpArg → Status × Nat
  | .aclTensor tensor => tensorRoom env tensorInfos ignoreOptional idx tensor
  | .aclTensorList tensorList =>
    if ignoreOptional ∧ idx < maxTensorSize ∧ (tensorInfos idx).tensorType = .OPTIONAL then
      (.success, 0)
    else
      match tensorList with
      | none | some [] => (.error, 0)
      | some (t :: _) =>
        match tensorRoom env tensorInfos ignoreOptional idx t with
        | (.error, n) => (.error, n)
        | (.success, n) => (.success, n + 1)
  | _ => (.success, 0)

/-- What an attribute takes, if the copies are told that `remainLen` bytes are left. -/
def attrRoom (attrInfos : List AttrInfo) (remainLen idx : Nat) (arg : OpArg) : Status × Nat :=
  match attrInfos[idx]? with
  | none => (.success, 0)
  | some info =>
    if info.supportAll then (.success, 0)
    else
      match arg.attrKey env info.realSize with
      | .chars cs => (.success, 1 + cs.length)
      | .copied bytes =>
        if remainLen = 0 ∨ securecMemMaxLen < remainLen then (.error, 1)
        else if remainLen < bytes.length then (.error, 1 + bytes.length)
        else (.success, 1 + bytes.length)
      | .unsupported => (.error, 1)

/-- What arguments take, up to the first that has no key. -/
def roomOf (room : Nat → OpArg → Status × Nat) : Nat → List OpArg → Status × Nat
  | _, [] => (.success, 0)
  | idx, arg :: args =>
    match room idx arg with
    | (.error, n) => (.error, n)
    | (.success, n) => ((roomOf room (idx + 1) args).1, n + (roomOf room (idx + 1) args).2)

/-- What the tensors of a call take, behind the context, if all inputs have keys. -/
def OpKernel.tensorsRoom (k : OpKernel) (call : Call) : Nat :=
  4 + (roomOf (argRoom env k.inputInfos k.genPlaceholder) 0 call.inputs).2 +
    (roomOf (argRoom env k.outputInfos k.genPlaceholder) 0 call.outputs).2

/-- What the key of a call takes. -/
def OpKernel.keyRoom (k : OpKernel) (call : Call) : Nat :=
  if k.customizedSimplifiedKeyMode then
    match call.genSimplifiedKey with
    | none => 9
    | some (_, s) => 9 + s.length
  else
    match (roomOf (argRoom env k.inputInfos k.genPlaceholder) 0 call.inputs).1 with
    | .error => 4 + (roomOf (argRoom env k.inputInfos k.genPlaceholder) 0 call.inputs).2
    | .success =>
      if k.maxKeyLength ≤ k.tensorsRoom env call ∨ k.attrInfos = [] ∨
          k.ingnoreAttrSimplifiedKeyMode then
        k.tensorsRoom env call
      else
        k.tensorsRoom env call + (roomOf (attrRoom env k.attrInfos
          (k.maxKeyLength - k.tensorsRoom env call)) 0 call.attrs).2

/-! ## Writing -/

/-- What was written goes up to the pointer at least. -/
def KeyBuf.Covers (key : KeyBuf) : Prop := key.bytes.length ≤ key.reach

/-- `n` bytes were written behind a key, in a buffer of `limit` bytes. -/
structure Added (limit n : Nat) (key key' : KeyBuf) : Prop where
  covers : key'.Covers
  grows : key.bytes.length ≤ key'.bytes.length
  inside : key'.reach ≤ limit ↔ key.reach ≤ limit ∧ key.bytes.length + n ≤ limit
  length : key'.reach ≤ limit → key'.bytes.length = key.bytes.length + n

variable {env} {limit n m : Nat} {key key' key'' : KeyBuf}

theorem Added.refl (h : key.Covers) : Added limit 0 key key where
  covers := h
  grows := Nat.le_refl _
  inside := by
    unfold KeyBuf.Covers at h
    omega
  length _ := rfl

theorem Added.trans (h : Added limit n key key') (h' : Added limit m key' key'') :
    Added limit (n + m) key key'' where
  covers := h'.covers
  grows := Nat.le_trans h.grows h'.grows
  inside := by
    rw [h'.inside]
    constructor
    · intro ⟨hreach, hlen⟩
      rw [h.length hreach, Nat.add_assoc] at hlen
      exact ⟨(h.inside.mp hreach).1, hlen⟩
    · intro ⟨hreach, hlen⟩
      have hreach' := h.inside.mpr ⟨hreach, by omega⟩
      rw [h.length hreach', Nat.add_assoc]
      exact ⟨hreach', hlen⟩
  length := fun hreach => by
    rw [h'.length hreach, h.length (h'.inside.mp hreach).1, Nat.add_assoc]

/-- One character takes one byte. -/
theorem KeyBuf.Covers.put (h : key.Covers) (c : Byte) : Added limit 1 key (key.put c) := by
  unfold KeyBuf.Covers at h
  have hlen : (key.put c).bytes.length = key.bytes.length + 1 := List.length_append
  have hreach : (key.put c).reach = max key.reach (key.bytes.length + 1) := rfl
  refine ⟨?_, ?_, ?_, fun _ => hlen⟩
  · unfold KeyBuf.Covers
    omega
  · omega
  · omega

theorem KeyBuf.Covers.puts (h : key.Covers) (cs : List Byte) :
    Added limit cs.length key (cs.foldl KeyBuf.put key) := by
  induction cs generalizing key with
  | nil => exact Added.refl h
  | cons c cs ih =>
    have hput : Added limit 1 key (key.put c) := h.put c
    rw [List.foldl_cons, List.length_cons, Nat.add_comm]
    exact hput.trans (ih hput.covers)

theorem added_append (key : KeyBuf) (bs : List Byte) :
    Added limit bs.length key ⟨key.bytes ++ bs, max key.reach (key.bytes.length + bs.length)⟩ := by
  refine ⟨?_, ?_, ?_, fun _ => List.length_append⟩
  · unfold KeyBuf.Covers
    rw [List.length_append]
    exact Nat.le_max_right _ _
  · rw [List.length_append]
    omega
  · exact Nat.max_le

/-- A step wrote what its arguments take, and stopped where they have no key. -/
def Meets (limit : Nat) (room : Status × Nat) (key : KeyBuf) (res : Status × KeyBuf) : Prop :=
  res.1 = room.1 ∧ Added limit room.2 key res.2

theorem meets_visitBy {func : Nat → OpArg → KeyBuf → Status × KeyBuf}
    {room : Nat → OpArg → Status × Nat} {low : Nat}
    (hstep : ∀ idx arg key, key.Covers → low ≤ key.bytes.length →
      Meets limit (room idx arg) key (func idx arg key))
    (args : List OpArg) (idx : Nat) {key : KeyBuf} (h : key.Covers)
    (hlow : low ≤ key.bytes.length) :
    Meets limit (roomOf room idx args) key (visitBy func idx args key) := by
  induction args generalizing idx key with
  | nil => exact ⟨rfl, Added.refl h⟩
  | cons arg args ih =>
    obtain ⟨hstatus, hadded⟩ := hstep idx arg key h hlow
    unfold visitBy roomOf
    generalize room idx arg = r at hstatus hadded ⊢
    generalize func idx arg key = res at hstatus hadded ⊢
    obtain ⟨status, n⟩ := r
    obtain ⟨status', key'⟩ := res
    cases hstatus
    cases status with
    | error => exact ⟨rfl, hadded⟩
    | success =>
      obtain ⟨hstatus', hadded'⟩ :=
        ih (idx + 1) hadded.covers (Nat.le_trans hlow hadded.grows)
      exact ⟨hstatus', hadded.trans hadded'⟩

/-! ## Tensors -/

section Tensors

variable {tensorInfos : Nat → TensorInfo} {ignoreOptional : Bool} {idx : Nat}

theorem added_genTransDataKey (h : key.Covers) (info : TensorInfo) (t : Tensor) :
    Added limit (tensorRoom.c0Room env info t) key (genTransDataKey env info t key) := by
  unfold tensorRoom.c0Room genTransDataKey
  split
  next => exact h.put _
  next => exact Added.refl h

theorem added_genDimension (h : key.Covers) (info : TensorInfo) (t : Tensor) :
    Added limit (tensorRoom.dimensionRoom info) key (genDimension env info t key) := by
  unfold tensorRoom.dimensionRoom genDimension
  split
  next => exact h.put _
  next => exact Added.refl h

theorem meets_genKeyByTensor (h : key.Covers) (tensor : Option Tensor) :
    Meets limit (tensorRoom env tensorInfos ignoreOptional idx tensor) key
      (genKeyByTensor env tensorInfos ignoreOptional idx tensor key) := by
  unfold tensorRoom genKeyByTensor
  split
  next => exact ⟨rfl, Added.refl h⟩
  next t =>
    split
    next => exact ⟨rfl, Added.refl h⟩
    next =>
      split
      next => exact ⟨rfl, Added.refl h⟩
      next =>
        dsimp only
        have hdtype : Added limit 1 key
            (key.put (dtypeChar (tensorInfos idx).dtMatchMode t.dataType)) := h.put _
        cases hformat : formatChar env (tensorInfos idx) t with
        | none => exact ⟨rfl, hdtype⟩
        | some c =>
          have hput := hdtype.trans (hdtype.covers.put c)
          have hc0 : Added limit (tensorRoom.c0Room env (tensorInfos idx) t) _ _ :=
            added_genTransDataKey hput.covers (tensorInfos idx) t
          exact ⟨rfl, (hput.trans hc0).trans (added_genDimension hc0.covers (tensorInfos idx) t)⟩

/-- The key of one tensor takes the room that is computed for it. -/
theorem meets_genKeyByArg (h : key.Covers) (arg : OpArg) :
    Meets limit (argRoom env tensorInfos ignoreOptional idx arg) key
      (genKeyByArg env tensorInfos ignoreOptional idx arg key) := by
  cases arg with
  | aclTensor tensor => exact meets_genKeyByTensor h tensor
  | aclTensorList tensorList =>
    unfold argRoom genKeyByArg genKeyByTensorList
    dsimp only
    split
    next => exact ⟨rfl, Added.refl h⟩
    next =>
      match tensorList with
      | none | some [] => exact ⟨rfl, Added.refl h⟩
      | some (t :: ts) =>
        have htensor : Meets limit (tensorRoom env tensorInfos ignoreOptional idx t) key
          (genKeyByTensor env tensorInfos ignoreOptional idx t key) := meets_genKeyByTensor h t
        obtain ⟨hstatus, hadded⟩ := htensor
        dsimp only
        generalize tensorRoom env tensorInfos ignoreOptional idx t = r at hstatus hadded ⊢
        generalize genKeyByTensor env tensorInfos ignoreOptional idx t key = res
          at hstatus hadded ⊢
        obtain ⟨status, n⟩ := r
        obtain ⟨status', key'⟩ := res
        cases hstatus
        cases status with
        | error => exact ⟨rfl, hadded⟩
        | success => exact ⟨rfl, hadded.trans (hadded.covers.put _)⟩
  | _ => exact ⟨rfl, Added.refl h⟩

/-- The keys of all tensors take the room that is computed for them. -/
theorem meets_tensors (tensorInfos : Nat → TensorInfo) (args : List OpArg) (h : key.Covers) :
    Meets limit (roomOf (argRoom env tensorInfos ignoreOptional) 0 args) key
      (visitBy (genKeyByArg env tensorInfos ignoreOptional) 0 args key) :=
  meets_visitBy (fun _ arg _ hkey _ => meets_genKeyByArg hkey arg) args 0 h (Nat.zero_le _)

end Tensors

/-! ## Attributes -/

theorem meets_putAll {low remainLen : Nat} {bytes : List Byte} (hremain : limit ≤ low + remainLen)
    (h : Added limit 1 key key') (hlow : low ≤ key.bytes.length) :
    Meets limit
      (if remainLen = 0 ∨ securecMemMaxLen < remainLen then (.error, 1)
        else if remainLen < bytes.length then (.error, 1 + bytes.length)
        else (.success, 1 + bytes.length))
      key (key'.putAll remainLen bytes) := by
  unfold KeyBuf.putAll
  split
  next => exact ⟨rfl, h⟩
  next =>
    split
    next hlong =>
      have hgrows := h.grows
      have hin := h.inside
      have hlen := h.length
      have hcovers := h.covers
      unfold KeyBuf.Covers at hcovers
      refine ⟨rfl, ?_, hgrows, ?_, ?_⟩
      · exact Nat.le_trans hcovers (Nat.le_max_left _ _)
      · dsimp only
        omega
      · dsimp only
        omega
    next => exact ⟨rfl, h.trans (added_append key' bytes)⟩

theorem meets_genKeyByAttr {attrInfos : List AttrInfo} {low remainLen idx : Nat} {arg : OpArg}
    (hremain : limit ≤ low + remainLen) (h : key.Covers) (hlow : low ≤ key.bytes.length) :
    Meets limit (attrRoom env attrInfos remainLen idx arg) key
      (genKeyByAttr env attrInfos remainLen idx arg key) := by
  unfold attrRoom genKeyByAttr
  cases attrInfos[idx]? with
  | none => exact ⟨rfl, Added.refl h⟩
  | some info =>
    dsimp only
    by_cases hall : info.supportAll
    · rw [if_pos hall, if_pos hall]
      exact ⟨rfl, Added.refl h⟩
    · rw [if_neg hall, if_neg hall]
      have hslash : Added limit 1 key (key.put slash) := h.put slash
      cases arg.attrKey env info.realSize with
      | chars cs => exact ⟨rfl, hslash.trans (hslash.covers.puts cs)⟩
      | copied bytes => exact meets_putAll hremain hslash hlow
      | unsupported => exact ⟨rfl, hslash⟩

/-! ## The key -/

namespace OpKernel

variable {k : OpKernel} {enableDebug : Bool} {determinConfig : Int}
  {binList : Option (List BinJson)}

theorem maxKeyLength_of_appendDynBin {dir : Str} {k₀ : OpKernel}
    (h : appendDynBin env enableDebug determinConfig dir binList k₀ = some (.success, k)) :
    k.maxKeyLength = keyLength k := by
  unfold appendDynBin at h
  cases binList with
  | none => cases h
  | some binList =>
    dsimp only at h
    split at h
    next => cases h
    next =>
      split at h
      next => cases h
      next =>
        obtain ⟨⟨status, k'⟩, _, h⟩ := Option.bind_eq_some_iff.mp h
        cases status with
        | error => cases h
        | success =>
          obtain ⟨attrInfos, _, h⟩ := Option.bind_eq_some_iff.mp h
          cases h
          rfl

theorem inside_start (h : Added limit n ⟨[], 0⟩ key) : key.reach ≤ limit ↔ n ≤ limit := by
  rw [h.inside, List.length_nil, Nat.zero_add]
  exact and_iff_right (Nat.zero_le _)

theorem length_start (h : Added limit n ⟨[], 0⟩ key) (hreach : key.reach ≤ limit) :
    key.bytes.length = n := by
  rw [h.length hreach, List.length_nil, Nat.zero_add]

theorem added_contextKey (k : OpKernel) (mode : OpImplMode) :
    Added limit 4 ⟨[], 0⟩ (k.contextKey mode) := by
  have h : (⟨[], 0⟩ : KeyBuf).Covers := Nat.le_refl 0
  exact h.puts [_, _, _, _]

theorem reach_generateKeyCustomizedSimplifiedKey (hlen : k.maxKeyLength = maxCustomizedKeyLength)
    (call : Call) :
    (generateKeyCustomizedSimplifiedKey k call).2.reach =
      match call.genSimplifiedKey with
      | none => 9
      | some (_, s) => 9 + s.length := by
  unfold generateKeyCustomizedSimplifiedKey
  rw [hlen]
  have hcontext : ∀ c d : Byte, (((((KeyBuf.putAll ⟨[], 0⟩ maxCustomizedKeyLength
      (ascii "d=")).2.put c).putAll (maxCustomizedKeyLength - 5) (ascii ",p=")).2.put d).put
        slash) = ⟨ascii "d=" ++ [c] ++ ascii ",p=" ++ [d] ++ [slash], 8⟩ := fun _ _ => rfl
  dsimp only
  rw [hcontext]
  cases call.genSimplifiedKey with
  | none => rfl
  | some written =>
    obtain ⟨status, s⟩ := written
    have hreach : max 9 (8 + s.length + 1) = 9 + s.length := by omega
    cases status with
    | error => exact hreach
    | success => exact hreach

theorem meets_inputs (env : Env) (limit : Nat) (k : OpKernel) (call : Call) :
    Meets limit (roomOf (argRoom env k.inputInfos k.genPlaceholder) 0 call.inputs)
      (k.contextKey call.implMode)
      (visitBy (genKeyByArg env k.inputInfos k.genPlaceholder) 0 call.inputs
        (k.contextKey call.implMode)) :=
  have hcontext : Added limit 4 ⟨[], 0⟩ (k.contextKey call.implMode) := added_contextKey k _
  meets_tensors k.inputInfos call.inputs hcontext.covers

/-- The attributes stay within the key just when the room computed for them does. -/
theorem reach_attrs_iff {call : Call} {ret : Status}
    (h : Added k.maxKeyLength (k.tensorsRoom env call) ⟨[], 0⟩ key) :
    (if k.maxKeyLength ≤ key.bytes.length then (.error, key)
      else if k.attrInfos = [] ∨ k.ingnoreAttrSimplifiedKeyMode then (ret, key)
      else visitBy (genKeyByAttr env k.attrInfos (k.maxKeyLength - key.bytes.length)) 0
        call.attrs key).2.reach ≤ k.maxKeyLength ↔
    (if k.maxKeyLength ≤ k.tensorsRoom env call ∨ k.attrInfos = [] ∨
        k.ingnoreAttrSimplifiedKeyMode then k.tensorsRoom env call
      else k.tensorsRoom env call + (roomOf (attrRoom env k.attrInfos
        (k.maxKeyLength - k.tensorsRoom env call)) 0 call.attrs).2) ≤ k.maxKeyLength := by
  have hattrs : Meets k.maxKeyLength
      (roomOf (attrRoom env k.attrInfos (k.maxKeyLength - key.bytes.length)) 0 call.attrs) key
      (visitBy (genKeyByAttr env k.attrInfos (k.maxKeyLength - key.bytes.length)) 0
        call.attrs key) :=
    meets_visitBy (fun _ _ _ => meets_genKeyByAttr (by omega)) call.attrs 0 h.covers
      (Nat.le_refl _)
  by_cases hreach : key.reach ≤ k.maxKeyLength
  · rw [length_start h hreach] at hattrs ⊢
    by_cases hfull : k.maxKeyLength ≤ k.tensorsRoom env call
    · rw [if_pos hfull, if_pos (Or.inl hfull)]
      exact inside_start h
    · rw [if_neg hfull]
      by_cases hskip : k.attrInfos = [] ∨ k.ingnoreAttrSimplifiedKeyMode
      · rw [if_pos hskip, if_pos (Or.inr hskip)]
        exact inside_start h
      · rw [if_neg hskip, if_neg (not_or.mpr ⟨hfull, hskip⟩)]
        exact inside_start (h.trans hattrs.2)
  · -- the tensors alone left the buffer, whatever is done about it afterwards
    have hover : ¬ k.tensorsRoom env call ≤ k.maxKeyLength := fun hle =>
      hreach ((inside_start h).mpr hle)
    constructor
    · intro hle
      split at hle
      next => exact absurd hle hreach
      next =>
        split at hle
        next => exact absurd hle hreach
        next => exact absurd (hattrs.2.inside.mp hle).1 hreach
    · intro hle
      rw [if_pos (Or.inl (Nat.le_of_not_le hover))] at hle
      exact absurd hle hover

/-- A key stays inside its buffer if and only if what its arguments take does. -/
theorem reach_le_iff {dir : Str} {k₀ : OpKernel}
    (h : appendDynBin env enableDebug determinConfig dir binList k₀ = some (.success, k))
    (call : Call) :
    (generateKey env k call).2.reach ≤ k.maxKeyLength ↔ k.keyRoom env call ≤ k.maxKeyLength := by
  unfold generateKey keyRoom
  by_cases hmode : k.customizedSimplifiedKeyMode
  · rw [if_pos hmode, if_pos hmode]
    have hlen : k.maxKeyLength = maxCustomizedKeyLength := by
      rw [maxKeyLength_of_appendDynBin h, keyLength, if_pos hmode]
    rw [reach_generateKeyCustomizedSimplifiedKey hlen]
  · rw [if_neg hmode, if_neg hmode]
    obtain ⟨hstatus, hin⟩ := meets_inputs env k.maxKeyLength k call
    rw [← hstatus]
    cases hinputs : visitBy (genKeyByArg env k.inputInfos k.genPlaceholder) 0 call.inputs
      (k.contextKey call.implMode) with
    | mk status key =>
      rw [hinputs] at hin
      have hkey := (added_contextKey k call.implMode).trans hin
      cases status with
      | error => exact inside_start hkey
      | success =>
        have hout : Meets k.maxKeyLength
            (roomOf (argRoom env k.outputInfos k.genPlaceholder) 0 call.outputs) key
            (visitBy (genKeyByArg env k.outputInfos k.genPlaceholder) 0 call.outputs key) :=
          meets_tensors k.outputInfos call.outputs hkey.covers
        exact reach_attrs_iff (hkey.trans hout.2)

/-! ## Two strings -/

/-- A binary for a tensor and two modes. -/
def modesBin : BinJson :=
  ⟨none, some (ascii "high_precision"), none, none, none, none, some [floatObj "required"], none,
    some [some ⟨some (ascii "mode"), some (.string (ascii "a"))⟩,
      some ⟨some (ascii "layout"), some (.string (ascii "b"))⟩],
    some (ascii "modes.json")⟩

/-- The op with its binary, and room for 43 bytes. -/
def modesKernel : OpKernel :=
  ((appendDynBin geEnv false 0 [] (some [modesBin]) newKernel).map Prod.snd).getD newKernel

/-- The call with two strings. -/
def modesCall (mode layout : Str) : Call :=
  ⟨[.aclTensor (some floatTensor)], [], [.string mode, .string layout], 1, none, none⟩

theorem appendDynBin_modes :
    appendDynBin geEnv false 0 [] (some [modesBin]) newKernel = some (.success, modesKernel) := rfl

/-- The strings of the binary have room. -/
theorem reach_le_modes :
    (generateKey geEnv modesKernel (modesCall (ascii "a") (ascii "b"))).2.reach ≤
      modesKernel.maxKeyLength :=
  (reach_le_iff appendDynBin_modes _).mpr (by decide)

/-- Two strings of 32 characters do not. -/
theorem reach_gt_modes :
    appendDynBin geEnv false 0 [] (some [modesBin]) newKernel = some (.success, modesKernel) ∧
      modesKernel.maxKeyLength <
        (generateKey geEnv modesKernel (modesCall (ascii "aaaaaaaaaaaaaaaaaaaaaaaaaaaaaaaa")
          (ascii "bbbbbbbbbbbbbbbbbbbbbbbbbbbbbbbb"))).2.reach :=
  ⟨rfl, by decide⟩

end OpKernel

end OpBase.Kernel
