import OpBase.Indv.CollectedKey
import OpBase.Indv.VerbKeyText

/-!
# Kernel-file keys and executors' keys

A kernel is found if the key that was made of its file's text is the one an executor writes.
For a dynamic key the text has the types and the formats of the executor's parameters. For a
static key it has a numeral for every word, and for a value of more than eight bytes one long
numeral; `keyTokens` makes these of an executor's arguments.

> `verb_keys_agree`: dynamic keys agree. Static keys do if every numeral of 16 digits or more
> ends in front of position 2³¹, in texts of up to 2³² bytes only then.
>
> `keyTokens_words`: what an executor writes are the words of tokens.

The executor copies the op type with `memcpy_s`, which refuses it if the buffer is above its
limit, or too short because a size has wrapped: `DynamicNameFits`, `StaticNameFits`.
-/

namespace OpBase.Indv.VerbKey

open List OpBase.Lib
open OpBase.Indv.BinKey
open OpBase.Cache.Key (securecMemMaxLen)

/-! ## Dynamic keys -/

/-- The type and the format of a parameter. -/
def paramNumbers (t : Tensors) (p : ParamInstance) : List Nat :=
  if p.cfgNum = .optional then []
  else
    match t.extTensors[p.startIndex]? with
    | none => []
    | some slot => [slot.rt2Tensor.dataType.code.toNat, slot.rt2Tensor.storageFormat.toNat]

variable {op : Op} {data : List Byte}

/-- The numbers a dynamic key of the executor has. -/
def keyNumbers (a : KeyArgs op) : List Nat :=
  a.inputs.instances.flatMap (paramNumbers a.inputs) ++
    a.outputs.instances.flatMap (paramNumbers a.outputs)

theorem paramBytes_eq (t : Tensors) (p : ParamInstance) :
    paramBytes t p = (paramNumbers t p).map UInt8.ofNat := by
  unfold paramBytes paramNumbers
  split
  next => rfl
  next =>
    cases t.extTensors[p.startIndex]? with
    | none => rfl
    | some slot => simp

theorem paramsBytes_eq (sys : SysParams) (a : KeyArgs op) :
    paramsBytes sys a = [sys.deterministic.toUInt8, sys.precision] ++
      (keyNumbers a).map UInt8.ofNat := by
  have hparam : ∀ t : Tensors, paramBytes t = fun p => (paramNumbers t p).map UInt8.ofNat :=
    fun t => funext (paramBytes_eq t)
  unfold paramsBytes keyNumbers
  rw [map_append, map_flatMap, map_flatMap, hparam, hparam]

/-! ## Words -/

theorem littleEndien_eq {bytes : List Byte} (h : bytes.length ≤ 8) :
    littleEndien bytes = UInt64.ofNat (ofLe bytes) := by
  induction bytes using List.reverseRecOn with
  | nil => rfl
  | append_singleton bytes b ih =>
    rw [length_append, length_singleton] at h
    have hfront := ih (by omega)
    have hlt := ofLe_lt bytes
    have hb := b.toNat_lt
    have hpow : 256 ^ bytes.length = 2 ^ (8 * bytes.length) := by
      rw [Nat.pow_mul]
    have htop : 2 ^ (8 * bytes.length) * b.toNat < 2 ^ 64 := by
      calc 2 ^ (8 * bytes.length) * b.toNat < 2 ^ (8 * bytes.length) * 2 ^ 8 :=
            Nat.mul_lt_mul_of_pos_left hb (Nat.two_pow_pos _)
        _ = 2 ^ (8 * bytes.length + 8) := (Nat.pow_add _ _ _).symm
        _ ≤ 2 ^ 64 := Nat.pow_le_pow_right (by decide) (by omega)
    unfold littleEndien at hfront ⊢
    rw [zipIdx_append, foldl_append, hfront, ofLe_append, hpow]
    rw [hpow] at hlt
    have hjoin := ofNat_or_shiftLeft (s := 8 * bytes.length) (by omega) hlt htop
    rw [Nat.zero_add, ofLe, ofLe, Nat.mul_zero, Nat.add_zero, Nat.add_comm (ofLe bytes), ← hjoin]
    show _ ||| (_ ||| _) = _
    rw [← UInt64.or_assoc, UInt64.or_self, UInt64.ofNat_uInt8ToNat]

theorem wordsOf_value (r q : Nat) (h : 8 * q ≤ data.length) :
    wordsOf (q + r) (ofLe data) = data.take (8 * q) ++ wordsOf r (ofLe (data.drop (8 * q))) := by
  induction q generalizing data with
  | zero => rw [Nat.mul_zero, take_zero, drop_zero, Nat.zero_add, nil_append]
  | succ q ih =>
    have hfirst : (data.take 8).length = 8 := by
      rw [length_take]
      omega
    have hval : ofLe data = ofLe (data.take 8) + 2 ^ 64 * ofLe (data.drop 8) := by
      have happend := ofLe_append (data.take 8) (data.drop 8)
      rwa [take_append_drop, hfirst] at happend
    have hlt : ofLe (data.take 8) < 2 ^ 64 := by
      have hlt := ofLe_lt (data.take 8)
      rwa [hfirst] at hlt
    have hroom : 8 * q ≤ (data.drop 8).length := by
      rw [length_drop]
      omega
    have hrest := ih hroom
    rw [show q + 1 + r = q + r + 1 by omega, hval, wordsOf_add hlt, le8_ofLe hfirst, hrest,
      drop_drop, ← append_assoc, Nat.mul_succ, Nat.add_comm (8 * q), take_add]

theorem wordsBytes_eq (h : data.length < 2 ^ 31) :
    wordsBytes data = wordsOf ((data.length + 7) / 8) (ofLe data) := by
  have hcopied : copied (8 * (data.length / 8)) (data.take (8 * (data.length / 8))) =
      data.take (8 * (data.length / 8)) := by
    refine copied_of_le ?_ (length_take_le _ _)
    unfold securecMemMaxLen
    omega
  unfold wordsBytes
  dsimp only
  rw [hcopied]
  split
  next hrest =>
    have hlen : (data.drop (8 * (data.length / 8))).length ≤ 8 := by
      rw [length_drop]
      omega
    rw [show (data.length + 7) / 8 = data.length / 8 + 1 by omega,
      wordsOf_value 1 _ (Nat.mul_div_le data.length 8), littleEndien_eq hlen, wordsOf_succ]
    exact congrArg _ (append_nil _).symm
  next hwhole =>
    rw [show (data.length + 7) / 8 = data.length / 8 + 0 by omega,
      wordsOf_value 0 _ (Nat.mul_div_le data.length 8)]
    rfl

/-! ## The executor's key as tokens -/

/-- The digits of a byte. -/
def byteDigits (b : Byte) : List (Fin 16) := [Fin.ofNat 16 (b.toNat / 16), Fin.ofNat 16 b.toNat]

/-- A value as a numeral. One without bytes adds nothing to a key. -/
def valueTokens (data : List Byte) : List Token :=
  if h : data.reverse.flatMap byteDigits = [] then [] else [.numeral ⟨_, h⟩]

theorem digitsValue_bytes (data : List Byte) :
    digitsValue (data.reverse.flatMap byteDigits) = ofLe data := by
  unfold digitsValue
  rw [reverse_flatMap, reverse_reverse, map_flatMap]
  induction data with
  | nil => rfl
  | cons b data ih =>
    have hb := b.toNat_lt
    rw [flatMap_cons, ofLe]
    refine Eq.trans (b := b.toNat % 16 + 16 * (b.toNat / 16 % 16 + 16 * ofLe data)) ?_ (by omega)
    rw [← ih]
    rfl

theorem length_digits (data : List Byte) :
    (data.reverse.flatMap byteDigits).length = data.length * 2 := by
  have hlen : ∀ b, (byteDigits b).length = 2 := fun _ => rfl
  rw [length_flatMap_of hlen, length_reverse]

theorem valueTokens_words (h : data.length < 2 ^ 31) :
    (valueTokens data).flatMap Token.words = wordsBytes data := by
  have hlen := length_digits data
  unfold valueTokens
  split
  next hnil =>
    rw [hnil, length_nil] at hlen
    have hempty : data = [] := eq_nil_of_length_eq_zero (by omega)
    rw [hempty]
    rfl
  next hne =>
    rw [flatMap_singleton, wordsBytes_eq h]
    show wordsOf ((_ + 15) / 16) (digitsValue _) = _
    rw [digitsValue_bytes, hlen]
    congr 1
    omega

theorem wordToken_words (u : UInt64) : (valueTokens (le8 u)).flatMap Token.words = le8 u := by
  have hlen := length_le8 u
  rw [valueTokens_words (by rw [hlen]; decide), wordsBytes_eq (by rw [hlen]; decide), hlen,
    wordsOf_succ, le8_ofLe hlen]
  exact append_nil _

theorem flatMap_words {α : Type} {f : α → List Token} {g : α → List Byte} {xs : List α}
    (h : ∀ x ∈ xs, (f x).flatMap Token.words = g x) :
    (xs.flatMap f).flatMap Token.words = xs.flatMap g := by
  rw [flatMap_assoc]
  exact flatMap_congr h

def slotTokens (t : ExtTensor) : List Token :=
  if t.isNull then [.null]
  else
    let tensor := t.rt2Tensor
    (if t.isRequired || t.isOptional then
      valueTokens (le8 tensor.dataType.code.toUInt64) ++
        valueTokens (le8 tensor.storageFormat.toUInt64) else []) ++
      tensor.storageShape.val.flatMap (fun d => valueTokens (le8 d.toUInt64)) ++
      if t.valueDepend then (chunks (typeSize tensor.dataType) tensor.data).flatMap valueTokens
      else []

def attrTokens (a : BinKey.AttrAddr) : List Token :=
  if a.isVector then (chunks a.elementSize a.data).flatMap valueTokens else valueTokens a.data

/-- What a static key of the executor has behind the settings. -/
def keyTokens (a : KeyArgs op) : List Token :=
  (slots a.inputs).flatMap slotTokens ++ (slots a.outputs).flatMap slotTokens ++
    a.attrs.flatMap attrTokens

theorem slotTokens_words (t : ExtTensor) : (slotTokens t).flatMap Token.words = slotBytes t := by
  unfold slotTokens slotBytes
  split
  next => exact append_nil _
  next =>
    have hsize := typeSize_le t.rt2Tensor.dataType
    have hvalues : ∀ e ∈ chunks (typeSize t.rt2Tensor.dataType) t.rt2Tensor.data,
        (valueTokens e).flatMap Token.words = wordsBytes e :=
      fun e he => valueTokens_words (by rw [length_chunk he]; omega)
    dsimp only
    rw [flatMap_append, flatMap_append, flatMap_words fun d _ => wordToken_words _]
    congr 1
    · congr 1
      split
      next => rw [flatMap_append, wordToken_words, wordToken_words]
      next => rfl
    · split
      next => exact flatMap_words hvalues
      next => rfl

theorem attrTokens_words {a : BinKey.AttrAddr} (h : a.Copyable) :
    (attrTokens a).flatMap Token.words = BinKey.attrBytes a := by
  unfold BinKey.AttrAddr.Copyable at h
  unfold attrTokens BinKey.attrBytes
  split at h
  next hv =>
    rw [if_pos hv, if_pos hv]
    refine flatMap_words fun e he => valueTokens_words ?_
    have hlen := length_chunk he
    rcases h with hsmall | hnone
    · rwa [hlen]
    · -- there is no element
      have hpos : 0 < (chunks a.elementSize a.data).length := length_pos_of_mem he
      rw [length_chunks, Nat.div_eq_of_lt hnone] at hpos
      exact absurd hpos (Nat.lt_irrefl 0)
  next hv =>
    rw [if_neg hv, if_neg hv]
    exact valueTokens_words h

theorem keyTokens_words {a : KeyArgs op} (h : ∀ x ∈ a.attrs, x.Copyable) :
    (keyTokens a).flatMap Token.words = itemsBytes a := by
  unfold keyTokens itemsBytes
  rw [flatMap_append, flatMap_append, flatMap_words fun t _ => slotTokens_words t,
    flatMap_words fun t _ => slotTokens_words t,
    flatMap_words fun x hx => attrTokens_words (h x hx)]

/-! ## New executors -/

/-- A new executor of the op under these settings. -/
structure Executor (name : Name) (det prec : Fin 3) where
  hasher : UInt64 → UInt64
  sys : SysParams
  op : Op
  args : KeyArgs op
  opType_eq : op.opType.val = name.val
  deterministic_eq : sys.deterministic.toNat = det.val
  precision_eq : sys.precision = UInt8.ofNat prec.val

variable {name : Name} {det prec : Fin 3}

theorem Executor.settings (x : Executor name det prec) :
    [x.sys.deterministic.toUInt8, x.sys.precision] =
        [UInt8.ofNat det.val, UInt8.ofNat prec.val] ∧
      settingWords x.sys = le8 (UInt64.ofNat det.val) ++ le8 (UInt64.ofNat prec.val) := by
  have hdet : ∀ b : Bool, b.toUInt8 = UInt8.ofNat b.toNat ∧ b.toUInt64 = UInt64.ofNat b.toNat := by
    decide
  have hprec : ∀ d : Fin 3, (UInt8.ofNat d.val).toUInt64 = UInt64.ofNat d.val := by decide
  unfold settingWords
  rw [(hdet _).1, (hdet _).2, x.deterministic_eq, x.precision_eq, hprec]
  exact ⟨rfl, rfl⟩

theorem copied_eq_self_iff {bufLen : Nat} {src : List Byte} :
    copied bufLen src = src ↔ src = [] ∨ bufLen ≤ securecMemMaxLen ∧ src.length ≤ bufLen := by
  unfold copied
  split
  next h => exact iff_of_true rfl (.inr h)
  next h => rw [eq_comm, or_iff_left h]

theorem sized_inj {key key' : List Byte} : some (sized key) = some (sized key') ↔ key = key' :=
  ⟨fun h => congrArg Prod.fst (Option.some.inj h), fun h => h ▸ rfl⟩

/-- `memcpy_s` takes the op type of a dynamic key. -/
def DynamicNameFits (a : KeyArgs op) : Prop :=
  op.opType.val = [] ∨
    (dynamicKeyLen a + verkeyExtBufLen) % 2 ^ 32 ≤ securecMemMaxLen ∧
      op.opType.val.length ≤ (dynamicKeyLen a + verkeyExtBufLen) % 2 ^ 32

/-- The op type fits the buffer of a static key. -/
def StaticNameFits (a : KeyArgs op) : Prop :=
  op.opType.val.length ≤ (computeGenKeySize a).toNat + replayVerkeyExtBufLen

theorem dynamic_key_agrees (x : Executor name det prec) {items : List (DecimalSeparator × Nat)}
    (hitems : items.map Prod.snd = keyNumbers x.args) {k' : BinInfoKey}
    (hkey : genDynamicKey x.hasher x.sys x.args .fresh = some k') :
    convertDynamicVerbKey (keyText name det prec (numbersText items)) = some (sized k'.key.1) ↔
      DynamicNameFits x.args := by
  rw [convertDynamicVerbKey_text, sized_inj, (dynamic_fresh rfl hkey).2, hitems]
  unfold dynamicBytes dynamicKey DynamicNameFits
  rw [paramsBytes_eq, x.settings.1, ← copied_eq_self_iff, append_assoc, append_left_inj,
    x.opType_eq, eq_comm]

theorem static_key_layout (x : Executor name det prec) {tokens : List Token}
    (htokens : tokens.flatMap Token.words = itemsBytes x.args) {k' : BinInfoKey}
    (hkey : genStaticKey x.hasher x.sys x.args .fresh = some (true, k')) :
    k'.key.1 = staticBytes name det prec tokens ↔ StaticNameFits x.args := by
  have hlen : (computeGenKeySize x.args).toNat ≤ maxStatickeyLen := by
    by_contra hlong
    unfold genStaticKey at hkey
    rw [if_pos (Nat.lt_of_not_le hlong)] at hkey
    cases hkey
  rw [(static_fresh hlen hkey).2.2.2]
  unfold staticBytes staticKey StaticNameFits
  rw [x.settings.2, htokens, append_left_inj, append_left_inj, ← x.opType_eq, copied_eq_self_iff]
  unfold maxStatickeyLen at hlen
  constructor
  · rintro (hnil | ⟨-, hle⟩)
    · rw [hnil]
      exact Nat.zero_le _
    · exact hle
  · exact fun hle => .inr ⟨by unfold securecMemMaxLen replayVerkeyExtBufLen; omega, hle⟩

/-! ## Texts and keys -/

/-- Keys in kernel files and those of executors. -/
theorem verb_keys_agree (name : Name) (det prec : Fin 3) :
    (∀ items : List (DecimalSeparator × Nat),
      convertDynamicVerbKey (keyText name det prec (numbersText items)) =
        some (sized (dynamicBytes name det prec (items.map Prod.snd)))) ∧
    (∀ (x : Executor name det prec) (items : List (DecimalSeparator × Nat)) (k' : BinInfoKey),
      items.map Prod.snd = keyNumbers x.args →
      genDynamicKey x.hasher x.sys x.args .fresh = some k' →
      (convertDynamicVerbKey (keyText name det prec (numbersText items)) =
        some (sized k'.key.1) ↔ DynamicNameFits x.args)) ∧
    (∀ items : List (HexSeparator × Token), EndEarly (restPosition name) items →
      StaticAgrees name det prec items) ∧
    (∀ items : List (HexSeparator × Token),
      (keyText name det prec (tokensText items)).length ≤ 2 ^ 32 →
      StaticAgrees name det prec items → EndEarly (restPosition name) items) ∧
    (∀ (x : Executor name det prec) (tokens : List Token) (k' : BinInfoKey),
      tokens.flatMap Token.words = itemsBytes x.args →
      genStaticKey x.hasher x.sys x.args .fresh = some (true, k') →
      (k'.key.1 = staticBytes name det prec tokens ↔ StaticNameFits x.args)) ∧
    ∀ x : Executor name det prec, (∀ attr ∈ x.args.attrs, attr.Copyable) →
      (keyTokens x.args).flatMap Token.words = itemsBytes x.args :=
  ⟨convertDynamicVerbKey_text name det prec,
    fun x _ _ hitems hkey => dynamic_key_agrees x hitems hkey,
    fun _ => staticAgrees_of_endEarly name det prec,
    fun _ => endEarly_of_staticAgrees name det prec,
    fun x _ _ htokens hkey => static_key_layout x htokens hkey,
    fun _ => keyTokens_words⟩

/-- `Add`. -/
def addName : Name := ⟨[65, 100, 100], by decide⟩

/-- `','`. -/
def comma : HexSeparator := ⟨44, by decide, by unfold IsSeparator; decide⟩

/-- One `float` in the format ND, as a dynamic key and, with a numeral of two words, as a static
one. -/
theorem verb_keys_agree_add : ∃ k',
    genDynamicKey id ⟨false, 0⟩ requiredArgs .fresh = some k' ∧
      convertDynamicVerbKey (keyText addName 0 0
        (numbersText [(⟨44, by decide⟩, 0), (⟨44, by decide⟩, 2)])) = some (sized k'.key.1) ∧
      StaticAgrees addName 0 0 [(comma, .null), (comma, .numeral ⟨[15, 15], by decide⟩),
        (comma, .numeral ⟨.replicate 18 7, by decide⟩)] := by
  have hfits : (dynamicKey ⟨false, 0⟩ requiredArgs).length ≤
      dynamicKeyLen requiredArgs + verkeyExtBufLen := by decide
  obtain ⟨k', hkey⟩ := dynamic_fresh_exists id (k := .fresh) rfl hfits
  obtain ⟨-, hdynamic, hstatic, -⟩ := verb_keys_agree addName 0 0
  refine ⟨k', hkey, ?_, hstatic _ ⟨by decide, by decide, by decide, trivial⟩⟩
  exact (hdynamic ⟨id, ⟨false, 0⟩, addOp [.required], requiredArgs, rfl, rfl, rfl⟩ _ k' (by decide)
    hkey).mpr (.inr (by decide))

theorem length_keyText_numeral (ds : { ds : List (Fin 16) // ds ≠ [] }) :
    (keyText name det prec (tokensText [(comma, .numeral ds)])).length =
      restPosition name + ds.val.length := by
  obtain ⟨front, hfront, hsplit⟩ := keyText_split name det prec
  rw [hsplit, length_append, hfront, tokensText_cons, joined_nil]
  exact congrArg _ (length_map hexChar)

/-- A numeral of 2³¹ digits. -/
theorem verb_keys_lost : ∃ ds : { ds : List (Fin 16) // ds ≠ [] }, ds.val.length = 2 ^ 31 ∧
    ¬ StaticAgrees addName 0 0 [(comma, .numeral ds)] := by
  have hlen : (List.replicate (2 ^ 31) (1 : Fin 16)).length = 2 ^ 31 := length_replicate
  have hne : List.replicate (2 ^ 31) (1 : Fin 16) ≠ [] := by
    rw [← length_pos_iff, hlen]
    exact Nat.two_pow_pos 31
  have hstart : restPosition addName = 8 := rfl
  refine ⟨⟨_, hne⟩, hlen, fun h => ?_⟩
  have hend := (endEarly_of_staticAgrees addName 0 0
    (by rw [length_keyText_numeral, hlen, hstart]; decide) h).1
  rw [show (Token.numeral ⟨_, hne⟩).text.length = 2 ^ 31 from (length_map hexChar).trans hlen,
    hstart] at hend
  exact absurd (hend (by decide)) (by decide)

end OpBase.Indv.VerbKey
