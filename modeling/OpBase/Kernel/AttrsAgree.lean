import OpBase.Kernel.KeyRoom

/-!
# Attributes in the key of a binary and in the key of a call

`ParseAttributes` writes the attributes of a description behind its tensors, `GenKeyByAttrs` those
of a call. Both look up which attributes binaries differ in, and how many bytes a number has.

> `visitBy_attrs_noted`: the bytes are the same for attributes of equal values, if all of them
> are written on both sides and there is room for them.
-/

namespace OpBase.Kernel

open List OpBase.Lib
open OpBase.Cache.Key (securecMemMaxLen)

variable (env : Env)

/-! ## Attributes as they are described -/

/-- An attribute has the value; `null` stands for every value. -/
def AttrValue.Fits : AttrValue → OpArg → Prop
  | .null, _ => True
  | .bool value, .bool value' => value' = value
  | .int value, .int ivalue => ivalue = value
  | .float value, .float fvalue => fvalue = env.toFloat value
  | .float value, .double dvalue => dvalue = value
  | .string value, .string value' => value' = value
  | .array size false, .intList size' => size' = size
  | .array size false, .floatList size' => size' = size
  | .array size false, .boolList size' => size' = size
  | _, _ => False

/-- A value that has all its bytes on both sides. -/
def AttrValue.Settled (info : AttrInfo) : AttrValue → OpArg → Prop
  | .int _, _ => info.realSize ≤ 8
  | .float _, _ => info.realSize ≤ 4
  | .string value, _ => value.length ≤ 32
  | .array _ _, .boolList _ => False
  | _, _ => True

/-! ## The bytes of attributes -/

section Attributes

variable {env} {attrInfo : AttrInfo} {finals infos : List AttrInfo} {remainLen idx : Nat}
  {arg : OpArg}

@[simp] theorem bytes_foldl_put (bs : List Byte) (buf : KeyBuf) :
    (bs.foldl KeyBuf.put buf).bytes = buf.bytes ++ bs := by
  induction bs generalizing buf with
  | nil => exact (append_nil _).symm
  | cons b bs ih =>
    rw [foldl_cons, ih]
    exact append_assoc buf.bytes [b] bs

theorem objectBytes_length (bs : List Byte) : env.objectBytes bs bs.length = bs := by
  unfold Env.objectBytes
  apply ext_getElem
  · rw [length_map, length_range]
  · intro i hi hi'
    rw [getElem_map, getElem_range, getD_eq_getElem _ _ hi']

theorem stringLen_of_le {len : Nat} (h : len ≤ 32) : stringLen len = len := by
  have hlen : asInt32 len = len := by
    unfold asInt32
    omega
  unfold stringLen
  rw [hlen]
  omega

theorem attrKey_noted {value : AttrValue} {bs : Str} (hfits : value.Fits env arg)
    (h : value.Settled attrInfo arg) (hkey : value.key env attrInfo.realSize = some bs) :
    arg.attrKey env attrInfo.realSize = .chars bs ∨
      arg.attrKey env attrInfo.realSize = .copied bs := by
  match value, arg with
  | .null, _ => cases hkey
  | .bool value, .bool value' =>
    cases hfits
    cases hkey
    exact Or.inl rfl
  | .int value, .int ivalue =>
    cases hfits
    cases hkey
    exact Or.inr rfl
  | .float value, .float fvalue =>
    cases hfits
    cases hkey
    exact Or.inr rfl
  | .float value, .double dvalue =>
    cases hfits
    cases hkey
    exact Or.inr rfl
  | .string value, .string value' =>
    cases hfits
    cases hkey
    refine Or.inr ?_
    show AttrKey.copied (env.objectBytes bs (stringLen bs.length)) = .copied bs
    rw [stringLen_of_le h, objectBytes_length]
  | .array size false, .intList size' =>
    cases hfits
    cases hkey
    exact Or.inl rfl
  | .array size false, .floatList size' =>
    cases hfits
    cases hkey
    exact Or.inl rfl

/-- An attribute that there is room for adds its noted key. -/
theorem genKeyByAttr_noted {bs : Str} (hinfo : finals[idx]? = some attrInfo)
    (hall : ¬ attrInfo.supportAll) (hkey : arg.attrKey env attrInfo.realSize = .chars bs ∨
      arg.attrKey env attrInfo.realSize = .copied bs)
    (hroom : (attrRoom env finals remainLen idx arg).2 ≤ remainLen)
    (hmax : remainLen ≤ securecMemMaxLen) :
    (attrRoom env finals remainLen idx arg).1 = .success ∧
      ∀ buf, ∃ buf', genKeyByAttr env finals remainLen idx arg buf = (.success, buf') ∧
        buf'.bytes = buf.bytes ++ ([slash] ++ bs) := by
  have hslash : ∀ buf : KeyBuf, (buf.put slash).bytes ++ bs = buf.bytes ++ ([slash] ++ bs) :=
    fun buf => append_assoc _ _ _
  unfold attrRoom at hroom ⊢
  unfold genKeyByAttr
  rw [hinfo] at hroom ⊢
  dsimp only at hroom ⊢
  rw [if_neg hall] at hroom ⊢
  obtain hkey | hkey := hkey
  · rw [hkey]
    refine ⟨rfl, fun buf => ⟨_, if_neg hall, ?_⟩⟩
    rw [bytes_foldl_put, hslash]
  · rw [hkey] at hroom ⊢
    dsimp only at hroom ⊢
    have hremain : ¬ (remainLen = 0 ∨ securecMemMaxLen < remainLen) := by
      intro hbad
      rw [if_pos hbad] at hroom
      dsimp only at hroom
      omega
    rw [if_neg hremain] at hroom ⊢
    have hlen : ¬ remainLen < bs.length := by
      intro hbad
      rw [if_pos hbad] at hroom
      dsimp only at hroom
      omega
    rw [if_neg hlen]
    have hcopied : ∀ buf : KeyBuf, buf.putAll remainLen bs =
        (.success, ⟨buf.bytes ++ bs, max buf.reach (buf.bytes.length + bs.length)⟩) := by
      intro buf
      unfold KeyBuf.putAll
      rw [if_neg hremain, if_neg hlen]
    exact ⟨rfl, fun buf => ⟨_, (if_neg hall).trans (hcopied _), hslash buf⟩⟩

theorem room_le_roomOf (room : Nat → OpArg → Status × Nat) (idx : Nat) (arg : OpArg)
    (args : List OpArg) : (room idx arg).2 ≤ (roomOf room idx (arg :: args)).2 := by
  unfold roomOf
  split
  next heq => exact Nat.le_of_eq (congrArg Prod.snd heq)
  next heq =>
    rw [heq]
    exact Nat.le_add_right _ _

theorem roomOf_tail_le {room : Nat → OpArg → Status × Nat} (h : (room idx arg).1 = .success)
    (args : List OpArg) :
    (roomOf room (idx + 1) args).2 ≤ (roomOf room idx (arg :: args)).2 := by
  rw [roomOf]
  split
  next heq =>
    rw [heq] at h
    cases h
  next => exact Nat.le_add_left _ _

variable {args : List OpArg} {cnt : Nat} {attr : Option AttrJson} {attrs : List (Option AttrJson)}

theorem visitBy_attrs_none (buf : KeyBuf) (h : ∀ i, i < args.length → finals[cnt + i]? = none) :
    visitBy (genKeyByAttr env finals remainLen) cnt args buf = (.success, buf) := by
  induction args generalizing cnt with
  | nil => rfl
  | cons arg args ih =>
    have hnone : finals[cnt]? = none := h 0 (Nat.succ_pos _)
    unfold visitBy genKeyByAttr
    rw [hnone]
    refine ih fun i hi => ?_
    rw [Nat.add_right_comm]
    exact h (i + 1) (Nat.succ_lt_succ hi)

/-- Every attribute that has a description is one that both sides treat alike. -/
def AttrsSettled (infos finals : List AttrInfo) (cnt : Nat) (attrs : List (Option AttrJson))
    (args : List OpArg) : Prop :=
  ∀ (i : Nat) (attr : Option AttrJson) (arg : OpArg), attrs[i]? = some attr → args[i]? = some arg →
    finals[cnt + i]? = infos[cnt + i]? ∧
      ∀ attrInfo value, infos[cnt + i]? = some attrInfo → ¬ attrInfo.supportAll →
        attr.bind AttrJson.value = some value → value.Settled attrInfo arg

theorem AttrsSettled.nil : AttrsSettled infos finals cnt [] args := by
  intro i attr arg hattr _
  cases hattr

theorem AttrsSettled.cons (hsame : finals[cnt]? = infos[cnt]?)
    (h : ∀ attrInfo value, infos[cnt]? = some attrInfo → ¬ attrInfo.supportAll →
      attr.bind AttrJson.value = some value → value.Settled attrInfo arg)
    (htail : AttrsSettled infos finals (cnt + 1) attrs args) :
    AttrsSettled infos finals cnt (attr :: attrs) (arg :: args) := by
  intro i attr' arg' hattr harg
  cases i with
  | zero =>
    cases hattr
    cases harg
    exact ⟨hsame, h⟩
  | succ i =>
    rw [Nat.add_comm i 1, ← Nat.add_assoc]
    exact htail i attr' arg' hattr harg

theorem AttrsSettled.tail (h : AttrsSettled infos finals cnt (attr :: attrs) (arg :: args)) :
    AttrsSettled infos finals (cnt + 1) attrs args := by
  intro i attr' arg' hattr harg
  rw [Nat.add_right_comm]
  exact h (i + 1) attr' arg' hattr harg

/-- By induction on the attributes: the launch adds the bytes that the description has. -/
theorem visitBy_attrs_noted {key key' : Str} {status : Status}
    (hparse : parseAttributes env infos cnt attrs key = some (status, key'))
    (hfits : List.Forall₂ (fun attr arg => ∃ value, attr.bind AttrJson.value = some value ∧
      value.Fits env arg) attrs args) (hsettled : AttrsSettled infos finals cnt attrs args)
    (hroom : (roomOf (attrRoom env finals remainLen) cnt args).2 ≤ remainLen)
    (hmax : remainLen ≤ securecMemMaxLen) :
    ∃ bs, key' = key ++ bs ∧ ∀ buf,
      (visitBy (genKeyByAttr env finals remainLen) cnt args buf).2.bytes = buf.bytes ++ bs := by
  induction hfits generalizing cnt key with
  | nil =>
    cases hparse
    exact ⟨[], (append_nil _).symm, fun buf => (append_nil _).symm⟩
  | cons hfit hfits ih =>
    next attr arg attrs args =>
      obtain ⟨hsame, hvalue⟩ := hsettled 0 attr arg rfl rfl
      unfold parseAttributes at hparse
      split at hparse
      next hnone =>
        -- the table has nothing for this attribute, nor for those behind it
        cases hparse
        refine ⟨[], (append_nil _).symm, fun buf => ?_⟩
        rw [visitBy_attrs_none buf, append_nil]
        intro i hi
        have hi' : i < (attr :: attrs).length := by
          rw [length_cons] at hi ⊢
          rwa [hfits.length_eq]
        rw [(hsettled i _ _ (getElem?_eq_getElem hi') (getElem?_eq_getElem hi)).1]
        rw [List.getElem?_eq_none_iff] at hnone ⊢
        omega
      next attrInfo hinfo =>
        have hfinal : finals[cnt]? = some attrInfo := hsame.trans hinfo
        split at hparse
        next hall =>
          -- every value is supported: neither side writes anything
          have hskip : ∀ buf, genKeyByAttr env finals remainLen cnt arg buf = (.success, buf) := by
            intro buf
            unfold genKeyByAttr
            rw [hfinal]
            exact if_pos hall
          have hfree : (attrRoom env finals remainLen cnt arg).1 = .success := by
            unfold attrRoom
            rw [hfinal]
            exact congrArg Prod.fst (if_pos hall)
          obtain ⟨bs, hkey, hbuf⟩ := ih hparse hsettled.tail
            (Nat.le_trans (roomOf_tail_le hfree args) hroom)
          refine ⟨bs, hkey, fun buf => ?_⟩
          unfold visitBy
          rw [hskip]
          exact hbuf buf
        next hall =>
          -- both sides write the value that the description gives
          obtain ⟨value, hbind, hvalueFits⟩ := hfit
          rw [hbind] at hparse
          obtain ⟨bytes, hbytes, hparse⟩ := Option.bind_eq_some_iff.mp hparse
          have harg := attrKey_noted hvalueFits (hvalue attrInfo value hinfo hall hbind) hbytes
          obtain ⟨hstatus, hwritten⟩ := genKeyByAttr_noted hfinal hall harg
            (Nat.le_trans (room_le_roomOf _ cnt arg args) hroom) hmax
          obtain ⟨bs, hkey, hbuf⟩ := ih hparse hsettled.tail
            (Nat.le_trans (roomOf_tail_le hstatus args) hroom)
          refine ⟨[slash] ++ bytes ++ bs, ?_, fun buf => ?_⟩
          · rw [hkey]
            simp only [append_assoc]
          · obtain ⟨buf', hbuf', hbytes'⟩ := hwritten buf
            unfold visitBy
            rw [hbuf']
            dsimp only
            rw [hbuf, hbytes', append_assoc]

end Attributes

end OpBase.Kernel
