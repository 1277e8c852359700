import OpBase.Cache.Key
import OpBase.Lib.Framing

/-!
# What a key tells about its call

The key of a call is read from its end: first the labels, then one parameter after
the other. Three things are not in the key and have to be known (`Unwritten`): the
numbers of dimensions and strides of a tensor, the data type of a scalar (or that it
is null) and the length of a string. With them every parameter is `Framed`
(`param_framed`), and the key determines the call's parameters and which tensors are
the same object.

> `tensor_key_iff`: equal keys of two calls with tensors, tensor lists and arrays
> come from agreeing parameters exactly when the ranks of their tensors agree.
>
> `scalar_key_iff`: equal keys of two calls come from agreeing parameters exactly when
> what is unwritten agrees (for scalars and strings, the types and the lengths) and the
> bfloat16 arrays, of which only the pointer is written, hold the same at both calls.
-/

namespace OpBase.Cache.Key

open List OpBase.Lib
open Option (bind_eq_some_iff bind_some some.inj)

/-! ## The bytes of a key -/

def shapeBytes (shape : List Int64) : List Byte :=
  shape.flatMap (fun d => le8 d.toUInt64) ++ [separator]

def tensorBytes (t : TensorInfo) : List Byte :=
  shapeBytes t.viewShape ++ (shapeBytes t.viewStrides ++ (shapeBytes t.storageShape ++
    (le 4 t.dataType.code.toNat ++ ([separator] ++ (le8 t.viewOffset.toUInt64 ++ ([separator] ++
      le 4 t.viewFormat.code.toNat))))))

/-- The bytes of a tensor pointer. -/
def tensorPtrBytes : Option Tensor → List Byte :=
  optional separator fun t => tensorBytes t.toTensorInfo

/-- The bytes of a scalar pointer. -/
def scalarPtrBytes : Option Scalar → List Byte
  | none => [separator]
  | some s => s.data ++ [separator]

namespace Param

def bytes : Param Tensor UInt64 → List Byte
  | .tensor t => tensorPtrBytes t
  | .tensorList ts => optional separator (counted tensorPtrBytes) ts
  | .intArray v => optional separator (counted fun d : Int64 => le8 d.toUInt64) v
  | .boolArray v => optional separator (counted TlsData.boolBytes) v
  | .floatArray v => optional separator (counted fun x : UInt32 => le 4 x.toNat) v
  | .fp16Array v => optional separator (counted fun x : UInt16 => le 2 x.toNat) v
  | .bf16Array v => le8 v
  | .scalar s => scalarPtrBytes s
  | .scalarList ss => optional separator (counted scalarPtrBytes) ss
  | .string s => s
  | .charPtr c => optional separator (counted fun b => [b]) c
  | .dataType dtype => le 4 dtype.code.toNat
  | .plain v => v

def objects (p : Param Tensor UInt64) : List Nat := p.tensors.map Tensor.object

end Param

variable {objects : List Nat} {α : Type}

namespace TlsData

variable {tls tls' : TlsData} {f g : TlsData → Option TlsData} {add : TlsData → α → Option TlsData}
  {bytes : α → List Byte}

def addLabels (objects : List Nat) (tls : TlsData) : TlsData :=
  objects.foldl (fun tls object => tls.addAclTensorToCachedList object) tls

/-- What writing a parameter does, if there is room: labels for its tensors, its bytes. -/
def Adds (f : TlsData → Option TlsData) (objects : List Nat) (bytes : List Byte) : Prop :=
  ∀ ⦃tls tls' : TlsData⦄, f tls = some tls' → tls' = (tls.addLabels objects).write bytes

theorem addAclTensorToCachedList_write (object : Nat) (bytes : List Byte) (tls : TlsData) :
    (tls.write bytes).addAclTensorToCachedList object =
      (tls.addAclTensorToCachedList object).write bytes := by
  unfold addAclTensorToCachedList write
  cases tls.tensorLabelMap.lookup object <;> rfl

theorem addLabels_write (bytes : List Byte) : ∀ (objects : List Nat) (tls : TlsData),
    (tls.write bytes).addLabels objects = (tls.addLabels objects).write bytes
  | [], _ => rfl
  | object :: objects, tls => by
    show addLabels objects ((tls.write bytes).addAclTensorToCachedList object) = _
    rw [addAclTensorToCachedList_write, addLabels_write]
    rfl

theorem addLabels_hashBuf : ∀ (objects : List Nat) (tls : TlsData),
    (tls.addLabels objects).hashBuf = tls.hashBuf
  | [], _ => rfl
  | object :: objects, tls => by
    show ((tls.addAclTensorToCachedList object).addLabels objects).hashBuf = _
    rw [addLabels_hashBuf]
    unfold addAclTensorToCachedList
    cases tls.tensorLabelMap.lookup object <;> rfl

theorem write_write (a b : List Byte) (tls : TlsData) :
    (tls.write a).write b = tls.write (a ++ b) := by
  unfold write
  rw [append_assoc]

theorem Adds.bind {objects' : List Nat} {bytes bytes' : List Byte} (hf : Adds f objects bytes)
    (hg : Adds g objects' bytes') :
    Adds (fun tls => (f tls).bind g) (objects ++ objects') (bytes ++ bytes') := by
  intro tls tls' h
  obtain ⟨tls₁, h₁, h₂⟩ := bind_eq_some_iff.mp h
  rw [hg h₂, hf h₁, addLabels_write, write_write, addLabels, addLabels, addLabels, foldl_append]

theorem Adds.foldlM {objects : α → List Nat} (h : ∀ a, Adds (add · a) (objects a) (bytes a)) :
    ∀ as : List α, Adds (fun tls => as.foldlM add tls) (as.flatMap objects) (as.flatMap bytes)
  | [] => fun tls tls' h => by
    cases h
    show tls = tls.write []
    rw [write, append_nil]
  | a :: as => by
    have hrest := (h a).bind (Adds.foldlM h as)
    intro tls tls' htls
    exact hrest (foldlM_cons.symm.trans htls)

/-- A write behind its check adds its bytes. -/
theorem adds_check {n : Nat} {bytes : List Byte} {k : TlsData → TlsData}
    (hk : ∀ tls, k tls = tls.write bytes) :
    Adds (fun tls => (tls.checkHashBufCapacity n).map k) [] bytes := by
  intro tls tls' h
  obtain ⟨tls₁, hcheck, rfl⟩ := Option.map_eq_some_iff.mp h
  unfold checkHashBufCapacity at hcheck
  split at hcheck
  next => cases hcheck
  next hroom =>
    cases hcheck
    exact hk tls

theorem addSeperator_adds : Adds addSeperator [] [separator] := adds_check fun _ => rfl

theorem foldl_add8Byte (f : α → UInt64) : ∀ (as : List α) (tls : TlsData),
    as.foldl (fun tls a => tls.opCacheAdd8Byte (f a)) tls =
      tls.write (as.flatMap fun a => le8 (f a))
  | [], tls => by rw [foldl_nil, flatMap_nil, write, append_nil]
  | a :: as, tls => by
    rw [foldl_cons, foldl_add8Byte f as, opCacheAdd8Byte, write_write, flatMap_cons]

theorem opCahceAddShapeInfo_adds (shape : List Int64) :
    Adds (opCahceAddShapeInfo shape) [] (shapeBytes shape) := by
  refine adds_check fun tls => ?_
  rw [foldl_add8Byte, opCacheAddSeperator, write_write]
  rfl

theorem addTensor_adds (t : Option Tensor) :
    Adds (addTensor · t) (t.toList.map Tensor.object) (tensorPtrBytes t) := by
  cases t with
  | none => exact addSeperator_adds
  | some t =>
    have hlabel : Adds (fun tls => some (tls.addAclTensorToCachedList t.object)) [t.object] [] := by
      intro tls tls' h
      cases h
      rw [write, append_nil]
      rfl
    have htail : Adds (fun tls => (tls.checkHashBufCapacity (4 + 1 + 8 + 1 + 4)).map fun tls =>
        ((((tls.opCacheAdd4Byte t.dataType.code).opCacheAddSeperator.opCacheAdd8Byte
          t.viewOffset.toUInt64).opCacheAddSeperator).opCacheAdd4Byte t.viewFormat.code)) []
        (le 4 t.dataType.code.toNat ++ ([separator] ++ (le8 t.viewOffset.toUInt64 ++
          ([separator] ++ le 4 t.viewFormat.code.toNat)))) := by
      refine adds_check fun tls => ?_
      unfold opCacheAdd4Byte opCacheAddSeperator opCacheAdd8Byte
      simp only [write_write, append_assoc]
    have h := hlabel.bind ((opCahceAddShapeInfo_adds t.viewShape).bind
      ((opCahceAddShapeInfo_adds t.viewStrides).bind
        ((opCahceAddShapeInfo_adds t.storageShape).bind htail)))
    exact fun tls tls' htls => h htls

theorem addScalar_adds (s : Option Scalar) : Adds (addScalar · s) [] (scalarPtrBytes s) := by
  cases s with
  | none => exact addSeperator_adds
  | some s =>
    refine adds_check fun tls => ?_
    rw [opCacheAddSeperator, write_write]
    rfl

theorem opCacheAddCounter_adds (n : Nat) : Adds (opCacheAddCounter n) [] (le8 (UInt64.ofNat n)) :=
  adds_check fun _ => rfl

theorem addParamToBufV2_adds (bytes : List Byte) : Adds (addParamToBufV2 bytes) [] bytes :=
  adds_check fun _ => rfl

theorem addArray_adds {size : Nat} (v : Option (List α)) :
    Adds (addArray size bytes · v) [] (optional separator (counted bytes) v) := by
  cases v with
  | none => exact addSeperator_adds
  | some elements =>
    refine adds_check fun tls => ?_
    rw [opCacheAdd8Byte, write_write]
    rfl

theorem addList_adds {objects : α → List Nat} (h : ∀ a, Adds (add · a) (objects a) (bytes a))
    (v : Option (List α)) :
    Adds (addList add · v) ((v.getD []).flatMap objects)
      (optional separator (counted bytes) v) := by
  cases v with
  | none => exact addSeperator_adds
  | some members =>
    have hlist := (Adds.foldlM h members).bind (opCacheAddCounter_adds members.length)
    rw [append_nil] at hlist
    exact hlist

theorem addCharPtr_adds (c : Option (List Byte)) :
    Adds (addCharPtr · c) [] (optional separator (counted fun b => [b]) c) := by
  cases c with
  | none => exact addSeperator_adds
  | some c =>
    have hbytes : (c.flatMap fun b => [b]) = c := flatMap_singleton' c
    have h := (addParamToBufV2_adds c).bind (opCacheAddCounter_adds c.length)
    show Adds _ _ ((c.flatMap fun b => [b]) ++ le8 (UInt64.ofNat c.length))
    rw [hbytes]
    exact h

/-- One argument adds its bytes, and its tensors to the list. -/
theorem addParamToBuf_adds (p : Param Tensor UInt64) :
    Adds (addParamToBuf · p) p.objects p.bytes := by
  cases p with
  | tensor t => exact addTensor_adds t
  | tensorList ts =>
    have h := addList_adds addTensor_adds ts
    -- a missing tensor has no object
    have hobjects : ((ts.getD []).flatMap fun t => t.toList.map Tensor.object) =
        ((ts.getD []).filterMap id).map Tensor.object := by
      induction ts.getD [] with
      | nil => rfl
      | cons t ts ih =>
        rw [flatMap_cons, ih]
        cases t <;> rfl
    rw [hobjects] at h
    exact h
  | intArray v => exact addArray_adds v
  | boolArray v => exact addArray_adds v
  | floatArray v => exact addArray_adds v
  | fp16Array v => exact addArray_adds v
  | bf16Array v => exact addParamToBufV2_adds _
  | scalar s => exact addScalar_adds s
  | scalarList ss =>
    have h := addList_adds addScalar_adds ss
    have hnone : ((ss.getD []).flatMap fun _ => ([] : List Nat)) = [] :=
      flatMap_eq_nil_iff.mpr fun _ _ => rfl
    rw [hnone] at h
    exact h
  | string s => exact addParamToBufV2_adds _
  | charPtr c => exact addCharPtr_adds c
  | dataType _ | plain _ => exact addParamToBufV2_adds _

/-! ## Labels -/

/-- Labels tell the tensors in `objects` apart. -/
structure Labelled (objects : List Nat) (tls : TlsData) : Prop where
  list : tls.tensorLabelList = objects.map fun o => (tls.tensorLabelMap.lookup o).getD 0
  seen : ∀ o ∈ objects, (tls.tensorLabelMap.lookup o).isSome
  bound : ∀ o label, tls.tensorLabelMap.lookup o = some label → label < tls.tensorLabelNum
  inj : ∀ o o' label, tls.tensorLabelMap.lookup o = some label →
    tls.tensorLabelMap.lookup o' = some label → o = o'
  num : tls.tensorLabelNum ≤ objects.length

theorem labelled_init : Labelled [] init :=
  ⟨rfl, nofun, nofun, nofun, Nat.le_refl 0⟩

theorem labelled_write (bytes : List Byte) (h : Labelled objects tls) :
    Labelled objects (tls.write bytes) := ⟨h.list, h.seen, h.bound, h.inj, h.num⟩

/-- A tensor that was met before gets the label that it had. -/
theorem labelled_add {object : Nat} (h : Labelled objects tls) :
    Labelled (objects ++ [object]) (tls.addAclTensorToCachedList object) := by
  unfold addAclTensorToCachedList
  cases hlookup : tls.tensorLabelMap.lookup object with
  | some label =>
    simp only
    refine ⟨?_, ?_, h.bound, h.inj, ?_⟩
    · rw [map_append, h.list]
      simp only [map_cons, map_nil, hlookup]
      rfl
    · intro o ho
      rcases mem_append.mp ho with ho | ho
      · exact h.seen o ho
      · rw [mem_singleton.mp ho, hlookup]
        rfl
    · rw [length_append]
      exact Nat.le_trans h.num (Nat.le_add_right _ _)
  | none =>
    simp only
    -- the new entry hides no old one: the object was not in the map
    have hnew : ∀ o, ((object, tls.tensorLabelNum) :: tls.tensorLabelMap).lookup o =
        if o = object then some tls.tensorLabelNum else tls.tensorLabelMap.lookup o := by
      intro o
      by_cases ho : o = object
      · rw [if_pos ho, ho, lookup_cons_self]
      · rw [if_neg ho, lookup_cons, beq_eq_false_iff_ne.mpr ho]
    have hold : ∀ o ∈ objects, o ≠ object := by
      intro o ho heq
      have := h.seen o ho
      rw [heq, hlookup] at this
      cases this
    refine ⟨?_, ?_, ?_, ?_, ?_⟩
    · show tls.tensorLabelList ++ [tls.tensorLabelNum] = _
      rw [map_append, h.list]
      congr 1
      · refine map_congr_left fun o ho => ?_
        rw [hnew, if_neg (hold o ho)]
      · rw [map_singleton, hnew, if_pos rfl]
        rfl
    · intro o ho
      simp only [hnew]
      split
      · rfl
      next hne =>
        rcases mem_append.mp ho with ho | ho
        · exact h.seen o ho
        · exact absurd (mem_singleton.mp ho) hne
    · intro o label ho
      simp only [hnew] at ho ⊢
      split at ho
      · cases ho
        omega
      · have := h.bound o label ho
        omega
    · intro o o' label ho ho'
      simp only [hnew] at ho ho'
      split at ho
      next heq =>
        split at ho'
        next heq' => rw [heq, heq']
        next =>
          cases ho
          exact absurd (h.bound o' _ ho') (Nat.lt_irrefl _)
      next =>
        split at ho'
        next =>
          cases ho'
          exact absurd (h.bound o _ ho) (Nat.lt_irrefl _)
        next => exact h.inj o o' label ho ho'
    · have := h.num
      rw [length_append]
      exact Nat.succ_le_succ this

theorem labelled_addLabels : ∀ (objects : List Nat) {seen : List Nat} {tls : TlsData},
    Labelled seen tls → Labelled (seen ++ objects) (tls.addLabels objects)
  | [], seen, tls, h => by
    rw [append_nil]
    exact h
  | object :: objects, seen, tls, h => by
    have hadd : Labelled (seen ++ [object]) (tls.addAclTensorToCachedList object) := labelled_add h
    have hrest := labelled_addLabels objects hadd
    rw [append_assoc] at hrest
    exact hrest

theorem Labelled.getElem?_iff (h : Labelled objects tls) (i j : Nat) :
    tls.tensorLabelList[i]? = tls.tensorLabelList[j]? ↔ objects[i]? = objects[j]? := by
  rw [h.list, getElem?_map, getElem?_map]
  refine ⟨fun heq => ?_, fun heq => by rw [heq]⟩
  cases hi : objects[i]? with
  | none =>
    rw [hi] at heq
    exact (Option.map_eq_none_iff.mp heq.symm).symm
  | some o =>
    cases hj : objects[j]? with
    | none =>
      rw [hi, hj] at heq
      cases heq
    | some o' =>
      rw [hi, hj] at heq
      obtain ⟨label, hlabel⟩ := Option.isSome_iff_exists.mp (h.seen o (mem_of_getElem? hi))
      obtain ⟨label', hlabel'⟩ := Option.isSome_iff_exists.mp (h.seen o' (mem_of_getElem? hj))
      have heq : (tls.tensorLabelMap.lookup o).getD 0 = (tls.tensorLabelMap.lookup o').getD 0 :=
        some.inj heq
      rw [hlabel, hlabel'] at heq
      have heq : label = label' := heq
      rw [h.inj o o' label hlabel (heq ▸ hlabel')]

end TlsData

variable {k : List Byte}

/-- A key is the bytes of the arguments and the labels of the tensors behind them. -/
theorem key_eq {call : Call} (h : call.key = some k) :
    ∃ front tls, TlsData.Labelled call.objects tls ∧ k.length ≤ hashBufSize ∧
      k = front ++ call.params.flatMap Param.bytes ++
        tls.tensorLabelList.flatMap fun label => le8 (UInt64.ofNat label) := by
  unfold Call.key at h
  obtain ⟨tls₁, hapi, h⟩ := bind_eq_some_iff.mp h
  obtain ⟨tls₂, hconfig, h⟩ := bind_eq_some_iff.mp h
  obtain ⟨tls₃, hinputs, h⟩ := bind_eq_some_iff.mp h
  obtain ⟨tls₄, houtputs, hkey⟩ := bind_eq_some_iff.mp h
  have hconfig_adds : TlsData.Adds (TlsData.addOpConfigInfoToBuf call.aicNum call.aivNum) []
      (le 4 call.aicNum.toNat ++ le 4 call.aivNum.toNat) := by
    refine TlsData.adds_check fun tls => ?_
    unfold TlsData.opCacheAdd4Byte
    rw [TlsData.write_write]
  have hwritten : (TlsData.init.addCharPtr (some call.api)).bind (fun tls =>
      (tls.addOpConfigInfoToBuf call.aicNum call.aivNum).bind fun tls =>
        call.params.foldlM TlsData.addParamToBuf tls) = some tls₄ := by
    rw [hapi, bind_some, hconfig, bind_some, Call.params, foldlM_append, hinputs]
    exact houtputs
  have htls := (TlsData.addCharPtr_adds (some call.api)).bind (hconfig_adds.bind
    (TlsData.Adds.foldlM TlsData.addParamToBuf_adds call.params)) hwritten
  have hlabelled : TlsData.Labelled call.objects tls₄ := by
    rw [htls]
    exact TlsData.labelled_write _ (TlsData.labelled_addLabels _ TlsData.labelled_init)
  obtain ⟨front, hbuf⟩ : ∃ front, tls₄.hashBuf = front ++ call.params.flatMap Param.bytes := by
    rw [htls, TlsData.write, TlsData.addLabels_hashBuf, ← append_assoc, ← append_assoc,
      ← append_assoc]
    exact ⟨_, rfl⟩
  obtain ⟨tls₅, hcheck, rfl⟩ := Option.map_eq_some_iff.mp hkey
  unfold TlsData.checkHashBufCapacity at hcheck
  split at hcheck
  next => cases hcheck
  next hroom =>
    cases hcheck
    refine ⟨front, tls₄, hlabelled, ?_, ?_⟩
    · rw [TlsData.foldl_add8Byte, TlsData.write, length_append,
        length_flatMap_of (fun _ => length_le8 _)]
      omega
    · rw [TlsData.foldl_add8Byte, TlsData.write, hbuf]

/-! ## What is not in the key -/

/-- What the key leaves out and its reader has to know. -/
inductive Unwritten where
  | ranks (view strides storage : Nat)
  | scalarType (dataType : Option DataType)
  | stringLength (length : Nat)
deriving DecidableEq

def tensorRanks (t : TensorInfo) : List Unwritten :=
  [.ranks t.viewShape.length t.viewStrides.length t.storageShape.length]

def scalarType (s : Option Scalar) : List Unwritten := [.scalarType (s.map Scalar.dataType)]

/-- What is not in the bytes of a parameter, given that of a tensor. -/
def Param.unwrittenBy {τ β : Type} (ranks : τ → List Unwritten) : Param τ β → List Unwritten
  | .tensor t => t.elim [] ranks
  | .tensorList ts => ts.elim [] (List.flatMap fun t => t.elim [] ranks)
  | .scalar s => scalarType s
  | .scalarList ss => ss.elim [] (List.flatMap scalarType)
  | .string s => [.stringLength s.length]
  | _ => []

def Param.unwritten : Param Tensor UInt64 → List Unwritten :=
  Param.unwrittenBy fun t => tensorRanks t.toTensorInfo

/-- For each tensor that is not null its ranks, for each scalar its type or that it is null,
for each string its length. -/
def Call.unwritten (call : Call) : List Unwritten := call.params.flatMap Param.unwritten

theorem unwrittenBy_map {τ β τ' β' : Type} (ranks : τ' → List Unwritten) (f : τ → τ') (g : β → β')
    (p : Param τ β) : (p.map f g).unwrittenBy ranks = p.unwrittenBy fun t => ranks (f t) := by
  cases p with
  | tensor t => cases t <;> rfl
  | tensorList ts =>
    cases ts with
    | none => rfl
    | some ts =>
      show List.flatMap _ (ts.map _) = List.flatMap _ ts
      rw [flatMap_map]
      congr 1
      funext t
      cases t <;> rfl
  | _ => rfl

/-! ## Reading a key -/

theorem int64_inj : ∀ {a b : Int64}, a.toUInt64 = b.toUInt64 → a = b
  | ⟨_⟩, ⟨_⟩, h => congrArg Int64.ofUInt64 h

theorem shapeBytes_inj {a b : List Int64} (hlen : a.length = b.length) {u v : List Byte}
    (h : shapeBytes a ++ u = shapeBytes b ++ v) : a = b ∧ u = v := by
  unfold shapeBytes at h
  have hbytes : ∀ d : Int64, (le8 d.toUInt64).length = 8 := fun _ => length_le8 _
  obtain ⟨hab, huv⟩ := append_inj h (by
    rw [length_append, length_append, length_flatMap_of hbytes, length_flatMap_of hbytes, hlen])
  refine ⟨flatMap_inj hbytes ?_ hlen (append_cancel_right hab), huv⟩
  intro d d' hd
  exact int64_inj (le8_inj.mp hd)

theorem le4_inj {a b : UInt32} {u v : List Byte}
    (h : le 4 a.toNat ++ u = le 4 b.toNat ++ v) : a = b ∧ u = v := by
  obtain ⟨hab, huv⟩ := append_inj h (by rw [length_le, length_le])
  exact ⟨UInt32.toNat_inj.mp (le_inj a.toNat_lt b.toNat_lt hab), huv⟩

theorem tensor_framed (a b : Tensor) :
    Framed (fun t : Tensor => tensorBytes t.toTensorInfo) (fun t => tensorRanks t.toTensorInfo)
      Tensor.toTensorInfo a b := by
  refine Framed.of_side rfl (fun hranks => ?_) fun hranks h => ?_
  · obtain ⟨hv, hs, hg⟩ := Unwritten.ranks.inj (singleton_inj.mp hranks)
    have hbytes : ∀ d : Int64, (le8 d.toUInt64).length = 8 := fun _ => length_le8 _
    simp only [tensorBytes, shapeBytes, length_append, length_flatMap_of hbytes, length_le,
      length_le8, hv, hs, hg]
  · obtain ⟨hv, hs, hg⟩ := Unwritten.ranks.inj (singleton_inj.mp hranks)
    unfold tensorBytes at h
    obtain ⟨hview, h⟩ := shapeBytes_inj hv h
    obtain ⟨hstrides, h⟩ := shapeBytes_inj hs h
    obtain ⟨hstorage, h⟩ := shapeBytes_inj hg h
    obtain ⟨hdtype, h⟩ := le4_inj h
    obtain ⟨hoffset, h⟩ :=
      append_inj (append_cancel_left h) (by rw [length_le8, length_le8])
    have hformat := le_inj a.viewFormat.code.toNat_lt b.viewFormat.code.toNat_lt
      (append_cancel_left h)
    refine TensorInfo.ext hview hstrides hstorage (congrArg DataType.mk hdtype) ?_ ?_
    · exact int64_inj (le8_inj.mp hoffset)
    · exact Format.ext (UInt32.toNat_inj.mp hformat)

theorem tensor_endsOff (t : TensorInfo) : EndsOff separator (tensorBytes t) := by
  have hformat : EndsOff separator (le 4 t.viewFormat.code.toNat) := by
    refine ⟨_, _, le_succ_last 3 _, fun h => ?_⟩
    have hbyte := congrArg UInt8.toNat h
    rw [UInt8.toNat_ofNat'] at hbyte
    have hsep : separator.toNat = 44 := rfl
    rcases t.viewFormat.valid with hvalid | hvalid
    · omega
    · rw [hvalid] at hbyte
      revert hbyte
      decide
  unfold tensorBytes
  simp only [← append_assoc]
  exact hformat.append _

theorem tensorPtr_framed (x y : Option Tensor) :
    Framed tensorPtrBytes (fun t => t.elim [] fun t => tensorRanks t.toTensorInfo)
      (Option.map Tensor.toTensorInfo) x y :=
  Framed.option (fun t _ => tensor_endsOff t.toTensorInfo)
    (fun t _ => tensor_endsOff t.toTensorInfo)
    fun a _ b _ => tensor_framed a b

theorem scalarPtr_framed (x y : Option Scalar) : Framed scalarPtrBytes scalarType id x y := by
  refine Framed.of_side rfl (fun htype => ?_) fun htype h => ?_
  · have htype := Unwritten.scalarType.inj (singleton_inj.mp htype)
    cases x with
    | none =>
      cases y with
      | none => rfl
      | some t => cases htype
    | some s =>
      cases y with
      | none => cases htype
      | some t =>
        show (s.data ++ [separator]).length = (t.data ++ [separator]).length
        rw [length_append, length_append, s.size, t.size, some.inj htype]
  · have htype := Unwritten.scalarType.inj (singleton_inj.mp htype)
    cases x with
    | none =>
      cases y with
      | none => rfl
      | some t => cases htype
    | some s =>
      cases y with
      | none => cases htype
      | some t =>
        exact congrArg some (Scalar.ext (some.inj htype) (append_cancel_right h))

/-! ## Parameters -/

theorem tensorPtrBytes_pos (t : Option Tensor) : 0 < (tensorPtrBytes t).length := by
  cases t with
  | none => exact Nat.one_pos
  | some t =>
    show 0 < (tensorBytes t.toTensorInfo).length
    simp only [tensorBytes, length_append, length_le]
    omega

theorem scalarPtrBytes_pos (s : Option Scalar) : 0 < (scalarPtrBytes s).length := by
  cases s with
  | none => exact Nat.one_pos
  | some s =>
    show 0 < (s.data ++ [separator]).length
    rw [length_append]
    exact Nat.succ_pos _

variable {enc : α → List Byte}

theorem countedPtr_framed {ρ γ : Type} {side : α → List ρ} {val : α → γ} {x y : Option (List α)}
    (hpos : ∀ a, 0 < (enc a).length) (hframed : ∀ a b, Framed enc side val a b)
    (hx : (optional separator (counted enc) x).length ≤ hashBufSize)
    (hy : (optional separator (counted enc) y).length ≤ hashBufSize) :
    Framed (optional separator (counted enc)) (fun l => l.elim [] (List.flatMap side))
      (Option.map (List.map val)) x y := by
  have hsmall : ∀ {z : Option (List α)} {l : List α},
      (optional separator (counted enc) z).length ≤ hashBufSize → l ∈ z → l.length < 2 ^ 56 := by
    intro z l hz hl
    rw [Option.mem_def.mp hl] at hz
    have hz : (l.flatMap enc ++ le8 _).length ≤ hashBufSize := hz
    have := length_le_flatMap hpos l
    rw [length_append] at hz
    unfold hashBufSize at hz
    omega
  refine Framed.option (fun l hl => EndsOff.counted (by decide) (hsmall hx hl))
    (fun l hl => EndsOff.counted (by decide) (hsmall hy hl)) fun a ha b hb => ?_
  exact Framed.counted (Nat.lt_trans (hsmall hx ha) (by decide))
    (Nat.lt_trans (hsmall hy hb) (by decide)) fun _ _ _ _ => hframed _ _

theorem arrayPtr_framed {n : Nat} {x y : Option (List α)} (hlen : ∀ a, (enc a).length = n + 1)
    (hinj : ∀ {a b}, enc a = enc b → a = b)
    (hx : (optional separator (counted enc) x).length ≤ hashBufSize)
    (hy : (optional separator (counted enc) y).length ≤ hashBufSize) :
    Framed (optional separator (counted enc)) (fun _ => ([] : List Unwritten)) id x y := by
  have hpos : ∀ a, 0 < (enc a).length := fun a => by rw [hlen]; exact Nat.succ_pos n
  have helement : ∀ a b, Framed enc (fun _ => ([] : List Unwritten)) id a b := fun a b =>
    Framed.of_length (by rw [hlen, hlen]) hinj
  have hside : ∀ z : Option (List α),
      z.elim [] (List.flatMap fun _ => ([] : List Unwritten)) = [] := by
    intro z
    cases z with
    | none => rfl
    | some l => exact flatMap_eq_nil_iff.mpr fun _ _ => rfl
  have hval : ∀ z : Option (List α), id z = id (z.map (List.map id)) := by
    intro z
    rw [map_id_fun, Option.map_id_fun]
    rfl
  exact (countedPtr_framed hpos helement hx hy).congr id rfl rfl (hside x).symm (hside y).symm
    (hval x) (hval y)

theorem bytes_framed {p q : Param Tensor UInt64} (hlen : p.bytes.length = q.bytes.length)
    (hval : p.bytes = q.bytes → p.info = q.info) (hp : p.unwritten = []) (hq : q.unwritten = []) :
    Framed Param.bytes Param.unwritten Param.info p q :=
  Framed.of_side (by rw [hp, hq]) (fun _ => hlen) fun _ => hval

/-- Of two parameters of one type, with the unwritten parts known, each is read off. -/
theorem param_framed {x y : Param Tensor UInt64} (htype : x.type = y.type)
    (hx : x.bytes.length ≤ hashBufSize) (hy : y.bytes.length ≤ hashBufSize) :
    Framed Param.bytes Param.unwritten Param.info x y := by
  -- for each type, that the encoding of its values is framed
  cases x with
  | tensor t =>
    cases y <;> cases htype
    next t' => exact (tensorPtr_framed t t').congr Param.tensor rfl rfl rfl rfl rfl rfl
  | tensorList ts =>
    cases y <;> cases htype
    next ts' =>
      exact (countedPtr_framed tensorPtrBytes_pos tensorPtr_framed hx hy).congr Param.tensorList
        rfl rfl rfl rfl rfl rfl
  | intArray v =>
    cases y <;> cases htype
    next v' =>
      have hlen : ∀ d : Int64, (le8 d.toUInt64).length = 7 + 1 := fun _ => length_le8 _
      exact (arrayPtr_framed hlen (fun h => int64_inj (le8_inj.mp h)) hx hy).congr Param.intArray
        rfl rfl rfl rfl rfl rfl
  | boolArray v =>
    cases y <;> cases htype
    next v' =>
      have hinj : ∀ {a b}, TlsData.boolBytes a = TlsData.boolBytes b → a = b := by decide
      have hlen : ∀ b, (TlsData.boolBytes b).length = 0 + 1 := fun _ => rfl
      exact (arrayPtr_framed hlen hinj hx hy).congr Param.boolArray rfl rfl rfl rfl rfl rfl
  | floatArray v =>
    cases y <;> cases htype
    next v' =>
      have hlen : ∀ x : UInt32, (le 4 x.toNat).length = 3 + 1 := fun _ => length_le 4 _
      exact (arrayPtr_framed hlen (fun {a b} h =>
        UInt32.toNat_inj.mp (le_inj a.toNat_lt b.toNat_lt h)) hx hy).congr Param.floatArray
        rfl rfl rfl rfl rfl rfl
  | fp16Array v =>
    cases y <;> cases htype
    next v' =>
      have hlen : ∀ x : UInt16, (le 2 x.toNat).length = 1 + 1 := fun _ => length_le 2 _
      exact (arrayPtr_framed hlen (fun {a b} h =>
        UInt16.toNat_inj.mp (le_inj a.toNat_lt b.toNat_lt h)) hx hy).congr Param.fp16Array
        rfl rfl rfl rfl rfl rfl
  | bf16Array v =>
    cases y <;> cases htype
    next v' =>
      refine bytes_framed ?_ (fun h => congrArg Param.bf16Array (le8_inj.mp h)) rfl rfl
      exact (length_le8 v).trans (length_le8 v').symm
  | scalar s =>
    cases y <;> cases htype
    next s' => exact (scalarPtr_framed s s').congr Param.scalar rfl rfl rfl rfl rfl rfl
  | scalarList ss =>
    cases y <;> cases htype
    next ss' =>
      have hval : ∀ z : Option (List (Option Scalar)),
          Param.info (.scalarList z) = .scalarList (z.map (List.map id)) := by
        intro z
        rw [map_id_fun, Option.map_id_fun]
        rfl
      exact (countedPtr_framed scalarPtrBytes_pos scalarPtr_framed hx hy).congr Param.scalarList
        rfl rfl rfl rfl (hval ss) (hval ss')
  | string s =>
    cases y <;> cases htype
    next s' =>
      refine Framed.of_side rfl (fun h => ?_) fun _ h => congrArg Param.string h
      exact Unwritten.stringLength.inj (singleton_inj.mp h)
  | charPtr c =>
    cases y <;> cases htype
    next c' =>
      have hlen : ∀ b : Byte, [b].length = 0 + 1 := fun _ => rfl
      exact (arrayPtr_framed hlen (fun h => singleton_inj.mp h) hx hy).congr Param.charPtr
        rfl rfl rfl rfl rfl rfl
  | dataType dtype =>
    cases y <;> cases htype
    next dtype' =>
      refine bytes_framed ?_ (fun h => congrArg Param.dataType ?_) rfl rfl
      · exact (length_le 4 _).trans (length_le 4 _).symm
      · exact congrArg DataType.mk (UInt32.toNat_inj.mp (le_inj dtype.code.toNat_lt
          dtype'.code.toNat_lt h))
  | plain v =>
    cases y <;> try cases htype
    next v' =>
      exact bytes_framed (ParamType.plain.inj htype) (fun h => congrArg Param.plain h) rfl rfl

theorem params_framed : ∀ {ps qs : List (Param Tensor UInt64)},
    ps.map Param.type = qs.map Param.type →
    (∀ p ∈ ps, p.bytes.length ≤ hashBufSize) → (∀ q ∈ qs, q.bytes.length ≤ hashBufSize) →
    List.Forall₂ (Framed Param.bytes Param.unwritten Param.info) ps qs
  | [], [], _, _, _ => .nil
  | p :: ps, q :: qs, htypes, hp, hq => by
    rw [map_cons, map_cons] at htypes
    obtain ⟨htype, htypes⟩ := List.cons.inj htypes
    exact .cons (param_framed htype (hp p mem_cons_self) (hq q mem_cons_self))
      (params_framed htypes (fun p' h => hp p' (mem_cons_of_mem p h))
        fun q' h => hq q' (mem_cons_of_mem q h))

/-- Whether an unwritten part belongs to a tensor. -/
def Unwritten.isRanks : Unwritten → Bool
  | .ranks .. => true
  | _ => false

theorem ranks_count (p : Param Tensor UInt64) :
    p.unwritten.countP Unwritten.isRanks = p.objects.length := by
  cases p with
  | tensor t => cases t <;> rfl
  | tensorList ts =>
    cases ts with
    | none => rfl
    | some ts =>
      show (ts.flatMap _).countP _ = ((ts.filterMap id).map Tensor.object).length
      induction ts with
      | nil => rfl
      | cons t ts ih =>
        rw [flatMap_cons, countP_append, ih]
        cases t with
        | none => exact Nat.zero_add _
        | some t => exact Nat.add_comm _ _
  | scalarList ss =>
    cases ss with
    | none => rfl
    | some ss =>
      show (ss.flatMap _).countP _ = 0
      induction ss with
      | nil => rfl
      | cons s ss ih => rw [flatMap_cons, countP_append, ih]; rfl
  | _ => rfl

theorem length_objects (call : Call) :
    call.objects.length = call.unwritten.countP Unwritten.isRanks := by
  unfold Call.objects Call.unwritten
  induction call.params with
  | nil => rfl
  | cons p ps ih =>
    rw [flatMap_cons, flatMap_cons, length_append, countP_append, ih, ranks_count]
    rfl

theorem length_le_of_mem_flatMap {β : Type} {f : α → List β} : ∀ {as : List α} {a : α},
    a ∈ as → (f a).length ≤ (as.flatMap f).length
  | b :: as, a, h => by
    rw [flatMap_cons, length_append]
    rcases mem_cons.mp h with rfl | h
    · exact Nat.le_add_right _ _
    · exact Nat.le_trans (length_le_of_mem_flatMap h) (Nat.le_add_left _ _)

theorem TlsData.Labelled.lt {tls : TlsData} (h : Labelled objects tls) {label : Nat}
    (hmem : label ∈ tls.tensorLabelList) : label < objects.length := by
  rw [h.list] at hmem
  obtain ⟨o, ho, rfl⟩ := mem_map.mp hmem
  obtain ⟨label, hlabel⟩ := Option.isSome_iff_exists.mp (h.seen o ho)
  rw [hlabel]
  exact Nat.lt_of_lt_of_le (h.bound o label hlabel) h.num

theorem labels_inj {as bs : List Nat} (hlen : as.length = bs.length) (ha : ∀ a ∈ as, a < 2 ^ 64)
    (hb : ∀ b ∈ bs, b < 2 ^ 64)
    (h : (as.flatMap fun a => le8 (UInt64.ofNat a)) = bs.flatMap fun b => le8 (UInt64.ofNat b)) :
    as = bs := by
  have hback : ∀ cs : List Nat, (∀ c ∈ cs, c < 2 ^ 64) →
      (cs.map UInt64.ofNat).map UInt64.toNat = cs := by
    intro cs hcs
    rw [map_map]
    exact (map_congr_left fun c hc =>
      UInt64.toNat_ofNat_of_lt' (hcs c hc)).trans (map_id _)
  have hwords : as.map UInt64.ofNat = bs.map UInt64.ofNat := by
    refine flatMap_inj length_le8 (fun h => le8_inj.mp h) (by simp [hlen]) ?_
    rw [flatMap_map, flatMap_map]
    exact h
  rw [← hback as ha, hwords, hback bs hb]

/-- Two calls whose keys are equal, with the same types and unwritten parts, pass the same
parameters, up to the identity of tensors, and the same pattern of tensors. -/
theorem key_decode {x y : Call} (htypes : x.types = y.types) (hx : x.key = some k)
    (hy : y.key = some k) (hunwritten : x.unwritten = y.unwritten) :
    x.params.map Param.info = y.params.map Param.info ∧
      ∀ i j : Nat, x.objects[i]? = x.objects[j]? ↔ y.objects[i]? = y.objects[j]? := by
  obtain ⟨front, tls, hlabelled, hlen, hk⟩ := key_eq hx
  obtain ⟨front', tls', hlabelled', hlen', hk'⟩ := key_eq hy
  have hobjects : x.objects.length = y.objects.length := by
    rw [length_objects, length_objects, hunwritten]
  have hlabels : tls.tensorLabelList.length = tls'.tensorLabelList.length := by
    rw [hlabelled.list, hlabelled'.list, length_map, length_map, hobjects]
  have hword : ∀ label : Nat, (le8 (UInt64.ofNat label)).length = 8 := fun _ => length_le8 _
  -- the labels come off first: there are as many as tensors
  obtain ⟨hparams, htail⟩ := append_inj' (hk.symm.trans hk')
    (by rw [length_flatMap_of hword, length_flatMap_of hword, hlabels])
  have hsmall : x.objects.length < 2 ^ 64 := by
    have := congrArg List.length hk
    rw [length_append, length_flatMap_of hword, hlabelled.list, length_map] at this
    unfold hashBufSize at hlen
    omega
  have heq := labels_inj hlabels (fun a ha => Nat.lt_trans (hlabelled.lt ha) hsmall)
    (fun b hb => Nat.lt_trans (hlabelled'.lt hb) (hobjects ▸ hsmall)) htail
  refine ⟨?_, fun i j => ?_⟩
  · have hfits : ∀ {z : Call} {f l : List Byte}, k.length ≤ hashBufSize →
        k = f ++ z.params.flatMap Param.bytes ++ l →
        ∀ p ∈ z.params, p.bytes.length ≤ hashBufSize := by
      intro z f l hk hz p hp
      have : p.bytes.length ≤ (z.params.flatMap Param.bytes).length := length_le_of_mem_flatMap hp
      rw [hz, length_append, length_append] at hk
      omega
    have hframed := Framed.flatMap (params_framed htypes (hfits hlen hk) (hfits hlen' hk'))
    have hsides : [] ++ x.unwritten = [] ++ y.unwritten := congrArg ([] ++ ·) hunwritten
    exact (hframed hparams hsides).1
  · rw [← hlabelled.getElem?_iff, ← hlabelled'.getElem?_iff, heq]

/-! ## The two laws -/

/-- `aclTensor`, `aclTensorList` and the arrays with an overload. -/
def ParamType.tensorShaped : ParamType → Bool
  | .tensor => true
  | .tensorList => true
  | .intArray => true
  | .boolArray => true
  | .floatArray => true
  | .fp16Array => true
  | _ => false

/-- The numbers of dimensions, of strides and of storage dimensions of a tensor. -/
def Tensor.ranks (t : Tensor) : Nat × Nat × Nat :=
  (t.viewShape.length, t.viewStrides.length, t.storageShape.length)

/-- The ranks of the tensors a call passes, in order. -/
def Call.ranks (call : Call) : List (Nat × Nat × Nat) :=
  call.params.flatMap fun p => p.tensors.map Tensor.ranks

/-- Of tensors only the ranks are not written. -/
theorem unwritten_eq_ranks {call : Call} (h : ∀ t ∈ call.types, t.tensorShaped) :
    call.unwritten = call.ranks.map fun r => .ranks r.1 r.2.1 r.2.2 := by
  have hparam : ∀ p : Param Tensor UInt64, p.type.tensorShaped →
      p.unwritten = (p.tensors.map Tensor.ranks).map fun r => .ranks r.1 r.2.1 r.2.2 := by
    intro p hp
    cases p with
    | tensor t => cases t <;> rfl
    | tensorList ts =>
      cases ts with
      | none => rfl
      | some ts =>
        show ts.flatMap _ = ((ts.filterMap id).map _).map _
        induction ts with
        | nil => rfl
        | cons t ts ih =>
          rw [flatMap_cons, ih hp]
          cases t <;> rfl
    | intArray _ | boolArray _ | floatArray _ | fp16Array _ => rfl
    | _ => cases hp
  unfold Call.unwritten Call.ranks
  unfold Call.types at h
  generalize call.params = params at h
  induction params with
  | nil => rfl
  | cons p ps ih =>
    rw [map_cons] at h
    obtain ⟨hp, hps⟩ := forall_mem_cons.mp h
    rw [flatMap_cons, flatMap_cons, map_append, hparam p hp, ih hps]

/-- The parameters agree one by one, and so does which tensors are the same object. -/
structure SameTensors (x y : Call) : Prop where
  params : x.params.map Param.info = y.params.map Param.info
  objects : ∀ i j : Nat, x.objects[i]? = x.objects[j]? ↔ y.objects[i]? = y.objects[j]?

theorem unwritten_of_map {β : Type} {f g : UInt64 → β} {x y : Call}
    (h : x.params.map (Param.map Tensor.toTensorInfo f) =
      y.params.map (Param.map Tensor.toTensorInfo g)) : x.unwritten = y.unwritten := by
  have hback : ∀ (f : UInt64 → β) (z : Call), z.unwritten =
      (z.params.map (Param.map Tensor.toTensorInfo f)).flatMap (Param.unwrittenBy tensorRanks) := by
    intro f z
    rw [flatMap_map]
    simp only [unwrittenBy_map]
    rfl
  rw [hback f x, hback g y, h]

/-- The key of tensors, tensor lists and arrays determines them exactly when the tensors'
numbers of dimensions and strides are known. -/
theorem tensor_key_iff {x y : Call} (hshaped : ∀ t ∈ x.types, t.tensorShaped)
    (htypes : x.types = y.types) (hx : x.key = some k) (hy : y.key = some k) :
    SameTensors x y ↔ x.ranks = y.ranks := by
  have hranks : x.unwritten = y.unwritten ↔ x.ranks = y.ranks := by
    rw [unwritten_eq_ranks hshaped, unwritten_eq_ranks (htypes ▸ hshaped)]
    refine List.map_inj_right fun r r' h => ?_
    obtain ⟨hview, hstrides, hstorage⟩ := Unwritten.ranks.inj h
    exact Prod.ext hview (Prod.ext hstrides hstorage)
  rw [← hranks]
  refine ⟨fun h => unwritten_of_map h.params, fun h => ?_⟩
  obtain ⟨hparams, hobjects⟩ := key_decode htypes hx hy h
  exact ⟨hparams, hobjects⟩

/-- A call of an API with a tensor, an int array, a tensor list and a bool array. -/
def exampleTensor (object : Nat) (viewShape viewStrides storageShape : List Int64) : Tensor where
  object := object
  viewShape := viewShape
  viewStrides := viewStrides
  storageShape := storageShape
  dataType := .DT_FLOAT
  viewOffset := 0
  viewFormat := ⟨2, by decide⟩

def exampleCall (inputs : List (Param Tensor UInt64)) : Call where
  api := [97, 98]
  aicNum := 24
  aivNum := 48
  inputs := inputs
  outputs := []

/-- Equal parameters in other objects, with the same pattern. -/
def exampleTensors (a b : Nat) : Call :=
  exampleCall [.tensor (some (exampleTensor a [2, 3] [3, 1] [6])), .intArray (some [5, -1]),
    .tensorList (some [some (exampleTensor b [4] [1] [4]), none,
      some (exampleTensor a [2, 3] [3, 1] [6])]), .boolArray none]

/-- Two calls that differ in addresses only have one key, and the tensors are the same. -/
theorem tensor_key_iff_tensors : SameTensors (exampleTensors 100 200) (exampleTensors 300 100) :=
  (tensor_key_iff (k := ((exampleTensors 100 200).key).get (by decide +kernel)) (by decide +kernel)
    (by decide +kernel) (by decide +kernel) (by decide +kernel)).mpr (by decide +kernel)

/-- An array of one more element and a tensor of one dimension less write the same bytes. -/
theorem tensor_key_collides :
    let x := exampleCall [.intArray (some [5]),
      .tensor (some (exampleTensor 100 [2, 3] [7, 44] [1]))]
    let y := exampleCall [.intArray (some [5, 1]),
      .tensor (some (exampleTensor 100 [3] [7] [0x2C00000000000000, 1]))]
    x.types = y.types ∧ x.key.isSome ∧ x.key = y.key ∧ ¬ SameTensors x y := by
  refine ⟨by decide +kernel, by decide +kernel, by decide +kernel, fun h => ?_⟩
  have hparams := h.params
  revert hparams
  decide +kernel

theorem value_eq_map_info (heap : UInt64 → List UInt16) (p : Param Tensor UInt64) :
    p.value heap = p.info.map id (deref heap) := by
  cases p with
  | tensor t => cases t <;> rfl
  | tensorList ts =>
    show Param.tensorList _ = Param.tensorList (Option.map _ (Option.map _ ts))
    simp only [Option.map_id_fun, id_eq, map_id_fun']
    rw [Option.map_id']
  | _ => rfl

theorem map_heap_iff {heap heap' : UInt64 → List UInt16} {p : Param TensorInfo UInt64} :
    p.map id (deref heap) = p.map id (deref heap') ↔
      ∀ v, p = .bf16Array v → v ≠ 0 → heap v = heap' v := by
  cases p with
  | bf16Array v =>
    refine ⟨fun h v' hv' hne => ?_, fun h => congrArg Param.bf16Array ?_⟩
    · cases hv'
      have h := Param.bf16Array.inj h
      unfold deref at h
      rw [if_neg hne, if_neg hne] at h
      exact some.inj h
    · unfold deref
      by_cases hv : v = 0
      · rw [if_pos hv, if_pos hv]
      · rw [if_neg hv, if_neg hv, h v rfl hv]
  | _ => exact ⟨fun _ => nofun, fun _ => rfl⟩

theorem info_eq_bf16Array {p : Param Tensor UInt64} {v : UInt64} :
    p.info = .bf16Array v ↔ p = .bf16Array v := by
  cases p with
  | bf16Array v' =>
    refine ⟨fun h => ?_, fun h => ?_⟩
    · exact congrArg Param.bf16Array (Param.bf16Array.inj h)
    · exact congrArg Param.bf16Array (Param.bf16Array.inj h)
  | _ => exact ⟨nofun, nofun⟩

/-- The key determines the values of its call's parameters exactly when what is unwritten is
known and each bfloat16 array the first call passes holds the same at the second. -/
theorem scalar_key_iff {x y : Call} (heap heap' : UInt64 → List UInt16) (htypes : x.types = y.types)
    (hx : x.key = some k) (hy : y.key = some k) :
    x.params.map (Param.value heap) = y.params.map (Param.value heap') ↔
      x.unwritten = y.unwritten ∧ ∀ v, .bf16Array v ∈ x.params → v ≠ 0 → heap v = heap' v := by
  have hvalues : x.unwritten = y.unwritten →
      (x.params.map (Param.value heap) = y.params.map (Param.value heap') ↔
        ∀ v, .bf16Array v ∈ x.params → v ≠ 0 → heap v = heap' v) := by
    intro h
    obtain ⟨hinfo, _⟩ := key_decode htypes hx hy h
    have hmap : ∀ (heap : UInt64 → List UInt16) (ps : List (Param Tensor UInt64)),
        ps.map (Param.value heap) = (ps.map Param.info).map (Param.map id (deref heap)) := by
      intro heap ps
      rw [map_map]
      exact map_congr_left fun p _ => value_eq_map_info heap p
    rw [hmap heap, hmap heap', ← hinfo, map_eq_map_iff]
    refine ⟨fun h v hv => ?_, fun h p hp => map_heap_iff.mpr fun v hv => ?_⟩
    · exact map_heap_iff.mp (h _ (mem_map_of_mem hv)) v rfl
    · obtain ⟨q, hq, rfl⟩ := mem_map.mp hp
      exact h v (info_eq_bf16Array.mp hv ▸ hq)
  refine ⟨fun h => ?_, fun h => (hvalues h.1).mpr h.2⟩
  have hunwritten := unwritten_of_map h
  exact ⟨hunwritten, (hvalues hunwritten).mp h⟩

/-- The number one as a scalar of four bytes. -/
def exampleScalar (dataType : DataType) (h : typeSize dataType = 4) : Scalar where
  dataType := dataType
  data := [1, 0, 0, 0]
  size := h.symm

/-- Scalars, a list of them, strings, an array and a plain value. -/
def exampleScalars : Call :=
  exampleCall [.scalar (some (exampleScalar .DT_INT32 (by decide))), .scalar none,
    .scalarList (some [none, some (exampleScalar .DT_FLOAT (by decide))]), .string [104, 105],
    .bf16Array 4096, .plain [1]]

/-- The bfloat16 that the call points to is part of its value. -/
theorem scalar_key_iff_scalars :
    exampleScalars.params.map (Param.value fun _ => [16256]) =
      exampleScalars.params.map (Param.value fun v => if v = 4096 then [16256] else []) := by
  refine (scalar_key_iff (k := exampleScalars.key.get (by decide +kernel)) _ _ rfl
    (by decide +kernel) (by decide +kernel)).mpr ⟨rfl, fun v hv _ => ?_⟩
  have hv : v = 4096 := by simpa [exampleScalars, exampleCall, Call.params] using hv
  rw [if_pos hv]

/-- The integer 1 and the unsigned integer 1 write the same bytes. -/
theorem scalar_key_collides :
    let x := exampleCall [.scalar (some (exampleScalar .DT_INT32 (by decide)))]
    let y := exampleCall [.scalar (some (exampleScalar .DT_UINT32 (by decide)))]
    x.types = y.types ∧ x.key.isSome ∧ x.key = y.key ∧
      ∀ heap heap', x.params.map (Param.value heap) ≠ y.params.map (Param.value heap') := by
  refine ⟨by decide +kernel, by decide +kernel, by decide +kernel, fun heap heap' h => ?_⟩
  have hscalar := Param.scalar.inj (singleton_inj.mp h)
  revert hscalar
  decide +kernel

end OpBase.Cache.Key
