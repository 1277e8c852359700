import OpBase.Aicpu.CCArgs

/-!
# The way back of the output shapes

The kernel may find out the shapes of its outputs itself. `UpdateFWKOutputShape` then
writes them over the shapes the host had sent, in place, and the host reads them back
up to the end mark. The device assigns the dimensions and no mark, so what the host
reads behind them is whatever the entry had there: the rest of a longer shape, blanks,
or a mark that is still in the right place.

`sentDim` is what the host has put in a slot, from the shapes it encoded for an
output, the latest first.

> `output_shapes_return`: the host reads every shape the kernel computed, exactly if
> none of them has the value of the mark as a dimension and each is of rank 8 or finds
> the mark behind itself already. No write leaves the entry it is meant for.
-/

namespace OpBase.Aicpu

open List OpBase.Lib
open Option (bind_eq_some_iff some.inj)
open Adapter (dimAt dimAt_frame dimAt_storeDims dims)

/-! ## The device -/

def kMaxDimSize : Nat := 32

/-- The offsets of `shape` and of `original_shape` in `RuntimeTensorDesc`. -/
def descShape : Nat := 24

def descOriginalShape : Nat := descShape + 8 * (kMaxDimSize + 1)

section Update

variable (A : Adapter)

/-- The first loop of `UpdateFWKOutputShape`: entry by entry, in place. `none`: there is
no pointer for an output. -/
def writeOutputShapes : List Nat → List (List Int64) → Mem → Option Mem
  | _, [], m => some m
  | p :: ps, shape :: shapes, m => writeOutputShapes ps shapes (A.storeDims m p shape)
  | [], _ :: _, _ => none

/-- The second loop, over the outputs that have a tensor descriptor. -/
def writeTensorDescs (outputs : List (List Int64)) :
    List (Nat × Nat) → Mem → Mem × Except KernelStatus Unit
  | [], m => (m, .ok ())
  | (index, desc) :: rest, m =>
    match outputs[index]? with
    | none => (m, .error .paramInvalid)
    | some shape =>
      if kMaxDimSize < shape.length then (m, .error .paramInvalid)
      else
        let words := UInt64.ofNat shape.length :: shape.map Int64.toUInt64
        let m := m.storeWords (desc + descShape) words
        let m := m.storeWords (desc + descOriginalShape) words
        writeTensorDescs outputs rest m

/-- `UpdateFWKOutputShape`; `outputs` are the shapes of the outputs of the context. -/
def updateFWKOutputShape (m : Mem) (msg : ExtInfoMsg) (outputs : List (List Int64)) :
    Option (Mem × Except KernelStatus Unit) := do
  let m ← if msg.unknownShape then writeOutputShapes A msg.outputShapeAndType outputs m else some m
  some (writeTensorDescs outputs msg.unknownShapeOutputIndexAddr m)

/-! ## The host -/

/-- The loop over the outputs in `UpdateInputAndOutputShape`. -/
def updateOutputShapes : Nat → List (List Int64) → Mem → Option Mem
  | _, [], m => some m
  | p, shape :: shapes, m => do
    let m' ← A.updateShape m p shape
    updateOutputShapes (p + A.shapeAndType.size) shapes m'

/-- The entry of the outputs as the host sends it: built once, and encoded anew for the
shapes of every later call. -/
def encodeOutputs (outputs : List AclTensor) (rounds : List (List (List Int64))) : Option Str := do
  let s ← appendExtInfoShape A outputs .outputShape Str.empty
  let byte ← rounds.foldlM (fun m shapes => updateOutputShapes A A.extInfo.size shapes m) s.byte
  some { s with byte := byte }

/-- `CopyOutputShapeD2H`: the entries of the outputs, from where they lie on the device. -/
def copyOutputShapeD2H (m : Mem) (outputShapeDeviceAddr outputShapeLen : Nat) : Str where
  size := outputShapeLen
  byte i := m (outputShapeDeviceAddr + i)

/-- `GetShapeAndType` -/
def getShapeAndType (m : Mem) (p : Nat) : List Int64 × UInt32 :=
  (takeMarked kDimEndFlag (A.dimAt m p) kMaxShapeDims,
    UInt32.ofNat (A.shapeAndType.get m p .type))

/-- `GetOutputShapeAndType`, on what was copied. -/
def getOutputShapeAndType (outputShape : Str) (outputNum outputIndex : Nat) :
    Option (List Int64 × UInt32) :=
  if outputIndex < outputNum
  then some (getShapeAndType A outputShape.byte (A.shapeAndType.size * outputIndex))
  else none

end Update

/-- What the host has put in the slot `k` of an entry, with the shapes it encoded there,
the latest first. -/
def sentDim : List (List Int64) → Nat → Int64
  | [], _ => blankDim
  | shape :: earlier, k => (shape ++ [kDimEndFlag]).getD k (sentDim earlier k)

/-- The shapes encoded for output `i`, the latest first. -/
def sentShapes (outputs : List AclTensor) (rounds : List (List (List Int64))) (i : Nat) :
    List (List Int64) :=
  (rounds.filterMap fun shapes => shapes[i]?).reverse ++
    (outputs[i]?.map AclTensor.originalShape).toList

/-- The shape is read back from the entry it was written to. -/
def Returns (sent : List (List Int64)) (shape : List Int64) : Prop :=
  kDimEndFlag ∉ shape ∧ (shape.length = kMaxShapeDims ∨ sentDim sent shape.length = kDimEndFlag)

section Entry

variable {A : Adapter} {m : Mem} {p : Nat} {shape : List Int64} {outputs : List AclTensor}
  {rounds : List (List (List Int64))}

theorem takeMarked_storeDims (h : shape.length ≤ kMaxShapeDims) :
    takeMarked kDimEndFlag (A.dimAt (A.storeDims m p shape) p) kMaxShapeDims = shape ↔
      kDimEndFlag ∉ shape ∧
        (shape.length = kMaxShapeDims ∨ A.dimAt m p shape.length = kDimEndFlag) := by
  have hbehind : A.dimAt (A.storeDims m p shape) p shape.length = A.dimAt m p shape.length := by
    rw [dimAt_storeDims, getD_eq_default _ _ (Nat.le_refl _)]
  rw [← hbehind]
  apply takeMarked_eq_iff kDimEndFlag h
  intro i hi
  rw [dimAt_storeDims, getD_eq_getElem _ _ hi]

theorem dimStores_within (h : shape.length ≤ kMaxShapeDims) :
    ∀ st ∈ A.dimStores p shape, A.dims p ≤ st.1 ∧ st.1 + 8 ≤ A.dims p + 8 * kMaxShapeDims := by
  intro st hst
  have := Mem.wordStores_within st hst
  rw [length_map] at this
  omega

theorem storeDims_frame {x : Nat} (h : shape.length ≤ kMaxShapeDims)
    (hx : x < p ∨ p + A.shapeAndType.size ≤ x) :
    A.storeDims m p shape x = m x := by
  have h₁ := A.le_dims p
  have h₂ := A.dims_inside p
  exact Adapter.storeDims_of_apart (by omega)

theorem slot_succ (p i : Nat) :
    p + A.shapeAndType.size + A.shapeAndType.size * i = p + A.shapeAndType.size * (i + 1) := by
  rw [Nat.mul_succ]
  omega

theorem shapePtrs_succ (p n : Nat) :
    shapePtrs A p (n + 1) = p :: shapePtrs A (p + A.shapeAndType.size) n := by
  unfold shapePtrs
  rw [range_succ_eq_map, map_cons, map_map, Nat.mul_zero, Nat.add_zero]
  congr 1
  apply map_congr_left
  exact fun i _ => (slot_succ p i).symm

/-! ## All entries -/

/-- By induction on the shapes: each is written into its own entry. -/
theorem writeOutputShapes_spec : ∀ {shapes : List (List Int64)} {m : Mem} {p : Nat},
    (∀ shape ∈ shapes, shape.length ≤ kMaxShapeDims) →
    ∃ m', writeOutputShapes A (shapePtrs A p shapes.length) shapes m = some m' ∧
      (∀ x, x < p ∨ p + A.shapeAndType.size * shapes.length ≤ x → m' x = m x) ∧
      ∀ i shape, shapes[i]? = some shape → ∀ k, k < kMaxShapeDims →
        A.dimAt m' (p + A.shapeAndType.size * i) k
          = A.dimAt (A.storeDims m (p + A.shapeAndType.size * i) shape)
              (p + A.shapeAndType.size * i) k
  | [], m, _, _ => ⟨m, rfl, fun _ _ => rfl, fun i shape hi => by simp at hi⟩
  | shape :: shapes, m, p, h => by
    have hlen := h shape mem_cons_self
    have hshapes : ∀ s ∈ shapes, s.length ≤ kMaxShapeDims := fun s hs =>
      h s (mem_cons_of_mem _ hs)
    obtain ⟨m', hm', hframe, hdims⟩ := writeOutputShapes_spec (m := A.storeDims m p shape)
      (p := p + A.shapeAndType.size) hshapes
    refine ⟨m', ?_, ?_, ?_⟩
    · rw [length_cons, shapePtrs_succ]
      exact hm'
    · intro x hx
      rw [length_cons, Nat.mul_succ] at hx
      rw [hframe x (by omega), storeDims_frame hlen (by omega)]
    · intro i shape' hi k hk
      cases i with
      | zero =>
        obtain rfl : shape = shape' := some.inj hi
        -- the later shapes lie behind this one
        have := A.dims_inside p
        rw [Nat.mul_zero, Nat.add_zero]
        exact dimAt_frame hk fun x _ hx => hframe x (by omega)
      | succ i =>
        have haddr := slot_succ (A := A) p i
        have hold := hdims i shape' hi k hk
        rw [haddr] at hold
        have hle := A.le_dims (p + A.shapeAndType.size * (i + 1))
        have hslot : A.dimAt (A.storeDims m p shape) (p + A.shapeAndType.size * (i + 1)) k
            = A.dimAt m (p + A.shapeAndType.size * (i + 1)) k := by
          rw [← haddr] at hle ⊢
          exact dimAt_frame hk fun x hx _ => storeDims_frame hlen (by omega)
        rw [hold, dimAt_storeDims, dimAt_storeDims, hslot]

/-- By induction on the shapes: each entry reads as its shape with the end flag behind, then as
before. -/
theorem updateOutputShapes_spec : ∀ {shapes : List (List Int64)} {m m' : Mem} {p : Nat},
    updateOutputShapes A p shapes m = some m' →
    (∀ x, x < p → m' x = m x) ∧
    ∀ i k, k < kMaxShapeDims → A.dimAt m' (p + A.shapeAndType.size * i) k
      = (shapes[i]?.elim [] (· ++ [kDimEndFlag])).getD k
          (A.dimAt m (p + A.shapeAndType.size * i) k)
  | [], m, m', p, h => by
    rw [← some.inj h]
    exact ⟨fun _ _ => rfl, fun i k _ => rfl⟩
  | shape :: shapes, m, m', p, h => by
    obtain ⟨m₁, hm₁, hrest⟩ := bind_eq_some_iff.mp h
    obtain ⟨hframe, hdims⟩ := updateOutputShapes_spec hrest
    have hin := A.dims_inside p
    have hle := A.le_dims p
    refine ⟨?_, ?_⟩
    · intro x hx
      rw [hframe x (by omega), Adapter.updateShape_of_apart hm₁ (by omega)]
    · intro i k hk
      cases i with
      | zero =>
        -- the later shapes do not reach this slot
        have hkept : A.dimAt m' p k = A.dimAt m₁ p k :=
          dimAt_frame hk fun x _ hx => hframe x (by omega)
        rw [Nat.mul_zero, Nat.add_zero, hkept]
        exact Adapter.updateShape_dimAt hm₁ hk
      | succ i =>
        have haddr := slot_succ (A := A) p i
        have hnew := hdims i k hk
        rw [haddr] at hnew
        have hle := A.le_dims (p + A.shapeAndType.size * (i + 1))
        have hslot : A.dimAt m₁ (p + A.shapeAndType.size * (i + 1)) k
            = A.dimAt m (p + A.shapeAndType.size * (i + 1)) k := by
          rw [← haddr] at hle ⊢
          exact dimAt_frame hk fun x hx _ =>
            Adapter.updateShape_of_apart hm₁ (Or.inr (by omega))
        rw [hnew, hslot, getElem?_cons_succ]

/-! ## There and back -/

/-- By induction on the rounds: a dimension is the one last sent. -/
theorem rounds_spec {i k : Nat} (hk : k < kMaxShapeDims) :
    ∀ (rounds : List (List (List Int64))) {m m' : Mem} {sent : List (List Int64)},
      rounds.foldlM (fun m shapes => updateOutputShapes A p shapes m) m = some m' →
      A.dimAt m (p + A.shapeAndType.size * i) k = sentDim sent k →
      A.dimAt m' (p + A.shapeAndType.size * i) k
        = sentDim ((rounds.filterMap fun shapes => shapes[i]?).reverse ++ sent) k := by
  intro rounds
  induction rounds with
  | nil =>
    intro m m' sent h hsent
    rw [← some.inj h]
    exact hsent
  | cons shapes rounds ih =>
    intro m m' sent h hsent
    rw [foldlM_cons] at h
    obtain ⟨m₁, hm₁, hrest⟩ := bind_eq_some_iff.mp h
    have hround := (updateOutputShapes_spec hm₁).2 i k hk
    cases hi : shapes[i]? with
    | none =>
      rw [hi] at hround
      rw [filterMap_cons_none (f := fun shapes => shapes[i]?) hi]
      exact ih hrest (hround.trans hsent)
    | some shape =>
      -- the shape of this round goes in front of what was sent before
      rw [hi, hsent] at hround
      rw [filterMap_cons_some (f := fun shapes => shapes[i]?) hi, reverse_cons, append_assoc]
      exact ih hrest hround

theorem encodeOutputs_spec {s : Str} (h : encodeOutputs A outputs rounds = some s) :
    s.size = A.extInfo.size + A.shapeAndType.size * outputs.length ∧
    ∀ i, i < outputs.length → ∀ k, k < kMaxShapeDims →
      A.dimAt s.byte (A.extInfo.size + A.shapeAndType.size * i) k
        = sentDim (sentShapes outputs rounds i) k := by
  obtain ⟨s₀, hs₀, h⟩ := bind_eq_some_iff.mp h
  obtain ⟨byte, hbyte, h⟩ := bind_eq_some_iff.mp h
  obtain ⟨e, rfl, he⟩ := appendExtInfoShape_spec hs₀
  rw [← some.inj h]
  refine ⟨?_, ?_⟩
  · show 0 + e.size = _
    rw [Nat.zero_add, he.entry.size]
  · intro i hi k hk
    apply rounds_spec hk rounds hbyte
    have hfirst : A.dimAt (Str.empty.append e).byte (A.extInfo.size + A.shapeAndType.size * i) k
        = A.dimAt e.byte (A.extInfo.size + A.shapeAndType.size * i) k :=
      dimAt_frame hk fun x _ _ => by simp [Str.append, Str.empty]
    rw [hfirst, he.dims i outputs[i] (getElem?_eq_getElem hi) k hk, getElem?_eq_getElem hi]
    rfl

theorem dimAt_copy (m : Mem) (b len p k : Nat) :
    A.dimAt (copyOutputShapeD2H m b len).byte p k = A.dimAt m (b + p) k := by
  unfold dimAt copyOutputShapeD2H dims
  dsimp only
  rw [Mem.word_shift, Nat.add_assoc]

/-- The shapes the kernel computed are what the host reads, exactly where the mark stands
behind each of them; the device writes nowhere but to the dimensions of the entries. -/
theorem output_shapes_return {s : Str} {a : Nat} {msg : ExtInfoMsg} {actual : List (List Int64)}
    (hsent : encodeOutputs A outputs rounds = some s) (hm : m.Holds a s)
    (hunknown : msg.unknownShape = true)
    (hptrs : msg.outputShapeAndType = shapePtrs A (a + A.extInfo.size) outputs.length)
    (hdesc : msg.unknownShapeOutputIndexAddr = []) (hcount : actual.length = outputs.length)
    (hrank : ∀ shape ∈ actual, shape.length ≤ kMaxShapeDims) :
    ∃ m', updateFWKOutputShape A m msg actual = some (m', .ok ()) ∧
      ((∀ i, i < actual.length →
          (getOutputShapeAndType A (copyOutputShapeD2H m' (a + A.extInfo.size)
            (A.shapeAndType.size * outputs.length)) outputs.length i).map Prod.fst = actual[i]?) ↔
        ∀ (i : Nat) (shape : List Int64), actual[i]? = some shape →
          Returns (sentShapes outputs rounds i) shape) ∧
      ∀ (i p : Nat) (shape : List Int64),
        msg.outputShapeAndType[i]? = some p → actual[i]? = some shape →
        ∀ st ∈ A.dimStores p shape, A.dims p ≤ st.1 ∧ st.1 + 8 ≤ A.dims p + 8 * kMaxShapeDims := by
  obtain ⟨hsize, hdims⟩ := encodeOutputs_spec hsent
  obtain ⟨m', hm', -, hwritten⟩ := writeOutputShapes_spec (A := A) (m := m)
    (p := a + A.extInfo.size) hrank
  have hone : ∀ i (hi : i < actual.length),
      ((getOutputShapeAndType A (copyOutputShapeD2H m' (a + A.extInfo.size)
        (A.shapeAndType.size * outputs.length)) outputs.length i).map Prod.fst = some actual[i] ↔
      Returns (sentShapes outputs rounds i) actual[i]) := by
    intro i hi
    have hlen := hrank _ (getElem_mem hi)
    have hread : takeMarked kDimEndFlag (A.dimAt (copyOutputShapeD2H m' (a + A.extInfo.size)
        (A.shapeAndType.size * outputs.length)).byte (A.shapeAndType.size * i)) kMaxShapeDims
        = takeMarked kDimEndFlag (A.dimAt (A.storeDims m (a + A.extInfo.size
          + A.shapeAndType.size * i) actual[i]) (a + A.extInfo.size + A.shapeAndType.size * i))
          kMaxShapeDims := by
      apply takeMarked_congr
      intro k hk
      rw [dimAt_copy, hwritten i _ (getElem?_eq_getElem hi) k hk]
    unfold getOutputShapeAndType getShapeAndType
    rw [if_pos (hcount ▸ hi), Option.map_some, Option.some.injEq]
    dsimp only
    rw [hread, takeMarked_storeDims hlen]
    unfold Returns
    by_cases hfull : actual[i].length = kMaxShapeDims
    · simp only [hfull, true_or]
    · -- the slot behind the shape is as the host sent it
      have hk : actual[i].length < kMaxShapeDims := lt_of_le_of_ne hlen hfull
      have hslot : A.dimAt m (a + A.extInfo.size + A.shapeAndType.size * i) actual[i].length
          = sentDim (sentShapes outputs rounds i) actual[i].length := by
        rw [← hdims i (hcount ▸ hi) _ hk]
        have hin := A.dims_inside (A.extInfo.size + A.shapeAndType.size * i)
        have hroom : A.shapeAndType.size * i + A.shapeAndType.size
            ≤ A.shapeAndType.size * outputs.length := by
          rw [← Nat.mul_succ]
          exact Nat.mul_le_mul_left _ (hcount ▸ hi)
        unfold dims at hin
        unfold dimAt dims
        rw [← hm.word (by omega), Nat.add_assoc, Nat.add_assoc, ← Nat.add_assoc A.extInfo.size]
      rw [hslot]
  refine ⟨m', ?_, ?_, ?_⟩
  · unfold updateFWKOutputShape
    rw [if_pos hunknown, hptrs, hdesc, ← hcount, hm']
    rfl
  · constructor
    · intro h i shape hi
      obtain ⟨hi', rfl⟩ := List.getElem?_eq_some_iff.mp hi
      exact (hone i hi').mp ((h i hi').trans (getElem?_eq_getElem hi'))
    · intro h i hi
      rw [getElem?_eq_getElem hi]
      exact (hone i hi).mpr (h i _ (getElem?_eq_getElem hi))
  · intro i p shape _ hi
    exact dimStores_within (hrank _ (mem_of_getElem? hi))

end Entry

/-- A kernel that keeps the rank, and one that finds the mark of an earlier call. -/
theorem output_shapes_return_kept :
    ∃ s m', encodeOutputs packedAdapter [⟨0, [2, 3]⟩, ⟨0, [2, 3, 4]⟩] [[[2, 3], [7]]] = some s ∧
      updateFWKOutputShape packedAdapter s.byte
        { unknownShape := true, outputShapeAndType := shapePtrs packedAdapter 8 2 }
        [[4, 5], [5, 6, 7]] = some (m', .ok ()) ∧
      (getOutputShapeAndType packedAdapter (copyOutputShapeD2H m' 8 136) 2 1).map Prod.fst
        = some [5, 6, 7] := by
  obtain ⟨s, hs⟩ : ∃ s, encodeOutputs packedAdapter [⟨0, [2, 3]⟩, ⟨0, [2, 3, 4]⟩]
      [[[2, 3], [7]]] = some s := ⟨_, rfl⟩
  let msg : ExtInfoMsg :=
    { unknownShape := true, outputShapeAndType := shapePtrs packedAdapter 8 2 }
  have hptrs : msg.outputShapeAndType
      = shapePtrs packedAdapter (0 + packedAdapter.extInfo.size) 2 := rfl
  have hrank : ∀ shape ∈ ([[4, 5], [5, 6, 7]] : List (List Int64)),
      shape.length ≤ kMaxShapeDims := by decide
  obtain ⟨m', hm', hreturn, -⟩ :=
    output_shapes_return hs (fun i _ => by rw [Nat.zero_add]) rfl hptrs rfl rfl hrank
  refine ⟨s, m', hs, hm', hreturn.mpr ?_ 1 (by decide)⟩
  intro i shape hi
  match i, hi with
  | 0, hi =>
    obtain rfl := some.inj hi
    unfold Returns
    decide
  | 1, hi =>
    obtain rfl := some.inj hi
    unfold Returns
    decide

/-- A lower rank is read with the rest of the longer shape behind it, a higher one with
the blanks. -/
theorem other_rank_lost :
    (∃ s m', encodeOutputs packedAdapter [⟨0, [2, 3]⟩] [] = some s ∧
      updateFWKOutputShape packedAdapter s.byte
        { unknownShape := true, outputShapeAndType := shapePtrs packedAdapter 8 1 } [[5]]
        = some (m', .ok ()) ∧
      (getOutputShapeAndType packedAdapter (copyOutputShapeD2H m' 8 68) 1 0).map Prod.fst
        = some [5, 3]) ∧
    ∃ s m', encodeOutputs packedAdapter [⟨0, [2, 3]⟩] [] = some s ∧
      updateFWKOutputShape packedAdapter s.byte
        { unknownShape := true, outputShapeAndType := shapePtrs packedAdapter 8 1 } [[5, 6, 7]]
        = some (m', .ok ()) ∧
      (getOutputShapeAndType packedAdapter (copyOutputShapeD2H m' 8 68) 1 0).map Prod.fst
        = some [5, 6, 7, blankDim, blankDim, blankDim, blankDim, blankDim] :=
  ⟨⟨_, _, rfl, rfl, by decide +kernel⟩, ⟨_, _, rfl, rfl, by decide +kernel⟩⟩

end OpBase.Aicpu
