import OpBase.Aicpu.ArgsBuffer
import OpBase.Aicpu.ExtInfoTold

/-!
# An update does what building anew does

`HasExtInfo` is what carries the proof from call to call: an update of the shapes turns it
into that of the new shapes, and an update of the kernel id into that of the new id. Whatever
stands behind the end mark of an older and longer shape is not part of it.

> `update_eq_rebuild`: after any updates the device reads what it would read of a string that
> is built of the last shapes and the last kernel id, and nothing beside the bodies of the
> three entries has changed.
-/

namespace OpBase.Aicpu

open List OpBase.Lib

variable {A : Adapter} {m m' : Mem} {base nameLen n k total : Nat}

/-! ## New shapes -/

def AclTensor.reshaped (t new : AclTensor) : AclTensor :=
  { t with originalShape := new.originalShape }

theorem getElem?_replace {α : Type} (pre rest : List α) (t t' : α) {i : Nat} (h : i ≠ pre.length) :
    (pre ++ t' :: rest)[i]? = (pre ++ t :: rest)[i]? := by
  rw [getElem?_append, getElem?_append]
  split
  · rfl
  next hle =>
    obtain ⟨j, hj⟩ : ∃ j, i - pre.length = j + 1 := ⟨i - pre.length - 1, by omega⟩
    rw [hj, getElem?_cons_succ, getElem?_cons_succ]

theorem shapes_apart (size : Nat) {i j : Nat} (h : i ≠ j) :
    size * i + size ≤ size * j ∨ size * j + size ≤ size * i := by
  rcases Nat.lt_or_gt_of_ne h with hlt | hlt
  · left
    rw [← Nat.mul_succ]
    exact Nat.mul_le_mul_left _ hlt
  · right
    rw [← Nat.mul_succ]
    exact Nat.mul_le_mul_left _ hlt

/-- Updating one shape leaves the others. -/
theorem HasShapes.update {p : Nat} {pre rest : List AclTensor} {t new : AclTensor}
    (h : HasShapes A m p (pre ++ t :: rest))
    (hm : A.updateShape m (p + A.shapeAndType.size * pre.length) new.originalShape = some m') :
    HasShapes A m' p (pre ++ t.reshaped new :: rest) := by
  have hin := A.dims_inside (p + A.shapeAndType.size * pre.length)
  have hle := A.le_dims (p + A.shapeAndType.size * pre.length)
  intro i t' hi
  by_cases hpre : i = pre.length
  · subst hpre
    obtain rfl : t.reshaped new = t' := by simpa using hi
    obtain ⟨htype, -⟩ := h pre.length t (by simp)
    have hapart : A.shapeAndType.off .type + 4 ≤ A.shapeAndType.off .dims ∨
        A.shapeAndType.off .dims + 8 * kMaxShapeDims ≤ A.shapeAndType.off .type :=
      A.shapeAndType.apart .type .dims ShapeField.noConfusion
    refine ⟨?_, fun k hk hrank => ?_⟩
    · -- the type lies beside the dimensions
      refine Eq.trans (A.shapeAndType.get_frame fun x hx hx' => ?_) htype
      change x < _ + 4 at hx'
      exact Adapter.updateShape_of_apart hm (by unfold Adapter.dims; omega)
    · rw [Adapter.updateShape_dimAt hm hk]
      exact getD_mark _ _ hrank
  · rw [getElem?_replace pre rest t _ hpre] at hi
    have happart := shapes_apart A.shapeAndType.size hpre
    have hone : HasShapes A m (p + A.shapeAndType.size * i) [t'] := by
      intro j t'' hj
      obtain ⟨rfl, rfl⟩ : j = 0 ∧ t' = t'' := by
        cases j with
        | zero => exact ⟨rfl, Option.some.inj hj⟩
        | succ j => nomatch hj
      exact h i t' hi
    have hkept : HasShapes A m' (p + A.shapeAndType.size * i) [t'] := by
      refine hone.frame fun x hx hx' => ?_
      rw [length_singleton, Nat.mul_one] at hx'
      exact Adapter.updateShape_of_apart hm (by omega)
    exact hkept 0 t' rfl

theorem shapePtrs_getElem? {p num i : Nat} (h : i < num) :
    (shapePtrs A p num)[i]? = some (p + A.shapeAndType.size * i) := by
  unfold shapePtrs
  rw [getElem?_map, getElem?_range h]
  rfl

/-- The updates of the tensors behind `pre`. -/
theorem updateShapes_spec {p num : Nat} (hnum : num < 2 ^ 32) :
    ∀ {news rest pre : List AclTensor} {m : Mem}, HasShapes A m p (pre ++ rest) →
      rest.length = news.length → pre.length + rest.length = num →
      (∀ t ∈ news, t.originalShape.length ≤ 8) →
      ∃ m', updateShapes A num (shapePtrs A p num) m pre.length news = (m', true) ∧
        HasShapes A m' p (pre ++ List.zipWith AclTensor.reshaped rest news) ∧
        ∀ x, x < p ∨ p + A.shapeAndType.size * num ≤ x → m' x = m x
  | [], rest, pre, m, h, hlen, _, _ => by
    obtain rfl : rest = [] := length_eq_zero_iff.mp hlen
    exact ⟨m, rfl, h, fun _ _ => rfl⟩
  | new :: news, [], pre, m, _, hlen, _, _ => by simp at hlen
  | new :: news, t :: rest, pre, m, h, hlen, hsum, hrank => by
    rw [length_cons] at hsum
    obtain ⟨m₁, hm₁⟩ := Adapter.updateShape_isSome (A := A) (m := m)
      (p := p + A.shapeAndType.size * pre.length) (hrank new mem_cons_self)
    have hone := h.update hm₁
    rw [append_cons] at hone
    have hlen' : rest.length = news.length := Nat.succ.inj hlen
    have hsum' : (pre ++ [t.reshaped new]).length + rest.length = num := by
      rw [length_append, length_singleton]
      omega
    obtain ⟨m₂, hrun, hhas, hframe⟩ := updateShapes_spec hnum hone hlen' hsum'
      fun t ht => hrank t (mem_cons_of_mem _ ht)
    rw [length_append, length_singleton] at hrun
    refine ⟨m₂, ?_, ?_, fun x hx => ?_⟩
    · have hat : updateShapeAt A num (shapePtrs A p num) m (pre.length % 2 ^ 32) new.originalShape
          = some m₁ := by
        rw [Nat.mod_eq_of_lt (by omega)]
        unfold updateShapeAt
        rw [if_neg (by omega), shapePtrs_getElem? (by omega)]
        exact hm₁
      rw [updateShapes, hat]
      exact hrun
    · rwa [← append_cons] at hhas
    · have hroom : A.shapeAndType.size * pre.length + A.shapeAndType.size
          ≤ A.shapeAndType.size * num := by
        rw [← Nat.mul_succ]
        exact Nat.mul_le_mul_left _ (by omega)
      have hin := A.dims_inside (p + A.shapeAndType.size * pre.length)
      have hle := A.le_dims (p + A.shapeAndType.size * pre.length)
      rw [hframe x hx]
      exact Adapter.updateShape_of_apart hm₁ (by omega)

/-! ## What the handler notes -/

/-- What a handler has noted of the extend info at `base`, of `n` inputs and `k` outputs. -/
structure Noted (A : Adapter) (nameLen base n k total : Nat) (h : ParsedExtInfo) : Prop where
  inputNum : h.inputNum = n
  outputNum : h.outputNum = k
  extInfo : h.extInfo = base
  extInfoLen : h.extInfoLen = total
  inputPtrs : h.inputShapeAndType = shapePtrs A (inputAt A base nameLen + A.extInfo.size) n
  outputPtrs : h.outputShapeAndType = shapePtrs A (outputAt A base nameLen n + A.extInfo.size) k

section Parse

variable {h : ParsedExtInfo × Nat} {len a : Nat}

theorem parseEntry_other (type : ExtInfoType) (hin : type ≠ .inputShape)
    (hout : type ≠ .outputShape) : parseEntry A h (A.code type) len a
      = .ok (h.1, (h.2 + A.extInfo.size + len) % 2 ^ 64) := by
  unfold parseEntry
  rw [A.typeOf?_code]
  cases type <;> first | rfl | contradiction

theorem parseExtShape_built (infoMsg : Nat) :
    parseExtShape A n (A.shapeAndType.size * n) infoMsg = some (shapePtrs A infoMsg n) := by
  unfold parseExtShape
  rw [if_neg (by rw [Nat.mul_comm]; exact not_not_intro rfl)]

theorem parseEntry_inputShape (hnum : h.1.inputNum = n) :
    parseEntry A h (A.code .inputShape) (A.shapeAndType.size * n) a
      = .ok ({ h.1 with inputShapeAndType :=
          h.1.inputShapeAndType ++ shapePtrs A (a + A.extInfo.size) n },
        (h.2 + A.extInfo.size + A.shapeAndType.size * n) % 2 ^ 64) := by
  unfold parseEntry
  rw [A.typeOf?_code, hnum]
  dsimp only
  rw [parseExtShape_built]

theorem parseEntry_outputShape (hnum : h.1.outputNum = k) :
    parseEntry A h (A.code .outputShape) (A.shapeAndType.size * k) a
      = .ok ({ h.1 with
          outputShapeAndType := h.1.outputShapeAndType ++ shapePtrs A (a + A.extInfo.size) k
          outputShapeOffset := (h.2 + A.extInfo.size) % 2 ^ 64
          outputShapeLen := A.shapeAndType.size * k },
        (h.2 + A.extInfo.size + A.shapeAndType.size * k) % 2 ^ 64) := by
  unfold parseEntry
  rw [A.typeOf?_code, hnum]
  dsimp only
  rw [parseExtShape_built]

/-- The loop of `Parse`. -/
theorem visit_parseEntry {p : ParsedExtInfo} {session : Bool} (hext : p.extInfo = base)
    (hin : p.inputNum = n) (hout : p.outputNum = k) (hinNil : p.inputShapeAndType = [])
    (houtNil : p.outputShapeAndType = [])
    (hsize : entriesSize A.extInfo (extEntries A nameLen n k session) < 2 ^ 64) :
    ∃ p', visit A.extInfo (parseEntry A) base (extEntries A nameLen n k session) (p, 0)
        = .ok (p', entriesSize A.extInfo (extEntries A nameLen n k session)) ∧
      Noted A nameLen base n k p.extInfoLen p' := by
  -- nothing was noted before
  have hinput : ∀ ptrs, p.inputShapeAndType ++ ptrs = ptrs := fun ptrs => by
    rw [hinNil, nil_append]
  have houtput : ∀ ptrs, p.outputShapeAndType ++ ptrs = ptrs := fun ptrs => by
    rw [houtNil, nil_append]
  unfold extEntries at *
  simp only [cons_append, nil_append, entriesSize] at *
  rw [visit_ok (parseEntry_other .opName (by decide) (by decide)),
    visit_ok (parseEntry_other .shapeType (by decide) (by decide)),
    visit_ok (parseEntry_other .bitmap (by decide) (by decide)),
    visit_ok (parseEntry_inputShape hin), visit_ok (parseEntry_outputShape hout), hinput]
  dsimp only
  rw [houtput]
  cases session with
  | false =>
    refine ⟨_, congrArg Except.ok (Prod.ext rfl ?_), hin, hout, hext, rfl, rfl, rfl⟩
    simp only [Bool.false_eq_true, if_false, entriesSize] at *
    omega
  | true =>
    rw [if_pos rfl, visit_ok (parseEntry_other .sessionInfo (by decide) (by decide))]
    refine ⟨_, congrArg Except.ok (Prod.ext rfl ?_), hin, hout, hext, rfl, rfl, rfl⟩
    simp only [if_true, entriesSize] at *
    omega

end Parse

/-- `Parse` takes what was built, as long as the copy is not refused. -/
theorem parse_noted {kind : ExtKind} {h : AicpuExtInfoHandler} {kernelId : UInt64}
    {inputs outputs : List AclTensor} {s : Str} {p₀ : ParsedExtInfo} (m : Mem)
    (hgen : genExtBuffer A kind h kernelId inputs outputs = some s) (hsize : s.size ≤ memMaxLen)
    (hbase : base ≠ 0) (hin : p₀.inputNum = inputs.length) (hout : p₀.outputNum = outputs.length) :
    ∃ p, parse A p₀ m s base = some (p, m.place base s) ∧
      Noted A h.nodeName.length base inputs.length outputs.length s.size p := by
  have htotal := genExtBuffer_size hgen
  unfold memMaxLen at hsize
  have hentries := (genExtBuffer_has hgen (m.holds_place base s) (by omega)).entries
  rw [length_told_inputs, length_told_outputs, isSome_told_kernelId] at hentries
  have hpos : 0 < s.size := by
    have := TlvHead.size_pos A.extInfo
    rw [htotal, extEntries]
    simp only [cons_append, entriesSize]
    omega
  have hcopy : memcpyS m base s.size s = (m.place base s, true) :=
    ArgsHandler.memcpyS_of_le hpos (by unfold memMaxLen; omega) le_rfl
  obtain ⟨p, hvisit, hnoted⟩ : ∃ p, visit A.extInfo (parseEntry A) base
      (extEntries A h.nodeName.length inputs.length outputs.length kind.hasSession)
      ({ p₀ with
        extInfoLen := s.size
        extInfo := base
        inputShapeAndType := []
        outputShapeAndType := [] }, 0) = .ok (p, _) ∧
      Noted A h.nodeName.length base inputs.length outputs.length s.size p :=
    visit_parseEntry rfl hin hout rfl rfl (by omega)
  refine ⟨p, ?_, hnoted⟩
  unfold parse
  rw [if_neg (by omega), hcopy]
  dsimp only
  rw [if_neg (by decide), walk_visits hentries htotal.symm (by omega), hvisit]
  dsimp only
  rw [if_pos (htotal.symm.trans hnoted.extInfoLen.symm)]

/-! ## What the calls leave alone -/

/-- The types of the entries that are written. -/
def IsUpdated (A : Adapter) (infoType : Nat) : Prop :=
  infoType = A.code .inputShape ∨ infoType = A.code .outputShape ∨ infoType = A.code .sessionInfo

theorem isUpdated_code (type : ExtInfoType) : IsUpdated A (A.code type) ↔
    type = .inputShape ∨ type = .outputShape ∨ type = .sessionInfo := by
  unfold IsUpdated
  rw [A.code_injective.eq_iff, A.code_injective.eq_iff, A.code_injective.eq_iff]

theorem inBodies_iff {session : Bool} {x : Nat} :
    InBodies A.extInfo (IsUpdated A) base (extEntries A nameLen n k session) x ↔
      (inputAt A base nameLen + A.extInfo.size ≤ x ∧ x < outputAt A base nameLen n) ∨
      (outputAt A base nameLen n + A.extInfo.size ≤ x ∧ x < sessionAt A base nameLen n k) ∨
      (session = true ∧ sessionAt A base nameLen n k + A.extInfo.size ≤ x ∧
        x < sessionAt A base nameLen n k + A.extInfo.size + A.sessionInfo.size) := by
  unfold extEntries
  simp only [cons_append, nil_append, InBodies, isUpdated_code, reduceCtorEq, or_self,
    false_and, false_or, true_or, or_true, true_and]
  cases session with
  | false => simp only [Bool.false_eq_true, if_false, InBodies, false_and]; rfl
  | true =>
    simp only [if_true, InBodies, isUpdated_code, or_true, true_and, or_false]
    rfl

/-- Only these have changed. -/
def Untouched (A : Adapter) (base nameLen n k : Nat) (session : Bool) (m m' : Mem) : Prop :=
  ∀ x, ¬ InBodies A.extInfo (IsUpdated A) base (extEntries A nameLen n k session) x → m' x = m x

theorem Untouched.trans {session : Bool} {m₁ m₂ m₃ : Mem}
    (h : Untouched A base nameLen n k session m₁ m₂)
    (h' : Untouched A base nameLen n k session m₂ m₃) :
    Untouched A base nameLen n k session m₁ m₃ :=
  fun x hx => (h' x hx).trans (h x hx)

theorem HasExtInfo.frame {t : Told} (h : HasExtInfo A nameLen m base t)
    (hkeep : Untouched A base nameLen t.inputs.length t.outputs.length t.kernelId.isSome m m') :
    Entries A.extInfo m' base
      (extEntries A nameLen t.inputs.length t.outputs.length t.kernelId.isSome) ∧
    m'.load (bitMapAt A base nameLen + A.extInfo.size) 8 = 0 := by
  refine ⟨h.entries.frame fun x _ hx => hkeep x hx, ?_⟩
  rw [← h.bitMap]
  refine Mem.load_congr fun i hi => hkeep _ fun hin => ?_
  rw [inBodies_iff] at hin
  unfold sessionAt outputAt inputAt at hin
  omega

/-! ## An update of the kernel id -/

theorem findSession_other (type : ExtInfoType) (htype : type ≠ .sessionInfo) {len a : Nat} :
    findSession A () (A.code type) len a = .ok () := by
  unfold findSession
  rw [A.typeOf?_code]
  cases type <;> first | rfl | contradiction

theorem findSession_session {a : Nat} : findSession A () (A.code .sessionInfo) A.sessionInfo.size a
      = .error (some (a + A.extInfo.size)) := by
  unfold findSession
  rw [A.typeOf?_code]
  dsimp only
  rw [if_pos rfl]

theorem visit_findSession (session : Bool) :
    visit A.extInfo (findSession A) base (extEntries A nameLen n k session) () =
      if session then .error (some (sessionAt A base nameLen n k + A.extInfo.size))
      else .ok () := by
  unfold extEntries
  simp only [cons_append, nil_append]
  rw [visit_ok (findSession_other .opName nofun), visit_ok (findSession_other .shapeType nofun),
    visit_ok (findSession_other .bitmap nofun), visit_ok (findSession_other .inputShape nofun),
    visit_ok (findSession_other .outputShape nofun)]
  cases session with
  | false => rfl
  | true =>
    rw [if_pos rfl, if_pos rfl, visit, findSession_session]
    rfl

theorem updateKernelId_spec {p : ParsedExtInfo} {session : Bool}
    (hp : Noted A nameLen base n k total p)
    (hentries : Entries A.extInfo m base (extEntries A nameLen n k session))
    (htotal : entriesSize A.extInfo (extEntries A nameLen n k session) = total)
    (hlt : total < 2 ^ 64) (gKernelId : UInt64) :
    (updateKernelId A p m gKernelId).1 = if session then
        A.sessionInfo.set m (sessionAt A base nameLen n k + A.extInfo.size) .kernelId
          gKernelId.toNat
      else m := by
  unfold updateKernelId
  rw [hp.extInfo, hp.extInfoLen, walk_visits hentries htotal hlt, visit_findSession]
  cases session <;> rfl

/-- Setting the id changes the body of the session only. -/
theorem HasExtInfo.setKernelId {inputs outputs : List AclTensor} {kernelId : UInt64}
    (h : HasExtInfo A nameLen m base ⟨inputs, outputs, some kernelId⟩) (gKernelId : UInt64)
    (hm : m' = A.sessionInfo.set m
      (sessionAt A base nameLen inputs.length outputs.length + A.extInfo.size) .kernelId
      gKernelId.toNat) :
    HasExtInfo A nameLen m' base ⟨inputs, outputs, some gKernelId⟩ ∧
      Untouched A base nameLen inputs.length outputs.length true m m' := by
  -- nothing but the number itself is written
  have hkeep : ∀ x, x < sessionAt A base nameLen inputs.length outputs.length + A.extInfo.size ∨
      sessionAt A base nameLen inputs.length outputs.length + A.extInfo.size
        + A.sessionInfo.size ≤ x → m' x = m x := by
    intro x hx
    rw [hm, A.sessionInfo.set_of_apart m .kernelId gKernelId.toNat hx]
  have huntouched : Untouched A base nameLen inputs.length outputs.length true m m' := by
    intro x hx
    rw [inBodies_iff] at hx
    exact hkeep x (by simp only [true_and] at hx; omega)
  obtain ⟨hentries, hbitMap⟩ := h.frame huntouched
  refine ⟨⟨hentries, hbitMap, ?_, ?_, ?_⟩, huntouched⟩
  · refine h.inputs.frame fun x hx hx' => hkeep x ?_
    dsimp only at hx'
    unfold sessionAt outputAt
    omega
  · refine h.outputs.frame fun x hx hx' => hkeep x ?_
    dsimp only at hx'
    unfold sessionAt
    omega
  · intro kernelId' hid
    rw [← Option.some.inj hid, hm]
    exact A.sessionInfo.get_set gKernelId.toNat_lt

/-- A call: new shapes before a launch, or a new kernel id. -/
inductive ExtCall
  | shapes (inputs outputs : List AclTensor) (env : CopyEnv)
  | kernelId (gKernelId : UInt64)

/-- As many tensors as there were, of rank at most 8. -/
def ExtCall.Valid (n k : Nat) : ExtCall → Prop
  | .shapes inputs outputs _ => inputs.length = n ∧ outputs.length = k ∧
      (∀ t ∈ inputs, t.originalShape.length ≤ 8) ∧ ∀ t ∈ outputs, t.originalShape.length ≤ 8
  | .kernelId _ => True

/-- What a call makes of the handler and the memory. -/
def ExtCall.run (A : Adapter) (s : ParsedExtInfo × Mem) : ExtCall → ParsedExtInfo × Mem
  | .shapes inputs outputs env =>
    let (h, m, _, _) := updateInputAndOutputShape A s.1 s.2 inputs outputs env
    (h, m)
  | .kernelId gKernelId => (s.1, (updateKernelId A s.1 s.2 gKernelId).1)

/-- What the extend info tells after it. -/
def Told.after (t : Told) : ExtCall → Told
  | .shapes inputs outputs _ =>
    { t with
      inputs := List.zipWith AclTensor.reshaped t.inputs inputs
      outputs := List.zipWith AclTensor.reshaped t.outputs outputs }
  | .kernelId gKernelId => { t with kernelId := t.kernelId.map fun _ => gKernelId }

theorem Told.length_after {t : Told} {c : ExtCall} (hc : c.Valid t.inputs.length t.outputs.length) :
    (t.after c).inputs.length = t.inputs.length ∧ (t.after c).outputs.length = t.outputs.length ∧
      (t.after c).kernelId.isSome = t.kernelId.isSome := by
  cases c with
  | shapes inputs outputs env =>
    obtain ⟨hin, hout, -⟩ := hc
    simp only [Told.after, length_zipWith, hin, hout, Nat.min_self, and_self]
  | kernelId gKernelId => exact ⟨rfl, rfl, Option.isSome_map⟩

/-- What carries a run: the pointers are right, and the memory has what was told last. -/
structure Holding (A : Adapter) (nameLen base total : Nat) (t : Told) (s : ParsedExtInfo × Mem) :
    Prop where
  noted : Noted A nameLen base t.inputs.length t.outputs.length total s.1
  has : HasExtInfo A nameLen s.2 base t
  size : entriesSize A.extInfo
    (extEntries A nameLen t.inputs.length t.outputs.length t.kernelId.isSome) = total
  small : total < 2 ^ 32

variable {t : Told} {s : ParsedExtInfo × Mem}

theorem Holding.kernelId (hs : Holding A nameLen base total t s) (gKernelId : UInt64) :
    Holding A nameLen base total (t.after (.kernelId gKernelId))
      ((ExtCall.kernelId gKernelId).run A s) ∧
    Untouched A base nameLen t.inputs.length t.outputs.length t.kernelId.isSome s.2
      ((ExtCall.kernelId gKernelId).run A s).2 := by
  have hsmall := hs.small
  have hspec := updateKernelId_spec hs.noted hs.has.entries hs.size (by omega) gKernelId
  obtain ⟨inputs, outputs, kernelId⟩ := t
  cases kernelId with
  | none =>
    have hrun : (ExtCall.kernelId gKernelId).run A s = s := Prod.ext rfl hspec
    rw [hrun]
    exact ⟨hs, fun x _ => rfl⟩
  | some kernelId =>
    obtain ⟨hhas, hkeep⟩ := hs.has.setKernelId gKernelId hspec
    exact ⟨⟨hs.noted, hhas, hs.size, hs.small⟩, hkeep⟩

theorem Noted.copyH2D {p : ParsedExtInfo} (hp : Noted A nameLen base n k total p) (env : CopyEnv)
    (deviceCacheOffset : UInt64) :
    Noted A nameLen base n k total (copyH2D p env deviceCacheOffset).1 := by
  unfold Aicpu.copyH2D
  split
  · exact hp
  · split
    · exact hp
    · exact ⟨hp.inputNum, hp.outputNum, hp.extInfo, hp.extInfoLen, hp.inputPtrs, hp.outputPtrs⟩

/-- Updating the shapes changes the bodies of the shapes only. -/
theorem HasExtInfo.setShapes {newInputs newOutputs : List AclTensor}
    (h : HasExtInfo A nameLen m base t) (hin : newInputs.length = t.inputs.length)
    (hout : newOutputs.length = t.outputs.length)
    (hinRank : ∀ t ∈ newInputs, t.originalShape.length ≤ 8)
    (houtRank : ∀ t ∈ newOutputs, t.originalShape.length ≤ 8)
    (hinLt : t.inputs.length < 2 ^ 32) (houtLt : t.outputs.length < 2 ^ 32) (env : CopyEnv) :
    ∃ m₁ m₂,
      updateShapes A t.inputs.length
        (shapePtrs A (inputAt A base nameLen + A.extInfo.size) t.inputs.length) m 0 newInputs
          = (m₁, true) ∧
      updateShapes A t.outputs.length
        (shapePtrs A (outputAt A base nameLen t.inputs.length + A.extInfo.size) t.outputs.length)
          m₁ 0 newOutputs = (m₂, true) ∧
      HasExtInfo A nameLen m₂ base (t.after (.shapes newInputs newOutputs env)) ∧
      Untouched A base nameLen t.inputs.length t.outputs.length t.kernelId.isSome m m₂ := by
  obtain ⟨m₁, hrun₁, hhas₁, hframe₁⟩ := updateShapes_spec hinLt
    (nil_append t.inputs ▸ h.inputs) hin.symm (Nat.zero_add _) hinRank
  have houtputs : HasShapes A m₁
      (outputAt A base nameLen t.inputs.length + A.extInfo.size) ([] ++ t.outputs) := by
    refine h.outputs.frame fun x hx _ => hframe₁ x (Or.inr ?_)
    unfold outputAt at hx
    omega
  obtain ⟨m₂, hrun₂, hhas₂, hframe₂⟩ :=
    updateShapes_spec houtLt houtputs hout.symm (Nat.zero_add _) houtRank
  have huntouched :
      Untouched A base nameLen t.inputs.length t.outputs.length t.kernelId.isSome m m₂ := by
    intro x hx
    rw [inBodies_iff] at hx
    rw [hframe₂ x (by unfold sessionAt at hx; omega), hframe₁ x (by unfold outputAt at hx; omega)]
  obtain ⟨hentries, hbitMap⟩ := h.frame huntouched
  have hvalid : (ExtCall.shapes newInputs newOutputs env).Valid t.inputs.length t.outputs.length :=
    ⟨hin, hout, hinRank, houtRank⟩
  obtain ⟨hinLen, houtLen, -⟩ := Told.length_after hvalid
  refine ⟨m₁, m₂, hrun₁, hrun₂, ⟨?_, hbitMap, ?_, ?_, ?_⟩, huntouched⟩
  · rwa [hinLen, houtLen]
  · -- the outputs are behind the inputs
    refine HasShapes.frame hhas₁ fun x _ hx => hframe₂ x (Or.inl ?_)
    change _ < _ + _ * (t.after (.shapes newInputs newOutputs env)).inputs.length at hx
    rw [hinLen] at hx
    unfold outputAt
    omega
  · rwa [hinLen]
  · intro id hid
    rw [hinLen, houtLen, ← h.session id hid]
    refine A.sessionInfo.get_frame fun x hx _ => ?_
    unfold sessionAt at hx
    rw [hframe₂ x (by omega), hframe₁ x (by unfold outputAt at hx; omega)]

theorem tensors_le_size (A : Adapter) (nameLen n k : Nat) (session : Bool) :
    n + k ≤ entriesSize A.extInfo (extEntries A nameLen n k session) := by
  have hpos : 0 < A.shapeAndType.size := by
    have := A.shapeAndType.inside .type
    change _ + 4 ≤ _ at this
    omega
  have hn := Nat.le_mul_of_pos_left n hpos
  have hk := Nat.le_mul_of_pos_left k hpos
  unfold extEntries
  simp only [cons_append, entriesSize]
  omega

/-- Every call keeps what the extend info says in step with what it was told. -/
theorem Holding.run (hs : Holding A nameLen base total t s) {c : ExtCall}
    (hc : c.Valid t.inputs.length t.outputs.length) :
    Holding A nameLen base total (t.after c) (c.run A s) ∧
    Untouched A base nameLen t.inputs.length t.outputs.length t.kernelId.isSome s.2
      (c.run A s).2 := by
  cases c with
  | kernelId gKernelId => exact hs.kernelId gKernelId
  | shapes newInputs newOutputs env =>
    obtain ⟨hin, hout, hinRank, houtRank⟩ := id hc
    have hsmall := hs.small
    have hcount := hs.size ▸ tensors_le_size A nameLen _ _ t.kernelId.isSome
    obtain ⟨m₁, m₂, hrun₁, hrun₂, hhas, hkeep⟩ :=
      hs.has.setShapes hin hout hinRank houtRank (by omega) (by omega) env
    have hrun : (ExtCall.shapes newInputs newOutputs env).run A s
        = ((copyH2D s.1 env env.workspaceDeviceAicpuTaskOffset).1, m₂) := by
      unfold ExtCall.run updateInputAndOutputShape
      dsimp only
      rw [hs.noted.inputNum, hs.noted.inputPtrs, hrun₁]
      dsimp only
      rw [hs.noted.outputNum, hs.noted.outputPtrs, hrun₂]
    obtain ⟨hinLen, houtLen, -⟩ := Told.length_after hc
    rw [hrun]
    refine ⟨⟨?_, hhas, ?_, hs.small⟩, hkeep⟩
    · rw [hinLen, houtLen]
      exact hs.noted.copyH2D env _
    · rw [hinLen, houtLen]
      exact hs.size

theorem Holding.runs : ∀ {calls : List ExtCall} {t : Told} {s : ParsedExtInfo × Mem},
    Holding A nameLen base total t s →
    (∀ c ∈ calls, c.Valid t.inputs.length t.outputs.length) →
    Holding A nameLen base total (calls.foldl Told.after t) (calls.foldl (ExtCall.run A) s) ∧
    Untouched A base nameLen t.inputs.length t.outputs.length t.kernelId.isSome s.2
      (calls.foldl (ExtCall.run A) s).2
  | [], t, s, hs, _ => ⟨hs, fun x _ => rfl⟩
  | c :: calls, t, s, hs, hvalid => by
    have hc := hvalid c mem_cons_self
    obtain ⟨hone, hkeep⟩ := hs.run hc
    obtain ⟨hinLen, houtLen, hid⟩ := Told.length_after hc
    have hrest : ∀ c' ∈ calls, c'.Valid (t.after c).inputs.length (t.after c).outputs.length := by
      rw [hinLen, houtLen]
      exact fun c' hc' => hvalid c' (mem_cons_of_mem _ hc')
    obtain ⟨hlast, hkeep'⟩ := Holding.runs hone hrest
    rw [hinLen, houtLen, hid] at hkeep'
    exact ⟨hlast, hkeep.trans hkeep'⟩

/-! ## Building anew -/

/-- What the extend info is built of. -/
structure ExtArgs where
  kernelId : UInt64
  inputs : List AclTensor
  outputs : List AclTensor

/-- The same tensors with their last shapes, and the last kernel id. -/
def ExtArgs.after (a : ExtArgs) : ExtCall → ExtArgs
  | .shapes inputs outputs _ =>
    { a with
      inputs := List.zipWith AclTensor.reshaped a.inputs inputs
      outputs := List.zipWith AclTensor.reshaped a.outputs outputs }
  | .kernelId gKernelId => { a with kernelId := gKernelId }

def ExtArgs.gen (A : Adapter) (kind : ExtKind) (h : AicpuExtInfoHandler) (a : ExtArgs) :
    Option Str :=
  genExtBuffer A kind h a.kernelId a.inputs a.outputs

def ExtArgs.told (kind : ExtKind) (a : ExtArgs) : Told :=
  kind.told a.kernelId a.inputs a.outputs

theorem tfTensors_reshaped (space : AicpuTaskSpace) (isInput : Bool) (ts news : List AclTensor) :
    tfTensors space isInput (List.zipWith AclTensor.reshaped ts news)
      = List.zipWith AclTensor.reshaped (tfTensors space isInput ts) news := by
  unfold tfTensors
  apply ext_getElem
  · simp
  · intro i hi hi'
    rw [getElem_mapIdx, getElem_zipWith, getElem_zipWith, getElem_mapIdx]
    rfl

theorem told_after (kind : ExtKind) (a : ExtArgs) (c : ExtCall) :
    (a.after c).told kind = (a.told kind).after c := by
  cases kind with
  | cc => cases c <;> rfl
  | tf space =>
    cases c with
    | shapes inputs outputs env =>
      simp only [ExtArgs.told, ExtKind.told, ExtArgs.after, Told.after, tfTensors_reshaped]
    | kernelId gKernelId => rfl

theorem told_foldl_after (kind : ExtKind) : ∀ (calls : List ExtCall) (a : ExtArgs),
    (calls.foldl ExtArgs.after a).told kind = calls.foldl Told.after (a.told kind)
  | [], _ => rfl
  | c :: calls, a => by
    rw [foldl_cons, foldl_cons, ← told_after, told_foldl_after kind calls]

theorem reshaped_rank {ts news : List AclTensor} (h : ∀ t ∈ news, t.originalShape.length ≤ 8) :
    ∀ t ∈ List.zipWith AclTensor.reshaped ts news, t.originalShape.length ≤ 8 := by
  intro t ht
  obtain ⟨i, hi, rfl⟩ := getElem_of_mem ht
  have hi' : i < news.length := by
    rw [length_zipWith] at hi
    omega
  rw [getElem_zipWith]
  exact h news[i] (getElem_mem hi')

theorem ExtArgs.gen_after {kind : ExtKind} {h : AicpuExtInfoHandler} {a : ExtArgs} {c : ExtCall}
    (hgen : ∃ s, a.gen A kind h = some s) (hc : c.Valid a.inputs.length a.outputs.length) :
    (∃ s, (a.after c).gen A kind h = some s) ∧ (a.after c).inputs.length = a.inputs.length ∧
      (a.after c).outputs.length = a.outputs.length := by
  obtain ⟨hname, hinRank, houtRank⟩ := genExtBuffer_isSome_iff.mp hgen
  cases c with
  | shapes inputs outputs env =>
    obtain ⟨hin, hout, hinNew, houtNew⟩ := hc
    refine ⟨genExtBuffer_isSome_iff.mpr ⟨hname, reshaped_rank hinNew, reshaped_rank houtNew⟩, ?_⟩
    simp only [ExtArgs.after, length_zipWith, hin, hout, Nat.min_self, and_self]
  | kernelId gKernelId =>
    exact ⟨genExtBuffer_isSome_iff.mpr ⟨hname, hinRank, houtRank⟩, rfl, rfl⟩

theorem ExtArgs.gen_foldl_after {kind : ExtKind} {h : AicpuExtInfoHandler} :
    ∀ {calls : List ExtCall} {a : ExtArgs}, (∃ s, a.gen A kind h = some s) →
      (∀ c ∈ calls, c.Valid a.inputs.length a.outputs.length) →
      (∃ s, (calls.foldl ExtArgs.after a).gen A kind h = some s) ∧
      (calls.foldl ExtArgs.after a).inputs.length = a.inputs.length ∧
      (calls.foldl ExtArgs.after a).outputs.length = a.outputs.length
  | [], _, hgen, _ => ⟨hgen, rfl, rfl⟩
  | c :: calls, a, hgen, hvalid => by
    obtain ⟨hone, hin, hout⟩ := ExtArgs.gen_after hgen (hvalid c mem_cons_self)
    have hrest : ∀ c' ∈ calls, c'.Valid (a.after c).inputs.length (a.after c).outputs.length := by
      rw [hin, hout]
      exact fun c' hc' => hvalid c' (mem_cons_of_mem _ hc')
    obtain ⟨hlast, hin', hout'⟩ := ExtArgs.gen_foldl_after hone hrest
    exact ⟨hlast, hin'.trans hin, hout'.trans hout⟩

/-- The extend info of tensors and a kernel id that were built, and updated with any shapes
and kernel ids, is to the device what is built of the last ones. -/
theorem update_eq_rebuild {kind : ExtKind} {h : AicpuExtInfoHandler} {a : ExtArgs} {s : Str}
    {p₀ : ParsedExtInfo} {m : Mem} {hostAddr : Nat} (hgen : a.gen A kind h = some s)
    (hsize : s.size ≤ memMaxLen) (haddr : hostAddr ≠ 0) (hin : p₀.inputNum = a.inputs.length)
    (hout : p₀.outputNum = a.outputs.length) :
    ∃ p m₁ es, parse A p₀ m s hostAddr = some (p, m₁) ∧ m₁.Holds hostAddr s ∧
      Entries A.extInfo m₁ hostAddr es ∧ entriesSize A.extInfo es = s.size ∧
      ∀ calls : List ExtCall, (∀ c ∈ calls, c.Valid a.inputs.length a.outputs.length) →
        (∀ x, ¬ InBodies A.extInfo (IsUpdated A) hostAddr es x →
          (calls.foldl (ExtCall.run A) (p, m₁)).2 x = m₁ x) ∧
        ∃ fresh, (calls.foldl ExtArgs.after a).gen A kind h = some fresh ∧
          fresh.size = s.size ∧
          decodeExt A (calls.foldl (ExtCall.run A) (p, m₁)).2 hostAddr s.size
            = some (.ok ((calls.foldl ExtArgs.after a).told kind).seen) ∧
          ∀ b m', b ≠ 0 → m'.Holds b fresh → decodeExt A m' b fresh.size
            = some (.ok ((calls.foldl ExtArgs.after a).told kind).seen) := by
  have hlt : s.size < 2 ^ 32 := by
    unfold memMaxLen at hsize
    omega
  have hholds := m.holds_place hostAddr s
  have htotal := genExtBuffer_size hgen
  have hhas := genExtBuffer_has hgen hholds hlt
  obtain ⟨p, hparse, hnoted⟩ := parse_noted m hgen hsize haddr hin hout
  -- before the first call the host's notes and the memory say the same
  have hholding : Holding A h.nodeName.length hostAddr s.size (a.told kind)
      (p, m.place hostAddr s) := by
    refine ⟨?_, hhas, ?_, hlt⟩ <;> simp only [ExtArgs.told, length_told_inputs,
      length_told_outputs, isSome_told_kernelId]
    · exact hnoted
    · exact htotal.symm
  have hentries := hhas.entries
  rw [length_told_inputs, length_told_outputs, isSome_told_kernelId] at hentries
  refine ⟨p, _, _, hparse, hholds, hentries, htotal.symm, fun calls hvalid => ?_⟩
  have hvalid' : ∀ c ∈ calls, c.Valid (a.told kind).inputs.length (a.told kind).outputs.length := by
    simpa only [ExtArgs.told, length_told_inputs, length_told_outputs] using hvalid
  -- every call keeps the two in step and changes bodies only
  have hruns := hholding.runs hvalid'
  rw [← told_foldl_after] at hruns
  obtain ⟨hlast, hkeep⟩ := hruns
  simp only [ExtArgs.told, length_told_inputs, length_told_outputs, isSome_told_kernelId] at hkeep
  obtain ⟨⟨fresh, hfresh⟩, hinLen, houtLen⟩ := ExtArgs.gen_foldl_after ⟨s, hgen⟩ hvalid
  have hfreshSize : fresh.size = s.size := by
    rw [htotal, genExtBuffer_size hfresh, hinLen, houtLen]
  refine ⟨hkeep, fresh, hfresh, hfreshSize, ?_, fun b m' hb hm' => ?_⟩
  · exact hlast.has.decode haddr hlt hlast.size
  · refine (genExtBuffer_has hfresh hm' (by omega)).decode hb (by omega) ?_
    rw [hfreshSize, ← hlast.size]
    rfl

theorem update_eq_rebuild_scalar : ∃ s, (⟨7, [⟨0, []⟩], []⟩ : ExtArgs).gen packedAdapter .cc ⟨[], 0⟩
      = some s ∧
    ∃ p m₁ es, parse packedAdapter { inputNum := 1, outputNum := 0 } (fun _ => 0) s 64
        = some (p, m₁) ∧ m₁.Holds 64 s ∧
      Entries packedAdapter.extInfo m₁ 64 es ∧ entriesSize packedAdapter.extInfo es = s.size ∧
      ∀ calls : List ExtCall, (∀ c ∈ calls, c.Valid 1 0) →
        (∀ x, ¬ InBodies packedAdapter.extInfo (IsUpdated packedAdapter) 64 es x →
          (calls.foldl (ExtCall.run packedAdapter) (p, m₁)).2 x = m₁ x) ∧
        ∃ fresh, (calls.foldl ExtArgs.after ⟨7, [⟨0, []⟩], []⟩).gen packedAdapter .cc ⟨[], 0⟩
            = some fresh ∧ fresh.size = s.size ∧
          decodeExt packedAdapter (calls.foldl (ExtCall.run packedAdapter) (p, m₁)).2 64 s.size
            = some (.ok ((calls.foldl ExtArgs.after ⟨7, [⟨0, []⟩], []⟩).told .cc).seen) ∧
          ∀ b m', b ≠ 0 → m'.Holds b fresh → decodeExt packedAdapter m' b fresh.size
            = some (.ok ((calls.foldl ExtArgs.after ⟨7, [⟨0, []⟩], []⟩).told .cc).seen) := by
  obtain ⟨s, hs⟩ : ∃ s, (⟨7, [⟨0, []⟩], []⟩ : ExtArgs).gen packedAdapter .cc ⟨[], 0⟩ = some s :=
    genExtBuffer_isSome_iff.mpr ⟨by decide, by decide, by decide⟩
  refine ⟨s, hs, update_eq_rebuild hs ?_ (by decide) rfl rfl⟩
  rw [genExtBuffer_size hs]
  decide

/-- 2²⁶ scalars: the extend info is built, but `memcpy_s` refuses to copy it. -/
theorem parse_refuses_large :
    ∃ s, (⟨7, List.replicate (2 ^ 26) ⟨0, []⟩, []⟩ : ExtArgs).gen packedAdapter .cc ⟨[], 0⟩
        = some s ∧
      ∀ p₀ m hostAddr, parse packedAdapter p₀ m s hostAddr = none := by
  obtain ⟨inputs, hinputs⟩ :
      ∃ inputs, inputs = List.replicate (2 ^ 26) (⟨0, []⟩ : AclTensor) := ⟨_, rfl⟩
  have hn : inputs.length = 2 ^ 26 := by rw [hinputs, length_replicate]
  have hrank : ∀ t ∈ inputs, t.originalShape.length ≤ 8 := by
    intro t ht
    rw [hinputs] at ht
    rw [eq_of_mem_replicate ht]
    exact Nat.zero_le 8
  rw [← hinputs]
  obtain ⟨s, hs⟩ : ∃ s, (⟨7, inputs, []⟩ : ExtArgs).gen packedAdapter .cc ⟨[], 0⟩ = some s :=
    genExtBuffer_isSome_iff.mpr ⟨by decide, hrank, fun t ht => nomatch ht⟩
  refine ⟨s, hs, fun p₀ m hostAddr => ?_⟩
  have hsize : memMaxLen < s.size := by
    rw [genExtBuffer_size hs, hn]
    show _ < entriesSize packedAdapter.extInfo (extEntries packedAdapter 0 (2 ^ 26) 0 true)
    decide
  have hcopy : memcpyS m hostAddr s.size s = (m, false) := if_pos (Or.inr hsize)
  unfold parse
  split
  · rfl
  · rw [hcopy]
    rfl

end OpBase.Aicpu
