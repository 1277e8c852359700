import OpBase.Indv.KeyBytes
import OpBase.Lib.RunLength

/-!
# What the key tells about the tensor arguments

From the front the parameters come off the key one by one, if three things are
known that no byte of it tells: where the elements of a tensor list are null and
where it ends, the upper bits of a storage format, and how often 256 goes into a
run of equal tensors. Of a scalar that takes its data type from elsewhere the key
has not the type, and of a scalar list not the types behind the first.

> `inputs_inj`: inputs of one signature that agree on the unwritten are equal if
> their bytes are.
>
> `tensor_args_iff`: two calls with one key have the same tensor arguments if and
> only if they agree on the unwritten.
-/

namespace OpBase.Indv

open List OpBase.Lib

/-- The type of an input in the IR signature. -/
inductive InputType where
  | tensor | intArray | boolArray | floatArray | tensorList
  | scalar (srcIndex : Option Nat) (dtype : Option ElementType)
  | scalarList (srcIndex : Option Nat) (dtype : Option ElementType)
deriving DecidableEq

def Input.type : Input → InputType
  | .tensor _ => .tensor
  | .intArray _ => .intArray
  | .boolArray _ => .boolArray
  | .floatArray _ => .floatArray
  | .tensorList _ => .tensorList
  | .scalar _ srcIndex dtype => .scalar srcIndex dtype
  | .scalarList _ srcIndex dtype => .scalarList srcIndex dtype

/-- Whether an output is a list. -/
def Output.isList : Output → Bool
  | .tensor _ => false
  | .tensorList _ => true

/-! ## What is not written -/

/-- Sub-format and C0 of the storage format. -/
def Tensor.highFormat (t : Tensor) : Nat := t.storageFormat.toNat / 256

/-- How often 256 goes into the length of each run. -/
def highCounts (rs : List (Option (Tensor × Nat))) : List (Option Nat) :=
  rs.map (Option.map fun p => p.2 / 256)

/-- The null elements of a list with the upper bits of the others' formats. A run goes on for
more than 255 elements in lists that are longer only. -/
def listUnwritten (ts : List (Option Tensor)) : List (Option Nat) × List (Option Nat) :=
  (ts.map (Option.map Tensor.highFormat), if ts.length < 256 then [] else highCounts (runs ts))

/-- A scalar takes its data type from elsewhere. -/
def overridden (index : Nat) (srcIndex : Option Nat) (dtype : Option ElementType) : Bool :=
  dtype.isSome || srcIndex.any (· < index)

inductive Unwritten where
  | nothing
  | format (high : Nat)
  | list (elements : Option (List (Option Nat) × List (Option Nat)))
  | scalar (scalar : Option ElementType)
  | scalarList (types : Option (List (Option ElementType)))
deriving DecidableEq

def Input.unwritten (index : Nat) : Input → Unwritten
  | .tensor t => .format (t.elim 0 Tensor.highFormat)
  | .intArray _ | .boolArray _ | .floatArray _ => .nothing
  | .tensorList ts => .list (ts.map listUnwritten)
  | .scalar s srcIndex dtype => if overridden index srcIndex dtype then .scalar s else .nothing
  | .scalarList ss srcIndex dtype =>
    .scalarList (if overridden index srcIndex dtype then ss else ss.map List.tail)

def Output.unwritten : Output → Unwritten
  | .tensor t => .format (t.elim 0 Tensor.highFormat)
  | .tensorList ts => .list (ts.map listUnwritten)

/-- What the key does not tell of the inputs and the outputs of a call. -/
def Call.unwritten (c : Call) : List Unwritten × List Unwritten :=
  (c.inputs.zipIdx.map fun p => p.1.unwritten p.2, c.outputs.map Output.unwritten)

/-! ## Reading a tensor -/

variable (d : ElementType)

theorem element_code_lt : d.val.code.toNat < 42 := d.property

theorem toUInt8_code : d.val.code.toUInt8.toNat = d.val.code.toNat := by
  have := element_code_lt d
  rw [UInt32.toNat_toUInt8]
  omega

theorem element_inj {d e : ElementType} (h : d.val.code.toUInt8 = e.val.code.toUInt8) : d = e := by
  have hcode := congrArg UInt8.toNat h
  rw [toUInt8_code, toUInt8_code] at hcode
  apply Subtype.ext
  show DataType.mk d.val.code = DataType.mk e.val.code
  rw [UInt32.toNat_inj.mp hcode]

theorem element_ne_mark : placeHolder ≠ d.val.code.toUInt8 := by
  intro h
  have hcode := congrArg UInt8.toNat h
  rw [toUInt8_code] at hcode
  have hmark : placeHolder.toNat = 47 := rfl
  have := element_code_lt d
  omega

variable {u v : List Byte} {index : Nat} {srcIndex : Option Nat} {dtype : Option ElementType}

theorem baseBytes_ne_mark {f : UInt32} {n : Nat} : [placeHolder] ++ u ≠ baseBytes d f n ++ v :=
  fun h => element_ne_mark d (List.cons.inj h).1

theorem baseBytes_inj {d e : ElementType} {f g : UInt32} {n m : Nat}
    (h : baseBytes d f n ++ u = baseBytes e g m ++ v) :
    d = e ∧ f.toUInt8 = g.toUInt8 ∧ le 4 n = le 4 m ∧ u = v := by
  obtain ⟨hbase, huv⟩ := append_inj h (by rw [length_baseBytes, length_baseBytes])
  obtain ⟨hd, hrest⟩ := List.cons.inj hbase
  obtain ⟨hf, hn⟩ := List.cons.inj hrest
  exact ⟨element_inj hd, hf, hn, huv⟩

theorem format_inj {f g : UInt32} (hlow : f.toUInt8 = g.toUInt8)
    (hhigh : f.toNat / 256 = g.toNat / 256) : f = g := by
  have hmod := congrArg UInt8.toNat hlow
  rw [UInt32.toNat_toUInt8, UInt32.toNat_toUInt8] at hmod
  apply UInt32.toNat_inj.mp
  omega

theorem shapeInfo_inj {s t : Tensor} (hhigh : s.highFormat = t.highFormat)
    (h : shapeInfo s ++ u = shapeInfo t ++ v) : s = t ∧ u = v := by
  unfold shapeInfo at h
  rw [append_assoc, append_assoc] at h
  obtain ⟨htype, hformat, hdims, h⟩ := baseBytes_inj h
  obtain ⟨hshape, huv⟩ := dimBytes_inj hdims h
  exact ⟨Tensor.ext htype (format_inj hformat hhigh) hshape, huv⟩

theorem tensorBytes_inj {s t : Option Tensor}
    (hhigh : s.elim 0 Tensor.highFormat = t.elim 0 Tensor.highFormat)
    (h : tensorBytes s ++ u = tensorBytes t ++ v) : s = t ∧ u = v := by
  match s, t with
  | none, none => exact ⟨rfl, (List.cons.inj h).2⟩
  | none, some t =>
    have h : [placeHolder] ++ u = shapeInfo t ++ v := h
    unfold shapeInfo at h
    rw [append_assoc] at h
    exact absurd h (baseBytes_ne_mark t.dataType)
  | some s, none =>
    have h : shapeInfo s ++ u = [placeHolder] ++ v := h
    unfold shapeInfo at h
    rw [append_assoc] at h
    exact absurd h.symm (baseBytes_ne_mark s.dataType)
  | some s, some t =>
    obtain ⟨hst, huv⟩ := shapeInfo_inj hhigh h
    exact ⟨congrArg some hst, huv⟩

/-! ## Reading a tensor list -/

def runToken : Option (Tensor × Nat) → List Byte
  | none => [placeHolder]
  | some (t, n) => runBytes t n

/-- `cnt` more of `prev` in front. -/
def pushPrev (prev : Option Tensor) (cnt : Nat) (rs : List (Option (Tensor × Nat))) :
    List (Option (Tensor × Nat)) :=
  prev.elim rs fun t => pushRun t cnt rs

/-- The loop over a list writes the runs of equal tensors. -/
theorem loopBytes_eq : ∀ (xs : List (Option Tensor)) (prev : Option Tensor) (cnt : Nat),
    loopBytes prev cnt xs = (pushPrev prev cnt (runs xs)).flatMap runToken
  | [], none, _ => rfl
  | [], some t, cnt => (append_nil _).symm
  | none :: xs, prev, cnt => by
    have hrest := loopBytes_eq xs none cnt
    unfold loopBytes
    rw [if_neg (fun h => h.1 rfl)]
    show prevBytes prev cnt ++ placeHolder :: loopBytes none cnt xs = _
    rw [hrest]
    cases prev with
    | none => rfl
    | some t => rfl
  | some x :: xs, none, cnt => by
    have hrest := loopBytes_eq xs (some x) 1
    unfold loopBytes
    rw [if_neg (fun h => h.1 h.2)]
    exact hrest
  | some x :: xs, some t, cnt => by
    unfold loopBytes
    -- the same tensor again makes the run longer
    by_cases hsame : x = t
    · subst hsame
      rw [if_pos ⟨Option.some_ne_none x, rfl⟩, loopBytes_eq xs (some x) (cnt + 1)]
      show (pushRun x (cnt + 1) (runs xs)).flatMap _ =
        (pushRun x cnt (pushRun x 1 (runs xs))).flatMap _
      rw [pushRun_pushRun]
    · rw [if_neg fun h => hsame (Option.some.inj h.2)]
      show prevBytes (some t) cnt ++ loopBytes (some x) 1 xs =
        (pushRun t cnt (pushRun x 1 (runs xs))).flatMap _
      rw [loopBytes_eq xs (some x) 1, pushRun_of_ne (Ne.symm hsame)]
      rfl

/-- The runs of two lists are told apart by their counts' lowest bytes. -/
def SameCounts (a b : List (Option (Tensor × Nat))) : Prop :=
  (expand a).length < 256 ∨ highCounts a = highCounts b

/-- With the counts known, the bytes tell the runs. -/
theorem runs_inj {a b : List (Option (Tensor × Nat))}
    (ha : ∀ r ∈ a, Lasting r) (hb : ∀ r ∈ b, Lasting r)
    (hside : (expand a).map (Option.map Tensor.highFormat) =
      (expand b).map (Option.map Tensor.highFormat))
    (hcounts : SameCounts a b) (h : a.flatMap runToken ++ u = b.flatMap runToken ++ v) :
    a = b ∧ u = v := by
  refine expand_inj ?_ ?_ ha hb hside hcounts h
  · rintro a b (hlen | hhigh)
    · rw [expand_cons, length_append] at hlen
      exact Or.inl (by omega)
    · exact Or.inr (List.cons.inj hhigh).2
  · intro x y n m a b u v _ _ hxy hcounts hlen h
    have h : shapeInfo x ++ [UInt8.ofNat n] ++ u = shapeInfo y ++ [UInt8.ofNat m] ++ v := h
    rw [append_assoc, append_assoc] at h
    obtain ⟨hxy, h⟩ := shapeInfo_inj hxy h
    obtain ⟨hcount, huv⟩ := List.cons.inj h
    -- one byte of the count is written, the number of tensors gives the rest
    have hmod := congrArg UInt8.toNat hcount
    rw [UInt8.toNat_ofNat', UInt8.toNat_ofNat'] at hmod
    have hx : (expand (some (x, n) :: a)).length = n + (expand a).length := by
      rw [expand_cons, length_append]
      exact congrArg (· + _) length_replicate
    have hy : (expand (some (y, m) :: b)).length = m + (expand b).length := by
      rw [expand_cons, length_append]
      exact congrArg (· + _) length_replicate
    rcases hcounts with hshort | hhigh
    · exact ⟨⟨hxy, by omega⟩, huv, Or.inl (by omega)⟩
    · obtain ⟨hhead, hhigh⟩ := List.cons.inj hhigh
      have hdiv : n / 256 = m / 256 := Option.some.inj hhead
      exact ⟨⟨hxy, by omega⟩, huv, Or.inr hhigh⟩

theorem sameCounts_of_unwritten {xs ys : List (Option Tensor)}
    (h : listUnwritten xs = listUnwritten ys) : SameCounts (runs xs) (runs ys) := by
  obtain ⟨hnull, hcounts⟩ := Prod.mk.inj h
  have hlen := congrArg List.length hnull
  rw [length_map, length_map] at hlen
  by_cases hshort : xs.length < 256
  · exact Or.inl (by rwa [expand_runs])
  · rw [if_neg hshort, if_neg (hlen ▸ hshort)] at hcounts
    exact Or.inr hcounts

/-- With what is not written known, the bytes tell the list. -/
theorem tensorListBytes_inj {xs ys : Option (List (Option Tensor))}
    (hun : xs.map listUnwritten = ys.map listUnwritten)
    (h : tensorListBytes xs ++ u = tensorListBytes ys ++ v) : xs = ys ∧ u = v := by
  have hread : ∀ {a b : List (Option Tensor)}, SameCounts (runs a) (runs b) →
      a.map (Option.map Tensor.highFormat) = b.map (Option.map Tensor.highFormat) →
      (runs a).flatMap runToken ++ u = (runs b).flatMap runToken ++ v → a = b ∧ u = v := by
    intro a b hcounts hnull h
    rw [← expand_runs a, ← expand_runs b] at hnull
    obtain ⟨hab, huv⟩ := runs_inj (lasting_runs a) (lasting_runs b) hnull hcounts h
    exact ⟨by rw [← expand_runs a, hab, expand_runs], huv⟩
  match xs, ys, hun with
  | none, none, _ => exact ⟨rfl, (List.cons.inj h).2⟩
  | some xs, some ys, hun =>
    have hun := Option.some.inj hun
    have hcounts := sameCounts_of_unwritten hun
    have hnull := (Prod.mk.inj hun).1
    match xs, ys, hcounts, hnull, h with
    | [], [], _, _, h => exact ⟨rfl, (List.cons.inj h).2⟩
    | [], _ :: _, _, hnull, _ => exact absurd hnull (cons_ne_nil _ _).symm
    | _ :: _, [], _, hnull, _ => exact absurd hnull (cons_ne_nil _ _)
    | none :: _, some _ :: _, _, hnull, _ => exact absurd (List.cons.inj hnull).1 (by simp)
    | some _ :: _, none :: _, _, hnull, _ => exact absurd (List.cons.inj hnull).1 (by simp)
    | some x :: xs, some y :: ys, hcounts, hnull, h =>
      have h : loopBytes (some x) 1 xs ++ u = loopBytes (some y) 1 ys ++ v := h
      rw [loopBytes_eq, loopBytes_eq] at h
      obtain ⟨hlist, huv⟩ := hread hcounts hnull h
      exact ⟨congrArg some hlist, huv⟩
    | none :: xs, none :: ys, hcounts, hnull, h =>
      -- the null in front is not written
      have h : loopBytes none 1 xs ++ u = loopBytes none 1 ys ++ v := h
      rw [loopBytes_eq, loopBytes_eq] at h
      have hcounts : SameCounts (runs xs) (runs ys) := by
        rcases hcounts with hlen | hhigh
        · rw [expand_runs, length_cons] at hlen
          exact Or.inl (by rw [expand_runs]; omega)
        · exact Or.inr (List.cons.inj hhigh).2
      obtain ⟨hlist, huv⟩ := hread hcounts (List.cons.inj hnull).2 h
      exact ⟨by rw [hlist], huv⟩

/-! ## Reading an input -/

theorem arrayBytes_inj {α : Type} {bytes : α → List Byte} {n : Nat} {d : ElementType}
    (hlen : ∀ a, (bytes a).length = n) (hinj : ∀ {a b}, bytes a = bytes b → a = b)
    {x y : Option (Sized α)}
    (h : arrayBytes bytes d x ++ u = arrayBytes bytes d y ++ v) : x = y ∧ u = v := by
  match x, y with
  | none, none => exact ⟨rfl, (List.cons.inj h).2⟩
  | none, some y =>
    have h : [placeHolder] ++ u = baseBytes d _ 1 ++ _ ++ _ ++ v := h
    rw [append_assoc, append_assoc] at h
    exact absurd h (baseBytes_ne_mark d)
  | some x, none =>
    have h : baseBytes d _ 1 ++ _ ++ _ ++ u = [placeHolder] ++ v := h
    rw [append_assoc, append_assoc] at h
    exact absurd h.symm (baseBytes_ne_mark d)
  | some x, some y =>
    have h : baseBytes d formatND 1 ++ le8 (UInt64.ofNat x.val.length) ++ x.val.flatMap bytes ++ u =
      baseBytes d formatND 1 ++ le8 (UInt64.ofNat y.val.length) ++ y.val.flatMap bytes ++ v := h
    rw [append_assoc, append_assoc, append_assoc, append_assoc] at h
    have h := append_cancel_left h
    obtain ⟨hcount, h⟩ := append_inj h (by rw [length_le8, length_le8])
    have hcount : x.val.length = y.val.length := by
      have := congrArg UInt64.toNat (le8_inj.mp hcount)
      rwa [UInt64.toNat_ofNat_of_lt' x.property, UInt64.toNat_ofNat_of_lt' y.property] at this
    obtain ⟨helements, huv⟩ := append_inj h (by
      rw [length_flatMap_of hlen, length_flatMap_of hlen, hcount])
    exact ⟨congrArg some (Subtype.ext (flatMap_inj hlen hinj hcount helements)), huv⟩

theorem scalarType_own {slotType : Nat → DataType} {own : DataType}
    (h : overridden index srcIndex dtype = false) :
    KeyBuf.scalarType slotType index own srcIndex dtype = own := by
  obtain ⟨hdtype, hsrc⟩ := Bool.or_eq_false_iff.mp h
  match dtype, srcIndex, hdtype, hsrc with
  | none, none, _, _ => rfl
  | none, some i, _, hsrc => exact if_neg (of_decide_eq_false hsrc)

theorem length_scalarBytes (f g : Nat → DataType) (s : Option ElementType) (index : Nat)
    (srcIndex : Option Nat) (dtype : Option ElementType) :
    (scalarBytes f s index srcIndex dtype).length =
      (scalarBytes g s index srcIndex dtype).length := by
  cases s with
  | none => rfl
  | some _ => exact (length_baseBytes _ _ _).trans (length_baseBytes _ _ _).symm

variable {f g : Nat → DataType}

theorem scalarBytes_inj {s t : Option ElementType}
    (hun : overridden index srcIndex dtype = true → s = t)
    (h : scalarBytes f s index srcIndex dtype ++ u = scalarBytes g t index srcIndex dtype ++ v) :
    s = t ∧ u = v := by
  by_cases hover : overridden index srcIndex dtype = true
  · obtain rfl := hun hover
    exact ⟨rfl, (append_inj h (length_scalarBytes f g s index srcIndex dtype)).2⟩
  · have hover := Bool.eq_false_iff.mpr hover
    match s, t with
    | none, none => exact ⟨rfl, (List.cons.inj h).2⟩
    | none, some t =>
      have h : [placeHolder] ++ u = baseBytes _ formatND 0 ++ v := h
      rw [scalarType_own hover] at h
      exact absurd h (baseBytes_ne_mark t)
    | some s, none =>
      have h : baseBytes _ formatND 0 ++ u = [placeHolder] ++ v := h
      rw [scalarType_own hover] at h
      exact absurd h.symm (baseBytes_ne_mark s)
    | some s, some t =>
      have h : baseBytes _ formatND 0 ++ u = baseBytes _ formatND 0 ++ v := h
      rw [scalarType_own hover, scalarType_own hover] at h
      obtain ⟨hst, -, -, huv⟩ := baseBytes_inj h
      exact ⟨congrArg some hst, huv⟩

theorem length_scalarListBytes (f g : Nat → DataType) (ss : Option (List (Option ElementType)))
    (index : Nat) (srcIndex : Option Nat) (dtype : Option ElementType) :
    (scalarListBytes f ss index srcIndex dtype).length =
      (scalarListBytes g ss index srcIndex dtype).length := by
  match ss with
  | none | some [] | some (none :: _) => rfl
  | some (some _ :: _) =>
    show (baseBytes _ _ _ ++ _).length = (baseBytes _ _ _ ++ _).length
    rw [length_append, length_append, length_baseBytes, length_baseBytes]

/-- With what is not written known, the bytes tell the list of scalars. -/
theorem scalarListBytes_inj {ss ts : Option (List (Option ElementType))}
    (hs : (Input.scalarList ss srcIndex dtype).Served)
    (ht : (Input.scalarList ts srcIndex dtype).Served)
    (hun : (if overridden index srcIndex dtype then ss else ss.map List.tail) =
      if overridden index srcIndex dtype then ts else ts.map List.tail)
    (h : scalarListBytes f ss index srcIndex dtype ++ u =
      scalarListBytes g ts index srcIndex dtype ++ v) : ss = ts ∧ u = v := by
  by_cases hover : overridden index srcIndex dtype = true
  · rw [if_pos hover, if_pos hover] at hun
    subst hun
    exact ⟨rfl, (append_inj h (length_scalarListBytes f g ss index srcIndex dtype)).2⟩
  · rw [if_neg hover, if_neg hover] at hun
    have hover := Bool.eq_false_iff.mpr hover
    match ss, ts, hs, ht, hun with
    | none, none, _, _, _ => exact ⟨rfl, (List.cons.inj h).2⟩
    | some [], some [], _, _, _ => exact ⟨rfl, (List.cons.inj h).2⟩
    | some [], some (some t :: ts), _, _, _ =>
      have h : [placeHolder] ++ u = baseBytes _ formatND 1 ++ _ ++ v := h
      rw [scalarType_own hover, append_assoc] at h
      exact absurd h (baseBytes_ne_mark t)
    | some (some s :: ss), some [], _, _, _ =>
      have h : baseBytes _ formatND 1 ++ _ ++ u = [placeHolder] ++ v := h
      rw [scalarType_own hover, append_assoc] at h
      exact absurd h.symm (baseBytes_ne_mark s)
    | some (some s :: ss), some (some t :: ts), _, _, hun =>
      have htail : ss = ts := Option.some.inj hun
      subst htail
      have h : baseBytes _ formatND 1 ++ _ ++ u = baseBytes _ formatND 1 ++ _ ++ v := h
      rw [scalarType_own hover, scalarType_own hover, append_assoc, append_assoc] at h
      obtain ⟨hst, -, -, h⟩ := baseBytes_inj h
      exact ⟨by rw [hst], append_cancel_left h⟩

theorem boolByte_inj {a b : Bool} (h : KeyBuf.boolByte a = KeyBuf.boolByte b) : a = b := by
  cases a <;> cases b <;> first | rfl | exact absurd h (by decide)

/-- With the type and what is not written known, the bytes tell the input. -/
theorem input_inj {a b : Input} (htype : a.type = b.type) (ha : a.Served) (hb : b.Served)
    (hun : a.unwritten index = b.unwritten index)
    (h : inputBytes f a index ++ u = inputBytes g b index ++ v) : a = b ∧ u = v := by
  match a, b, htype with
  | .tensor s, .tensor t, _ =>
    obtain ⟨hst, huv⟩ := tensorBytes_inj (Unwritten.format.inj hun) h
    exact ⟨congrArg _ hst, huv⟩
  | .intArray x, .intArray y, _ =>
    obtain ⟨hxy, huv⟩ := arrayBytes_inj (d := ⟨.DT_INT64, by decide⟩) (fun _ => length_le8 _)
      (fun h => congrArg Int64.ofUInt64 (le8_inj.mp h)) h
    exact ⟨congrArg _ hxy, huv⟩
  | .boolArray x, .boolArray y, _ =>
    obtain ⟨hxy, huv⟩ := arrayBytes_inj (d := ⟨.DT_BOOL, by decide⟩)
      (fun x => show (KeyBuf.boolByte x).length = 1 from rfl) boolByte_inj h
    exact ⟨congrArg _ hxy, huv⟩
  | .floatArray x, .floatArray y, _ =>
    obtain ⟨hxy, huv⟩ := arrayBytes_inj (d := ⟨.DT_FLOAT, by decide⟩) (fun _ => length_le 4 _)
      (fun {a b} h => UInt32.toNat_inj.mp (le_inj a.toNat_lt b.toNat_lt h)) h
    exact ⟨congrArg _ hxy, huv⟩
  | .tensorList xs, .tensorList ys, _ =>
    obtain ⟨hxy, huv⟩ := tensorListBytes_inj (Unwritten.list.inj hun) h
    exact ⟨congrArg _ hxy, huv⟩
  | .scalar s srcIndex dtype, .scalar t _ _, htype =>
    obtain ⟨rfl, rfl⟩ := InputType.scalar.inj htype
    -- an overridden scalar is not written, and is the same in both
    have hover : overridden index srcIndex dtype = true → s = t := by
      intro hover
      have hun : (if overridden index srcIndex dtype then Unwritten.scalar s else .nothing) =
        if overridden index srcIndex dtype then Unwritten.scalar t else .nothing := hun
      rw [if_pos hover, if_pos hover] at hun
      exact Unwritten.scalar.inj hun
    obtain ⟨hst, huv⟩ := scalarBytes_inj hover h
    exact ⟨by rw [hst], huv⟩
  | .scalarList ss srcIndex dtype, .scalarList ts _ _, htype =>
    obtain ⟨rfl, rfl⟩ := InputType.scalarList.inj htype
    obtain ⟨hst, huv⟩ := scalarListBytes_inj ha hb (Unwritten.scalarList.inj hun) h
    exact ⟨by rw [hst], huv⟩

theorem inputs_inj : ∀ {xs ys : List Input} {i : Nat} {u v : List Byte},
    xs.map Input.type = ys.map Input.type → (∀ x ∈ xs, x.Served) → (∀ y ∈ ys, y.Served) →
    ((xs.zipIdx i).map fun p => p.1.unwritten p.2) =
      ((ys.zipIdx i).map fun p => p.1.unwritten p.2) →
    (xs.zipIdx i).flatMap (fun p => inputBytes f p.1 p.2) ++ u =
      (ys.zipIdx i).flatMap (fun p => inputBytes g p.1 p.2) ++ v → xs = ys ∧ u = v
  | [], [], _, _, _, _, _, _, _, h => ⟨rfl, h⟩
  | [], _ :: _, _, _, _, htype, _, _, _, _ => absurd htype (cons_ne_nil _ _).symm
  | _ :: _, [], _, _, _, htype, _, _, _, _ => absurd htype (cons_ne_nil _ _)
  | x :: xs, y :: ys, i, u, v, htype, hx, hy, hun, h => by
    obtain ⟨htype, htypes⟩ := List.cons.inj htype
    obtain ⟨hun, huns⟩ := List.cons.inj hun
    rw [zipIdx_cons, zipIdx_cons, flatMap_cons, flatMap_cons, append_assoc, append_assoc] at h
    obtain ⟨hxy, h⟩ := input_inj htype (hx x mem_cons_self) (hy y mem_cons_self) hun h
    obtain ⟨hrest, huv⟩ := inputs_inj htypes (fun z hz => hx z (mem_cons_of_mem x hz))
      (fun z hz => hy z (mem_cons_of_mem y hz)) huns h
    exact ⟨by rw [hxy, hrest], huv⟩

/-! ## Reading the outputs -/

theorem output_inj {a b : Output} (hlist : a.isList = b.isList) (hun : a.unwritten = b.unwritten)
    (h : outputBytes a index ++ u = outputBytes b index ++ v) : a = b ∧ u = v := by
  unfold outputBytes at h
  rw [append_assoc, append_assoc] at h
  have h := append_cancel_left h
  match a, b, hlist with
  | .tensor s, .tensor t, _ =>
    obtain ⟨hst, huv⟩ := tensorBytes_inj (Unwritten.format.inj hun) h
    exact ⟨congrArg _ hst, huv⟩
  | .tensorList xs, .tensorList ys, _ =>
    obtain ⟨hxy, huv⟩ := tensorListBytes_inj (Unwritten.list.inj hun) h
    exact ⟨congrArg _ hxy, huv⟩

theorem outputs_inj : ∀ {xs ys : List Output} {i : Nat} {u v : List Byte},
    xs.map Output.isList = ys.map Output.isList →
    xs.map Output.unwritten = ys.map Output.unwritten →
    (xs.zipIdx i).flatMap (fun p => outputBytes p.1 p.2) ++ u =
      (ys.zipIdx i).flatMap (fun p => outputBytes p.1 p.2) ++ v → xs = ys
  | [], [], _, _, _, _, _, _ => rfl
  | [], _ :: _, _, _, _, hlist, _, _ => absurd hlist (cons_ne_nil _ _).symm
  | _ :: _, [], _, _, _, hlist, _, _ => absurd hlist (cons_ne_nil _ _)
  | x :: xs, y :: ys, i, u, v, hlist, hun, h => by
    obtain ⟨hlist, hlists⟩ := List.cons.inj hlist
    obtain ⟨hun, huns⟩ := List.cons.inj hun
    rw [zipIdx_cons, zipIdx_cons, flatMap_cons, flatMap_cons, append_assoc, append_assoc] at h
    obtain ⟨hxy, h⟩ := output_inj hlist hun h
    rw [hxy, outputs_inj hlists huns h]

/-! ## Two calls -/

/-- Calls of one op with one IR signature. -/
structure Call.SameSignature (x y : Call) : Prop where
  opType : x.opType = y.opType
  inputs : x.inputs.map Input.type = y.inputs.map Input.type
  outputs : x.outputs.map Output.isList = y.outputs.map Output.isList

/-- Calls with one key have the same tensor arguments exactly where they agree on what is not
written. -/
theorem tensor_args_iff {x y : Call} {k : List Byte} (hsig : x.SameSignature y)
    (hx : x.key = some k) (hy : y.key = some k) :
    (x.inputs = y.inputs ∧ x.outputs = y.outputs) ↔ x.unwritten = y.unwritten := by
  constructor
  · intro ⟨hinputs, houtputs⟩
    unfold Call.unwritten
    rw [hinputs, houtputs]
  · intro hun
    obtain ⟨hin, hout⟩ := Prod.mk.inj hun
    have h := (Call.key_eq_some hx).symm.trans (Call.key_eq_some hy)
    rw [hsig.opType] at h
    obtain ⟨hinputs, h⟩ := inputs_inj hsig.inputs (Call.served_of_key hx) (Call.served_of_key hy)
      hin (append_cancel_left h)
    exact ⟨hinputs, outputs_inj hsig.outputs hout h⟩

/-- A call with two tensor lists. -/
def listsCall (xs ys : List (Option Tensor)) : Call where
  opType := ⟨[65], Nat.le_add_right 1 10239⟩
  slotType _ := .DT_FLOAT
  inputs := [.tensorList (some xs), .tensorList (some ys)]
  outputs := []
  attrs := []
  aicNum := 24
  aivNum := 48
  mc2RankId := 0

def vector (n : Int64) : Tensor where
  dataType := ⟨.DT_FLOAT, by decide⟩
  storageFormat := formatND
  viewShape := ⟨[n], Nat.le_of_ble_eq_true rfl⟩

theorem listsCall_key (xs ys : List (Option Tensor)) :
    (listsCall xs ys).key = some (65 :: (tensorListBytes (some xs) ++ tensorListBytes (some ys) ++
      (listsCall xs ys).closing)) := by
  have hserved : ∀ input ∈ (listsCall xs ys).inputs, input.Served := by
    intro input hinput
    rcases mem_cons.mp hinput with rfl | hinput
    · trivial
    · obtain rfl := mem_singleton.mp hinput
      trivial
  rw [Call.key_eq hserved, append_assoc]
  show some (65 :: (tensorListBytes (some xs) ++ (tensorListBytes (some ys) ++ []) ++ _)) = _
  rw [append_nil, append_assoc]
  rfl

/-- The lists `[1], [2, 3]`, of tensors with so many elements, against `[1, 2], [3]`, and against
themselves where scalars would have another type. -/
theorem tensor_args_iff_lists :
    (((listsCall [some (vector 1)] [some (vector 2), some (vector 3)]).inputs =
        (listsCall [some (vector 1), some (vector 2)] [some (vector 3)]).inputs ∧
      (listsCall [some (vector 1)] [some (vector 2), some (vector 3)]).outputs =
        (listsCall [some (vector 1), some (vector 2)] [some (vector 3)]).outputs) ↔
      (listsCall [some (vector 1)] [some (vector 2), some (vector 3)]).unwritten =
        (listsCall [some (vector 1), some (vector 2)] [some (vector 3)]).unwritten) ∧
    ∀ x, x = { listsCall [some (vector 1)] [some (vector 2), some (vector 3)] with
        slotType := fun _ => .DT_INT64 } →
      (listsCall [some (vector 1)] [some (vector 2), some (vector 3)]).inputs = x.inputs ∧
        (listsCall [some (vector 1)] [some (vector 2), some (vector 3)]).outputs = x.outputs := by
  refine ⟨tensor_args_iff ⟨rfl, rfl, rfl⟩ (listsCall_key _ _) (listsCall_key _ _), ?_⟩
  rintro x rfl
  exact (tensor_args_iff ⟨rfl, rfl, rfl⟩ (listsCall_key _ _) (listsCall_key _ _)).mpr rfl

/-- Two lists can share the same tensors out differently under one key. -/
theorem lists_collide :
    ((listsCall [some (vector 1)] [some (vector 2), some (vector 3)]).SameSignature
        (listsCall [some (vector 1), some (vector 2)] [some (vector 3)]) ∧
      (listsCall [some (vector 1)] [some (vector 2), some (vector 3)]).key =
        (listsCall [some (vector 1), some (vector 2)] [some (vector 3)]).key) ∧
    (listsCall [some (vector 1)] [some (vector 2), some (vector 3)]).inputs ≠
      (listsCall [some (vector 1), some (vector 2)] [some (vector 3)]).inputs := by
  refine ⟨⟨⟨rfl, rfl, rfl⟩, ?_⟩, fun h => ?_⟩
  · rw [listsCall_key, listsCall_key]
    rfl
  · have hlist := Option.some.inj (Input.tensorList.inj (List.cons.inj h).1)
    exact absurd (congrArg List.length hlist) (by decide)

end OpBase.Indv
