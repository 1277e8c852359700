import OpBase.Indv.KeyBytes

/-!
# What the key tells about the attributes

Both ways to the key write the attributes one behind the other, the bytes of each
and nothing else. A plain value has its size, a string has its zero; an array has
neither a count nor an end. So the bytes can be cut in one way only if the length
of an array is what is left over.

> `attrs_inj`: attributes of the same types and bytes are equal if no array comes
> before another attribute of variable length.
>
> `attr_key_iff`: the key determines the attributes of all calls of a signature if
> and only if none does.
-/

namespace OpBase.Indv

open List OpBase.Lib

/-- The type of an attribute in the IR signature. -/
inductive AttrType where
  | plain (size : Nat)
  | array (elementSize : Nat) (pos : 0 < elementSize)
  | string

def Attr.type : Attr → AttrType
  | .plain value => .plain value.length
  | .array elementSize pos _ => .array elementSize pos
  | .string _ => .string

def AttrType.isArray : AttrType → Bool
  | .array _ _ => true
  | _ => false

/-- Values of the type have one length. -/
def AttrType.isPlain : AttrType → Bool
  | .plain _ => true
  | _ => false

/-- Behind an array there are plain attributes only. -/
def ArrayLast (types : List AttrType) : Prop :=
  types.Pairwise fun s t => s.isArray = true → t.isPlain = true

instance (types : List AttrType) : Decidable (ArrayLast types) :=
  inferInstanceAs (Decidable (types.Pairwise _))

def attrsConcat (attrs : List Attr) : List Byte := attrs.flatMap Attr.bytes

/-! ## One way to cut -/

theorem string_inj : ∀ {s t u v : List Byte}, 0 ∉ s → 0 ∉ t →
    s ++ 0 :: u = t ++ 0 :: v → s = t ∧ u = v
  | [], [], u, v, _, _, h => ⟨rfl, (List.cons.inj h).2⟩
  | [], b :: t, u, v, _, ht, h => by
    have hzero := (List.cons.inj h).1
    exact absurd (hzero ▸ mem_cons_self) ht
  | a :: s, [], u, v, hs, _, h => by
    have hzero := (List.cons.inj h).1
    exact absurd (hzero ▸ mem_cons_self) hs
  | a :: s, b :: t, u, v, hs, ht, h => by
    obtain ⟨hab, hrest⟩ := List.cons.inj h
    obtain ⟨hst, huv⟩ := string_inj (fun hm => hs (mem_cons_of_mem a hm))
      (fun hm => ht (mem_cons_of_mem b hm)) hrest
    exact ⟨by rw [hab, hst], huv⟩

theorem array_inj {n : Nat} (hn : 0 < n) {xs ys : List { b : List Byte // b.length = n }}
    (h : xs.flatMap Subtype.val = ys.flatMap Subtype.val) : xs = ys := by
  have hlen := congrArg List.length h
  rw [length_flatMap_of fun x => x.property, length_flatMap_of fun x => x.property] at hlen
  exact flatMap_inj (fun x => x.property) Subtype.ext (Nat.eq_of_mul_eq_mul_right hn hlen) h

theorem length_plain : ∀ {xs ys : List Attr}, xs.map Attr.type = ys.map Attr.type →
    (∀ t ∈ xs.map Attr.type, t.isPlain = true) →
    (attrsConcat xs).length = (attrsConcat ys).length
  | [], [], _, _ => rfl
  | [], _ :: _, h, _ => absurd h (cons_ne_nil _ _).symm
  | _ :: _, [], h, _ => absurd h (cons_ne_nil _ _)
  | x :: xs, y :: ys, h, hplain => by
    obtain ⟨hxy, hrest⟩ := List.cons.inj h
    have hx := hplain x.type mem_cons_self
    have hlen := length_plain hrest fun t ht => hplain t (mem_cons_of_mem _ ht)
    have hhead : x.bytes.length = y.bytes.length := by
      match x, y, hxy, hx with
      | .plain v, .plain w, hxy, _ => exact AttrType.plain.inj hxy
    show (x.bytes ++ attrsConcat xs).length = (y.bytes ++ attrsConcat ys).length
    rw [length_append, length_append, hhead, hlen]

/-- If an array can only stand last, the bytes tell the attributes. -/
theorem attrs_inj : ∀ {xs ys : List Attr}, xs.map Attr.type = ys.map Attr.type →
    ArrayLast (xs.map Attr.type) → attrsConcat xs = attrsConcat ys → xs = ys
  | [], [], _, _, _ => rfl
  | [], _ :: _, h, _, _ => absurd h (cons_ne_nil _ _).symm
  | _ :: _, [], h, _, _ => absurd h (cons_ne_nil _ _)
  | x :: xs, y :: ys, h, hlast, hbytes => by
    obtain ⟨hxy, hrest⟩ := List.cons.inj h
    obtain ⟨hx, hlast⟩ := pairwise_cons.mp hlast
    have hbytes : x.bytes ++ attrsConcat xs = y.bytes ++ attrsConcat ys := hbytes
    have hstep : x = y ∧ attrsConcat xs = attrsConcat ys := by
      match x, y, hxy with
      | .plain v, .plain w, hxy =>
        obtain ⟨hvw, htail⟩ := append_inj hbytes (AttrType.plain.inj hxy)
        exact ⟨congrArg Attr.plain hvw, htail⟩
      | .array n hn v, .array m _ w, hxy =>
        obtain rfl := (AttrType.array.inj hxy)
        -- only plain attributes follow, so the array is what is left in front of them
        have htail := length_plain hrest fun t ht => hx t ht rfl
        obtain ⟨hvw, htail⟩ := append_inj' hbytes htail
        exact ⟨congrArg (Attr.array n hn) (array_inj hn hvw), htail⟩
      | .string s, .string t, _ =>
        have hbytes' : s.val ++ 0 :: attrsConcat xs = t.val ++ 0 :: attrsConcat ys := by
          have := hbytes
          simpa [Attr.bytes] using this
        obtain ⟨hst, htail⟩ := string_inj s.property t.property hbytes'
        exact ⟨congrArg Attr.string (Subtype.ext hst), htail⟩
    rw [hstep.1, attrs_inj hrest hlast hstep.2]

/-! ## More than one way -/

/-- The shortest attribute of a type, of ones where it has bytes. -/
def AttrType.fill : AttrType → Attr
  | .plain size => .plain (List.replicate size 1)
  | .array elementSize pos => .array elementSize pos []
  | .string => .string ⟨[], not_mem_nil⟩

def ones (n : Nat) : List Byte := List.replicate n 1

/-- An array of so many elements of ones. -/
def onesArray (elementSize : Nat) (pos : 0 < elementSize) (count : Nat) : Attr :=
  .array elementSize pos (List.replicate count ⟨ones elementSize, length_replicate⟩)

/-- A string of so many ones. -/
def onesString (count : Nat) : Attr :=
  .string ⟨ones count, fun h => absurd (eq_of_mem_replicate h) (by decide)⟩

theorem type_fill (t : AttrType) : t.fill.type = t := by
  cases t with
  | plain size => exact congrArg AttrType.plain length_replicate
  | array _ _ => rfl
  | string => rfl

theorem map_type_fill (types : List AttrType) :
    (types.map AttrType.fill).map Attr.type = types := by
  rw [map_map]
  exact (map_congr_left fun t _ => type_fill t).trans (map_id types)

theorem bytes_onesArray (n : Nat) (hn : 0 < n) : ∀ count : Nat,
    (onesArray n hn count).bytes = ones (count * n)
  | 0 => by
    rw [Nat.zero_mul]
    rfl
  | count + 1 => by
    have hrest := bytes_onesArray n hn count
    show ones n ++ (onesArray n hn count).bytes = _
    rw [hrest, Nat.succ_mul, Nat.add_comm]
    exact replicate_append_replicate

theorem attrsConcat_plain : ∀ {mid : List AttrType}, (∀ t ∈ mid, t.isPlain = true) →
    ∃ k, attrsConcat (mid.map AttrType.fill) = ones k
  | [], _ => ⟨0, rfl⟩
  | t :: mid, h => by
    obtain ⟨k, hk⟩ := attrsConcat_plain fun u hu => h u (mem_cons_of_mem t hu)
    match t, h t mem_cons_self with
    | .plain size, _ =>
      refine ⟨size + k, ?_⟩
      show ones size ++ attrsConcat (mid.map AttrType.fill) = _
      rw [hk]
      exact replicate_append_replicate

theorem first_variable : ∀ {types : List AttrType}, ¬ (∀ t ∈ types, t.isPlain = true) →
    ∃ mid t post, types = mid ++ t :: post ∧ (∀ u ∈ mid, u.isPlain = true) ∧ ¬ t.isPlain = true
  | [], h => absurd (fun _ ht => absurd ht not_mem_nil) h
  | t :: types, h => by
    by_cases ht : t.isPlain = true
    · have hrest : ¬ ∀ u ∈ types, u.isPlain = true := fun hall =>
        h fun u hu => (mem_cons.mp hu).elim (fun hut => hut ▸ ht) (hall u)
      obtain ⟨mid, v, post, htypes, hmid, hv⟩ := first_variable hrest
      refine ⟨t :: mid, v, post, congrArg (t :: ·) htypes, fun u hu => ?_, hv⟩
      exact (mem_cons.mp hu).elim (fun hut => hut ▸ ht) (hmid u)
    · exact ⟨[], t, types, rfl, fun u hu => absurd hu not_mem_nil, ht⟩

theorem array_variable : ∀ {types : List AttrType}, ¬ ArrayLast types →
    ∃ pre n hn mid t post, types = pre ++ .array n hn :: (mid ++ t :: post) ∧
      (∀ u ∈ mid, u.isPlain = true) ∧ ¬ t.isPlain = true
  | [], h => absurd List.Pairwise.nil h
  | s :: types, h => by
    by_cases hlast : ArrayLast types
    · have hs : ¬ ∀ t ∈ types, s.isArray = true → t.isPlain = true := fun hall =>
        h (pairwise_cons.mpr ⟨hall, hlast⟩)
      match s, hs with
      | .plain _, hs => exact absurd (fun _ _ ha => absurd ha Bool.false_ne_true) hs
      | .string, hs => exact absurd (fun _ _ ha => absurd ha Bool.false_ne_true) hs
      | .array n hn, hs =>
        have hvariable : ¬ ∀ t ∈ types, t.isPlain = true :=
          fun hall => hs fun t ht _ => hall t ht
        obtain ⟨mid, t, post, htypes, hmid, ht⟩ := first_variable hvariable
        exact ⟨[], n, hn, mid, t, post, congrArg (AttrType.array n hn :: ·) htypes, hmid, ht⟩
    · obtain ⟨pre, n, hn, mid, t, post, htypes, hmid, ht⟩ := array_variable hlast
      exact ⟨s :: pre, n, hn, mid, t, post, congrArg (s :: ·) htypes, hmid, ht⟩

theorem attrsConcat_split (pre mid post : List Attr) (a b : Attr) :
    attrsConcat (pre ++ a :: (mid ++ b :: post)) =
      attrsConcat pre ++ (a.bytes ++ attrsConcat mid ++ b.bytes) ++ attrsConcat post := by
  unfold attrsConcat
  simp only [flatMap_append, flatMap_cons, append_assoc]

variable {types : List AttrType}

/-- If something follows an array, two lists of attributes share their bytes. -/
theorem attrs_collide (h : ¬ ArrayLast types) :
    ∃ xs ys : List Attr, xs.map Attr.type = types ∧ ys.map Attr.type = types ∧
      attrsConcat xs = attrsConcat ys ∧ xs ≠ ys := by
  obtain ⟨pre, n, hn, mid, t, post, rfl, hmid, ht⟩ := array_variable h
  obtain ⟨k, hk⟩ := attrsConcat_plain hmid
  -- `a` elements in the array against `b`, and the rest in the other attribute
  have hpair : ∀ {a b : Nat} {v w : Attr}, a ≠ b → v.type = t → w.type = t →
      ones (a * n) ++ ones k ++ v.bytes = ones (b * n) ++ ones k ++ w.bytes →
      ∃ xs ys : List Attr, xs.map Attr.type = pre ++ .array n hn :: (mid ++ t :: post) ∧
        ys.map Attr.type = pre ++ .array n hn :: (mid ++ t :: post) ∧
        attrsConcat xs = attrsConcat ys ∧ xs ≠ ys := by
    intro a b v w hab hv hw hbytes
    have htypes : ∀ (c : Nat) (u : Attr), u.type = t →
        (pre.map AttrType.fill ++ onesArray n hn c :: (mid.map AttrType.fill ++
          u :: post.map AttrType.fill)).map Attr.type =
        pre ++ .array n hn :: (mid ++ t :: post) := by
      intro c u hu
      simp only [map_append, map_cons, map_type_fill, hu]
      rfl
    refine ⟨_, _, htypes a v hv, htypes b w hw, ?_, fun heq => ?_⟩
    · rw [attrsConcat_split, attrsConcat_split, bytes_onesArray, bytes_onesArray, hk, hbytes]
    · have harray := (List.cons.inj (append_cancel_left heq)).1
      have hlist := eq_of_heq (Attr.array.inj harray).2
      have hlen := congrArg List.length hlist
      rw [length_replicate, length_replicate] at hlen
      exact hab hlen
  match t, ht with
  | .array m hm, _ =>
    refine hpair (a := m) (b := 0) (v := onesArray m hm 0) (w := onesArray m hm n)
      (Nat.ne_of_gt hm) rfl rfl ?_
    rw [bytes_onesArray, bytes_onesArray]
    unfold ones
    simp only [replicate_append_replicate]
    congr 1
    rw [Nat.zero_mul, Nat.zero_mul, Nat.mul_comm m n]
    omega
  | .string, _ =>
    refine hpair (a := 1) (b := 0) (v := onesString 0) (w := onesString n) Nat.one_ne_zero
      rfl rfl ?_
    show ones (1 * n) ++ ones k ++ [0] = ones (0 * n) ++ ones k ++ (ones n ++ [0])
    unfold ones
    rw [← append_assoc]
    simp only [replicate_append_replicate]
    congr 2
    omega
  | .plain _, ht => exact absurd rfl ht

/-! ## The two keys -/

theorem length_inputBytes (f g : Nat → DataType) (input : Input) (index : Nat) :
    (inputBytes f input index).length = (inputBytes g input index).length := by
  match input with
  | .scalar none _ _ => rfl
  | .scalar (some _) _ _ =>
    exact (length_baseBytes _ _ _).trans (length_baseBytes _ _ _).symm
  | .scalarList (some (some _ :: _)) _ _ =>
    show (baseBytes _ _ _ ++ _).length = (baseBytes _ _ _ ++ _).length
    rw [length_append, length_append, length_baseBytes, length_baseBytes]
  | .scalarList none _ _ | .scalarList (some []) _ _ | .scalarList (some (none :: _)) _ _
  | .tensor _ | .intArray _ | .boolArray _ | .floatArray _ | .tensorList _ => rfl

theorem length_inputsBytes {x y : Call} (h : x.inputs = y.inputs) :
    x.inputsBytes.length = y.inputsBytes.length := by
  unfold Call.inputsBytes
  rw [h, length_flatMap, length_flatMap]
  congr 1
  exact map_congr_left fun p _ => length_inputBytes _ _ p.1 p.2

theorem attrsBytes_eq (c : Call) : c.attrsBytes =
    (if c.attrs = [] then [] else [placeHolder]) ++ attrsConcat c.attrs := by
  have hrest : ∀ (attrs : List Attr) (i : Nat),
      (attrs.zipIdx (i + 1)).flatMap (fun p => attrBytes p.1 p.2) = attrsConcat attrs := by
    intro attrs
    induction attrs with
    | nil => exact fun _ => rfl
    | cons a attrs ih =>
      intro i
      rw [zipIdx_cons, flatMap_cons, ih]
      rfl
  unfold Call.attrsBytes
  cases hattrs : c.attrs with
  | nil => rfl
  | cons a attrs =>
    rw [zipIdx_cons, flatMap_cons, hrest, if_neg (cons_ne_nil _ _)]
    rfl

theorem nil_iff_of_types {xs ys : List Attr} (h : xs.map Attr.type = ys.map Attr.type) :
    xs = [] ↔ ys = [] := by
  rw [← map_eq_nil_iff (f := Attr.type), ← map_eq_nil_iff (f := Attr.type), h]

theorem length_closing (c : Call) : c.closing.length = 14 := by
  unfold Call.closing
  simp only [length_append, length_cons, length_le]

/-- What `GenArgsKey` writes behind the attributes. -/
def SlotCall.closing (c : SlotCall) : List Byte :=
  [placeHolder] ++ (le 4 c.aicNum.toNat ++ le 4 c.aivNum.toNat) ++ [placeHolder] ++
    le 4 c.mc2RankId.toNat

/-- Calls of one op with the same tensor arguments and attributes of the given types. -/
structure Call.Like (c : Call) (types : List AttrType) (x : Call) : Prop where
  opType : x.opType = c.opType
  inputs : x.inputs = c.inputs
  outputs : x.outputs = c.outputs
  types : x.attrs.map Attr.type = types

structure SlotCall.Like (c : SlotCall) (types : List AttrType) (x : SlotCall) : Prop where
  opType : x.opType = c.opType
  inputs : x.inputs = c.inputs
  outputs : x.outputs = c.outputs
  types : x.attrs.map Attr.type = types

theorem Call.attrsConcat_eq {c x y : Call} {k : List Byte} (hx : c.Like types x)
    (hy : c.Like types y) (hkx : x.key = some k) (hky : y.key = some k) :
    attrsConcat x.attrs = attrsConcat y.attrs := by
  have h := (Call.key_eq_some hkx).symm.trans (Call.key_eq_some hky)
  have hout : x.outputsBytes = y.outputsBytes := by
    unfold Call.outputsBytes
    rw [hx.outputs, hy.outputs]
  rw [hx.opType, hy.opType, hout] at h
  obtain ⟨-, h⟩ := append_inj (append_cancel_left h)
    (length_inputsBytes (hx.inputs.trans hy.inputs.symm))
  obtain ⟨h, -⟩ := append_inj' (append_cancel_left h) (by
    rw [length_closing, length_closing])
  rw [attrsBytes_eq, attrsBytes_eq] at h
  simp only [nil_iff_of_types (hx.types.trans hy.types.symm)] at h
  exact append_cancel_left h

theorem SlotCall.flatten_pieces (c : SlotCall) : c.pieces.flatten =
    (c.opType.val ++ (c.inputs.map inputSlotBytes).flatten ++ [placeHolder] ++
      (c.outputs.map outputSlotBytes).flatten ++ [placeHolder]) ++
    (attrsConcat c.attrs ++ c.closing) := by
  unfold SlotCall.pieces SlotCall.closing attrsConcat
  simp only [flatten_append, flatten_cons, flatten_nil, append_nil, append_assoc, flatMap_def]

theorem SlotCall.attrsConcat_eq {c x y : SlotCall} (hx : c.Like types x) (hy : c.Like types y)
    (hkey : x.key = y.key) :
    attrsConcat x.attrs = attrsConcat y.attrs := by
  rw [SlotCall.key_eq, SlotCall.key_eq] at hkey
  have h := Option.some.inj hkey
  rw [flatten_pieces, flatten_pieces] at h
  rw [hx.opType, hx.inputs, hx.outputs, hy.opType, hy.inputs, hy.outputs] at h
  exact (append_inj' (append_cancel_left h) rfl).1

/-- The key determines the attributes of all calls with one op's tensor arguments exactly
where behind an array there are plain attributes only, on both ways to the key. -/
theorem attr_key_iff (types : List AttrType) (c : Call) (d : SlotCall)
    (hserved : ∀ input ∈ c.inputs, input.Served) :
    ((∀ x y k, c.Like types x → c.Like types y → x.key = some k → y.key = some k →
        x.attrs = y.attrs) ↔ ArrayLast types) ∧
      ((∀ x y, d.Like types x → d.Like types y → x.key = y.key → x.attrs = y.attrs) ↔
        ArrayLast types) := by
  refine ⟨⟨fun h => ?_, fun hlast x y k hx hy hkx hky => ?_⟩,
    ⟨fun h => ?_, fun hlast x y hx hy hkey => ?_⟩⟩
  · -- an array in front of others: two lists of values have the same bytes
    by_contra hlast
    obtain ⟨xs, ys, hxs, hys, hbytes, hne⟩ := attrs_collide hlast
    have hkx := Call.key_eq (c := { c with attrs := xs }) hserved
    have hky := Call.key_eq (c := { c with attrs := ys }) hserved
    have hattrs : ({ c with attrs := ys } : Call).attrsBytes =
        ({ c with attrs := xs } : Call).attrsBytes := by
      rw [attrsBytes_eq, attrsBytes_eq]
      simp only [hbytes, nil_iff_of_types (hxs.trans hys.symm)]
    rw [hattrs] at hky
    exact hne (h { c with attrs := xs } { c with attrs := ys } _ ⟨rfl, rfl, rfl, hxs⟩
      ⟨rfl, rfl, rfl, hys⟩ hkx hky)
  · refine attrs_inj (hx.types.trans hy.types.symm) (hx.types.symm ▸ hlast) ?_
    exact Call.attrsConcat_eq hx hy hkx hky
  · by_contra hlast
    obtain ⟨xs, ys, hxs, hys, hbytes, hne⟩ := attrs_collide hlast
    refine hne (h { d with attrs := xs } { d with attrs := ys } ⟨rfl, rfl, rfl, hxs⟩
      ⟨rfl, rfl, rfl, hys⟩ ?_)
    rw [SlotCall.key_eq, SlotCall.key_eq, SlotCall.flatten_pieces, SlotCall.flatten_pieces, hbytes]
    rfl
  · refine attrs_inj (hx.types.trans hy.types.symm) (hx.types.symm ▸ hlast) ?_
    exact SlotCall.attrsConcat_eq hx hy hkey

/-- A call with these attributes and nothing else, through the `NnopbaseAdd…` functions. -/
def bareCall (attrs : List Attr) : Call where
  opType := ⟨[65], by decide⟩
  slotType _ := .DT_FLOAT
  inputs := []
  outputs := []
  attrs := attrs
  aicNum := 24
  aivNum := 48
  mc2RankId := 0

/-- The same with the arguments in their slots. -/
def bareSlotCall (attrs : List Attr) : SlotCall where
  opType := ⟨[65], by decide⟩
  inputs := []
  outputs := []
  attrs := attrs
  aicNum := 24
  aivNum := 48
  mc2RankId := 0

/-- A number and a string behind it: only equal values share a key. -/
theorem attr_key_iff_string :
    (∀ x y k, (bareCall []).Like [.plain 8, .string] x → (bareCall []).Like [.plain 8, .string] y →
        x.key = some k → y.key = some k → x.attrs = y.attrs) ∧
      ∀ x y, (bareSlotCall []).Like [.plain 8, .string] x →
        (bareSlotCall []).Like [.plain 8, .string] y → x.key = y.key → x.attrs = y.attrs := by
  have h := attr_key_iff [.plain 8, .string] (bareCall []) (bareSlotCall [])
    fun input hinput => absurd hinput not_mem_nil
  exact ⟨h.1.mpr (by decide), h.2.mpr (by decide)⟩

/-- The `int64_t` arrays `[1], [2, 3]` and `[1, 2], [3]` have one key. -/
def intArrays (xs ys : List Int64) : List Attr :=
  let array (zs : List Int64) := Attr.array 8 (by decide)
    (zs.map fun z => ⟨le8 z.toUInt64, length_le8 _⟩)
  [array xs, array ys]

/-- Two integer arrays can share the same elements out differently under one key. -/
theorem arrays_collide :
    ((bareCall (intArrays [1] [2, 3])).key = (bareCall (intArrays [1, 2] [3])).key ∧
      (bareSlotCall (intArrays [1] [2, 3])).key = (bareSlotCall (intArrays [1, 2] [3])).key) ∧
    ((bareCall (intArrays [1] [2, 3])).attrs.map Attr.type =
      (bareCall (intArrays [1, 2] [3])).attrs.map Attr.type ∧
      (bareCall (intArrays [1] [2, 3])).attrs ≠ (bareCall (intArrays [1, 2] [3])).attrs) := by
  refine ⟨⟨?_, ?_⟩, rfl, fun h => ?_⟩
  · have hserved : ∀ xs ys, ∀ input ∈ (bareCall (intArrays xs ys)).inputs, input.Served :=
      fun _ _ _ hinput => absurd hinput not_mem_nil
    rw [Call.key_eq (hserved _ _), Call.key_eq (hserved _ _)]
    rfl
  · rw [SlotCall.key_eq, SlotCall.key_eq]
    rfl
  · have harray := (List.cons.inj h).1
    have hlen := congrArg List.length (eq_of_heq (Attr.array.inj harray).2)
    exact absurd hlen (by decide)

end OpBase.Indv
