import OpBase.Indv.StaticKeySize

/-!
# Keys and the executor's history

Both generators skip the front of a buffer that is there already: a static key the op type
and two words for the settings, a dynamic key the op type alone. The first two bytes behind
the op type of a dynamic key are the settings, and what follows are types and formats; the
next static key that fits the buffer takes all these for its own settings. It does so,
too, when only the settings have changed.

> `Left.after`: what a call leaves for the next one, read off the call and what was left to
> it. No values and no hash are needed, only the sizes and the bytes as far as the sixteenth
> behind the op type.
>
> `as_fresh_iff`: so whether the next key is the one of a fresh executor is a property of the
> list of calls, `Ready` after `Left.after` all along it.
>
> `static_keys_as_fresh`, `dynamic_keys_as_fresh`: it is after static keys that fit, as long
> as the settings stay, and after dynamic keys under any settings.
-/

namespace OpBase.Indv.BinKey

open List OpBase.Lib
open OpBase.Cache.Key (securecMemMaxLen)
open Option (bind_eq_some_iff map_eq_some_iff)

variable {op : Op} {hasher : UInt64 → UInt64} {sys : SysParams} {a : KeyArgs op} {k : BinInfoKey}
  {bytes : List Byte} {c : Cursor} {r : Bool × BinInfoKey} {k' : BinInfoKey} {call : Call op}
  {history : List (Call op)}

/-- Both executors come back with the same answer and, if there is a key, with the same bytes
and the same hash. -/
def SameAsFresh (hasher : UInt64 → UInt64) (k : BinInfoKey) (call : Call op) : Prop :=
  ∃ r r₀, call.generate hasher k = some r ∧ call.generate hasher .fresh = some r₀ ∧ r.1 = r₀.1 ∧
    (r.1 = true → r.2.key = r₀.2.key)

/-! ## What a call leaves -/

/-- As far as the calls on an executor decide about the next one: the buffer up to the sixteenth
byte behind the op type, its length, and `bufLen`. -/
@[ext]
structure Left where
  front : List Byte
  room : Nat
  bufLen : Nat
deriving DecidableEq

/-- The op type and the two words for the settings. -/
def frontLen (op : Op) : Nat := op.opType.val.length + 16

namespace Left

def of (op : Op) (k : BinInfoKey) : Left :=
  ⟨k.verbose.take (frontLen op), k.verbose.length, k.bufLen⟩

/-- Before the first call. -/
def fresh : Left := ⟨[], 0, 0⟩

/-- A new buffer with a key at its start. -/
def new (op : Op) (key : List Byte) (room bufLen : Nat) : Left :=
  ⟨(patch 0 key (List.replicate room 0)).take (frontLen op), room, bufLen⟩

/-- A static key writes the front with a new buffer only, a dynamic key writes on behind the op
type. -/
def after (l : Left) : Call op → Left
  | .static sys a =>
    let len := (computeGenKeySize a).toNat
    if maxStatickeyLen < len ∨ len ≤ l.bufLen then l
    else new op (staticKey sys a) (len + replayVerkeyExtBufLen) (len + replayVerkeyExtBufLen)
  | .dynamic sys a =>
    let size := dynamicKeyLen a + verkeyExtBufLen
    if l.room = 0 then new op (dynamicKey sys a) size (size % 2 ^ 32)
    else
      { l with
        front := (patch op.opType.val.length (paramsBytes sys a) l.front).take (frontLen op) }

end Left

/-- The key is rejected or fits a new buffer, and unless it gets one, its front is what was left
and the rest fits the buffer. -/
def StaticReady (sys : SysParams) (a : KeyArgs op) (l : Left) : Prop :=
  let len := (computeGenKeySize a).toNat
  maxStatickeyLen < len ∨
    0 < len ∧ (staticKey sys a).length ≤ len + replayVerkeyExtBufLen ∧
      (l.bufLen < len ∨
        op.opType.val.length ≤ len + replayVerkeyExtBufLen ∧
          l.front = op.opType.val ++ settingWords sys ∧ layoutLength a ≤ l.room)

/-- The key fits a new buffer, and unless it gets one, the buffer begins with the op type and
has room for the key. -/
def DynamicReady (sys : SysParams) (a : KeyArgs op) (l : Left) : Prop :=
  let size := dynamicKeyLen a + verkeyExtBufLen
  (dynamicKey sys a).length ≤ size ∧
    (l.room = 0 ∨
      copied (size % 2 ^ 32) op.opType.val = op.opType.val ∧ op.opType.val <+: l.front ∧
        op.opType.val.length + (paramsBytes sys a).length ≤ l.room)

def Ready (l : Left) : Call op → Prop
  | .static sys a => StaticReady sys a l
  | .dynamic sys a => DynamicReady sys a l

instance (sys : SysParams) (a : KeyArgs op) (l : Left) : Decidable (StaticReady sys a l) :=
  inferInstanceAs (Decidable (_ < _ ∨ _ < _ ∧ _ ≤ _ ∧ (_ < _ ∨ _ ≤ _ ∧ _ = _ ∧ _ ≤ _)))

instance (sys : SysParams) (a : KeyArgs op) (l : Left) : Decidable (DynamicReady sys a l) :=
  inferInstanceAs (Decidable (_ ≤ _ ∧ (_ = _ ∨ _ = _ ∧ _ <+: _ ∧ _ ≤ _)))

instance (l : Left) : (call : Call op) → Decidable (Ready l call)
  | .static sys a => inferInstanceAs (Decidable (StaticReady sys a l))
  | .dynamic sys a => inferInstanceAs (Decidable (DynamicReady sys a l))

/-! ## The bytes of a key -/

/-- A key that was written from the start of its buffer is those bytes and their bucket. -/
theorem key_of_start {size bufLen : Nat}
    (h : (Cursor.start (List.replicate size 0)).put bytes = some c) (hlen : bytes.length < 2 ^ 32) :
    (BinInfoKey.close hasher c bufLen).key =
      (bytes, hashBinary hasher bytes % normMaxBinBuckets) := by
  have hpos : c.pos = bytes.length := (Cursor.put_eq_some h).2.2.trans (Nat.zero_add _)
  have hwritten : c.written = bytes := Cursor.take_of_put h
  rw [key_close (by rwa [hpos]), hwritten]

theorem key_of_seek {pos bufLen : Nat} {buf : List Byte}
    (h : ((Cursor.seek buf pos).bind fun c => c.put bytes) = some c)
    (hlen : pos + bytes.length < 2 ^ 32) :
    (BinInfoKey.close hasher c bufLen).key =
      (buf.take pos ++ bytes, hashBinary hasher (buf.take pos ++ bytes) % normMaxBinBuckets) := by
  obtain ⟨c₀, hseek, hput⟩ := bind_eq_some_iff.mp h
  obtain ⟨hbuf, hpos₀⟩ := Cursor.seek_eq_some hseek
  have hpos : c.pos = pos + bytes.length := hpos₀ ▸ (Cursor.put_eq_some hput).2.2
  have hwritten : c.written = buf.take pos ++ bytes := by
    rw [Cursor.take_of_put hput, Cursor.written, hbuf, hpos₀]
  rw [key_close (by rwa [hpos]), hwritten]

/-- A write at a position succeeds just when there is room behind it. -/
theorem seek_put_isSome {pos : Nat} {buf : List Byte} :
    (∃ c, ((Cursor.seek buf pos).bind fun c => c.put bytes) = some c) ↔
      pos + bytes.length ≤ buf.length := by
  constructor
  · rintro ⟨c, hc⟩
    obtain ⟨c₀, hseek, hput⟩ := bind_eq_some_iff.mp hc
    obtain ⟨hbuf, hpos⟩ := Cursor.seek_eq_some hseek
    have hle := (Cursor.put_eq_some hput).1
    rwa [hbuf, hpos] at hle
  · intro hle
    rw [Cursor.seek_of_le (Nat.le_of_add_right_le hle), Option.bind_some, Cursor.put_of_le hle]
    exact ⟨_, rfl⟩

theorem start_put_isSome {size : Nat} :
    (∃ c, (Cursor.start (List.replicate size 0)).put bytes = some c) ↔ bytes.length ≤ size := by
  rw [← Option.isSome_iff_exists, Cursor.put_isSome]
  show 0 + bytes.length ≤ (List.replicate size (0 : Byte)).length ↔ _
  rw [length_replicate, Nat.zero_add]

theorem opType_prefix_iff :
    op.opType.val <+: (Left.of op k).front ↔
      k.verbose.take op.opType.val.length = op.opType.val := by
  show op.opType.val <+: k.verbose.take (op.opType.val.length + 16) ↔ _
  rw [prefix_iff_eq_take, take_take, Nat.min_eq_left (Nat.le_add_right _ _), eq_comm]

theorem room_eq_zero : (Left.of op k).room = 0 ↔ k.verbose = [] := length_eq_zero_iff

/-! ## The static key -/

/-- What a fresh executor's static key is. -/
theorem static_fresh (hlen : (computeGenKeySize a).toNat ≤ maxStatickeyLen)
    (h : genStaticKey hasher sys a .fresh = some r) :
    (staticKey sys a).length ≤ (computeGenKeySize a).toNat + replayVerkeyExtBufLen ∧
      0 < (computeGenKeySize a).toNat ∧ r.1 = true ∧
        r.2.key = (staticKey sys a, hashBinary hasher (staticKey sys a) % normMaxBinBuckets) := by
  by_cases hpos : 0 < (computeGenKeySize a).toNat
  · rw [genStaticKey_new hlen hpos] at h
    obtain ⟨c, hc, rfl⟩ := map_eq_some_iff.mp h
    have hle := start_put_isSome.mp ⟨c, hc⟩
    refine ⟨hle, hpos, rfl, key_of_start hc ?_⟩
    unfold maxStatickeyLen at hlen
    unfold replayVerkeyExtBufLen at hle
    omega
  · -- a size of 0 would not even get a buffer
    rw [genStaticKey_again hlen (Nat.le_of_not_lt hpos)] at h
    obtain ⟨c, hc, -⟩ := map_eq_some_iff.mp h
    have hle := seek_put_isSome.mp ⟨c, hc⟩
    exact absurd hle (by show ¬ _ ≤ 0; omega)

theorem static_fresh_exists (hasher : UInt64 → UInt64)
    (hlen : (computeGenKeySize a).toNat ≤ maxStatickeyLen)
    (hpos : 0 < (computeGenKeySize a).toNat)
    (hfits : (staticKey sys a).length ≤ (computeGenKeySize a).toNat + replayVerkeyExtBufLen) :
    ∃ r, genStaticKey hasher sys a .fresh = some r := by
  obtain ⟨c, hc⟩ := start_put_isSome.mpr hfits
  rw [genStaticKey_new hlen hpos, hc]
  exact ⟨_, rfl⟩

/-- What a static key is over an earlier one: its header is the earlier one's. -/
theorem static_again (hlen : (computeGenKeySize a).toNat ≤ maxStatickeyLen)
    (hold : (computeGenKeySize a).toNat ≤ k.bufLen) (h : genStaticKey hasher sys a k = some r) :
    layoutLength a ≤ k.verbose.length ∧ r.1 = true ∧
      (layoutLength a < 2 ^ 32 → r.2.key =
        (k.verbose.take (op.opType.val.length + 16) ++ itemsBytes a,
          hashBinary hasher (k.verbose.take (op.opType.val.length + 16) ++ itemsBytes a) %
            normMaxBinBuckets)) := by
  rw [genStaticKey_again hlen hold] at h
  obtain ⟨c, hc, rfl⟩ := map_eq_some_iff.mp h
  exact ⟨seek_put_isSome.mp ⟨c, hc⟩, rfl, key_of_seek hc⟩

theorem length_front (sys : SysParams) :
    (op.opType.val ++ settingWords sys).length = op.opType.val.length + 16 := by
  rw [length_append, length_settingWords]

theorem staticKey_eq (hlen : (computeGenKeySize a).toNat ≤ maxStatickeyLen)
    (hop : op.opType.val.length ≤ (computeGenKeySize a).toNat + replayVerkeyExtBufLen) :
    staticKey sys a = op.opType.val ++ settingWords sys ++ itemsBytes a := by
  unfold staticKey copied
  unfold maxStatickeyLen at hlen
  rw [if_pos ⟨by unfold securecMemMaxLen replayVerkeyExtBufLen; omega, hop⟩]

theorem length_staticKey_of_lt (sys : SysParams)
    (hop : (computeGenKeySize a).toNat + replayVerkeyExtBufLen < op.opType.val.length) :
    (staticKey sys a).length + op.opType.val.length = layoutLength a := by
  unfold staticKey copied layoutLength
  rw [if_neg (fun h => absurd h.2 (Nat.not_le.mpr hop)), nil_append, length_append,
    length_settingWords]
  omega

/-- A static key is that of a fresh executor just when the buffer is ready for it. -/
theorem static_as_fresh_iff (hasher : UInt64 → UInt64) (sys : SysParams) (a : KeyArgs op)
    (k : BinInfoKey) :
    SameAsFresh hasher k (.static sys a) ↔ StaticReady sys a (.of op k) := by
  unfold StaticReady Left.of frontLen
  dsimp only
  by_cases hlen : (computeGenKeySize a).toNat ≤ maxStatickeyLen
  · rw [or_iff_right (Nat.not_lt.mpr hlen)]
    constructor
    · rintro ⟨r, r₀, hr, hr₀, -, hkey⟩
      obtain ⟨hfits, hpos, -, hkey₀⟩ := static_fresh hlen hr₀
      refine ⟨hpos, hfits, ?_⟩
      by_cases hnew : k.bufLen < (computeGenKeySize a).toNat
      · exact .inl hnew
      · obtain ⟨hroom, htrue, hkey₁⟩ := static_again hlen (Nat.le_of_not_lt hnew) hr
        have hname := op.opType.property.2
        unfold maxStatickeyLen at hlen
        unfold replayVerkeyExtBufLen at hfits
        unfold securecMemMaxLen at hname
        by_cases hop : op.opType.val.length ≤ (computeGenKeySize a).toNat + replayVerkeyExtBufLen
        · have hlayout := length_staticKey sys hop hlen
          have heq := congrArg Prod.fst ((hkey₁ (by omega)).symm.trans ((hkey htrue).trans hkey₀))
          rw [staticKey_eq hlen hop] at heq
          exact .inr ⟨hop, append_cancel_right heq, hroom⟩
        · -- the fresh key lacks the op type, this one has as many bytes in its place
          have hlayout := length_staticKey_of_lt sys (Nat.lt_of_not_le hop)
          have heq := congrArg (·.1.length)
            ((hkey₁ (by omega)).symm.trans ((hkey htrue).trans hkey₀))
          simp only [length_append, length_take] at heq
          unfold layoutLength at hlayout hroom
          omega
    · rintro ⟨hpos, hfits, hbuf⟩
      obtain ⟨r₀, hr₀⟩ := static_fresh_exists hasher hlen hpos hfits
      obtain ⟨-, -, htrue₀, hkey₀⟩ := static_fresh hlen hr₀
      by_cases hnew : k.bufLen < (computeGenKeySize a).toNat
      · -- a new buffer: the two runs are the same
        refine ⟨r₀, r₀, ?_, hr₀, rfl, fun _ => rfl⟩
        show genStaticKey hasher sys a k = _
        rw [genStaticKey_new hlen hnew, ← genStaticKey_new (k := .fresh) hlen hpos]
        exact hr₀
      · obtain ⟨hop, hfront, hroom⟩ := hbuf.resolve_left hnew
        obtain ⟨c, hc⟩ := seek_put_isSome.mpr hroom
        have hr : genStaticKey hasher sys a k = some (true, .close hasher c k.bufLen) := by
          rw [genStaticKey_again hlen (Nat.le_of_not_lt hnew), hc]
          rfl
        refine ⟨_, r₀, hr, hr₀, htrue₀.symm, fun _ => ?_⟩
        have hlayout := length_staticKey sys hop hlen
        unfold maxStatickeyLen at hlen
        unfold replayVerkeyExtBufLen at hfits
        rw [(static_again hlen (Nat.le_of_not_lt hnew) hr).2.2 (by omega), hkey₀,
          staticKey_eq hlen hop, hfront]
  · have hlong := Nat.lt_of_not_le hlen
    have hreject : ∀ k, genStaticKey hasher sys a k = some (false, k) := fun _ => if_pos hlong
    exact iff_of_true ⟨_, _, hreject k, hreject .fresh, rfl, (nomatch ·)⟩ (.inl hlong)

/-! ## The dynamic key -/

theorem length_paramBytes {t : Tensors} (ht : t.SlotsExist) :
    (t.instances.flatMap (paramBytes t)).length = (t.requiredCnt + t.dynamicNum) * 2 := by
  have hstarts := ht.starts
  unfold Tensors.requiredCnt Tensors.dynamicNum Tensors.signature
  generalize t.instances = ps at hstarts
  induction ps with
  | nil => rfl
  | cons p ps ih =>
    have hslot := getElem?_eq_getElem (hstarts p mem_cons_self)
    have hrest := ih fun q hq => hstarts q (mem_cons_of_mem p hq)
    rw [flatMap_cons, length_append, hrest, map_cons, List.count_cons, List.count_cons]
    unfold paramBytes
    rw [hslot]
    cases p.cfgNum <;> simp <;> omega

theorem length_paramsBytes (sys : SysParams) (a : KeyArgs op) :
    dynamicKeyLen a = (op.opType.val.length + (paramsBytes sys a).length) % 2 ^ 32 := by
  unfold dynamicKeyLen paramsBytes
  rw [length_append, length_append, length_paramBytes a.inputs_slots,
    length_paramBytes a.outputs_slots]
  congr 1
  simp only [length_cons, length_nil]
  omega

theorem copied_eq_or (bufLen : Nat) (src : List Byte) :
    copied bufLen src = src ∨ copied bufLen src = [] := by
  unfold copied
  split
  next => exact .inl rfl
  next => exact .inr rfl

theorem params_lt (h : (dynamicKey sys a).length ≤ dynamicKeyLen a + verkeyExtBufLen) :
    (paramsBytes sys a).length < 2 ^ 32 ∧
      (copied ((dynamicKeyLen a + verkeyExtBufLen) % 2 ^ 32) op.opType.val = op.opType.val →
        op.opType.val.length + (paramsBytes sys a).length < 2 ^ 32) := by
  have hlen := length_paramsBytes sys a
  have hname := op.opType.property.2
  unfold dynamicKey verkeyExtBufLen at h
  unfold securecMemMaxLen at hname
  rw [length_append] at h
  refine ⟨?_, fun hcopied => ?_⟩
  · omega
  · rw [show dynamicKeyLen a + verkeyExtBufLen = dynamicKeyLen a + 16 from rfl] at hcopied
    rw [hcopied] at h
    omega

/-- What a fresh executor's dynamic key is. -/
theorem dynamic_fresh (hnew : k.verbose = []) (h : genDynamicKey hasher sys a k = some k') :
    (dynamicKey sys a).length ≤ dynamicKeyLen a + verkeyExtBufLen ∧
      k'.key = (dynamicKey sys a, hashBinary hasher (dynamicKey sys a) % normMaxBinBuckets) := by
  rw [genDynamicKey_new hnew] at h
  obtain ⟨c, hc, rfl⟩ := map_eq_some_iff.mp h
  have hle := start_put_isSome.mp ⟨c, hc⟩
  refine ⟨hle, key_of_start hc ?_⟩
  obtain ⟨hparams, hwhole⟩ := params_lt hle
  unfold dynamicKey
  rw [length_append]
  rcases copied_eq_or ((dynamicKeyLen a + verkeyExtBufLen) % 2 ^ 32) op.opType.val with heq | heq
  · rw [heq]
    exact hwhole heq
  · rw [heq, length_nil, Nat.zero_add]
    exact hparams

theorem dynamic_fresh_exists (hasher : UInt64 → UInt64) (hnew : k.verbose = [])
    (hfits : (dynamicKey sys a).length ≤ dynamicKeyLen a + verkeyExtBufLen) :
    ∃ k', genDynamicKey hasher sys a k = some k' := by
  obtain ⟨c, hc⟩ := start_put_isSome.mpr hfits
  rw [genDynamicKey_new hnew, hc]
  exact ⟨_, rfl⟩

theorem dynamic_again (hold : k.verbose ≠ []) (h : genDynamicKey hasher sys a k = some k') :
    op.opType.val.length + (paramsBytes sys a).length ≤ k.verbose.length ∧
      (op.opType.val.length + (paramsBytes sys a).length < 2 ^ 32 → k'.key =
        (k.verbose.take op.opType.val.length ++ paramsBytes sys a,
          hashBinary hasher (k.verbose.take op.opType.val.length ++ paramsBytes sys a) %
            normMaxBinBuckets)) := by
  rw [genDynamicKey_again hold] at h
  obtain ⟨c, hc, rfl⟩ := map_eq_some_iff.mp h
  exact ⟨seek_put_isSome.mp ⟨c, hc⟩, key_of_seek hc⟩

/-- A dynamic key is that of a fresh executor just when the buffer is ready for it. -/
theorem dynamic_as_fresh_iff (hasher : UInt64 → UInt64) (sys : SysParams) (a : KeyArgs op)
    (k : BinInfoKey) :
    SameAsFresh hasher k (.dynamic sys a) ↔ DynamicReady sys a (.of op k) := by
  unfold DynamicReady
  dsimp only
  rw [room_eq_zero, opType_prefix_iff]
  constructor
  · rintro ⟨r, r₀, hr, hr₀, -, hkey⟩
    obtain ⟨k', hk', rfl⟩ := map_eq_some_iff.mp hr
    obtain ⟨k₀, hk₀, rfl⟩ := map_eq_some_iff.mp hr₀
    obtain ⟨hfits, hkey₀⟩ := dynamic_fresh rfl hk₀
    refine ⟨hfits, ?_⟩
    by_cases hnew : k.verbose = []
    · exact .inl hnew
    · obtain ⟨hroom, hkey₁⟩ := dynamic_again hnew hk'
      obtain ⟨hparams, hwhole⟩ := params_lt hfits
      rcases copied_eq_or ((dynamicKeyLen a + verkeyExtBufLen) % 2 ^ 32) op.opType.val with
        hcopied | hcopied
      · have heq := congrArg Prod.fst ((hkey₁ (hwhole hcopied)).symm.trans ((hkey rfl).trans hkey₀))
        unfold dynamicKey at heq
        rw [hcopied] at heq
        exact .inr ⟨hcopied, append_cancel_right heq, hroom⟩
      · -- the fresh key lacks the op type, so there may be none
        have hlen := length_paramsBytes sys a
        have hname := op.opType.property.2
        unfold dynamicKey verkeyExtBufLen at hfits
        unfold securecMemMaxLen at hname
        rw [length_append] at hfits
        have heq := congrArg (·.1.length) ((hkey₁ (by omega)).symm.trans ((hkey rfl).trans hkey₀))
        unfold dynamicKey at heq
        simp only [hcopied, nil_append, length_append, length_take] at heq
        have hempty : op.opType.val = [] := length_eq_zero_iff.mp (by omega)
        exact .inr ⟨by rw [hcopied, hempty], by rw [hempty]; exact take_zero, hroom⟩
  · rintro ⟨hfits, hbuf⟩
    obtain ⟨k₀, hk₀⟩ := dynamic_fresh_exists (k := .fresh) hasher rfl hfits
    have hr₀ : Call.generate hasher .fresh (.dynamic sys a) = some (true, k₀) :=
      congrArg (Option.map fun k' => (true, k')) hk₀
    by_cases hnew : k.verbose = []
    · obtain ⟨k', hk'⟩ := dynamic_fresh_exists hasher hnew hfits
      refine ⟨(true, k'), _, congrArg (Option.map fun k' => (true, k')) hk', hr₀, rfl, fun _ => ?_⟩
      exact (dynamic_fresh hnew hk').2.trans (dynamic_fresh rfl hk₀).2.symm
    · obtain ⟨hcopied, hfront, hroom⟩ := hbuf.resolve_left hnew
      obtain ⟨c, hc⟩ := seek_put_isSome.mpr hroom
      have hk' : genDynamicKey hasher sys a k = some (.close hasher c k.bufLen) := by
        rw [genDynamicKey_again hnew, hc]
        rfl
      refine ⟨(true, _), _, congrArg (Option.map fun k' => (true, k')) hk', hr₀, rfl, fun _ => ?_⟩
      show BinInfoKey.key _ = k₀.key
      rw [(dynamic_again hnew hk').2 ((params_lt hfits).2 hcopied), (dynamic_fresh rfl hk₀).2]
      unfold dynamicKey
      rw [hcopied, hfront]

/-! ## Histories -/

theorem key_as_fresh_iff (hasher : UInt64 → UInt64) (k : BinInfoKey) (call : Call op) :
    SameAsFresh hasher k call ↔ Ready (.of op k) call := by
  cases call with
  | static sys a => exact static_as_fresh_iff hasher sys a k
  | dynamic sys a => exact dynamic_as_fresh_iff hasher sys a k

theorem left_new {size bufLen : Nat}
    (h : (Cursor.start (List.replicate size 0)).put bytes = some c) :
    Left.of op (.close hasher c bufLen) = .new op bytes size bufLen := by
  obtain ⟨-, hbuf, -⟩ := Cursor.put_eq_some h
  refine Left.ext ?_ ((Cursor.length_of_put h).trans length_replicate) rfl
  exact congrArg (List.take (frontLen op)) hbuf

theorem buf_of_seek {pos : Nat} {buf : List Byte}
    (h : ((Cursor.seek buf pos).bind fun c => c.put bytes) = some c) :
    pos ≤ buf.length ∧ c.buf = patch pos bytes buf ∧ c.buf.length = buf.length := by
  have hle := seek_put_isSome.mp ⟨c, h⟩
  obtain ⟨c₀, hseek, hput⟩ := bind_eq_some_iff.mp h
  obtain ⟨hbuf, hpos⟩ := Cursor.seek_eq_some hseek
  have hpatch := (Cursor.put_eq_some hput).2.1
  rw [hbuf, hpos] at hpatch
  exact ⟨Nat.le_of_add_right_le hle, hpatch, by rw [hpatch, length_patch hle]⟩

/-- What a call leaves depends on what was left to it. -/
theorem left_step (h : call.step hasher k = some k') :
    Left.of op k' = (Left.of op k).after call := by
  obtain ⟨r, hr, rfl⟩ := map_eq_some_iff.mp h
  cases call with
  | static sys a =>
    replace hr : genStaticKey hasher sys a k = some r := hr
    by_cases hlen : (computeGenKeySize a).toNat ≤ maxStatickeyLen
    · by_cases hnew : k.bufLen < (computeGenKeySize a).toNat
      · rw [genStaticKey_new hlen hnew] at hr
        obtain ⟨c, hc, rfl⟩ := map_eq_some_iff.mp hr
        have hafter : (Left.of op k).after (.static sys a) = _ :=
          if_neg (by show ¬ (_ ∨ _ ≤ k.bufLen); omega)
        rw [hafter, left_new hc]
      · -- what is written lies behind the front
        have hold := Nat.le_of_not_lt hnew
        rw [genStaticKey_again hlen hold] at hr
        obtain ⟨c, hc, rfl⟩ := map_eq_some_iff.mp hr
        obtain ⟨hpos, hbuf, hlength⟩ := buf_of_seek hc
        have hafter : (Left.of op k).after (.static sys a) = _ := if_pos (.inr hold)
        rw [hafter]
        refine Left.ext ?_ hlength rfl
        exact (congrArg (List.take (frontLen op)) hbuf).trans (take_patch_self _ hpos)
    · have hlong := Nat.lt_of_not_le hlen
      cases hr.symm.trans (if_pos hlong)
      exact (if_pos (.inl hlong)).symm
  | dynamic sys a =>
    obtain ⟨k', hk', rfl⟩ := map_eq_some_iff.mp hr
    by_cases hnew : k.verbose = []
    · rw [genDynamicKey_new hnew] at hk'
      obtain ⟨c, hc, rfl⟩ := map_eq_some_iff.mp hk'
      have hafter : (Left.of op k).after (.dynamic sys a) = _ := if_pos (room_eq_zero.mpr hnew)
      rw [hafter, left_new hc]
    · rw [genDynamicKey_again hnew] at hk'
      obtain ⟨c, hc, rfl⟩ := map_eq_some_iff.mp hk'
      obtain ⟨-, hbuf, hlength⟩ := buf_of_seek hc
      have hafter : (Left.of op k).after (.dynamic sys a) = _ :=
        if_neg (mt room_eq_zero.mp hnew)
      rw [hafter]
      refine Left.ext ?_ hlength rfl
      exact (congrArg (List.take (frontLen op)) hbuf).trans
        (take_patch _ _ (Nat.le_add_right _ _))

theorem left_run (h : run (Call.step hasher) k history = some k') :
    Left.of op k' = history.foldl Left.after (Left.of op k) := by
  induction history generalizing k with
  | nil => cases h; rfl
  | cons call history ih =>
    obtain ⟨t, ht, hrun⟩ := run_cons_eq_some.mp h
    rw [ih hrun, left_step ht, foldl_cons]

/-- What a list of calls leaves of a fresh executor. -/
def leftBy (history : List (Call op)) : Left := history.foldl Left.after .fresh

theorem as_fresh_iff (hasher : UInt64 → UInt64)
    (hrun : run (Call.step hasher) .fresh history = some k) (next : Call op) :
    SameAsFresh hasher k next ↔ Ready (leftBy history) next := by
  rw [key_as_fresh_iff, left_run hrun]
  rfl

theorem step_of_ready (hasher : UInt64 → UInt64) (h : Ready (.of op k) call) :
    ∃ k', call.step hasher k = some k' := by
  obtain ⟨r, -, hr, -⟩ := (key_as_fresh_iff hasher k call).mpr h
  exact ⟨r.2, congrArg (Option.map Prod.snd) hr⟩

/-- A list of calls each of which is ready after the ones before it. -/
theorem run_of_ready (hasher : UInt64 → UInt64) (history : List (Call op))
    (h : ∀ done call rest, history = done ++ call :: rest → Ready (leftBy done) call) :
    ∃ k, run (Call.step hasher) .fresh history = some k := by
  induction history using List.reverseRecOn with
  | nil => exact ⟨_, rfl⟩
  | append_singleton history call ih =>
    obtain ⟨k, hrun⟩ := ih fun done c rest heq =>
      h done c (rest ++ [call]) (by rw [heq, append_assoc, cons_append])
    have hready := h history call [] rfl
    rw [show leftBy history = Left.of op k from (left_run hrun).symm] at hready
    obtain ⟨k', hstep⟩ := step_of_ready hasher hready
    refine ⟨k', ?_⟩
    rw [run_append, hrun, Option.bind_some]
    exact run_cons_eq_some.mpr ⟨k', hstep, rfl⟩

theorem left_front {key front : List Byte} (room bufLen : Nat) (rest : List Byte)
    (hkey : key = front ++ rest) (hlen : front.length ≤ frontLen op) :
    front <+: (Left.new op key room bufLen).front := by
  show front <+: ((List.replicate room 0).take 0 ++ key ++ _).take (frontLen op)
  rw [take_zero, nil_append, hkey, append_assoc]
  exact prefix_take_iff.mpr ⟨prefix_append _ _, hlen⟩

/-- Calls that keep something about what is left, and are ready wherever it holds, give the keys
of a fresh executor in any order and number. -/
theorem as_fresh_of_front {P : Left → Prop} {ok : Call op → Prop} (hfresh : P .fresh)
    (hafter : ∀ l c, P l → ok c → P (l.after c)) (hready : ∀ l c, P l → ok c → Ready l c)
    (hasher : UInt64 → UInt64) (history : List (Call op)) (next : Call op)
    (h : ∀ c ∈ next :: history, ok c) :
    ∃ k, run (Call.step hasher) .fresh history = some k ∧ SameAsFresh hasher k next := by
  have hleft : ∀ done : List (Call op), (∀ c ∈ done, ok c) → P (leftBy done) := fun done hdone =>
    foldlRecOn done Left.after hfresh fun l hl c hc => hafter l c hl (hdone c hc)
  obtain ⟨hnext, hhistory⟩ := forall_mem_cons.mp h
  obtain ⟨k, hrun⟩ := run_of_ready hasher history fun done call rest heq => by
    subst heq
    obtain ⟨hdone, hrest⟩ := forall_mem_append.mp hhistory
    exact hready _ _ (hleft done hdone) (hrest call mem_cons_self)
  exact ⟨k, hrun, (as_fresh_iff hasher hrun next).mpr (hready _ _ (hleft history hhistory) hnext)⟩

/-! ## Static keys only -/

/-- A static key under these settings that is written where it belongs. -/
def Call.StaticUnder (sys : SysParams) : Call op → Prop
  | .static sys' a => sys' = sys ∧ SizeFits a
  | .dynamic _ _ => False

/-- What static keys under these settings leave. -/
def StaticFront (op : Op) (sys : SysParams) (l : Left) : Prop :=
  l.bufLen ≤ l.room ∧ (l.bufLen = 0 ∨ l.front = op.opType.val ++ settingWords sys)

theorem length_layout (hlen : (computeGenKeySize a).toNat ≤ maxStatickeyLen) (ha : SizeFits a) :
    layoutLength a = (computeGenKeySize a).toNat := by
  have hcompute := computeGenKeySize_eq ha.1
  have hsize : keySize a ≤ maxStatickeyLen := by rwa [← hcompute]
  have hnarrow := ha.2 hsize
  rw [hcompute, (keySize_le (copyable_of_narrow hsize hnarrow)).2.mpr hnarrow]

variable {l : Left}

theorem staticReady_of_front (hl : StaticFront op sys l) (ha : SizeFits a) :
    StaticReady sys a l := by
  by_cases hlen : (computeGenKeySize a).toNat ≤ maxStatickeyLen
  · have hop := opType_le ha.1
    have hlayout := length_layout hlen ha
    have hstatic := length_staticKey sys hop hlen
    have hfront : op.opType.val.length + 16 ≤ layoutLength a := Nat.le_add_right _ _
    refine .inr ⟨by omega, by omega, ?_⟩
    by_cases hnew : l.bufLen < (computeGenKeySize a).toNat
    · exact .inl hnew
    · have hroom := hl.1
      exact .inr ⟨hop, hl.2.resolve_left (by omega), by omega⟩
  · exact .inl (Nat.lt_of_not_le hlen)

theorem staticFront_after (hl : StaticFront op sys l) (hcall : call.StaticUnder sys) :
    StaticFront op sys (l.after call) := by
  cases call with
  | dynamic sys' b => exact hcall.elim
  | static sys' b =>
    obtain ⟨rfl, hb⟩ := hcall
    by_cases hkept : maxStatickeyLen < (computeGenKeySize b).toNat ∨
        (computeGenKeySize b).toNat ≤ l.bufLen
    · rwa [show l.after (.static sys' b) = l from if_pos hkept]
    · rw [show l.after (.static sys' b) = _ from if_neg hkept]
      have hlen : (computeGenKeySize b).toNat ≤ maxStatickeyLen := by omega
      have hfront := left_front ((computeGenKeySize b).toNat + replayVerkeyExtBufLen)
        ((computeGenKeySize b).toNat + replayVerkeyExtBufLen) _
        (staticKey_eq hlen (opType_le hb.1)) (length_front sys').le
      refine ⟨Nat.le_refl _, .inr (hfront.eq_of_length_le ?_).symm⟩
      rw [length_front]
      exact length_take_le _ _

theorem ready_of_staticFront (hl : StaticFront op sys l) (hcall : call.StaticUnder sys) :
    Ready l call := by
  cases call with
  | static sys' b => exact hcall.1 ▸ staticReady_of_front hl hcall.2
  | dynamic sys' b => exact hcall.elim

/-- As long as the settings stay, static keys that fit do not depend on each other. -/
theorem static_keys_as_fresh (hasher : UInt64 → UInt64) (history : List (Call op)) (next : Call op)
    (h : ∀ c ∈ next :: history, c.StaticUnder sys) :
    ∃ k, run (Call.step hasher) .fresh history = some k ∧ SameAsFresh hasher k next :=
  as_fresh_of_front (P := StaticFront op sys) ⟨Nat.le_refl 0, .inl rfl⟩
    (fun _ _ => staticFront_after) (fun _ _ => ready_of_staticFront) hasher history next h

/-! ## Dynamic keys only -/

/-- The parameters a dynamic key describes. -/
def describedCnt (ps : List ParamType) : Nat := ps.count .required + ps.count .dynamic

/-- The bytes of a dynamic key, before the counts are cut to 32 bits. -/
def dynamicLayout (op : Op) : Nat :=
  op.opType.val.length + 2 + (describedCnt op.inputs + describedCnt op.outputs) * 2

/-- The buffer of a dynamic key is one that `memcpy_s` writes to. -/
def DynamicFits (op : Op) : Prop := dynamicLayout op + verkeyExtBufLen ≤ securecMemMaxLen

instance : Decidable (DynamicFits op) := inferInstanceAs (Decidable (_ ≤ _))

def Call.IsDynamic : Call op → Prop
  | .static _ _ => False
  | .dynamic _ _ => True

/-- What dynamic keys leave. -/
def DynamicFront (op : Op) (l : Left) : Prop :=
  l.room = 0 ∨ op.opType.val <+: l.front ∧ dynamicLayout op ≤ l.room

theorem length_dynamicLayout (sys : SysParams) (a : KeyArgs op) :
    op.opType.val.length + (paramsBytes sys a).length = dynamicLayout op := by
  unfold paramsBytes dynamicLayout describedCnt
  rw [length_append, length_append, length_paramBytes a.inputs_slots,
    length_paramBytes a.outputs_slots, ← a.inputs_signature, ← a.outputs_signature]
  show _ + (2 + (_ + _)) = _ + 2 + (a.inputs.requiredCnt + a.inputs.dynamicNum +
    (a.outputs.requiredCnt + a.outputs.dynamicNum)) * 2
  omega

theorem dynamicKey_eq (hop : DynamicFits op) (sys : SysParams) (a : KeyArgs op) :
    dynamicKeyLen a = dynamicLayout op ∧
      copied ((dynamicKeyLen a + verkeyExtBufLen) % 2 ^ 32) op.opType.val = op.opType.val := by
  have hlayout := length_dynamicLayout sys a
  have hlen : dynamicKeyLen a = dynamicLayout op := by
    rw [length_paramsBytes sys, hlayout]
    unfold DynamicFits securecMemMaxLen at hop
    exact Nat.mod_eq_of_lt (by omega)
  refine ⟨hlen, if_pos ?_⟩
  unfold DynamicFits at hop
  rw [hlen, Nat.mod_eq_of_lt (by unfold securecMemMaxLen at hop; omega)]
  exact ⟨hop, by omega⟩

theorem ready_of_dynamicFront (hop : DynamicFits op) (hl : DynamicFront op l)
    (hcall : call.IsDynamic) : Ready l call := by
  cases call with
  | static sys a => exact hcall.elim
  | dynamic sys a =>
    obtain ⟨hlen, hcopied⟩ := dynamicKey_eq hop sys a
    have hlayout := length_dynamicLayout sys a
    refine ⟨?_, hl.imp_right fun hfront => ⟨hcopied, hfront.1, hlayout ▸ hfront.2⟩⟩
    unfold dynamicKey
    rw [hcopied, length_append, hlayout, hlen]
    exact Nat.le_add_right _ _

theorem dynamicFront_after (hop : DynamicFits op) (hl : DynamicFront op l)
    (hcall : call.IsDynamic) : DynamicFront op (l.after call) := by
  cases call with
  | static sys a => exact hcall.elim
  | dynamic sys a =>
    obtain ⟨hlen, hcopied⟩ := dynamicKey_eq hop sys a
    refine .inr ?_
    by_cases hroom : l.room = 0
    · rw [show l.after (.dynamic sys a) = _ from if_pos hroom]
      refine ⟨left_front _ _ (paramsBytes sys a) ?_ (Nat.le_add_right _ _), ?_⟩
      · unfold dynamicKey
        rw [hcopied]
      · show dynamicLayout op ≤ dynamicKeyLen a + verkeyExtBufLen
        rw [hlen]
        exact Nat.le_add_right _ _
    · -- the key is written behind the op type
      rw [show l.after (.dynamic sys a) = _ from if_neg hroom]
      obtain ⟨hfront, hle⟩ := hl.resolve_left hroom
      refine ⟨prefix_take_iff.mpr ⟨?_, Nat.le_add_right _ _⟩, hle⟩
      unfold patch
      rw [← prefix_iff_eq_take.mp hfront, append_assoc]
      exact prefix_append _ _

/-- Dynamic keys do not depend on each other, whatever the settings are. -/
theorem dynamic_keys_as_fresh (hop : DynamicFits op) (hasher : UInt64 → UInt64)
    (history : List (Call op)) (next : Call op) (h : ∀ c ∈ next :: history, c.IsDynamic) :
    ∃ k, run (Call.step hasher) .fresh history = some k ∧ SameAsFresh hasher k next :=
  as_fresh_of_front (P := DynamicFront op) (.inl rfl) (fun _ _ => dynamicFront_after hop)
    (fun _ _ => ready_of_dynamicFront hop) hasher history next h

/-! ## Any calls -/

/-- After any history the next key is the one of a fresh executor if and only if it is ready for
what the calls have left. After static keys under the settings that still hold it is, and after
dynamic keys only. -/
theorem bin_key_as_fresh_iff (hasher : UInt64 → UInt64) (history : List (Call op))
    (next : Call op) :
    (∀ k, run (Call.step hasher) .fresh history = some k →
      (SameAsFresh hasher k next ↔ Ready (leftBy history) next)) ∧
    (((∃ sys, ∀ c ∈ next :: history, c.StaticUnder sys) ∨
        DynamicFits op ∧ ∀ c ∈ next :: history, c.IsDynamic) →
      ∃ k, run (Call.step hasher) .fresh history = some k ∧ SameAsFresh hasher k next) := by
  refine ⟨fun k hrun => as_fresh_iff hasher hrun next, ?_⟩
  rintro (⟨sys, hstatic⟩ | ⟨hop, hdynamic⟩)
  · exact static_keys_as_fresh hasher history next hstatic
  · exact dynamic_keys_as_fresh hop hasher history next hdynamic

theorem sizeFits_attrs : SizeFits (attrArgs [⟨[7], 0⟩]) :=
  ⟨by decide, fun _ =>
    { inputs := fun _ h => (nomatch h)
      outputs := fun _ h => (nomatch h)
      attrs := fun x hx hv => by revert x; decide }⟩

/-- A static key after one of another size, a dynamic key after one under other settings, and a
static key that needs a new buffer after a dynamic one. -/
theorem bin_key_as_fresh_again :
    (∃ k, run (Call.step id) .fresh [.static ⟨false, 1⟩ (attrArgs [])] = some k ∧
      SameAsFresh id k (.static ⟨false, 1⟩ (attrArgs [⟨[7], 0⟩]))) ∧
    (∃ k, run (Call.step id) .fresh [.dynamic ⟨false, 1⟩ (attrArgs [])] = some k ∧
      SameAsFresh id k (.dynamic ⟨true, 1⟩ (attrArgs []))) ∧
    ∃ k, run (Call.step id) .fresh [.dynamic ⟨false, 1⟩ (attrArgs [])] = some k ∧
      SameAsFresh id k (.static ⟨true, 1⟩ (attrArgs [⟨[7], 0⟩])) := by
  refine ⟨?_, ?_, ?_⟩
  · have hempty : SizeFits (attrArgs []) :=
      ⟨by decide, fun _ =>
        { inputs := fun _ h => (nomatch h)
          outputs := fun _ h => (nomatch h)
          attrs := fun _ h => (nomatch h) }⟩
    refine (bin_key_as_fresh_iff id _ _).2 (.inl ⟨⟨false, 1⟩, fun c hc => ?_⟩)
    rcases mem_cons.mp hc with rfl | hc
    · exact ⟨rfl, sizeFits_attrs⟩
    · cases mem_singleton.mp hc
      exact ⟨rfl, hempty⟩
  · refine (bin_key_as_fresh_iff id _ _).2 (.inr ⟨by decide, fun c hc => ?_⟩)
    rcases mem_cons.mp hc with rfl | hc
    · trivial
    · cases mem_singleton.mp hc
      trivial
  · have hruns : (run (Call.step id) .fresh
        [Call.dynamic ⟨false, 1⟩ (attrArgs [])]).isSome := by decide +kernel
    obtain ⟨k, hrun⟩ := Option.isSome_iff_exists.mp hruns
    exact ⟨k, hrun, ((bin_key_as_fresh_iff id _ _).1 k hrun).mpr (by decide +kernel)⟩

/-- A dynamic key in between, or other settings, and the key is not the one of a fresh
executor. -/
theorem bin_key_stale :
    (∃ k, run (Call.step id) .fresh
        [.static ⟨false, 1⟩ (attrArgs []), .dynamic ⟨false, 1⟩ (attrArgs [])] = some k ∧
      ¬ SameAsFresh id k (.static ⟨false, 1⟩ (attrArgs []))) ∧
    ∃ k, run (Call.step id) .fresh [.static ⟨false, 1⟩ (attrArgs [])] = some k ∧
      ¬ SameAsFresh id k (.static ⟨true, 1⟩ (attrArgs [])) := by
  have hstale : ∀ {history : List (Call attrOp)} {next : Call attrOp},
      (run (Call.step id) .fresh history).isSome → ¬ Ready (leftBy history) next →
      ∃ k, run (Call.step id) .fresh history = some k ∧ ¬ SameAsFresh id k next := by
    intro history next hruns hready
    obtain ⟨k, hrun⟩ := Option.isSome_iff_exists.mp hruns
    exact ⟨k, hrun, mt (as_fresh_iff id hrun next).mp hready⟩
  exact ⟨hstale (by decide +kernel) (by decide +kernel),
    hstale (by decide +kernel) (by decide +kernel)⟩

end OpBase.Indv.BinKey
