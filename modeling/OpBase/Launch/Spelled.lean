import OpBase.Launch.RtsArg

/-!
# What a launch block spells

A block filled by `FillArgs` and one replayed from the cache are both lists of
entries, one for each slot; they differ in where the data lies (the tiling data
comes first in a fresh block and last in a recorded one) and in how the addresses
come about.

`Spells args i es` says that a block holds the located entries `es` from slot `i`
on, and `view_spelled` reads them off. The entries of a launch's arguments depend
on the addresses alone (`entry addr`):

> `view_block`: a block with the slots of a launch in front, and the data its
> placeholders name, is seen as the launch's arguments.
>
> `view_fillArgs`: `FillArgs` makes such a block for `GetData`.
-/

namespace OpBase.Launch

open List OpBase.Lib

/-! ## Entries -/

/-- What a slot is to hold: eight bytes, or data with so many bytes of padding. -/
inductive Entry where
  | word (bytes : List Byte)
  | data (bytes : List Byte) (pad : Nat)

/-- An entry with the place of its data. -/
inductive Located where
  | word (bytes : List Byte)
  | data (off : Nat) (bytes : List Byte)

namespace Entry

def slot : Entry → Slot
  | .word bytes => .address bytes
  | .data bytes _ => .data bytes

def len : Entry → Nat
  | .word _ => 0
  | .data bytes _ => bytes.length

/-- The bytes an entry takes behind the slots. -/
def room : Entry → Nat
  | .word _ => 0
  | .data bytes pad => bytes.length + pad

/-- The bytes all entries take behind the slots. -/
def rooms (es : List Entry) : Nat := (es.map room).sum

end Entry

namespace Located

def slot : Located → Slot
  | .word bytes => .address bytes
  | .data _ bytes => .data bytes

def len : Located → Nat
  | .word _ => 0
  | .data _ bytes => bytes.length

end Located

/-- Data is placed one after the other, from `v` on. -/
def locate : Nat → List Entry → List Located
  | _, [] => []
  | v, .word bytes :: es => .word bytes :: locate v es
  | v, .data bytes pad :: es => .data v bytes :: locate (v + (bytes.length + pad)) es

@[simp] theorem locate_slot : ∀ (v : Nat) (es : List Entry),
    (locate v es).map Located.slot = es.map Entry.slot
  | _, [] => rfl
  | v, .word b :: es => congrArg (Slot.address b :: ·) (locate_slot v es)
  | v, .data b pad :: es => congrArg (Slot.data b :: ·) (locate_slot (v + (b.length + pad)) es)

@[simp] theorem locate_len : ∀ (v : Nat) (es : List Entry),
    (locate v es).map Located.len = es.map Entry.len
  | _, [] => rfl
  | v, .word _ :: es => congrArg (0 :: ·) (locate_len v es)
  | v, .data b pad :: es => congrArg (b.length :: ·) (locate_len (v + (b.length + pad)) es)

@[simp] theorem length_locate (v : Nat) (es : List Entry) : (locate v es).length = es.length := by
  have h := congrArg List.length (locate_len v es)
  rwa [length_map, length_map] at h

/-- The placeholders of located entries, from slot `i` on. -/
def placeHoldersOf : Nat → List Located → List PlaceHolder
  | _, [] => []
  | i, .word _ :: es => placeHoldersOf (i + 1) es
  | i, .data off _ :: es => ⟨8 * i, off⟩ :: placeHoldersOf (i + 1) es

theorem placeHoldersOf_append : ∀ (i : Nat) (es fs : List Located),
    placeHoldersOf i (es ++ fs) = placeHoldersOf i es ++ placeHoldersOf (i + es.length) fs
  | i, [], fs => rfl
  | i, .word _ :: es, fs => by
    show placeHoldersOf (i + 1) (es ++ fs) = _
    rw [placeHoldersOf_append, Nat.add_assoc, Nat.add_comm 1]
    rfl
  | i, .data off _ :: es, fs => by
    show _ :: placeHoldersOf (i + 1) (es ++ fs) = _
    rw [placeHoldersOf_append, Nat.add_assoc, Nat.add_comm 1]
    rfl

theorem le_placeHoldersOf {p : PlaceHolder} : ∀ {i : Nat} {es : List Located},
    p ∈ placeHoldersOf i es → 8 * i ≤ p.addrOffset
  | _, [], h => by cases h
  | i, .word _ :: es, h => by
    have htail : p ∈ placeHoldersOf (i + 1) es := h
    have := le_placeHoldersOf htail
    omega
  | i, .data off _ :: es, h => by
    rcases mem_cons.mp h with he | h
    · exact Nat.le_of_eq (congrArg PlaceHolder.addrOffset he.symm)
    · have := le_placeHoldersOf h
      omega

/-- The block holds the entries from slot `i` on. -/
def Spells (args : List Byte) : Nat → List Located → Prop
  | _, [] => True
  | i, .word bytes :: es => (args.drop (8 * i)).take 8 = bytes ∧ Spells args (i + 1) es
  | i, .data off bytes :: es =>
    (args.drop off).take bytes.length = bytes ∧ Spells args (i + 1) es

variable {args : List Byte}

theorem spells_append : ∀ {i : Nat} {es fs : List Located},
    Spells args i (es ++ fs) ↔ Spells args i es ∧ Spells args (i + es.length) fs
  | i, [], fs => by
    show Spells args i fs ↔ True ∧ Spells args i fs
    rw [true_and]
  | i, .word b :: es, fs => by
    show _ ∧ Spells args (i + 1) (es ++ fs) ↔ (_ ∧ Spells args (i + 1) es) ∧ _
    rw [spells_append, and_assoc, length_cons, Nat.add_assoc, Nat.add_comm 1]
  | i, .data off b :: es, fs => by
    show _ ∧ Spells args (i + 1) (es ++ fs) ↔ (_ ∧ Spells args (i + 1) es) ∧ _
    rw [spells_append, and_assoc, length_cons, Nat.add_assoc, Nat.add_comm 1]

/-- One slot of a view. -/
def slotAt (r : RtArgs) (i len : Nat) : Slot :=
  match r.placeHolders.find? fun p => p.addrOffset = 8 * i with
  | some p => .data ((r.args.drop p.dataOffset).take len)
  | none => .address ((r.args.drop (8 * i)).take 8)

variable {r : RtArgs}

/-- The slots of a block that spells its entries, behind slots with placeholders `before`. -/
theorem slots_spelled : ∀ {k : Nat} {es : List Located} {before : List PlaceHolder},
    r.placeHolders = before ++ placeHoldersOf k es → (∀ p ∈ before, p.addrOffset < 8 * k) →
    Spells r.args k es →
    ((es.map Located.len).mapIdx fun i len => slotAt r (k + i) len) = es.map Located.slot
  | _, [], _, _, _, _ => rfl
  | k, e :: es, before, hp, hbefore, hspell => by
    have hnone : before.find? (fun p => p.addrOffset = 8 * k) = none := by
      apply find?_eq_none.mpr
      intro p hmem
      have := hbefore p hmem
      simp only [decide_eq_true_eq]
      omega
    rw [map_cons, mapIdx_cons, map_cons]
    have hshift : (fun i len => slotAt r (k + (i + 1)) len) =
        fun i len => slotAt r (k + 1 + i) len := by
      funext i len
      rw [Nat.add_assoc, Nat.add_comm 1]
    rw [hshift]
    cases e with
    | word b =>
      have hrest := slots_spelled (k := k + 1) hp (fun p hmem => by
        have := hbefore p hmem
        omega) hspell.2
      rw [hrest]
      congr 1
      -- the placeholders of later slots point above this one
      have hlater : (placeHoldersOf (k + 1) es).find? (fun p => p.addrOffset = 8 * k) = none := by
        apply find?_eq_none.mpr
        intro p hmem
        have := le_placeHoldersOf hmem
        simp only [decide_eq_true_eq]
        omega
      unfold slotAt
      rw [Nat.add_zero, hp, find?_append, hnone]
      simp only [placeHoldersOf, hlater, Option.none_or]
      exact congrArg Slot.address hspell.1
    | data off b =>
      -- the placeholder of this slot is the first one that points to it
      have hp' : r.placeHolders = (before ++ [⟨8 * k, off⟩]) ++ placeHoldersOf (k + 1) es := by
        rw [hp, append_assoc]
        rfl
      have hrest := slots_spelled hp' (fun p hmem => by
        rcases mem_append.mp hmem with hmem | hmem
        · have := hbefore p hmem
          omega
        · rw [mem_singleton.mp hmem]
          show 8 * k < 8 * (k + 1)
          omega) hspell.2
      rw [hrest]
      congr 1
      unfold slotAt
      rw [Nat.add_zero, hp, find?_append, hnone]
      simp only [placeHoldersOf, find?_cons, decide_true, Option.none_or]
      exact congrArg Slot.data hspell.1

theorem view_spelled {es : List Located} (hp : r.placeHolders = placeHoldersOf 0 es)
    (hspell : Spells r.args 0 es) :
    view r (es.map Located.len) = es.map Located.slot := by
  have hfirst : r.placeHolders = [] ++ placeHoldersOf 0 es := hp
  have h := slots_spelled hfirst nofun hspell
  simp only [Nat.zero_add] at h
  exact h

/-! ## Blocks that hold entries -/

/-- Eight bytes for each entry; a slot with data is the runtime's to fill. -/
def SlotBytes : List Entry → List Byte → Prop
  | [], b => b = []
  | .word w :: es, b => ∃ rest, b = w ++ rest ∧ w.length = 8 ∧ SlotBytes es rest
  | .data _ _ :: es, b => ∃ junk rest, b = junk ++ rest ∧ junk.length = 8 ∧ SlotBytes es rest

/-- The data of the entries, one after the other. -/
def ValueBytes : List Entry → List Byte → Prop
  | [], b => b = []
  | .word _ :: es, b => ValueBytes es b
  | .data d pad :: es, b => ∃ junk rest, b = d ++ (junk ++ rest) ∧ junk.length = pad ∧
      ValueBytes es rest

theorem SlotBytes.length : ∀ {es : List Entry} {b : List Byte}, SlotBytes es b →
    b.length = 8 * es.length
  | [], _, h => congrArg List.length h
  | .word w :: es, _, ⟨rest, hb, hw, h⟩ => by
    rw [hb, length_append, hw, h.length, length_cons]
    omega
  | .data _ _ :: es, _, ⟨junk, rest, hb, hj, h⟩ => by
    rw [hb, length_append, hj, h.length, length_cons]
    omega

theorem ValueBytes.length : ∀ {es : List Entry} {b : List Byte}, ValueBytes es b →
    b.length = Entry.rooms es
  | [], _, h => congrArg List.length h
  | .word _ :: es, b, h => by
    have htail : ValueBytes es b := h
    show b.length = 0 + Entry.rooms es
    rw [htail.length, Nat.zero_add]
  | .data d pad :: es, _, ⟨junk, rest, hb, hj, h⟩ => by
    show _ = d.length + pad + Entry.rooms es
    rw [hb, length_append, length_append, hj, h.length, Nat.add_assoc]

/-- A block with the slots of the entries at slot `k` and their data at `v` spells them. -/
theorem spells_locate : ∀ {es : List Entry} {k v : Nat}
    {front slots behind before values after : List Byte},
    args = front ++ (slots ++ behind) → front.length = 8 * k → SlotBytes es slots →
    args = before ++ (values ++ after) → before.length = v → ValueBytes es values →
    Spells args k (locate v es)
  | [], _, _, _, _, _, _, _, _, _, _, _, _, _, _ => trivial
  | .word w :: es, k, v, front, _, behind, before, _, after, hs, hk, ⟨rest, hb, hw, hslots⟩, hv,
      hbefore, hvalues => by
    subst hb
    refine ⟨?_, ?_⟩
    · rw [hs, drop_left' hk, append_assoc, take_left' hw]
    · have hs' : args = (front ++ w) ++ (rest ++ behind) := by
        rw [hs]
        simp only [append_assoc]
      refine spells_locate hs' ?_ hslots hv hbefore hvalues
      rw [length_append, hk, hw]
      omega
  | .data d pad :: es, k, v, front, _, behind, before, _, after, hs, hk,
      ⟨junk, rest, hb, hj, hslots⟩, hv, hbefore, ⟨junk', rest', hb', hj', hvalues⟩ => by
    subst hb hb'
    refine ⟨?_, ?_⟩
    · rw [hv, drop_left' hbefore, append_assoc, take_left]
    · have hs' : args = (front ++ junk) ++ (rest ++ behind) := by
        rw [hs]
        simp only [append_assoc]
      have hv' : args = (before ++ (d ++ junk')) ++ (rest' ++ after) := by
        rw [hv]
        simp only [append_assoc]
      refine spells_locate hs' ?_ hslots hv' ?_ hvalues
      · rw [length_append, hk, hj]
        omega
      · rw [length_append, length_append, hbefore, hj']

/-! ## The entries of a launch -/

/-- The written part of a tensor list's block, for given tensor addresses. -/
def listBytes (addr : Tensor → UInt64) (tensors : List (Option Tensor)) : List Byte :=
  ptrListHead tensors ++ tensors.flatMap fun t => le8 (t.elim 0 addr)

/-- What an argument's slot is to hold, for given tensor addresses. -/
def entry (addr : Tensor → UInt64) : ArgAddr → Entry
  | .device tensor => .word (le8 (tensor.elim 0 addr))
  | .host data => .data (hostBlock data) 0
  | .devicePtr tensors =>
    .data (listBytes addr tensors)
      (alignSize (OpExecCache.listLen tensors) - OpExecCache.listLen tensors)

theorem le_alignSize (n : Nat) : n ≤ alignSize n := by
  unfold alignSize hostValueAlignment
  omega

@[simp] theorem length_zeroPadded (data : List Byte) :
    (zeroPadded data).length = alignSize data.length := by
  have := le_alignSize data.length
  unfold zeroPadded
  rw [length_append, length_replicate]
  omega

theorem length_dimEntry (t : Option Tensor) :
    (dimEntry t).length = 8 + 8 * (t.elim 0 fun t => t.storageShape.length) := by
  cases t with
  | none => rfl
  | some t =>
    show (le8 _ ++ t.storageShape.flatMap le8).length = 8 + 8 * t.storageShape.length
    rw [length_append, length_le8, length_flatMap_of length_le8, Nat.mul_comm]

theorem length_ptrListHead (tensors : List (Option Tensor)) :
    (ptrListHead tensors).length = ptrListLen tensors := by
  unfold ptrListHead ptrListLen
  rw [length_append, length_le8]
  congr 1
  induction tensors with
  | nil => rfl
  | cons t tensors ih =>
    rw [flatMap_cons, length_append, ih, length_dimEntry]
    rfl

variable (addr : Tensor → UInt64)

@[simp] theorem length_listBytes (tensors : List (Option Tensor)) :
    (listBytes addr tensors).length = OpExecCache.listLen tensors := by
  unfold listBytes OpExecCache.listLen
  rw [length_append, length_ptrListHead, length_flatMap_of fun t => length_le8 _,
    Nat.mul_comm tensors.length 8]

theorem entry_len (a : ArgAddr) : (entry addr a).len = dataLen a := by
  cases a with
  | device => rfl
  | host => rfl
  | devicePtr tensors => exact length_listBytes addr tensors

theorem entry_room (a : ArgAddr) : (entry addr a).room = (OpExecCache.argInfo a).dataLen := by
  cases a with
  | device => rfl
  | host => rfl
  | devicePtr tensors =>
    have := le_alignSize (OpExecCache.listLen tensors)
    show (listBytes addr tensors).length + _ = alignSize (OpExecCache.listLen tensors)
    rw [length_listBytes]
    omega

/-- What the runtime is to see of a launch. -/
def launchSlots {S : Storages} (env : Addrs S) (addr : Tensor → UInt64) (l : KernelLaunch) :
    List Slot :=
  (if l.hasFftsAddr then [.address (le8 env.hardwareSync)] else []) ++
    l.args.map (fun a => (entry addr a).slot) ++
    [.data (zeroPadded l.tilingData), .address (le8 env.floatOverflow)]

/-- The slot of the `fftsAddr`, if there is one. -/
def syncSlot {S : Storages} (env : Addrs S) (l : KernelLaunch) : List Byte :=
  if l.hasFftsAddr then le8 env.hardwareSync else []

/-- The number of slots in front of the arguments. -/
def firstSlot (l : KernelLaunch) : Nat := if l.hasFftsAddr then 1 else 0

theorem length_syncSlot {S : Storages} (env : Addrs S) (l : KernelLaunch) :
    (syncSlot env l).length = 8 * firstSlot l := by
  unfold syncSlot firstSlot
  split
  · exact length_le8 _
  · rfl

theorem argNum_eq {l : KernelLaunch} (htiling : l.tilingData.length ≠ 0) :
    argNum l = firstSlot l + l.args.length + 2 := by
  unfold argNum firstSlot
  rw [if_neg htiling]

/-- A block: the slots of a launch, then its data. -/
def block {S : Storages} (env : Addrs S) (l : KernelLaunch) (slots junk rest : List Byte) :
    List Byte :=
  syncSlot env l ++ (slots ++ (junk ++ (le8 env.floatOverflow ++ rest)))

/-- In front of the values there is a slot for each argument. -/
theorem block_eq {S : Storages} (env : Addrs S) {addr : Tensor → UInt64} {l : KernelLaunch}
    {slots junk : List Byte} (rest : List Byte) (htiling : l.tilingData.length ≠ 0)
    (hslots : SlotBytes (l.args.map (entry addr)) slots) (hjunk : junk.length = 8) :
    ∃ front, block env l slots junk rest = front ++ rest ∧ front.length = 8 * argNum l := by
  refine ⟨syncSlot env l ++ (slots ++ (junk ++ le8 env.floatOverflow)), ?_, ?_⟩
  · unfold block
    simp only [append_assoc]
  · rw [argNum_eq htiling, length_append, length_append, length_append,
      length_syncSlot, hslots.length, hjunk, length_le8, length_map]
    omega

/-- Where the placeholders are does not depend on the addresses. -/
theorem addrOffset_placeHoldersOf (addr addr' : Tensor → UInt64) : ∀ (args : List ArgAddr)
    (i v v' : Nat), (placeHoldersOf i (locate v (args.map (entry addr)))).map (·.addrOffset) =
      (placeHoldersOf i (locate v' (args.map (entry addr')))).map (·.addrOffset)
  | [], _, _, _ => rfl
  | .device _ :: args, i, v, v' => addrOffset_placeHoldersOf addr addr' args (i + 1) v v'
  | .host _ :: args, i, _, _ =>
    congrArg (8 * i :: ·) (addrOffset_placeHoldersOf addr addr' args (i + 1) _ _)
  | .devicePtr _ :: args, i, _, _ =>
    congrArg (8 * i :: ·) (addrOffset_placeHoldersOf addr addr' args (i + 1) _ _)

theorem rooms_entry (addr addr' : Tensor → UInt64) (args : List ArgAddr) :
    Entry.rooms (args.map (entry addr)) = Entry.rooms (args.map (entry addr')) := by
  unfold Entry.rooms
  rw [map_map, map_map]
  congr 1
  refine map_congr_left fun a _ => ?_
  show (entry addr a).room = (entry addr' a).room
  rw [entry_room, entry_room]

/-- A block with the data its placeholders name is seen as the launch. -/
theorem view_block {S : Storages} {env : Addrs S} {addr : Tensor → UInt64} {l : KernelLaunch}
    {v t : Nat} {slots junk rest before values after before' after' : List Byte}
    (htiling : l.tilingData.length ≠ 0) (hargs : r.args = block env l slots junk rest)
    (hslots : SlotBytes (l.args.map (entry addr)) slots) (hjunk : junk.length = 8)
    (hvalues : rest = before ++ (values ++ after)) (hv : v = 8 * argNum l + before.length)
    (hdata : ValueBytes (l.args.map (entry addr)) values)
    (htilingAt : rest = before' ++ (zeroPadded l.tilingData ++ after'))
    (ht : t = 8 * argNum l + before'.length)
    (hp : r.placeHolders = placeHoldersOf (firstSlot l) (locate v (l.args.map (entry addr))) ++
      [⟨8 * (firstSlot l + l.args.length), t⟩]) :
    view r (dataLens l) = launchSlots env addr l := by
  obtain ⟨front, hfront, hfrontlen⟩ := block_eq env rest htiling hslots hjunk
  let first : List Located := if l.hasFftsAddr then [.word (le8 env.hardwareSync)] else []
  have hfirst : first.length = firstSlot l := by
    unfold first firstSlot
    split <;> rfl
  let es := first ++ (locate v (l.args.map (entry addr)) ++
    [.data t (zeroPadded l.tilingData), .word (le8 env.floatOverflow)])
  have hlen : es.map Located.len = dataLens l := by
    unfold es first dataLens
    rw [map_append, map_append, locate_len, map_map, append_assoc]
    congr 1
    · split <;> rfl
    · congr 1
      exact map_congr_left fun a _ => entry_len addr a
  have hslot : es.map Located.slot = launchSlots env addr l := by
    unfold es first launchSlots
    rw [map_append, map_append, locate_slot, map_map, append_assoc]
    congr 1
    split <;> rfl
  -- the hardware synchronisation address has no placeholder
  have hholders : r.placeHolders = placeHoldersOf 0 es := by
    have hnone : placeHoldersOf 0 first = [] := by
      unfold first
      split <;> rfl
    unfold es
    rw [placeHoldersOf_append, placeHoldersOf_append, hnone, Nat.zero_add, hfirst, length_locate,
      length_map, hp]
    rfl
  have hspells : Spells r.args 0 es := by
    refine spells_append.mpr ⟨?_, ?_⟩
    · unfold first
      split
      next hffts =>
        refine ⟨?_, trivial⟩
        rw [hargs, block, syncSlot, if_pos hffts]
        exact take_left' (length_le8 _)
      next => trivial
    · rw [Nat.zero_add, hfirst]
      -- the values, the tiling data behind them, the address of the overflow flag
      refine spells_append.mpr ⟨?_, ?_, ?_, trivial⟩
      · have hat : r.args = (front ++ before) ++ (values ++ after) := by
          rw [hargs, hfront, hvalues, append_assoc]
        have hlen : (front ++ before).length = v := by rw [length_append, hfrontlen, hv]
        exact spells_locate hargs (length_syncSlot env l) hslots hat hlen hdata
      · have hat : r.args = (front ++ before') ++ (zeroPadded l.tilingData ++ after') := by
          rw [hargs, hfront, htilingAt, append_assoc]
        have hlen : (front ++ before').length = t := by rw [length_append, hfrontlen, ht]
        rw [hat, drop_left' hlen, take_left]
      · have hat : r.args = (syncSlot env l ++ (slots ++ junk)) ++
            (le8 env.floatOverflow ++ rest) := by
          rw [hargs, block]
          simp only [append_assoc]
        have hlen : (syncSlot env l ++ (slots ++ junk)).length =
            8 * (firstSlot l + l.args.length + 1) := by
          rw [length_append, length_append, length_syncSlot, hslots.length, hjunk, length_map]
          omega
        rw [length_locate, length_map, hat, drop_left' hlen, take_left' (length_le8 _)]
  rw [← hlen, view_spelled hholders hspells, hslot]

/-! ## A fresh block -/

section Fresh

variable {S : Storages} {kept : UInt64} {env : Addrs S} {l : KernelLaunch} {old : Nat → Byte}
  {S' : Storages}

@[simp] theorem length_stale (old : Nat → Byte) (off len : Nat) :
    (stale old off len).length = len := by
  unfold stale
  rw [length_map, length_range']

/-- What `FillArgs` has added to a block for some arguments, from slot `k` on. -/
structure Filled (l : KernelLaunch) (k : Nat) (es : List Entry) (r r' : RtsArg) : Prop where
  ext : ∃ slots values, r'.slots = r.slots ++ slots ∧ r'.values = r.values ++ values ∧
    SlotBytes es slots ∧ ValueBytes es values
  placeHolders : r'.placeHolders = r.placeHolders ++
    placeHoldersOf k (locate (8 * argNum l + r.hostValue l) es)

theorem devicePtrBlock_eq (env : Addrs S) (tensors : List (Option Tensor)) :
    RtsArg.devicePtrBlock env tensors = listBytes (Tensor.getData env) tensors ++
      List.replicate (alignSize (OpExecCache.listLen tensors) - OpExecCache.listLen tensors) 0 := by
  unfold RtsArg.devicePtrBlock zeroPadded
  rw [← length_listBytes (Tensor.getData env) tensors]
  rfl

theorem appendValue_filled {r r' : RtsArg} {k pad : Nat} {d zeros : List Byte}
    (hk : r.slots.length = 8 * k) (hpad : zeros.length = pad)
    (h : r.appendValue l old (d ++ zeros) = some r') : Filled l k [.data d pad] r r' := by
  unfold RtsArg.appendValue at h
  split at h
  next =>
    cases h
    refine ⟨⟨_, _, rfl, rfl, ?_, ?_⟩, ?_⟩
    · exact ⟨_, [], (append_nil _).symm, length_stale _ _ _, rfl⟩
    · exact ⟨zeros, [], by rw [append_nil], hpad, rfl⟩
    · rw [hk]
      rfl
  next => cases h

theorem append_filled {r r' : RtsArg} {k : Nat} {a : ArgAddr} (hk : r.slots.length = 8 * k)
    (h : r.append env l old a = some r') :
    Filled l k [entry (Tensor.getData env) a] r r' := by
  cases a with
  | device tensor =>
    cases h
    refine ⟨⟨_, [], rfl, (append_nil _).symm, ?_, rfl⟩, (append_nil _).symm⟩
    exact ⟨[], (append_nil _).symm, length_le8 _, rfl⟩
  | host data =>
    have hblock : r.appendValue l old (hostBlock data ++ []) = some r' := by
      rw [append_nil]
      exact h
    exact appendValue_filled hk rfl hblock
  | devicePtr tensors =>
    apply appendValue_filled hk length_replicate
    rw [← devicePtrBlock_eq]
    exact h

theorem SlotBytes.append : ∀ {es fs : List Entry} {b c : List Byte}, SlotBytes es b →
    SlotBytes fs c → SlotBytes (es ++ fs) (b ++ c)
  | [], _, _, _, hb, hc => by
    rw [hb]
    exact hc
  | .word w :: _, _, _, c, ⟨rest, hb, hw, h⟩, hc =>
    ⟨rest ++ c, by rw [hb, append_assoc], hw, h.append hc⟩
  | .data _ _ :: _, _, _, c, ⟨junk, rest, hb, hj, h⟩, hc =>
    ⟨junk, rest ++ c, by rw [hb, append_assoc], hj, h.append hc⟩

theorem ValueBytes.append : ∀ {es fs : List Entry} {b c : List Byte}, ValueBytes es b →
    ValueBytes fs c → ValueBytes (es ++ fs) (b ++ c)
  | [], _, _, _, hb, hc => by
    rw [hb]
    exact hc
  | .word _ :: es, _, b, _, h, hc => by
    have htail : ValueBytes es b := h
    exact htail.append hc
  | .data _ _ :: _, _, _, c, ⟨junk, rest, hb, hj, h⟩, hc =>
    ⟨junk, rest ++ c, by simp only [hb, append_assoc], hj, h.append hc⟩

theorem locate_append : ∀ (v : Nat) (es fs : List Entry),
    locate v (es ++ fs) = locate v es ++ locate (v + Entry.rooms es) fs
  | _, [], _ => rfl
  | v, .word w :: es, fs => by
    have hrooms : Entry.rooms (.word w :: es) = Entry.rooms es := Nat.zero_add _
    rw [hrooms]
    exact congrArg (Located.word w :: ·) (locate_append v es fs)
  | v, .data d pad :: es, fs => by
    have hrooms : Entry.rooms (.data d pad :: es) = (d.length + pad) + Entry.rooms es := rfl
    rw [hrooms, ← Nat.add_assoc]
    exact congrArg (Located.data v d :: ·) (locate_append (v + (d.length + pad)) es fs)

theorem Filled.trans {r r' r'' : RtsArg} {k : Nat} {es fs : List Entry} (h : Filled l k es r r')
    (h' : Filled l (k + es.length) fs r' r'') : Filled l k (es ++ fs) r r'' := by
  obtain ⟨⟨slots, values, hslots, hvalues, hS, hV⟩, hp⟩ := h
  obtain ⟨⟨slots', values', hslots', hvalues', hS', hV'⟩, hp'⟩ := h'
  refine ⟨⟨slots ++ slots', values ++ values', ?_, ?_, hS.append hS', hV.append hV'⟩, ?_⟩
  · rw [hslots', hslots, append_assoc]
  · rw [hvalues', hvalues, append_assoc]
  · have hhost : r'.hostValue l = r.hostValue l + Entry.rooms es := by
      unfold RtsArg.hostValue
      rw [hvalues, length_append, hV.length, Nat.add_assoc]
    rw [hp', hp, hhost, locate_append, placeHoldersOf_append, length_locate, append_assoc,
      Nat.add_assoc]

/-- The loop of `FillArgs`. -/
theorem foldlM_append_filled : ∀ {args : List ArgAddr} {r r' : RtsArg} {k : Nat},
    r.slots.length = 8 * k → args.foldlM (RtsArg.append env l old) r = some r' →
    Filled l k (args.map (entry (Tensor.getData env))) r r'
  | [], r, r', k, _, h => by
    cases h
    exact ⟨⟨[], [], (append_nil _).symm, (append_nil _).symm, rfl, rfl⟩,
      (append_nil _).symm⟩
  | a :: args, r, r', k, hk, h => by
    rw [foldlM_cons] at h
    obtain ⟨r₁, ha, hargs⟩ := Option.bind_eq_some_iff.mp h
    have h₁ := append_filled hk ha
    have hk₁ : r₁.slots.length = 8 * (k + 1) := by
      obtain ⟨slots, _, hslots, _, hS, _⟩ := h₁.ext
      rw [hslots, length_append, hk, hS.length]
      rfl
    exact h₁.trans (foldlM_append_filled hk₁ hargs)

/-- `FillArgs` succeeds by lengths alone: with other addresses it succeeds too. -/
theorem append_isSome (env' : Addrs S') (old' : Nat → Byte) {r₁ r₂ r₁' : RtsArg} {a : ArgAddr}
    (hlen : r₁.values.length = r₂.values.length) (h : r₁.append env l old a = some r₁') :
    ∃ r₂', r₂.append env' l old' a = some r₂' ∧ r₁'.values.length = r₂'.values.length := by
  -- a value has room in the one just when it has room in the other
  have hvalue : ∀ {b b' : List Byte}, b.length = b'.length →
      r₁.appendValue l old b = some r₁' →
      ∃ r₂', r₂.appendValue l old' b' = some r₂' ∧ r₁'.values.length = r₂'.values.length := by
    intro b b' hb h
    unfold RtsArg.appendValue at h ⊢
    have hhost : r₁.hostValue l = r₂.hostValue l := by
      unfold RtsArg.hostValue
      rw [hlen]
    split at h
    next hroom =>
      cases h
      rw [hhost, hb] at hroom
      rw [if_pos hroom]
      refine ⟨_, rfl, ?_⟩
      rw [length_append, length_append, hlen, hb]
    next => cases h
  cases a with
  | device tensor =>
    cases h
    exact ⟨_, rfl, hlen⟩
  | host data => exact hvalue rfl h
  | devicePtr tensors =>
    refine hvalue ?_ h
    rw [devicePtrBlock_eq, devicePtrBlock_eq, length_append, length_append,
      length_listBytes, length_listBytes]

theorem foldlM_append_isSome (env' : Addrs S') (old' : Nat → Byte) :
    ∀ {args : List ArgAddr} {r₁ r₂ r₁' : RtsArg}, r₁.values.length = r₂.values.length →
    args.foldlM (RtsArg.append env l old) r₁ = some r₁' →
    ∃ r₂', args.foldlM (RtsArg.append env' l old') r₂ = some r₂'
  | [], _, r₂, _, _, _ => ⟨r₂, rfl⟩
  | a :: args, r₁, r₂, r₁', hlen, h => by
    rw [foldlM_cons] at h
    obtain ⟨s₁, ha, hargs⟩ := Option.bind_eq_some_iff.mp h
    obtain ⟨s₂, ha', hlen'⟩ := append_isSome env' old' hlen ha
    obtain ⟨r₂', hargs'⟩ := foldlM_append_isSome env' old' hlen' hargs
    refine ⟨r₂', ?_⟩
    rw [foldlM_cons]
    exact Option.bind_eq_some_iff.mpr ⟨s₂, ha', hargs'⟩

/-- Whether the arguments can be filled in does not depend on the addresses. -/
theorem fillArgs_isSome (kept' : UInt64) (env' : Addrs S') (old' : Nat → Byte)
    (h : (fillArgs kept env old l).isSome) : ∃ fresh, fillArgs kept' env' old' l = some fresh := by
  obtain ⟨r, hr⟩ := Option.isSome_iff_exists.mp h
  obtain ⟨r₁, hfold, _⟩ := Option.map_eq_some_iff.mp hr
  have hlen : (⟨syncSlot env l, [], []⟩ : RtsArg).values.length =
      (⟨syncSlot env' l, [], []⟩ : RtsArg).values.length := rfl
  obtain ⟨r₂, hfold'⟩ := foldlM_append_isSome env' old' hlen hfold
  exact ⟨_, Option.map_eq_some_iff.mpr ⟨r₂, hfold', rfl⟩⟩

/-- The block that `FillArgs` makes: the tiling data is the first behind the slots. -/
theorem fillArgs_eq {fresh : RtArgs} (htiling : l.tilingData.length ≠ 0)
    (h : fillArgs kept env old l = some fresh) :
    ∃ slots junk values : List Byte, SlotBytes (l.args.map (entry (Tensor.getData env))) slots ∧
      junk.length = 8 ∧ ValueBytes (l.args.map (entry (Tensor.getData env))) values ∧
      fresh =
        { args := block (env.keeping kept) l slots junk (zeroPadded l.tilingData ++ values)
          placeHolders := placeHoldersOf (firstSlot l)
            (locate (8 * argNum l + alignSize l.tilingData.length)
              (l.args.map (entry (Tensor.getData env)))) ++
            [⟨8 * (firstSlot l + l.args.length), 8 * argNum l⟩] } := by
  obtain ⟨r, hfold, hfresh⟩ := Option.map_eq_some_iff.mp h
  obtain ⟨⟨slots, values, hslots, hvalues, hS, hV⟩, hp⟩ :=
    foldlM_append_filled (length_syncSlot env l) hfold
  have hslots : r.slots = syncSlot env l ++ slots := hslots
  have hvalues : r.values = values := hvalues
  have hlen : r.slots.length = 8 * (firstSlot l + l.args.length) := by
    rw [hslots, length_append, hS.length, length_map, length_syncSlot]
    omega
  refine ⟨slots, stale old r.slots.length 8, values, hS, length_stale _ _ _, hV, ?_⟩
  rw [← hfresh, RtsArg.finalize, if_pos htiling, hp, hvalues]
  simp only [hlen]
  rw [hslots, block]
  simp only [append_assoc]
  rfl

/-- `FillArgs` shows the runtime the launch with the addresses of `GetData`. -/
theorem view_fillArgs {fresh : RtArgs} (htiling : l.tilingData.length ≠ 0)
    (h : fillArgs kept env old l = some fresh) :
    view fresh (dataLens l) = launchSlots (env.keeping kept) (Tensor.getData env) l := by
  obtain ⟨slots, junk, values, hS, hjunk, hV, rfl⟩ := fillArgs_eq htiling h
  have hvaluesAt : zeroPadded l.tilingData ++ values =
      zeroPadded l.tilingData ++ (values ++ []) := by
    rw [append_nil]
  refine view_block htiling rfl hS hjunk hvaluesAt ?_ hV (nil_append _).symm rfl rfl
  rw [length_zeroPadded]

end Fresh

end OpBase.Launch
