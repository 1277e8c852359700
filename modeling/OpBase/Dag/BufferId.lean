import OpBase.Lib.TwosComplement

/-!
# Buffer ids, one or several in a word

`op_common/atvoss/util/buffer.h`: the wrapper that stands for a buffer of the unified buffer,
and the ids of several of them in one word. The ids, the types and the sides of the parts are
packed alike, five bits each, the last part lowest; above the ids, from bit 25 on, stands the
number of parts.

`CalcPongBufferId` takes the words apart from the low end and stops at the part that is
left alone in the word of the sides. By then the count has come down with the ids, and stays
above the id of that part.

> `combined_decodes`: the parts' ids are read back in order, from the word and from what
> `CalcPongBufferId` makes of it, where they are the parts' own pong ids.
-/

namespace OpBase.Dag

open List OpBase.Lib

def BUF_TYPE_MTE2 : Nat := 0b00001
def BUF_TYPE_MTE3 : Nat := 0b00010
def BUF_TYPE_TEMP : Nat := 0b00100
def BUF_TYPE_PLACEHOLDER : Nat := 0b01000
def BUF_TYPE_SCALAR : Nat := 0b10000

def BUF_PING : Nat := 0b00001
def BUF_PONG : Nat := 0b00010

def BUF_COMBINE_SHIFT : Nat := 5
def BUF_COMBINE_MASK : Nat := 0x1F
def BUF_COMBINED_MAX : Nat := 5

structure BufferWrapper where
  bufferId : Int
  bufferType : Nat
  pingPong : Nat := BUF_PING
deriving DecidableEq, Repr

/-- The cast of a word to `int`. -/
def int32 (n : Nat) : Int := Int.bmod n (2 ^ 32)

/-- One of the three words of `CombineBufferWrapper`. -/
def combine (field : BufferWrapper → Nat) : List BufferWrapper → Nat
  | [] => 0
  | [t] => field t
  | t :: ts => (field t <<< (BUF_COMBINE_SHIFT * ts.length)) % 2 ^ 32 ||| combine field ts

/-- `CombinedBufferWrappers` -/
def combinedBufferWrappers (ts : List BufferWrapper) : BufferWrapper where
  bufferId := int32 ((ts.length <<< (BUF_COMBINE_SHIFT * BUF_COMBINED_MAX)) % 2 ^ 32 |||
    combine (fun t => wordOf 32 t.bufferId) ts)
  bufferType := combine (·.bufferType) ts
  pingPong := combine (·.pingPong) ts

/-- `CalcPongBufferId` -/
def calcPongBufferId (bufferId : Int) (bufferType pingPong : Nat) (pongOffset : Int) : Int :=
  if BUF_PONG < pingPong then
    let id := wordOf 32 bufferId &&& BUF_COMBINE_MASK
    let type := bufferType &&& BUF_COMBINE_MASK
    let pp := pingPong &&& BUF_COMBINE_MASK
    let currentId :=
      if pp = BUF_PING then
        if type = BUF_TYPE_TEMP then id else (id + wordOf 32 pongOffset) % 2 ^ 32
      else (id + (2 ^ 32 - wordOf 32 pongOffset)) % 2 ^ 32
    let idNext := int32 (wordOf 32 bufferId >>> BUF_COMBINE_SHIFT)
    let next := calcPongBufferId idNext (bufferType >>> BUF_COMBINE_SHIFT)
      (pingPong >>> BUF_COMBINE_SHIFT) pongOffset
    int32 ((wordOf 32 next <<< BUF_COMBINE_SHIFT) % 2 ^ 32 ||| currentId)
  else if pingPong = BUF_PING then
    if bufferType = BUF_TYPE_TEMP ∨ bufferType = BUF_TYPE_SCALAR then bufferId
    else if bufferType = BUF_TYPE_PLACEHOLDER then -1
    else bufferId + pongOffset
  else bufferId - pongOffset
termination_by pingPong
decreasing_by
  rw [Nat.shiftRight_eq_div_pow]
  exact Nat.div_lt_self (by omega) (by decide)

/-- The id in the other row, of a wrapper that stands alone. -/
def BufferWrapper.pongId (w : BufferWrapper) (pongOffset : Int) : Int :=
  calcPongBufferId w.bufferId w.bufferType w.pingPong pongOffset

/-- `CombinedBufferCount` -/
def combinedBufferCount (bufferId : Int) : Nat :=
  let tmp := (wordOf 32 bufferId >>> (BUF_COMBINE_SHIFT * BUF_COMBINED_MAX)) &&& BUF_COMBINE_MASK
  if tmp = 0 ∨ BUF_COMBINED_MAX < tmp then 1 else tmp

/-- `DecodeBufferIdWithPos` -/
def decodeBufferIdWithPos (bufferId : Int) (n pos : Nat) : Int :=
  int32 ((wordOf 32 bufferId >>> (BUF_COMBINE_SHIFT * (n - 1 - pos))) &&& BUF_COMBINE_MASK)

/-- `DecodeBufferId` -/
def decodeBufferId (bufferId : Int) : List Int :=
  (List.range (combinedBufferCount bufferId)).map
    (decodeBufferIdWithPos bufferId (combinedBufferCount bufferId))

/-! ## Digits of five bits -/

theorem and_mask (n : Nat) : n &&& BUF_COMBINE_MASK = n % 32 := Nat.and_two_pow_sub_one_eq_mod n 5

theorem shiftRight_field (n k : Nat) : n >>> (BUF_COMBINE_SHIFT * k) = n / 32 ^ k := by
  rw [Nat.shiftRight_eq_div_pow, show 32 = 2 ^ 5 from rfl, ← Nat.pow_mul]
  rfl

theorem int32_natCast {n : Nat} (h : n < 2 ^ 31) : int32 n = n := by
  unfold int32
  exact Int.bmod_eq_of_le (by omega) (by omega)

theorem or_field {m low k : Nat} (hlow : low < 32 ^ k) (hfit : m * 32 ^ k < 2 ^ 32) :
    (m <<< (BUF_COMBINE_SHIFT * k)) % 2 ^ 32 ||| low = m * 32 ^ k + low := by
  have hpow : 32 ^ k = 2 ^ (BUF_COMBINE_SHIFT * k) := by
    rw [show 32 = 2 ^ 5 from rfl, ← Nat.pow_mul]
    rfl
  rw [hpow] at hlow hfit ⊢
  rw [Nat.shiftLeft_eq, Nat.mod_eq_of_lt hfit, Nat.mul_comm]
  exact (Nat.two_pow_add_eq_or_of_lt hlow m).symm

variable {field : BufferWrapper → Nat} {w : BufferWrapper}

theorem combine_eq : ∀ {ts : List BufferWrapper},
    (∀ t ∈ ts, field t < 32) → ts.length ≤ 6 →
    combine field ts = Nat.ofDigits 32 (ts.reverse.map field)
  | [], _, _ => rfl
  | [t], _, _ => by simp [combine]
  | t :: u :: ts, hlt, hlen => by
    have hlow := Nat.ofDigits_lt_base_pow_length (b := 32) (l := (u :: ts).reverse.map field)
      (by decide) (fun d hd => by
        obtain ⟨v, hv, rfl⟩ := mem_map.mp hd
        exact hlt v (mem_cons_of_mem _ (mem_reverse.mp hv)))
    rw [length_map, length_reverse] at hlow
    have ht := hlt t mem_cons_self
    have hpow : 32 ^ (u :: ts).length ≤ 32 ^ 5 :=
      Nat.pow_le_pow_right (by decide) (Nat.le_of_succ_le_succ hlen)
    have hfit : field t * 32 ^ (u :: ts).length < 2 ^ 32 := by
      have := Nat.mul_le_mul (Nat.le_of_lt_succ ht) hpow
      omega
    rw [combine, or_field (combine_eq (fun v hv => hlt v (mem_cons_of_mem _ hv))
      (Nat.le_of_succ_le hlen) ▸ hlow) hfit, combine_eq (fun v hv => hlt v
      (mem_cons_of_mem _ hv)) (Nat.le_of_succ_le hlen), reverse_cons (a := t),
      map_append, Nat.ofDigits_append, length_map, length_reverse,
      map_singleton, Nat.ofDigits_singleton]
    · ring
    · exact cons_ne_nil u ts

/-! ## The parts of a combined wrapper -/

/-- A buffer that can be combined with others. -/
structure BufferWrapper.IsPart (w : BufferWrapper) : Prop where
  id_range : 0 ≤ w.bufferId ∧ w.bufferId < 32
  type : w.bufferType = BUF_TYPE_MTE2 ∨ w.bufferType = BUF_TYPE_MTE3 ∨ w.bufferType = BUF_TYPE_TEMP
  side : w.pingPong = BUF_PING ∨ w.pingPong = BUF_PONG

theorem BufferWrapper.IsPart.type_lt (h : w.IsPart) : w.bufferType < 32 := by
  rcases h.type with h | h | h <;> rw [h] <;> decide

theorem BufferWrapper.IsPart.side_pos (h : w.IsPart) :
    0 < w.pingPong ∧ w.pingPong < 3 := by
  rcases h.side with h | h <;> rw [h] <;> decide

theorem calcPongBufferId_one {type pp : Nat} (id off : Int)
    (htype : type = BUF_TYPE_MTE2 ∨ type = BUF_TYPE_MTE3 ∨ type = BUF_TYPE_TEMP)
    (hside : pp = BUF_PING ∨ pp = BUF_PONG) : calcPongBufferId id type pp off =
      if pp = BUF_PING then if type = BUF_TYPE_TEMP then id else id + off else id - off := by
  have hle : ¬ BUF_PONG < pp := by rcases hside with h | h <;> rw [h] <;> decide
  rw [calcPongBufferId, if_neg hle]
  rcases htype with ht | ht | ht <;> rw [ht] <;> rfl

theorem BufferWrapper.IsPart.pongId_eq (h : w.IsPart) (off : Int) :
    w.pongId off = if w.pingPong = BUF_PING then
      if w.bufferType = BUF_TYPE_TEMP then w.bufferId else w.bufferId + off
      else w.bufferId - off :=
  calcPongBufferId_one _ _ h.type h.side

/-- The digits of a list of parts, the last part first. -/
def digits (field : BufferWrapper → Nat) (rs : List BufferWrapper) : Nat :=
  Nat.ofDigits 32 (rs.map field)

theorem digits_cons (field : BufferWrapper → Nat) (r : BufferWrapper) (rs : List BufferWrapper) :
    digits field (r :: rs) = field r + 32 * digits field rs := Nat.ofDigits_cons

theorem digits_lt {rs : List BufferWrapper}
    (h : ∀ r ∈ rs, field r < 32) : digits field rs < 32 ^ rs.length := by
  have := Nat.ofDigits_lt_base_pow_length (b := 32) (l := rs.map field) (by decide) (fun d hd => by
    obtain ⟨v, hv, rfl⟩ := mem_map.mp hd
    exact h v hv)
  rwa [length_map] at this

/-- The field that an id is, in its word. -/
def idField (w : BufferWrapper) : Nat := wordOf 32 w.bufferId

theorem BufferWrapper.IsPart.idField_eq (h : w.IsPart) :
    (idField w : Int) = w.bufferId ∧ idField w < 32 := by
  obtain ⟨hlo, hhi⟩ := h.id_range
  have hcast := wordOf_cast 32 w.bufferId
  unfold idField
  omega

/-! ## The other row -/

section Pong

variable {off : Int}

/-- The parts whose pong ids are ids again. -/
structure PongPart (off : Int) (w : BufferWrapper) : Prop extends w.IsPart where
  pong_range : 0 ≤ w.pongId off ∧ w.pongId off < 32

def pongField (off : Int) (w : BufferWrapper) : Nat := (w.pongId off).toNat

theorem PongPart.pongField_eq (h : PongPart off w) :
    (pongField off w : Int) = w.pongId off ∧ pongField off w < 32 := by
  have := h.pong_range
  unfold pongField
  omega

theorem PongPart.currentId (h : PongPart off w) :
    (if w.pingPong = BUF_PING then
        if w.bufferType = BUF_TYPE_TEMP then idField w
        else (idField w + wordOf 32 off) % 2 ^ 32
      else (idField w + (2 ^ 32 - wordOf 32 off)) % 2 ^ 32) = pongField off w := by
  have hid := h.toIsPart.idField_eq
  have hpong := h.pongField_eq
  have heq := h.toIsPart.pongId_eq off
  have hoff := wordOf_cast 32 off
  have hlt := wordOf_lt 32 off
  split
  · split
    next hside htype =>
      rw [if_pos hside, if_pos htype] at heq
      omega
    next hside htype =>
      rw [if_pos hside, if_neg htype] at heq
      omega
  next hside =>
    rw [if_neg hside] at heq
    omega

/-- One digit of a combined id: the part at the end, and the others. -/
theorem calcPongBufferId_peel {r : BufferWrapper} (hr : PongPart off r) {ids types sides next : Nat}
    (hids : 32 * ids + idField r < 2 ^ 31) (hsides : 0 < sides) (hnext : 32 * next + 31 < 2 ^ 31)
    (hrun : calcPongBufferId ids types sides off = next) :
    calcPongBufferId (32 * ids + idField r : Nat) (r.bufferType + 32 * types)
      (r.pingPong + 32 * sides) off = (32 * next + pongField off r : Nat) := by
  have hid := hr.toIsPart.idField_eq.2
  have htype := hr.toIsPart.type_lt
  have hside := hr.toIsPart.side_pos
  have hpong := hr.pongField_eq.2
  have hword : wordOf 32 (32 * ids + idField r : Nat) = 32 * ids + idField r :=
    wordOf_natCast (by omega)
  have hshift : ∀ n, n >>> BUF_COMBINE_SHIFT = n / 32 := fun n => Nat.shiftRight_eq_div_pow n 5
  have hlow : (32 * ids + idField r) % 32 = idField r := by omega
  have hhigh : (32 * ids + idField r) / 32 = ids := by omega
  have hnextId : int32 ids = ids := int32_natCast (by omega)
  have hgo : BUF_PONG < r.pingPong + 32 * sides := show 2 < _ by omega
  rw [calcPongBufferId, if_pos hgo, hword]
  simp only [and_mask, hshift, hlow, hhigh]
  rw [show (r.bufferType + 32 * types) % 32 = r.bufferType by omega,
    show (r.bufferType + 32 * types) / 32 = types by omega,
    show (r.pingPong + 32 * sides) % 32 = r.pingPong by omega,
    show (r.pingPong + 32 * sides) / 32 = sides by omega,
    hnextId, hrun, hr.currentId, wordOf_natCast (by omega)]
  have hor : (next <<< (BUF_COMBINE_SHIFT * 1)) % 2 ^ 32 ||| pongField off r =
      next * 32 ^ 1 + pongField off r := or_field (by omega) (by omega)
  rw [Nat.mul_one, pow_one] at hor
  rw [hor, int32_natCast (by omega), Nat.mul_comm]

/-- The loop, on words whose lowest fields are the parts `rs` and above which stands `h`. -/
theorem calcPongBufferId_digits {h : Nat} : ∀ {rs : List BufferWrapper}, rs ≠ [] →
    (∀ r ∈ rs, PongPart off r) → h * 32 ^ rs.length + 32 ^ rs.length ≤ 2 ^ 31 →
    calcPongBufferId ((h * 32 ^ rs.length + digits idField rs : Nat) : Int)
      (digits (·.bufferType) rs) (digits (·.pingPong) rs) off =
    ((h * 32 ^ rs.length + digits (pongField off) rs : Nat) : Int)
  | [], hne, _, _ => absurd rfl hne
  | [r], _, hr, hfit => by
    have hpart := hr r mem_cons_self
    have hid := hpart.toIsPart.idField_eq
    have hpong := hpart.pongField_eq
    have heq := hpart.toIsPart.pongId_eq off
    simp only [digits_cons, show ∀ f, digits f [] = 0 from fun _ => rfl, Nat.mul_zero, Nat.add_zero]
    rw [calcPongBufferId_one _ _ hpart.type hpart.side]
    -- what stands above the id is carried along
    split at heq
    next hping =>
      rw [if_pos hping]
      split at heq
      next htemp =>
        rw [if_pos htemp]
        omega
      next htemp =>
        rw [if_neg htemp]
        omega
    next hping =>
      rw [if_neg hping]
      omega
  | r :: q :: rs, _, hr, hfit => by
    have hpart := hr r mem_cons_self
    have hrest : ∀ v ∈ q :: rs, PongPart off v := fun v hv => hr v (mem_cons_of_mem _ hv)
    have hid := hpart.toIsPart.idField_eq
    have hpong := hpart.pongField_eq
    have hside := (hrest q mem_cons_self).toIsPart.side_pos
    have hpow : 32 ^ (r :: q :: rs).length = 32 * 32 ^ (q :: rs).length := by
      show 32 ^ ((q :: rs).length + 1) = _
      rw [Nat.pow_succ, Nat.mul_comm]
    have hids : digits idField (q :: rs) < 32 ^ (q :: rs).length :=
      digits_lt fun v hv => (hrest v hv).toIsPart.idField_eq.2
    have hpongs : digits (pongField off) (q :: rs) < 32 ^ (q :: rs).length :=
      digits_lt fun v hv => (hrest v hv).pongField_eq.2
    have hsides : 0 < digits (·.pingPong) (q :: rs) := by
      rw [digits_cons]
      omega
    rw [hpow, Nat.mul_left_comm] at hfit
    have hnext := calcPongBufferId_digits (h := h) (cons_ne_nil q rs) hrest (by omega)
    have hpeel := calcPongBufferId_peel hpart (by omega) hsides (by omega) hnext
    rw [digits_cons _ r, digits_cons _ r, digits_cons _ r, digits_cons _ r, hpow, Nat.mul_left_comm]
    rw [Nat.mul_add, Nat.mul_add, Nat.add_assoc, Nat.add_assoc, Nat.add_comm _ (idField r),
      Nat.add_comm _ (pongField off r)] at hpeel
    exact hpeel

end Pong

/-! ## Decoding -/

theorem digits_field (h : Nat) : ∀ {rs : List BufferWrapper} {k : Nat}
    (hk : k < rs.length), (∀ r ∈ rs, field r < 32) →
    (h * 32 ^ rs.length + digits field rs) / 32 ^ k % 32 = field rs[k]
  | r :: rs, 0, _, hlt => by
    have hr := hlt r mem_cons_self
    rw [digits_cons, length_cons, Nat.pow_succ, pow_zero, Nat.div_one, ← Nat.mul_assoc]
    show _ = field r
    omega
  | r :: rs, k + 1, hk, hlt => by
    have hr := hlt r mem_cons_self
    rw [digits_cons, length_cons, Nat.pow_succ, Nat.pow_succ', ← Nat.mul_assoc,
      ← Nat.div_div_eq_div_mul,
      show (h * 32 ^ rs.length * 32 + (field r + 32 * digits field rs)) / 32
        = h * 32 ^ rs.length + digits field rs by omega]
    exact digits_field h (Nat.lt_of_succ_lt_succ hk) fun v hv => hlt v (mem_cons_of_mem _ hv)

theorem combinedBufferCount_eq {n low : Nat} (hlow : low < 32 ^ 5) (hn : 1 ≤ n) (hn' : n ≤ 5) :
    combinedBufferCount (n * 32 ^ 5 + low : Nat) = n := by
  have hword : wordOf 32 (n * 32 ^ 5 + low : Nat) = n * 32 ^ 5 + low :=
    wordOf_natCast (by omega)
  unfold combinedBufferCount
  rw [hword, shiftRight_field, and_mask]
  have htmp : (n * 32 ^ 5 + low) / 32 ^ BUF_COMBINED_MAX % 32 = n := by
    show (n * 32 ^ 5 + low) / 32 ^ 5 % 32 = n
    omega
  rw [htmp]
  exact if_neg (show ¬ (n = 0 ∨ 5 < n) by omega)

variable {ts : List BufferWrapper}

theorem decodeBufferId_digits
    (hlt : ∀ t ∈ ts, field t < 32) (hlen : 1 ≤ ts.length) (hlen' : ts.length ≤ 5) :
    decodeBufferId (ts.length * 32 ^ 5 + digits field ts.reverse : Nat) =
      ts.map fun t => (field t : Int) := by
  have hrev : ∀ r ∈ ts.reverse, field r < 32 := fun r hr => hlt r (mem_reverse.mp hr)
  have hlow := digits_lt hrev
  have hpow : 32 ^ ts.length ≤ 32 ^ 5 := Nat.pow_le_pow_right (by decide) hlen'
  rw [length_reverse] at hlow
  unfold decodeBufferId
  rw [combinedBufferCount_eq (by omega) hlen hlen']
  refine ext_getElem (by simp) fun pos hpos hpos' => ?_
  rw [length_map] at hpos'
  rw [getElem_map, getElem_range, getElem_map]
  unfold decodeBufferIdWithPos
  rw [wordOf_natCast (by omega), shiftRight_field, and_mask]
  -- the count, as what stands above the fields
  have hcount : ts.length * 32 ^ 5 = ts.length * 32 ^ (5 - ts.length) * 32 ^ ts.reverse.length := by
    rw [length_reverse, Nat.mul_assoc, ← Nat.pow_add, Nat.sub_add_cancel hlen']
  rw [hcount, digits_field _ (by rw [length_reverse]; omega) hrev, getElem_reverse]
  have hidx : ts.length - 1 - (ts.length - 1 - pos) = pos := by omega
  simp only [hidx]
  exact int32_natCast ((hlt _ (getElem_mem _)).trans (by decide))

/-! ## The combined wrapper -/

theorem combinedBufferWrappers_id (hts : ∀ t ∈ ts, t.IsPart)
    (hlen : ts.length ≤ 5) : (combinedBufferWrappers ts).bufferId =
      (ts.length * 32 ^ 5 + digits idField ts.reverse : Nat) := by
  have hlt : ∀ t ∈ ts, idField t < 32 := fun t ht => (hts t ht).idField_eq.2
  have hlow := digits_lt fun r hr => hlt r (mem_reverse.mp hr)
  have hpow : 32 ^ ts.length ≤ 32 ^ 5 := Nat.pow_le_pow_right (by decide) hlen
  rw [length_reverse] at hlow
  have hor : (ts.length <<< (BUF_COMBINE_SHIFT * 5)) % 2 ^ 32 ||| digits idField ts.reverse =
      ts.length * 32 ^ 5 + digits idField ts.reverse := or_field (hlow.trans_le hpow) (by omega)
  have hword : combine (fun t => wordOf 32 t.bufferId) ts = digits idField ts.reverse :=
    combine_eq hlt (by omega)
  unfold combinedBufferWrappers
  dsimp only
  rw [hword, show BUF_COMBINED_MAX = 5 from rfl, hor, int32_natCast (by omega)]

section

variable (hne : ts ≠ []) (hlen : ts.length ≤ 5)
include hne hlen

theorem combinedBufferWrappers_pongId {off : Int} (hts : ∀ t ∈ ts, PongPart off t) :
    (combinedBufferWrappers ts).pongId off =
      (ts.length * 32 ^ 5 + digits (pongField off) ts.reverse : Nat) := by
  have hparts : ∀ t ∈ ts, t.IsPart := fun t ht => (hts t ht).toIsPart
  have hpow : 32 ^ ts.length ≤ 32 ^ 5 := Nat.pow_le_pow_right (by decide) hlen
  have hcount : ts.length * 32 ^ 5 = ts.length * 32 ^ (5 - ts.length) * 32 ^ ts.reverse.length := by
    rw [length_reverse, Nat.mul_assoc, ← Nat.pow_add, Nat.sub_add_cancel hlen]
  unfold BufferWrapper.pongId
  rw [combinedBufferWrappers_id hparts hlen]
  show calcPongBufferId _ (combine (·.bufferType) ts) (combine (·.pingPong) ts) off = _
  rw [combine_eq (fun t ht => (hparts t ht).type_lt) (by omega),
    combine_eq (fun t ht => (hparts t ht).side_pos.2.trans (by decide)) (by omega), hcount]
  refine calcPongBufferId_digits (mt reverse_eq_nil_iff.mp hne)
    (fun r hr => hts r (mem_reverse.mp hr)) ?_
  rw [← hcount, length_reverse]
  omega

/-- A combined id decodes into its parts. -/
theorem decodeBufferId_combined (hts : ∀ t ∈ ts, t.IsPart) :
    decodeBufferId (combinedBufferWrappers ts).bufferId = ts.map (·.bufferId) := by
  have hpos := length_pos_iff.mpr hne
  rw [combinedBufferWrappers_id hts hlen,
    decodeBufferId_digits (fun t ht => (hts t ht).idField_eq.2) hpos hlen]
  exact map_congr_left fun t ht => (hts t ht).idField_eq.1

/-- So does that of the other halves. -/
theorem decodeBufferId_combined_pong {off : Int} (hts : ∀ t ∈ ts, PongPart off t) :
    decodeBufferId ((combinedBufferWrappers ts).pongId off) = ts.map (·.pongId off) := by
  have hpos := length_pos_iff.mpr hne
  rw [combinedBufferWrappers_pongId hne hlen hts,
    decodeBufferId_digits (fun t ht => (hts t ht).pongField_eq.2) hpos hlen]
  exact map_congr_left fun t ht => (hts t ht).pongField_eq.1

end

/-- An id below 32 is one part. -/
theorem decodeBufferId_plain {id : Int} (hlo : 0 ≤ id) (hhi : id < 32) :
    decodeBufferId id = [id] := by
  obtain ⟨n, rfl⟩ := Int.eq_ofNat_of_zero_le hlo
  have h : ∀ n : Fin 32, decodeBufferId (n.val : Int) = [(n.val : Int)] := by decide +kernel
  exact h ⟨n, by omega⟩

/-- The combined id and its pong id have the number of parts, and the parts' own ids. -/
theorem combined_decodes {ts : List BufferWrapper} (hlen : 2 ≤ ts.length) (hlen' : ts.length ≤ 5)
    {off : Int} (hts : ∀ t ∈ ts, PongPart off t) :
    let w := combinedBufferWrappers ts
    (combinedBufferCount w.bufferId = ts.length ∧
      decodeBufferId w.bufferId = ts.map (·.bufferId)) ∧
    combinedBufferCount (w.pongId off) = ts.length ∧
      decodeBufferId (w.pongId off) = ts.map (·.pongId off) := by
  have hparts : ∀ t ∈ ts, t.IsPart := fun t ht => (hts t ht).toIsPart
  have hne : ts ≠ [] := length_pos_iff.mp (by omega)
  have hpow : 32 ^ ts.length ≤ 32 ^ 5 := Nat.pow_le_pow_right (by decide) hlen'
  have hcount : ∀ {field : BufferWrapper → Nat}, (∀ t ∈ ts, field t < 32) →
      combinedBufferCount (ts.length * 32 ^ 5 + digits field ts.reverse : Nat) = ts.length := by
    intro field hlt
    have hlow := digits_lt fun r hr => hlt r (mem_reverse.mp hr)
    rw [length_reverse] at hlow
    exact combinedBufferCount_eq (hlow.trans_le hpow) (by omega) hlen'
  dsimp only
  refine ⟨⟨?_, decodeBufferId_combined hne hlen' hparts⟩, ?_,
    decodeBufferId_combined_pong hne hlen' hts⟩
  · rw [combinedBufferWrappers_id hparts hlen']
    exact hcount fun t ht => (hparts t ht).idField_eq.2
  · rw [combinedBufferWrappers_pongId hne hlen' hts]
    exact hcount fun t ht => (hts t ht).pongField_eq.2

/-- A temporary and a copied-in buffer, the latter in the second half of 16. -/
theorem combined_decodes_two :
    let ts : List BufferWrapper := [⟨6, BUF_TYPE_TEMP, BUF_PING⟩, ⟨9, BUF_TYPE_MTE3, BUF_PONG⟩]
    let w := combinedBufferWrappers ts
    (combinedBufferCount w.bufferId = ts.length ∧
      decodeBufferId w.bufferId = ts.map (·.bufferId)) ∧
    combinedBufferCount (w.pongId 8) = ts.length ∧
      decodeBufferId (w.pongId 8) = ts.map (·.pongId 8) := by
  refine combined_decodes (by decide) (by decide) fun t ht => ?_
  rcases mem_pair.mp ht with rfl | rfl
  · have hpart : BufferWrapper.IsPart ⟨6, BUF_TYPE_TEMP, BUF_PING⟩ :=
      ⟨by decide, by decide, by decide⟩
    refine ⟨hpart, ?_⟩
    rw [hpart.pongId_eq]
    decide
  · have hpart : BufferWrapper.IsPart ⟨9, BUF_TYPE_MTE3, BUF_PONG⟩ :=
      ⟨by decide, by decide, by decide⟩
    refine ⟨hpart, ?_⟩
    rw [hpart.pongId_eq]
    decide

end OpBase.Dag
