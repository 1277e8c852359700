import OpBase.Dag.Bind
import OpBase.Dag.BufferId

/-!
# The order of the buffers

`op_common/atvoss/util/buffer.h`: one pass over the nodes gives every node the buffers it is
computed into. Four lists hold the buffers that are free; a node takes from them by its kind
and by the memory level, and what it read last goes back to the list that its type and its
side name.

The pass neither makes buffers nor loses them:

> `orderStep_pool`: the free buffers and those held are, together, the same before and after
> each node.
-/

namespace OpBase.Dag

open List

inductive MemLevel where
  | level0
  | level1
  | level2
deriving DecidableEq, Repr

/-- The assertions that may fail. -/
inductive OrderFault where
  /-- "At least one memory Es should not be empty." -/
  | noFreeBuffer
  /-- "mapping::Size == 1" and "mapping::Size <= 1" -/
  | mappingSize
  /-- "N == AllocEs::Size" -/
  | allocSize
  /-- "Buffer count exceeded 32." -/
  | bufferCount
  /-- A count that is no `int`, where a template wants one. -/
  | narrowing
deriving DecidableEq, Repr

/-- `Mapping`: the buffers to be released with a node -/
structure Mapping where
  bind : Bind
  buffers : List BufferWrapper
deriving DecidableEq

/-- `BufListList`: the free buffers -/
structure BufLists where
  mte2 : List BufferWrapper
  mte3 : List BufferWrapper
  temp : List BufferWrapper
  pongMte3 : List BufferWrapper

/-- `PriorityGetFront`: the front of the first list that has one -/
def priorityGetFront : List (List BufferWrapper) → Except OrderFault BufferWrapper
  | [] => .error .noFreeBuffer
  | [] :: rest => priorityGetFront rest
  | (t :: _) :: _ => .ok t

/-- `AllocMte2` -/
def allocMte2 (memLvl : MemLevel) (l : BufLists) : Except OrderFault (BufLists × BufferWrapper) :=
  let usedTmpEs := if memLvl = .level2 then [] else l.temp
  let usedPongMte3Es := if memLvl ≠ .level0 then [] else l.pongMte3
  match priorityGetFront [l.mte2, usedTmpEs, usedPongMte3Es] with
  | .error e => .error e
  | .ok mte2 => .ok ({ l with
      mte2 := popFront l.mte2 mte2
      temp := popFront l.temp mte2
      pongMte3 := popFront l.pongMte3 mte2 }, mte2)

/-- `AllocTempBuffer` -/
def allocTempBuffer (memLvl : MemLevel) (l : BufLists) :
    Except OrderFault (BufLists × BufferWrapper) :=
  let usedPongMte3Es := if memLvl ≠ .level0 then [] else l.pongMte3
  let usedMte2Es := if memLvl = .level2 then [] else l.mte2
  match priorityGetFront [l.temp, usedPongMte3Es, usedMte2Es] with
  | .error e => .error e
  | .ok tmp => .ok ({ l with
      temp := popFront l.temp tmp
      pongMte3 := popFront l.pongMte3 tmp
      mte2 := popFront l.mte2 tmp }, tmp)

/-- `AllocMte3` -/
def allocMte3 (memLvl : MemLevel) (l : BufLists) : Except OrderFault (BufLists × BufferWrapper) :=
  let usedTmpEs := if memLvl ≠ .level0 then [] else l.temp
  let usedPongMte3Es := if memLvl ≠ .level0 then [] else l.pongMte3
  let usedMte2Es := if memLvl ≠ .level0 then [] else l.mte2
  match priorityGetFront [l.mte3, usedTmpEs, usedPongMte3Es, usedMte2Es] with
  | .error e => .error e
  | .ok mte3 => .ok ({
      mte3 := popFront l.mte3 mte3
      temp := popFront l.temp mte3
      pongMte3 := popFront l.pongMte3 mte3
      mte2 := popFront l.mte2 mte3 }, mte3)

/-- `isCacheBrcNode` -/
def isCacheBrcNode (cacheBrc : Bool) (f : Bind) : Bool :=
  cacheBrc && (f.fn.isCopyInBrcOp || f.fn.isVecBrcOp)

/-- `ableToRelease`, where `later` are the nodes behind the current one -/
def ableToRelease (cacheBrc : Bool) (later : List Bind) (f : Bind) : Bool :=
  !isCacheBrcNode cacheBrc f && inputIsAbleToFreeAux later f

/-- `ReleaseBufferByTypeAux` -/
def releaseBufferByType (cacheBrc : Bool) (later : List Bind) (toReleaseEs : List Mapping)
    (bufferType where_ : Nat) : List Bind → Except OrderFault (List BufferWrapper)
  | [] => .ok []
  | f :: fs =>
    match toReleaseEs.filter (·.bind = f) with
    | [mapping] =>
      let buffers := mapping.buffers.filter fun t => bufferType = t.bufferType ∧ t.pingPong = where_
      match releaseBufferByType cacheBrc later toReleaseEs bufferType where_ fs with
      | .error e => .error e
      | .ok left => .ok (union (if ableToRelease cacheBrc later f then buffers else []) left)
    | _ => .error .mappingSize

/-- `ReleaseUnusedInputAux` -/
def releaseUnusedInputAux (cacheBrc : Bool) (later : List Bind) (toReleaseEs : List Mapping) :
    List Bind → Except OrderFault (List Mapping)
  | [] => .ok []
  | f :: fs =>
    let mappings := toReleaseEs.filter (·.bind = f)
    if 1 < mappings.length then .error .mappingSize
    else
      match releaseUnusedInputAux cacheBrc later toReleaseEs fs with
      | .error e => .error e
      | .ok left => .ok (union (if ableToRelease cacheBrc later f then mappings else []) left)

/-- `ReleaseAndUpdateEs`, for the inputs `inFuns` of the current node -/
def releaseAndUpdateEs (cacheBrc : Bool) (later inFuns : List Bind) (l : BufLists)
    (toReleaseEs : List Mapping) : Except OrderFault (BufLists × List Mapping) := do
  let mte2 ← releaseBufferByType cacheBrc later toReleaseEs BUF_TYPE_MTE2 BUF_PING inFuns
  let mte3 ← releaseBufferByType cacheBrc later toReleaseEs BUF_TYPE_MTE3 BUF_PING inFuns
  let temp ← releaseBufferByType cacheBrc later toReleaseEs BUF_TYPE_TEMP BUF_PING inFuns
  let pongMte3 ← releaseBufferByType cacheBrc later toReleaseEs BUF_TYPE_MTE3 BUF_PONG inFuns
  let needReleaseEs ← releaseUnusedInputAux cacheBrc later toReleaseEs inFuns
  return (⟨l.mte2 ++ mte2, l.mte3 ++ mte3, l.temp ++ temp, l.pongMte3 ++ pongMte3⟩,
    remove toReleaseEs needReleaseEs)

/-- What `GenerateBufferIdOrder` hands on from node to node. -/
structure OrderState where
  bufListList : BufLists
  allocEs : List BufferWrapper
  toReleaseEs : List Mapping
  scalarIdx : Int

/-- One node of `GenerateBufferIdOrder`, with the nodes behind it. -/
def orderStep (memLvl : MemLevel) (useNddma cacheBrc : Bool) (fun_ : Bind) (later : List Bind)
    (s : OrderState) : Except OrderFault OrderState :=
  if fun_.isScalarOp then
    .ok { s with
      allocEs := s.allocEs ++ [⟨s.scalarIdx, BUF_TYPE_SCALAR, BUF_PING⟩]
      scalarIdx := s.scalarIdx + 1 }
  else if fun_.fn.isCopyInBrcOp && !useNddma then do
    -- copy in, then broadcast in the unified buffer
    let (next0, mte2) ← allocMte2 memLvl s.bufListList
    -- if CopyInBrc -> CopyOut, should use MTE3
    let (next, w) ←
      (if isConnectOutput later fun_ then allocMte3 memLvl next0
        else allocTempBuffer memLvl next0)
    return { s with
      bufListList := next
      allocEs := s.allocEs ++ [combinedBufferWrappers [w, mte2]]
      toReleaseEs := s.toReleaseEs ++ [⟨fun_, [w, mte2]⟩] }
  else if fun_.fn.isCopyInOp then do
    let (next, mte2) ← allocMte2 memLvl s.bufListList
    return { s with
      bufListList := next
      allocEs := s.allocEs ++ [mte2]
      toReleaseEs := s.toReleaseEs ++ [⟨fun_, [mte2]⟩] }
  else if fun_.fn.isCopyOutOp then do
    let (next, toReleaseEs) ←
      releaseAndUpdateEs cacheBrc later fun_.inNonScalarFuns s.bufListList s.toReleaseEs
    return { s with
      bufListList := next
      allocEs := s.allocEs ++ [⟨-1, BUF_TYPE_PLACEHOLDER, BUF_PING⟩]
      toReleaseEs := toReleaseEs }
  else do
    let (next0, w) ←
      (if isConnectOutput later fun_ then allocMte3 memLvl s.bufListList
        else allocTempBuffer memLvl s.bufListList)
    let (next, toReleaseEs) ←
      releaseAndUpdateEs cacheBrc later fun_.inNonScalarFuns next0 s.toReleaseEs
    return { s with
      bufListList := next
      allocEs := s.allocEs ++ [w]
      toReleaseEs := toReleaseEs ++ [⟨fun_, [w]⟩] }

/-- `GenerateBufferIdOrder`, from the nodes that are left on -/
def orderRun (memLvl : MemLevel) (useNddma cacheBrc : Bool) :
    List Bind → OrderState → Except OrderFault OrderState
  | [], s => .ok s
  | fun_ :: later, s =>
    match orderStep memLvl useNddma cacheBrc fun_ later s with
    | .error e => .error e
    | .ok s' => orderRun memLvl useNddma cacheBrc later s'

/-- `GenerateBufferIdOrder`: the ids of all nodes, for ping and for pong -/
def generateBufferIdOrder (memLvl : MemLevel) (useNddma cacheBrc : Bool) (funList : List Bind)
    (bufListList : BufLists) (pongOffset : Int) : Except OrderFault (List Int × List Int) :=
  match orderRun memLvl useNddma cacheBrc funList ⟨bufListList, [], [], 0⟩ with
  | .error e => .error e
  | .ok s =>
    if funList.length = s.allocEs.length then
      .ok (s.allocEs.map (·.bufferId), s.allocEs.map (·.pongId pongOffset))
    else .error .allocSize

/-- `GenerateBufferWrappers` -/
def generateBufferWrappers (n type offset where_ : Nat) : List BufferWrapper :=
  (List.range n).map fun i : Nat => ⟨(i + offset : Nat), type, where_⟩

/-- How many buffers of each kind there are. -/
structure BufferCounts where
  mte2 : Nat
  mte3 : Nat
  temp : Nat

namespace BufferCounts

/-- `PongOffset`: the buffers that are not doubled for pong -/
def pongOffset (c : BufferCounts) : Nat := c.mte2 + c.mte3 + c.temp

/-- The free lists at the start: |mte2|mte3|tmp|mte2|mte3| -/
def lists (c : BufferCounts) (bufferLvl : MemLevel) : BufLists where
  mte2 := generateBufferWrappers c.mte2 BUF_TYPE_MTE2 0 BUF_PING
  mte3 := generateBufferWrappers c.mte3 BUF_TYPE_MTE3 c.mte2 BUF_PING
  temp := generateBufferWrappers c.temp BUF_TYPE_TEMP (c.mte2 + c.mte3) BUF_PING
  pongMte3 :=
    if bufferLvl = .level0 then
      generateBufferWrappers c.mte3 BUF_TYPE_MTE3 (c.mte2 * 2 + c.mte3 + c.temp) BUF_PONG
    else []

end BufferCounts

/-- `GetBufferIdsImpl`, for the level and the counts it begins with. The sum is one of
`uint32_t`, and the ids and the offset are `int` arguments of templates. -/
def bufferIdsAt (bufferLvl : MemLevel) (c : BufferCounts) (useNddma cacheBrc : Bool)
    (funList : List Bind) : Except OrderFault (List Int × List Int) :=
  if ¬ ((c.mte2 + c.mte3) * 2 + c.temp) % 2 ^ 32 ≤ 32 then .error .bufferCount
  else if ¬ c.pongOffset < 2 ^ 31 then .error .narrowing
  else generateBufferIdOrder bufferLvl useNddma cacheBrc funList (c.lists bufferLvl) c.pongOffset

/-! ## Taking a buffer -/

namespace BufLists

def toList (l : BufLists) : List BufferWrapper := l.mte2 ++ (l.mte3 ++ (l.temp ++ l.pongMte3))

/-- The buffer is the front of a list. -/
def IsFront (l : BufLists) (w : BufferWrapper) : Prop :=
  l.mte2.head? = some w ∨ l.mte3.head? = some w ∨ l.temp.head? = some w ∨ l.pongMte3.head? = some w

def popAll (l : BufLists) (w : BufferWrapper) : BufLists where
  mte2 := popFront l.mte2 w
  mte3 := popFront l.mte3 w
  temp := popFront l.temp w
  pongMte3 := popFront l.pongMte3 w

theorem mem_toList {l : BufLists} {w : BufferWrapper} :
    w ∈ l.toList ↔ w ∈ l.mte2 ∨ w ∈ l.mte3 ∨ w ∈ l.temp ∨ w ∈ l.pongMte3 := by
  unfold toList
  rw [mem_append, mem_append, mem_append]

end BufLists

variable {w : BufferWrapper} {es : List BufferWrapper} {tr' : List Mapping}

theorem popFront_count (h : es.head? = some w) (a : BufferWrapper) :
    es.count a = (popFront es w).count a + [w].count a := by
  obtain ⟨ts, rfl⟩ : ∃ ts, es = w :: ts := by
    cases es with
    | nil => exact absurd h (by simp)
    | cons t ts =>
      rw [head?_cons] at h
      exact ⟨ts, by rw [Option.some.inj h]⟩
  rw [popFront_head, List.count_cons, count_singleton]

/-- Popping a buffer at the front takes it out of all lists. -/
theorem BufLists.popAll_perm {l : BufLists} (hnodup : l.toList.Nodup)
    (hfront : l.IsFront w) : l.toList.Perm (w :: (l.popAll w).toList) := by
  refine perm_iff_count.mpr fun a => ?_
  have hone := nodup_iff_count_le_one.mp hnodup w
  simp only [toList, popAll, List.count_cons, List.count_append] at hone ⊢
  -- the lists that have it count at least one, so the others count none
  have hmem : ∀ es : List BufferWrapper, es.head? = some w → 1 ≤ es.count w := fun es h =>
    one_le_count_iff.mpr (mem_of_mem_head? h)
  have hother : ∀ es : List BufferWrapper, es.count w = 0 → popFront es w = es := fun es h =>
    popFront_of_notMem (count_eq_zero.mp h)
  have hsingle : ([w] : List BufferWrapper).count a = if w == a then 1 else 0 :=
    count_singleton
  rcases hfront with h | h | h | h
  · have h₁ := hmem _ h
    have hcount := popFront_count h a
    rw [hother l.mte3 (by omega), hother l.temp (by omega), hother l.pongMte3 (by omega)]
    omega
  · have h₁ := hmem _ h
    have hcount := popFront_count h a
    rw [hother l.mte2 (by omega), hother l.temp (by omega), hother l.pongMte3 (by omega)]
    omega
  · have h₁ := hmem _ h
    have hcount := popFront_count h a
    rw [hother l.mte2 (by omega), hother l.mte3 (by omega), hother l.pongMte3 (by omega)]
    omega
  · have h₁ := hmem _ h
    have hcount := popFront_count h a
    rw [hother l.mte2 (by omega), hother l.mte3 (by omega), hother l.temp (by omega)]
    omega

theorem priorityGetFront_mem : ∀ {eses : List (List BufferWrapper)},
    priorityGetFront eses = .ok w → ∃ es ∈ eses, es.head? = some w
  | [] :: rest, h => by
    have hrest : priorityGetFront rest = .ok w := h
    obtain ⟨es, hes, hw⟩ := priorityGetFront_mem hrest
    exact ⟨es, mem_cons_of_mem _ hes, hw⟩
  | (t :: ts) :: rest, h => ⟨t :: ts, mem_cons_self, by
      rw [head?_cons, Except.ok.inj h]⟩

theorem isFront_of_used {l : BufLists} (hes : es ∈ [l.mte2, l.mte3, l.temp, l.pongMte3] ∨ es = [])
    (hw : es.head? = some w) :
    l.IsFront w := by
  rcases hes with hes | rfl
  · simp only [mem_cons, not_mem_nil, or_false] at hes
    rcases hes with rfl | rfl | rfl | rfl
    · exact Or.inl hw
    · exact Or.inr (Or.inl hw)
    · exact Or.inr (Or.inr (Or.inl hw))
    · exact Or.inr (Or.inr (Or.inr hw))
  · exact absurd hw (by simp)

theorem front_other {l : BufLists} (hnodup : l.toList.Nodup)
    (hes : es = l.mte2 ∨ es = l.temp ∨ es = l.pongMte3 ∨ es = []) (hw : es.head? = some w) :
    l.IsFront w ∧ popFront l.mte3 w = l.mte3 := by
  refine ⟨isFront_of_used ?_ hw, popFront_of_notMem fun hmte3 => ?_⟩
  · simp only [mem_cons, not_mem_nil, or_false]
    tauto
  · have hone := nodup_iff_count_le_one.mp hnodup w
    have h₃ := one_le_count_iff.mpr hmte3
    have hw' := one_le_count_iff.mpr (mem_of_mem_head? hw)
    simp only [BufLists.toList, List.count_append] at hone
    rcases hes with rfl | rfl | rfl | rfl
    · omega
    · omega
    · omega
    · exact absurd hw (by simp)

/-- A buffer is taken from the front. -/
theorem allocMte2_ok {memLvl : MemLevel} {l l' : BufLists}
    (hnodup : l.toList.Nodup) (h : allocMte2 memLvl l = .ok (l', w)) :
    l.IsFront w ∧ l' = l.popAll w := by
  unfold allocMte2 at h
  dsimp only at h
  split at h
  next => exact absurd h (by simp)
  next mte2 hfront =>
    obtain ⟨es, hes, hw⟩ := priorityGetFront_mem hfront
    obtain ⟨hl, rfl⟩ := Prod.mk.inj (Except.ok.inj h)
    simp only [mem_cons, not_mem_nil, or_false] at hes
    obtain ⟨hisFront, hmte3⟩ := front_other hnodup (by grind) hw
    refine ⟨hisFront, ?_⟩
    rw [← hl]
    unfold BufLists.popAll
    rw [hmte3]

/-- A buffer is taken from the front. -/
theorem allocTempBuffer_ok {memLvl : MemLevel} {l l' : BufLists}
    (hnodup : l.toList.Nodup) (h : allocTempBuffer memLvl l = .ok (l', w)) :
    l.IsFront w ∧ l' = l.popAll w := by
  unfold allocTempBuffer at h
  dsimp only at h
  split at h
  next => exact absurd h (by simp)
  next tmp hfront =>
    obtain ⟨es, hes, hw⟩ := priorityGetFront_mem hfront
    obtain ⟨hl, rfl⟩ := Prod.mk.inj (Except.ok.inj h)
    simp only [mem_cons, not_mem_nil, or_false] at hes
    obtain ⟨hisFront, hmte3⟩ := front_other hnodup (by grind) hw
    refine ⟨hisFront, ?_⟩
    rw [← hl]
    unfold BufLists.popAll
    rw [hmte3]

/-- A buffer is taken from the front. -/
theorem allocMte3_ok {memLvl : MemLevel} {l l' : BufLists}
    (h : allocMte3 memLvl l = .ok (l', w)) : l.IsFront w ∧ l' = l.popAll w := by
  unfold allocMte3 at h
  dsimp only at h
  split at h
  next => exact absurd h (by simp)
  next mte3 hfront =>
    obtain ⟨es, hes, hw⟩ := priorityGetFront_mem hfront
    obtain ⟨hl, rfl⟩ := Prod.mk.inj (Except.ok.inj h)
    refine ⟨isFront_of_used ?_ hw, hl.symm⟩
    simp only [mem_cons, not_mem_nil, or_false] at hes ⊢
    grind

/-! ## Giving buffers back -/

/-- The node gives its buffers back behind a node that reads `inFuns`. -/
def Released (cacheBrc : Bool) (later inFuns : List Bind) (f : Bind) : Prop :=
  f ∈ inFuns ∧ ableToRelease cacheBrc later f = true

instance {cacheBrc : Bool} {later inFuns : List Bind} {f : Bind} :
    Decidable (Released cacheBrc later inFuns f) :=
  inferInstanceAs (Decidable (_ ∧ _))

section Release

variable {cacheBrc : Bool} {later inFuns : List Bind} {tr : List Mapping}

/-- What is released of a kind are the buffers of that kind which are not read again. -/
theorem releaseBufferByType_ok {type side : Nat} : ∀ {fs : List Bind} {ws : List BufferWrapper},
    releaseBufferByType cacheBrc later tr type side fs = .ok ws →
    ws.Nodup ∧ ∀ t, t ∈ ws ↔ (t.bufferType = type ∧ t.pingPong = side) ∧
      ∃ m ∈ tr, Released cacheBrc later fs m.bind ∧ t ∈ m.buffers
  | [], ws, h => by
    obtain rfl := Except.ok.inj h
    exact ⟨nodup_nil, by simp [Released]⟩
  | f :: fs, ws, h => by
    rw [releaseBufferByType] at h
    dsimp only at h
    split at h
    next mapping hmapping =>
      split at h
      next => exact absurd h (by simp)
      next left hleft =>
        obtain rfl := Except.ok.inj h
        obtain ⟨-, ih⟩ := releaseBufferByType_ok hleft
        refine ⟨nodup_union _ _, fun t => ?_⟩
        -- the node has one mapping
        have hone : ∀ m, (m ∈ tr ∧ m.bind = f) ↔ m = mapping := fun m => by
          have hmem : m ∈ tr.filter (fun x => decide (x.bind = f)) ↔ _ := mem_filter
          rw [hmapping, mem_singleton, decide_eq_true_iff] at hmem
          exact hmem.symm
        rw [mem_union, ih]
        unfold Released
        constructor
        · rintro (ht | ⟨hkind, m, hm, ⟨hf, hable⟩, ht⟩)
          · split at ht
            next hable =>
              obtain ⟨ht, hkind⟩ := mem_filter.mp ht
              rw [decide_eq_true_iff] at hkind
              obtain ⟨hm, hbind⟩ := (hone mapping).mpr rfl
              rw [← hbind] at hable
              exact ⟨⟨hkind.1.symm, hkind.2⟩, mapping, hm,
                ⟨mem_cons.mpr (Or.inl hbind), hable⟩, ht⟩
            next => exact absurd ht not_mem_nil
          · exact ⟨hkind, m, hm, ⟨mem_cons_of_mem _ hf, hable⟩, ht⟩
        · intro ⟨hkind, m, hm, ⟨hf, hable⟩, ht⟩
          rcases mem_cons.mp hf with hbind | hf
          · left
            obtain rfl := (hone m).mp ⟨hm, hbind⟩
            rw [hbind] at hable
            rw [if_pos hable, mem_filter, decide_eq_true_iff]
            exact ⟨ht, hkind.1.symm, hkind.2⟩
          · exact Or.inr ⟨hkind, m, hm, ⟨hf, hable⟩, ht⟩
    next => exact absurd h (by simp)

/-- The bookings released are those of inputs that are not read again. -/
theorem releaseUnusedInputAux_ok : ∀ {fs : List Bind} {ms : List Mapping},
    releaseUnusedInputAux cacheBrc later tr fs = .ok ms →
    ∀ m, m ∈ ms ↔ m ∈ tr ∧ Released cacheBrc later fs m.bind
  | [], ms, h => by
    obtain rfl := Except.ok.inj h
    simp [Released]
  | f :: fs, ms, h => by
    rw [releaseUnusedInputAux] at h
    split at h
    next => exact absurd h (by simp)
    next =>
      split at h
      next => exact absurd h (by simp)
      next left hleft =>
        obtain rfl := Except.ok.inj h
        intro m
        rw [mem_union, releaseUnusedInputAux_ok hleft]
        unfold Released
        constructor
        · rintro (hm | ⟨hm, hf, hable⟩)
          · split at hm
            next hable =>
              obtain ⟨hm, hbind⟩ := mem_filter.mp hm
              rw [decide_eq_true_iff] at hbind
              rw [← hbind] at hable
              exact ⟨hm, mem_cons.mpr (Or.inl hbind), hable⟩
            next => exact absurd hm not_mem_nil
          · exact ⟨hm, mem_cons_of_mem _ hf, hable⟩
        · intro ⟨hm, hf, hable⟩
          rcases mem_cons.mp hf with hbind | hf
          · left
            rw [if_pos (hbind ▸ hable), mem_filter, decide_eq_true_iff]
            exact ⟨hm, hbind⟩
          · exact Or.inr ⟨hm, hf, hable⟩

/-- The buffers that are held. -/
def held (tr : List Mapping) : List BufferWrapper := tr.flatMap (·.buffers)

theorem mem_held {t : BufferWrapper} : t ∈ held tr ↔ ∃ m ∈ tr, t ∈ m.buffers :=
  mem_flatMap

/-- The mappings that stay behind a node. -/
def keptBehind (cacheBrc : Bool) (later inFuns : List Bind) (tr : List Mapping) : List Mapping :=
  tr.filter fun m => ¬ Released cacheBrc later inFuns m.bind

theorem mem_keptBehind {m : Mapping} : m ∈ keptBehind cacheBrc later inFuns tr ↔
    m ∈ tr ∧ ¬ Released cacheBrc later inFuns m.bind := by
  unfold keptBehind
  rw [mem_filter, decide_eq_true_iff]

/-- A buffer of the list that its type and its side name. -/
def HasKind (w : BufferWrapper) : Prop :=
  (w.bufferType = BUF_TYPE_MTE2 ∧ w.pingPong = BUF_PING) ∨
  (w.bufferType = BUF_TYPE_MTE3 ∧ w.pingPong = BUF_PING) ∨
  (w.bufferType = BUF_TYPE_TEMP ∧ w.pingPong = BUF_PING) ∨
  (w.bufferType = BUF_TYPE_MTE3 ∧ w.pingPong = BUF_PONG)

/-- What comes back: every list gets the released buffers of its type and its side. -/
structure GivesBack (cacheBrc : Bool) (later inFuns : List Bind) (tr : List Mapping)
    (back : BufLists) : Prop where
  nodup : back.mte2.Nodup ∧ back.mte3.Nodup ∧ back.temp.Nodup ∧ back.pongMte3.Nodup
  mte2 : ∀ t, t ∈ back.mte2 ↔ (t.bufferType = BUF_TYPE_MTE2 ∧ t.pingPong = BUF_PING) ∧
    ∃ m ∈ tr, Released cacheBrc later inFuns m.bind ∧ t ∈ m.buffers
  mte3 : ∀ t, t ∈ back.mte3 ↔ (t.bufferType = BUF_TYPE_MTE3 ∧ t.pingPong = BUF_PING) ∧
    ∃ m ∈ tr, Released cacheBrc later inFuns m.bind ∧ t ∈ m.buffers
  temp : ∀ t, t ∈ back.temp ↔ (t.bufferType = BUF_TYPE_TEMP ∧ t.pingPong = BUF_PING) ∧
    ∃ m ∈ tr, Released cacheBrc later inFuns m.bind ∧ t ∈ m.buffers
  pongMte3 : ∀ t, t ∈ back.pongMte3 ↔ (t.bufferType = BUF_TYPE_MTE3 ∧ t.pingPong = BUF_PONG) ∧
    ∃ m ∈ tr, Released cacheBrc later inFuns m.bind ∧ t ∈ m.buffers

theorem bind_eq_ok {ε α β : Type} {x : Except ε α} {f : α → Except ε β} {b : β} :
    x >>= f = .ok b ↔ ∃ a, x = .ok a ∧ f a = .ok b := by
  cases x with
  | error e => exact ⟨fun h => absurd h (by simp [Bind.bind, Except.bind]), fun ⟨_, h, _⟩ => by
      cases h⟩
  | ok a => exact ⟨fun h => ⟨a, rfl, h⟩, fun ⟨_, h, hf⟩ => by
      cases h
      exact hf⟩

/-- Releasing appends what is given back to the lists and keeps the other bookings. -/
theorem releaseAndUpdateEs_ok {l l' : BufLists}
    (h : releaseAndUpdateEs cacheBrc later inFuns l tr = .ok (l', tr')) :
    tr' = keptBehind cacheBrc later inFuns tr ∧
    ∃ back, GivesBack cacheBrc later inFuns tr back ∧
      l' = ⟨l.mte2 ++ back.mte2, l.mte3 ++ back.mte3, l.temp ++ back.temp,
        l.pongMte3 ++ back.pongMte3⟩ := by
  unfold releaseAndUpdateEs at h
  obtain ⟨mte2, h₂, h⟩ := bind_eq_ok.mp h
  obtain ⟨mte3, h₃, h⟩ := bind_eq_ok.mp h
  obtain ⟨temp, hₜ, h⟩ := bind_eq_ok.mp h
  obtain ⟨pongMte3, hₚ, h⟩ := bind_eq_ok.mp h
  obtain ⟨need, hneed, h⟩ := bind_eq_ok.mp h
  obtain ⟨rfl, rfl⟩ := Prod.mk.inj (Except.ok.inj h)
  have hmem := releaseUnusedInputAux_ok hneed
  refine ⟨?_, ⟨mte2, mte3, temp, pongMte3⟩, ⟨?_, ?_, ?_, ?_, ?_⟩, rfl⟩
  · unfold remove keptBehind
    refine filter_congr fun m hm => ?_
    rw [decide_eq_decide, hmem]
    exact not_congr ⟨And.right, fun h => ⟨hm, h⟩⟩
  · exact ⟨(releaseBufferByType_ok h₂).1, (releaseBufferByType_ok h₃).1,
      (releaseBufferByType_ok hₜ).1, (releaseBufferByType_ok hₚ).1⟩
  · exact (releaseBufferByType_ok h₂).2
  · exact (releaseBufferByType_ok h₃).2
  · exact (releaseBufferByType_ok hₜ).2
  · exact (releaseBufferByType_ok hₚ).2

/-- What is given back is what was held, each buffer once. -/
theorem GivesBack.perm {back : BufLists} (h : GivesBack cacheBrc later inFuns tr back)
    (hnodup : (held tr).Nodup) (hkind : ∀ t ∈ held tr, HasKind t) :
    back.toList.Perm (held (tr.filter fun m => Released cacheBrc later inFuns m.bind)) := by
  have hsub : (held (tr.filter fun m => Released cacheBrc later inFuns m.bind)).Sublist
      (held tr) := filter_sublist.flatMap _
  obtain ⟨hn₂, hn₃, hnₜ, hnₚ⟩ := h.nodup
  -- the four lists differ in kind or side, so that no buffer is in two of them
  have hback : back.toList.Nodup := by
    unfold BufLists.toList
    refine nodup_append'.mpr ⟨hn₂, nodup_append'.mpr ⟨hn₃, nodup_append'.mpr
      ⟨hnₜ, hnₚ, ?_⟩, ?_⟩, ?_⟩
    · intro t ht ht'
      have h₁ := ((h.temp t).mp ht).1.2
      rw [((h.pongMte3 t).mp ht').1.2] at h₁
      exact absurd h₁ (by decide)
    · intro t ht ht'
      obtain ⟨htype, hside⟩ := ((h.mte3 t).mp ht).1
      rcases mem_append.mp ht' with ht' | ht'
      · rw [((h.temp t).mp ht').1.1] at htype
        exact absurd htype (by decide)
      · rw [((h.pongMte3 t).mp ht').1.2] at hside
        exact absurd hside (by decide)
    · intro t ht ht'
      have htype := ((h.mte2 t).mp ht).1.1
      rcases mem_append.mp ht' with ht' | ht'
      · rw [((h.mte3 t).mp ht').1.1] at htype
        exact absurd htype (by decide)
      · rcases mem_append.mp ht' with ht' | ht'
        · rw [((h.temp t).mp ht').1.1] at htype
          exact absurd htype (by decide)
        · rw [((h.pongMte3 t).mp ht').1.1] at htype
          exact absurd htype (by decide)
  refine (perm_ext_iff_of_nodup hback (hnodup.sublist hsub)).mpr fun t => ?_
  rw [BufLists.mem_toList, h.mte2, h.mte3, h.temp, h.pongMte3, mem_held]
  simp only [mem_filter, decide_eq_true_iff]
  constructor
  · rintro (⟨-, m, hm, hrel, ht⟩ | ⟨-, m, hm, hrel, ht⟩ | ⟨-, m, hm, hrel, ht⟩ |
      ⟨-, m, hm, hrel, ht⟩)
    all_goals exact ⟨m, ⟨hm, hrel⟩, ht⟩
  · intro ⟨m, ⟨hm, hrel⟩, ht⟩
    have hex : ∃ m ∈ tr, Released cacheBrc later inFuns m.bind ∧ t ∈ m.buffers :=
      ⟨m, hm, hrel, ht⟩
    rcases hkind t (mem_held.mpr ⟨m, hm, ht⟩) with hk | hk | hk | hk
    · exact Or.inl ⟨hk, hex⟩
    · exact Or.inr (Or.inl ⟨hk, hex⟩)
    · exact Or.inr (Or.inr (Or.inl ⟨hk, hex⟩))
    · exact Or.inr (Or.inr (Or.inr ⟨hk, hex⟩))

theorem releaseAndUpdateEs_perm {l l' : BufLists} (hnodup : (held tr).Nodup)
    (hkind : ∀ t ∈ held tr, HasKind t)
    (h : releaseAndUpdateEs cacheBrc later inFuns l tr = .ok (l', tr')) :
    (l'.toList ++ held tr').Perm (l.toList ++ held tr) := by
  obtain ⟨rfl, back, hback, rfl⟩ := releaseAndUpdateEs_ok h
  refine perm_iff_count.mpr fun a => ?_
  have hperm := (hback.perm hnodup hkind).count_eq a
  have hsplit := ((filter_append_perm
    (fun m : Mapping => decide (Released cacheBrc later inFuns m.bind)) tr).flatMap_right
    (·.buffers)).count_eq a
  have hkept : keptBehind cacheBrc later inFuns tr =
      tr.filter fun m => !decide (Released cacheBrc later inFuns m.bind) :=
    filter_congr fun m _ => decide_not
  rw [flatMap_append] at hsplit
  unfold held at hperm ⊢
  rw [hkept]
  simp only [BufLists.toList, List.count_append] at hperm hsplit ⊢
  omega

end Release

/-! ## The pool -/

/-- All the buffers of a run: no two are the same, and each has a list it belongs to. -/
structure Pool where
  all : List BufferWrapper
  nodup : all.Nodup
  hasKind : ∀ w ∈ all, HasKind w

/-- The free buffers and those held are the pool. -/
def Pool.IsSplit (pool : Pool) (l : BufLists) (tr : List Mapping) : Prop :=
  (l.toList ++ held tr).Perm pool.all

namespace Pool.IsSplit

variable {pool : Pool} {l : BufLists} {tr : List Mapping}

section

variable (h : pool.IsSplit l tr)
include h

theorem nodup : (l.toList ++ held tr).Nodup :=
  h.nodup_iff.mpr pool.nodup

theorem nodup_free : l.toList.Nodup := h.nodup.of_append_left

theorem mem_all {w : BufferWrapper} (hw : w ∈ l.toList ∨ w ∈ held tr) :
    w ∈ pool.all := h.mem_iff.mp (mem_append.mpr hw)

theorem disjoint {w : BufferWrapper} (hw : w ∈ l.toList)
    (hw' : w ∈ held tr) : False := disjoint_of_nodup_append h.nodup hw hw'

theorem hasKind {w : BufferWrapper} (hw : w ∈ held tr) : HasKind w :=
  pool.hasKind w (h.mem_all (Or.inr hw))

end

end Pool.IsSplit

/-! ## One node -/

/-- The buffers that a node takes: two for a broadcast that is not done on the way in. -/
def allocFor (memLvl : MemLevel) (useNddma : Bool) (fun_ : Bind) (later : List Bind)
    (l : BufLists) : Except OrderFault (BufLists × List BufferWrapper) :=
  if fun_.fn.isCopyInBrcOp && !useNddma then do
    let (next0, mte2) ← allocMte2 memLvl l
    let (next, w) ←
      (if isConnectOutput later fun_ then allocMte3 memLvl next0
        else allocTempBuffer memLvl next0)
    return (next, [w, mte2])
  else do
    let (next, w) ←
      (if fun_.fn.isCopyInOp then allocMte2 memLvl l
        else if isConnectOutput later fun_ then allocMte3 memLvl l
        else allocTempBuffer memLvl l)
    return (next, [w])

/-- What a node gives back: only a node that computes does so. -/
def releaseFor (cacheBrc : Bool) (fun_ : Bind) (later : List Bind) (l : BufLists)
    (tr : List Mapping) : Except OrderFault (BufLists × List Mapping) :=
  if fun_.fn.isCopyInOp then .ok (l, tr)
  else releaseAndUpdateEs cacheBrc later fun_.inNonScalarFuns l tr

/-- The wrapper that stands for the buffers of a node. -/
def wrapperOf : List BufferWrapper → BufferWrapper
  | [w] => w
  | ws => combinedBufferWrappers ws

section Step

variable {memLvl : MemLevel} {useNddma cacheBrc : Bool} {fun_ : Bind} {later : List Bind}
  {s s' : OrderState}

/-- A scalar takes the next of its own ids. -/
theorem orderStep_scalar (hscalar : fun_.isScalarOp = true) :
    orderStep memLvl useNddma cacheBrc fun_ later s = .ok { s with
      allocEs := s.allocEs ++ [⟨s.scalarIdx, BUF_TYPE_SCALAR, BUF_PING⟩]
      scalarIdx := s.scalarIdx + 1 } := by
  unfold orderStep
  exact if_pos hscalar

/-- An output releases its inputs. -/
theorem orderStep_copyOut (hscalar : fun_.isScalarOp = false) (hout : fun_.fn.isCopyOutOp = true) :
    orderStep memLvl useNddma cacheBrc fun_ later s = (do
      let (next, toReleaseEs) ←
        releaseAndUpdateEs cacheBrc later fun_.inNonScalarFuns s.bufListList s.toReleaseEs
      return { s with
        bufListList := next
        allocEs := s.allocEs ++ [⟨-1, BUF_TYPE_PLACEHOLDER, BUF_PING⟩]
        toReleaseEs := toReleaseEs }) := by
  have hbrc : fun_.fn.isCopyInBrcOp = false ∧ fun_.fn.isCopyInOp = false := by
    cases hfn : fun_.fn <;> simp_all [VecFun.isCopyOutOp, VecFun.isCopyInBrcOp, VecFun.isCopyInOp]
  unfold orderStep
  simp [hscalar, hout, hbrc.1, hbrc.2]

/-- Any other node takes its buffers before it releases those of its inputs. -/
theorem orderStep_holds (hscalar : fun_.isScalarOp = false) (hout : fun_.fn.isCopyOutOp = false) :
    orderStep memLvl useNddma cacheBrc fun_ later s = (do
      let (next0, bufs) ← allocFor memLvl useNddma fun_ later s.bufListList
      let (next, toReleaseEs) ← releaseFor cacheBrc fun_ later next0 s.toReleaseEs
      return { s with
        bufListList := next
        allocEs := s.allocEs ++ [wrapperOf bufs]
        toReleaseEs := toReleaseEs ++ [⟨fun_, bufs⟩] }) := by
  have hbrcIn : fun_.fn.isCopyInBrcOp = true → fun_.fn.isCopyInOp = true := by
    cases hfn : fun_.fn <;> simp [VecFun.isCopyInBrcOp, VecFun.isCopyInOp]
  unfold orderStep allocFor releaseFor
  rw [if_neg (by simp [hscalar])]
  split
  next hbrc =>
    simp only [hbrcIn (Bool.and_eq_true_iff.mp hbrc).1, reduceIte]
    cases allocMte2 memLvl s.bufListList with
    | error e => rfl
    | ok r =>
      simp only [Bind.bind, Except.bind]
      cases (if isConnectOutput later fun_ = true then allocMte3 memLvl r.1
          else allocTempBuffer memLvl r.1) with
      | error e => rfl
      | ok r => rfl
  next =>
    split
    next =>
      cases allocMte2 memLvl s.bufListList with
      | error e => rfl
      | ok r => rfl
    next =>
      rw [if_neg (by simp [hout])]
      cases (if isConnectOutput later fun_ = true then allocMte3 memLvl s.bufListList
          else allocTempBuffer memLvl s.bufListList) with
      | error e => rfl
      | ok r => rfl

/-- What one node does to the lists and the bookings. -/
theorem orderStep_cases (h : orderStep memLvl useNddma cacheBrc fun_ later s = .ok s') :
    (fun_.isScalarOp = true ∧ s' = { s with
      allocEs := s.allocEs ++ [⟨s.scalarIdx, BUF_TYPE_SCALAR, BUF_PING⟩]
      scalarIdx := s.scalarIdx + 1 }) ∨
    (∃ l' tr', (fun_.isScalarOp = false ∧ fun_.fn.isCopyOutOp = true) ∧
      releaseAndUpdateEs cacheBrc later fun_.inNonScalarFuns s.bufListList s.toReleaseEs =
        .ok (l', tr') ∧
      s' = ⟨l', s.allocEs ++ [⟨-1, BUF_TYPE_PLACEHOLDER, BUF_PING⟩], tr', s.scalarIdx⟩) ∨
    ∃ l₀ bufs l' tr', (fun_.isScalarOp = false ∧ fun_.fn.isCopyOutOp = false) ∧
      allocFor memLvl useNddma fun_ later s.bufListList = .ok (l₀, bufs) ∧
      releaseFor cacheBrc fun_ later l₀ s.toReleaseEs = .ok (l', tr') ∧
      s' = ⟨l', s.allocEs ++ [wrapperOf bufs], tr' ++ [⟨fun_, bufs⟩], s.scalarIdx⟩ := by
  cases hscalar : fun_.isScalarOp with
  | true =>
    rw [orderStep_scalar hscalar] at h
    exact Or.inl ⟨rfl, (Except.ok.inj h).symm⟩
  | false =>
    cases hout : fun_.fn.isCopyOutOp with
    | true =>
      rw [orderStep_copyOut hscalar hout] at h
      obtain ⟨⟨l', tr'⟩, hrel, h⟩ := bind_eq_ok.mp h
      exact Or.inr (Or.inl ⟨l', tr', ⟨rfl, rfl⟩, hrel, (Except.ok.inj h).symm⟩)
    | false =>
      rw [orderStep_holds hscalar hout] at h
      obtain ⟨⟨l₀, bufs⟩, halloc, h⟩ := bind_eq_ok.mp h
      obtain ⟨⟨l', tr'⟩, hrel, h⟩ := bind_eq_ok.mp h
      exact Or.inr (Or.inr ⟨l₀, bufs, l', tr', ⟨rfl, rfl⟩, halloc, hrel,
        (Except.ok.inj h).symm⟩)

/-- A node takes one buffer or two, out of the lists. -/
theorem allocFor_ok {l l' : BufLists} {bufs : List BufferWrapper} (hnodup : l.toList.Nodup)
    (h : allocFor memLvl useNddma fun_ later l = .ok (l', bufs)) :
    l.toList.Perm (bufs ++ l'.toList) ∧ ((∃ w, bufs = [w]) ∨ ∃ w v, bufs = [w, v]) := by
  -- each of the three allocators takes the front of a list
  have hone : ∀ {l l' : BufLists} {w : BufferWrapper}, l.toList.Nodup →
      (l.IsFront w ∧ l' = l.popAll w) → l.toList.Perm (w :: l'.toList) :=
    fun hnodup ⟨hfront, hl⟩ => hl ▸ BufLists.popAll_perm hnodup hfront
  unfold allocFor at h
  split at h
  next =>
    obtain ⟨⟨l₀, mte2⟩, hmte2, h⟩ := bind_eq_ok.mp h
    obtain ⟨⟨l₁, w⟩, hw, h⟩ := bind_eq_ok.mp h
    obtain ⟨rfl, rfl⟩ := Prod.mk.inj (Except.ok.inj h)
    have h₀ := hone hnodup (allocMte2_ok hnodup hmte2)
    have hnodup₀ := (nodup_cons.mp (h₀.nodup_iff.mp hnodup)).2
    have h₁ : l₀.toList.Perm (w :: l₁.toList) := by
      split at hw
      next => exact hone hnodup₀ (allocMte3_ok hw)
      next => exact hone hnodup₀ (allocTempBuffer_ok hnodup₀ hw)
    refine ⟨?_, Or.inr ⟨w, mte2, rfl⟩⟩
    exact h₀.trans ((h₁.cons mte2).trans (List.Perm.swap w mte2 _))
  next =>
    obtain ⟨⟨l₁, w⟩, hw, h⟩ := bind_eq_ok.mp h
    obtain ⟨rfl, rfl⟩ := Prod.mk.inj (Except.ok.inj h)
    refine ⟨?_, Or.inl ⟨w, rfl⟩⟩
    split at hw
    next => exact hone hnodup (allocMte2_ok hnodup hw)
    next =>
      split at hw
      next => exact hone hnodup (allocMte3_ok hw)
      next => exact hone hnodup (allocTempBuffer_ok hnodup hw)

theorem releaseFor_perm {l l' : BufLists} {tr : List Mapping} (hnodup : (held tr).Nodup)
    (hkind : ∀ t ∈ held tr, HasKind t) (h : releaseFor cacheBrc fun_ later l tr = .ok (l', tr')) :
    (l'.toList ++ held tr').Perm (l.toList ++ held tr) := by
  unfold releaseFor at h
  split at h
  next =>
    obtain ⟨rfl, rfl⟩ := Prod.mk.inj (Except.ok.inj h)
    exact List.Perm.refl _
  next => exact releaseAndUpdateEs_perm hnodup hkind h

/-- One node keeps every buffer in the lists or booked, and once. -/
theorem orderStep_pool {pool : Pool} (hpool : pool.IsSplit s.bufListList s.toReleaseEs)
    (h : orderStep memLvl useNddma cacheBrc fun_ later s = .ok s') :
    pool.IsSplit s'.bufListList s'.toReleaseEs := by
  have hkind : ∀ t ∈ held s.toReleaseEs, HasKind t := fun t ht => hpool.hasKind ht
  have hheld := hpool.nodup.of_append_right
  rcases orderStep_cases h with ⟨-, rfl⟩ | ⟨l', tr', -, hrel, rfl⟩ |
    ⟨l₀, bufs, l', tr', -, halloc, hrel, rfl⟩
  · exact hpool
  · exact (releaseAndUpdateEs_perm hheld hkind hrel).trans hpool
  · have htake := (allocFor_ok hpool.nodup_free halloc).1
    have hback := releaseFor_perm hheld hkind hrel
    refine List.Perm.trans (perm_iff_count.mpr fun a => ?_) hpool
    have hcount := htake.count_eq a
    have hcount' := hback.count_eq a
    unfold held at hcount' ⊢
    rw [flatMap_append, flatMap_singleton]
    simp only [List.count_append] at hcount hcount' ⊢
    omega

end Step

end OpBase.Dag
