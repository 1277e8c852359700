import OpBase.Dag.Alive

/-!
# When a node finds its buffers

A node wants one buffer, or two. Which lists an allocation looks at depends on the memory
level, so the free buffers fall into shares: one share for all wants at level 0, two at level
1, three at level 2. An allocation succeeds while its share has a buffer left, and what it
takes belongs to no other share.

> `allocWants_exists`: a node finds its buffers when each share has as many free as the node
> wants from it.
-/

namespace OpBase.Dag

open List

/-- The allocations. -/
inductive Want where
  | mte2
  | mte3
  | temp
deriving DecidableEq, Repr

def allocWant (memLvl : MemLevel) : Want → BufLists → Except OrderFault (BufLists × BufferWrapper)
  | .mte2 => allocMte2 memLvl
  | .mte3 => allocMte3 memLvl
  | .temp => allocTempBuffer memLvl

/-- The allocations of a node, in their order. -/
def wantsOf (useNddma connected : Bool) (f : Bind) : List Want :=
  let last := if connected then Want.mte3 else Want.temp
  if f.fn.isCopyInBrcOp && !useNddma then [.mte2, last]
  else if f.fn.isCopyInOp then [.mte2]
  else [last]

def allocWants (memLvl : MemLevel) : List Want → BufLists →
    Except OrderFault (BufLists × List BufferWrapper)
  | [], l => .ok (l, [])
  | u :: us, l =>
    match allocWant memLvl u l with
    | .error e => .error e
    | .ok (l₁, w) =>
      match allocWants memLvl us l₁ with
      | .error e => .error e
      | .ok (l', ws) => .ok (l', ws ++ [w])

/-- The allocation for a node, as the buffers that it wants in turn. -/
theorem allocFor_eq {memLvl : MemLevel} {useNddma : Bool} {f : Bind} {later : List Bind}
    {l : BufLists} : allocFor memLvl useNddma f later l =
      allocWants memLvl (wantsOf useNddma (isConnectOutput later f) f) l := by
  unfold allocFor wantsOf
  dsimp only
  split
  next =>
    rw [allocWants, allocWant]
    cases allocMte2 memLvl l with
    | error e => rfl
    | ok r =>
      simp only [Bind.bind, Except.bind]
      cases isConnectOutput later f with
      | true =>
        rw [if_pos rfl, if_pos rfl, allocWants, allocWant]
        cases allocMte3 memLvl r.1 <;> rfl
      | false =>
        rw [if_neg Bool.false_ne_true, if_neg Bool.false_ne_true, allocWants, allocWant]
        cases allocTempBuffer memLvl r.1 <;> rfl
  next =>
    split
    next =>
      rw [allocWants, allocWant]
      cases allocMte2 memLvl l <;> rfl
    next =>
      cases isConnectOutput later f with
      | true =>
        rw [if_pos rfl, if_pos rfl, allocWants, allocWant]
        cases allocMte3 memLvl l <;> rfl
      | false =>
        rw [if_neg Bool.false_ne_true, if_neg Bool.false_ne_true, allocWants, allocWant]
        cases allocTempBuffer memLvl l <;> rfl

/-! ## Shares -/

/-- The number of the share that an allocation takes from. -/
def shareOf : MemLevel → Want → Nat
  | .level0, _ => 0
  | .level1, .mte3 => 1
  | .level1, _ => 0
  | .level2, .mte2 => 0
  | .level2, .mte3 => 1
  | .level2, .temp => 2

def isMte3 (w : BufferWrapper) : Bool :=
  decide (w.bufferType = BUF_TYPE_MTE3) && decide (w.pingPong = BUF_PING)

/-- The buffers of a share. At level 0 the buffers for copying out come on top. -/
def inShare : MemLevel → Nat → BufferWrapper → Bool
  | .level0, 0, w => !isMte3 w
  | .level1, 0, w => !isMte3 w
  | .level1, 1, w => isMte3 w
  | .level2, 0, w => decide (w.bufferType = BUF_TYPE_MTE2)
  | .level2, 1, w => isMte3 w
  | .level2, 2, w => decide (w.bufferType = BUF_TYPE_TEMP)
  | _, _, _ => false

/-- Each list has the buffers of its type and its side. -/
structure BufLists.Typed (l : BufLists) : Prop where
  mte2 : ∀ w ∈ l.mte2, w.bufferType = BUF_TYPE_MTE2
  mte3 : ∀ w ∈ l.mte3, w.bufferType = BUF_TYPE_MTE3 ∧ w.pingPong = BUF_PING
  temp : ∀ w ∈ l.temp, w.bufferType = BUF_TYPE_TEMP
  pongMte3 : ∀ w ∈ l.pongMte3, w.bufferType = BUF_TYPE_MTE3 ∧ w.pingPong = BUF_PONG

/-- Typed lists, without any for pong above level 0. -/
structure Sorted (memLvl : MemLevel) (l : BufLists) : Prop extends l.Typed where
  noPong : memLvl ≠ .level0 → l.pongMte3 = []

section Want

variable {memLvl : MemLevel} {l l' : BufLists} {w : BufferWrapper} {u : Want}
  {es : List BufferWrapper}

theorem isMte3_of_mte3 (h : l.Typed) (hw : w ∈ l.mte3) : isMte3 w = true := by
  unfold isMte3
  rw [(h.mte3 w hw).1, (h.mte3 w hw).2]
  rfl

theorem isMte3_of_mte2 (h : l.Typed) (hw : w ∈ l.mte2) : isMte3 w = false := by
  unfold isMte3
  rw [h.mte2 w hw]
  rfl

theorem isMte3_of_temp (h : l.Typed) (hw : w ∈ l.temp) : isMte3 w = false := by
  unfold isMte3
  rw [h.temp w hw]
  rfl

theorem isMte3_of_pongMte3 (h : l.Typed) (hw : w ∈ l.pongMte3) : isMte3 w = false := by
  unfold isMte3
  rw [(h.pongMte3 w hw).2]
  exact Bool.and_false _

/-- The lists that an allocation looks at, in their order. -/
def lookedAt (memLvl : MemLevel) (l : BufLists) : Want → List (List BufferWrapper)
  | .mte2 => [l.mte2, if memLvl = .level2 then [] else l.temp,
      if memLvl ≠ .level0 then [] else l.pongMte3]
  | .mte3 => [l.mte3, if memLvl ≠ .level0 then [] else l.temp,
      if memLvl ≠ .level0 then [] else l.pongMte3, if memLvl ≠ .level0 then [] else l.mte2]
  | .temp => [l.temp, if memLvl ≠ .level0 then [] else l.pongMte3,
      if memLvl = .level2 then [] else l.mte2]

theorem allocWant_eq (memLvl : MemLevel) (u : Want) (l : BufLists) :
    ∃ f : BufferWrapper → BufLists, allocWant memLvl u l =
      (priorityGetFront (lookedAt memLvl l u)).map fun w => (f w, w) := by
  cases u with
  | mte2 | temp =>
    refine ⟨fun w => { l with
      mte2 := popFront l.mte2 w
      temp := popFront l.temp w
      pongMte3 := popFront l.pongMte3 w }, ?_⟩
    simp only [allocWant, allocMte2, allocTempBuffer, lookedAt]
    cases priorityGetFront _ <;> rfl
  | mte3 =>
    refine ⟨l.popAll, ?_⟩
    simp only [allocWant, allocMte3, lookedAt]
    cases priorityGetFront _ <;> rfl

theorem allocWant_mem (h : allocWant memLvl u l = .ok (l', w)) :
    ∃ es ∈ lookedAt memLvl l u, w ∈ es := by
  obtain ⟨f, hf⟩ := allocWant_eq memLvl u l
  rw [hf] at h
  cases hfront : priorityGetFront (lookedAt memLvl l u) with
  | error e => rw [hfront] at h; cases h
  | ok v =>
    rw [hfront] at h
    obtain ⟨-, rfl⟩ := Prod.mk.inj (Except.ok.inj h)
    obtain ⟨es, hes, hw⟩ := priorityGetFront_mem hfront
    exact ⟨es, hes, mem_of_mem_head? hw⟩

theorem allocWant_share (hl : l.Typed) (h : allocWant memLvl u l = .ok (l', w)) {c : Nat}
    (hc : inShare memLvl c w = true) : shareOf memLvl u = c := by
  have hmte2 : w ∈ l.mte2 → isMte3 w = false ∧ w.bufferType = BUF_TYPE_MTE2 := fun hw =>
    ⟨isMte3_of_mte2 hl hw, hl.mte2 w hw⟩
  have htemp : w ∈ l.temp → isMte3 w = false ∧ w.bufferType = BUF_TYPE_TEMP := fun hw =>
    ⟨isMte3_of_temp hl hw, hl.temp w hw⟩
  have hmte3 : w ∈ l.mte3 → isMte3 w = true ∧ w.bufferType = BUF_TYPE_MTE3 := fun hw =>
    ⟨isMte3_of_mte3 hl hw, (hl.mte3 w hw).1⟩
  have hne : BUF_TYPE_MTE2 ≠ BUF_TYPE_TEMP ∧ BUF_TYPE_MTE3 ≠ BUF_TYPE_TEMP ∧
      BUF_TYPE_MTE3 ≠ BUF_TYPE_MTE2 := by decide
  obtain ⟨es, hes, hw⟩ := allocWant_mem h
  cases memLvl with
  | level0 =>
    match c, hc with
    | 0, _ => rfl
  | level1 =>
    match c, hc with
    | 0, hc | 1, hc => cases u <;> simp [inShare, shareOf, lookedAt] at * <;> grind
  | level2 =>
    match c, hc with
    | 0, hc | 1, hc | 2, hc => cases u <;> simp [inShare, shareOf, lookedAt] at * <;> grind

theorem priorityGetFront_exists : ∀ {eses : List (List BufferWrapper)} {es : List BufferWrapper},
    es ∈ eses → es ≠ [] → ∃ w, priorityGetFront eses = .ok w
  | (t :: ts) :: rest, es, _, _ => ⟨t, rfl⟩
  | [] :: rest, es, hes, hne => by
    rcases mem_cons.mp hes with rfl | hes
    · exact absurd rfl hne
    · obtain ⟨w, hw⟩ : ∃ w, priorityGetFront rest = .ok w := priorityGetFront_exists hes hne
      exact ⟨w, hw⟩

theorem priorityGetFront_error {e : OrderFault} : ∀ {eses : List (List BufferWrapper)},
    priorityGetFront eses = .error e → e = .noFreeBuffer
  | [], h => (Except.error.inj h).symm
  | [] :: rest, h => by
    have hrest : priorityGetFront rest = .error e := h
    exact priorityGetFront_error hrest

theorem allocWant_error {e : OrderFault} (h : allocWant memLvl u l = .error e) :
    e = .noFreeBuffer := by
  obtain ⟨f, hf⟩ := allocWant_eq memLvl u l
  rw [hf] at h
  cases hfront : priorityGetFront (lookedAt memLvl l u) with
  | error e' =>
    rw [hfront] at h
    exact Except.error.inj h ▸ priorityGetFront_error hfront
  | ok v => rw [hfront] at h; cases h

theorem allocWant_of_mem (hes : es ∈ lookedAt memLvl l u) (hw : w ∈ es) :
    ∃ r, allocWant memLvl u l = .ok r := by
  obtain ⟨f, hf⟩ := allocWant_eq memLvl u l
  obtain ⟨t, ht⟩ := priorityGetFront_exists hes (ne_nil_of_mem hw)
  exact ⟨(f t, t), by rw [hf, ht]; rfl⟩

theorem allocWant_exists (hl : Sorted memLvl l)
    (hroom : 0 < l.toList.countP (inShare memLvl (shareOf memLvl u))) :
    ∃ r, allocWant memLvl u l = .ok r := by
  obtain ⟨w, hw, hshare⟩ := countP_pos_iff.mp hroom
  have htyped := hl.toTyped
  suffices ∃ es ∈ lookedAt memLvl l u, w ∈ es by
    obtain ⟨es, hes, hmem⟩ := this
    exact allocWant_of_mem hes hmem
  have hne : BUF_TYPE_MTE2 ≠ BUF_TYPE_TEMP ∧ BUF_TYPE_MTE3 ≠ BUF_TYPE_TEMP ∧
      BUF_TYPE_MTE3 ≠ BUF_TYPE_MTE2 := by decide
  rcases BufLists.mem_toList.mp hw with h | h | h | h
  · have h₃ := isMte3_of_mte2 htyped h
    have htype := htyped.mte2 w h
    cases memLvl <;> cases u <;> simp [inShare, shareOf, lookedAt] at * <;> grind
  · have h₃ := isMte3_of_mte3 htyped h
    have htype := (htyped.mte3 w h).1
    cases memLvl <;> cases u <;> simp [inShare, shareOf, lookedAt] at * <;> grind
  · have h₃ := isMte3_of_temp htyped h
    have htype := htyped.temp w h
    cases memLvl <;> cases u <;> simp [inShare, shareOf, lookedAt] at * <;> grind
  · have hpong := hl.noPong
    have h₃ := isMte3_of_pongMte3 htyped h
    cases memLvl <;> cases u <;> simp [inShare, shareOf, lookedAt] at * <;> grind

/-! ## All the wants of a node -/

theorem popFront_subset {v : BufferWrapper} (h : v ∈ popFront es w) : v ∈ es := by
  unfold popFront at h
  split at h
  next => exact h
  next t ts =>
    split at h
    next => exact mem_cons_of_mem _ h
    next => exact h

theorem Sorted.popAll (hl : Sorted memLvl l) (w : BufferWrapper) : Sorted memLvl (l.popAll w) where
  mte2 v hv := hl.mte2 v (popFront_subset hv)
  mte3 v hv := hl.mte3 v (popFront_subset hv)
  temp v hv := hl.temp v (popFront_subset hv)
  pongMte3 v hv := hl.pongMte3 v (popFront_subset hv)
  noPong hlvl := by
    show popFront l.pongMte3 w = []
    rw [hl.noPong hlvl]
    rfl

theorem allocWant_ok (hnodup : l.toList.Nodup) (h : allocWant memLvl u l = .ok (l', w)) :
    l.toList.Perm (w :: l'.toList) ∧ l' = l.popAll w := by
  have hpop : l.IsFront w ∧ l' = l.popAll w := by
    cases u with
    | mte2 => exact allocMte2_ok hnodup h
    | mte3 => exact allocMte3_ok h
    | temp => exact allocTempBuffer_ok hnodup h
  exact ⟨hpop.2 ▸ BufLists.popAll_perm hnodup hpop.1, hpop.2⟩

/-- How many buffers of a share are wanted. -/
def wanted (memLvl : MemLevel) (c : Nat) (us : List Want) : Nat :=
  us.countP fun u => shareOf memLvl u = c

theorem allocWants_cons {us : List Want} {bufs : List BufferWrapper} (hl : Sorted memLvl l)
    (hnodup : l.toList.Nodup) (h : allocWants memLvl (u :: us) l = .ok (l', bufs)) :
    ∃ l₁ w ws, allocWant memLvl u l = .ok (l₁, w) ∧ l.toList.Perm (w :: l₁.toList) ∧
      Sorted memLvl l₁ ∧ l₁.toList.Nodup ∧ allocWants memLvl us l₁ = .ok (l', ws) ∧
      bufs = ws ++ [w] := by
  rw [allocWants] at h
  split at h
  next => exact absurd h (by simp)
  next l₁ w hw =>
    split at h
    next => exact absurd h (by simp)
    next l₂ ws hws =>
      obtain ⟨rfl, rfl⟩ := Prod.mk.inj (Except.ok.inj h)
      obtain ⟨hperm, hpop⟩ := allocWant_ok hnodup hw
      exact ⟨l₁, w, ws, hw, hperm, hpop ▸ hl.popAll w,
        (nodup_cons.mp (hperm.nodup_iff.mp hnodup)).2, hws, rfl⟩

/-- By induction on what is wanted: no share gives more than was wanted of it. -/
theorem allocWants_ok : ∀ {us : List Want} {l l' : BufLists} {bufs : List BufferWrapper},
    Sorted memLvl l → l.toList.Nodup → allocWants memLvl us l = .ok (l', bufs) →
    Sorted memLvl l' ∧ ∀ c, bufs.countP (inShare memLvl c) ≤ wanted memLvl c us
  | [], l, l', bufs, hl, _, h => by
    obtain ⟨rfl, rfl⟩ := Prod.mk.inj (Except.ok.inj h)
    exact ⟨hl, fun c => Nat.zero_le _⟩
  | u :: us, l, l', bufs, hl, hnodup, h => by
    obtain ⟨l₁, w, ws, hw, -, hl₁, hnodup₁, hws, rfl⟩ := allocWants_cons hl hnodup h
    obtain ⟨hl₂, hcount⟩ := allocWants_ok hl₁ hnodup₁ hws
    refine ⟨hl₂, fun c => ?_⟩
    have hc := hcount c
    unfold wanted at hc ⊢
    rw [countP_append, countP_singleton, countP_cons]
    by_cases hshare : inShare memLvl c w = true
    · rw [if_pos hshare, if_pos (decide_eq_true (allocWant_share hl.toTyped hw hshare))]
      omega
    · rw [if_neg hshare]
      omega

theorem allocWants_error {e : OrderFault} : ∀ {us : List Want} {l : BufLists},
    allocWants memLvl us l = .error e → e = .noFreeBuffer
  | [], _, h => absurd h (by simp [allocWants])
  | u :: us, l, h => by
    rw [allocWants] at h
    split at h
    next hw => exact Except.error.inj h ▸ allocWant_error hw
    next l₁ w hw =>
      split at h
      next hws => exact Except.error.inj h ▸ allocWants_error hws
      next => exact absurd h (by simp)

/-- By induction on what is wanted: if every share has enough, the allocation succeeds. -/
theorem allocWants_exists : ∀ {us : List Want} {l : BufLists}, Sorted memLvl l → l.toList.Nodup →
    (∀ c, wanted memLvl c us ≤ l.toList.countP (inShare memLvl c)) →
    ∃ r, allocWants memLvl us l = .ok r
  | [], l, _, _, _ => ⟨(l, []), rfl⟩
  | u :: us, l, hl, hnodup, hroom => by
    have hwanted : ∀ c, wanted memLvl c (u :: us) =
        wanted memLvl c us + if shareOf memLvl u = c then 1 else 0 := fun c => by
      unfold wanted
      rw [countP_cons]
      simp
    obtain ⟨⟨l₁, w⟩, hw⟩ := allocWant_exists (u := u) hl <| by
      have := hroom (shareOf memLvl u)
      rw [hwanted, if_pos rfl] at this
      omega
    obtain ⟨hperm, hpop⟩ := allocWant_ok hnodup hw
    have hl₁ : Sorted memLvl l₁ := hpop ▸ hl.popAll w
    have hnodup₁ := (nodup_cons.mp (hperm.nodup_iff.mp hnodup)).2
    -- the lists still have what the later wants need
    have hroom₁ : ∀ c, wanted memLvl c us ≤ l₁.toList.countP (inShare memLvl c) := fun c => by
      have hc := hroom c
      have hcount := hperm.countP_eq (inShare memLvl c)
      rw [hwanted] at hc
      rw [countP_cons] at hcount
      by_cases hshare : inShare memLvl c w = true
      · rw [if_pos (allocWant_share hl.toTyped hw hshare)] at hc
        rw [if_pos hshare] at hcount
        omega
      · rw [if_neg hshare] at hcount
        omega
    obtain ⟨⟨l₂, ws⟩, hws⟩ := allocWants_exists hl₁ hnodup₁ hroom₁
    exact ⟨(l₂, ws ++ [w]), by rw [allocWants, hw]; dsimp only; rw [hws]⟩

end Want

end OpBase.Dag
