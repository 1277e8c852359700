import OpBase.Lib.Fifo
import OpBase.Lib.Run

/-!
# The lock-free queue

`LockFreeQueue` of `nnopbase/common/inc/lock_free_queue.h`: a circle of `Size` slots, a `head`
that only `Dequeue` stores and a `tail` that only `Enqueue` stores. Each load, each store and
each access to a slot is a step of its own; one thread enqueues, one dequeues, and their steps
come in any order. The indices stay below `Size`, so that none of the sums wraps.

The history has the answers, each at the step that decides it: the store of an index, or the
load of the other side's.

> `lockFreeQueue_fifo`: whatever the order of the steps, the answers are those of a queue for
> `Size - 1` values.
>
> `lockFreeQueue_slots_apart`: no slot is stored into while it is loaded.
-/

namespace OpBase.Util

open Function (update)
open OpBase.Lib

variable {T : Type}

/-- Where the thread in `Enqueue` is. -/
inductive Producer (T : Type)
  | idle
  | called (value : T)
  | loadedTail (value : T) (currentTail : Nat)
  | notFull (value : T) (currentTail : Nat)
  | written (value : T) (currentTail : Nat)

/-- Where the thread in `Dequeue` is. -/
inductive Consumer (T : Type)
  | idle
  | called
  | loadedHead (currentHead : Nat)
  | notEmpty (currentHead : Nat)
  | taken (currentHead : Nat) (result : T)

structure LockFreeQueue (T : Type) where
  buffer : Nat → T
  head : Nat
  tail : Nat
  producer : Producer T
  consumer : Consumer T
  history : List (Outcome T)

/-- A call begins, or the thread in it takes its next step. -/
inductive QueueStep (T : Type)
  | enqueue (value : T)
  | produce
  | dequeue
  | consume

namespace LockFreeQueue

/-- The constructor; the slots hold anything. -/
def init (buffer : Nat → T) : LockFreeQueue T :=
  { buffer := buffer
    head := 0
    tail := 0
    producer := .idle
    consumer := .idle
    history := [] }

def enqueueStep (size : Nat) (s : LockFreeQueue T) : Option (LockFreeQueue T) :=
  match s.producer with
  | .idle => none
  | .called value => some { s with producer := .loadedTail value s.tail }
  | .loadedTail value currentTail =>
    if (currentTail + 1) % size = s.head then
      some { s with producer := .idle, history := s.history ++ [.full] }
    else some { s with producer := .notFull value currentTail }
  | .notFull value currentTail =>
    some
      { s with
        buffer := update s.buffer currentTail value
        producer := .written value currentTail }
  | .written value currentTail =>
    some
      { s with
        tail := (currentTail + 1) % size
        producer := .idle
        history := s.history ++ [.pushed value] }

def dequeueStep (size : Nat) (s : LockFreeQueue T) : Option (LockFreeQueue T) :=
  match s.consumer with
  | .idle => none
  | .called => some { s with consumer := .loadedHead s.head }
  | .loadedHead currentHead =>
    if currentHead = s.tail then
      some { s with consumer := .idle, history := s.history ++ [.empty] }
    else some { s with consumer := .notEmpty currentHead }
  | .notEmpty currentHead =>
    some { s with consumer := .taken currentHead (s.buffer currentHead) }
  | .taken currentHead result =>
    some
      { s with
        head := (currentHead + 1) % size
        consumer := .idle
        history := s.history ++ [.popped result] }

/-- A thread calls again only when its last call is done. -/
def step (size : Nat) (s : LockFreeQueue T) : QueueStep T → Option (LockFreeQueue T)
  | .enqueue value =>
    match s.producer with
    | .idle => some { s with producer := .called value }
    | _ => none
  | .produce => s.enqueueStep size
  | .dequeue =>
    match s.consumer with
    | .idle => some { s with consumer := .called }
    | _ => none
  | .consume => s.dequeueStep size

/-! ## What holds between the steps -/

/-- What the thread in `Enqueue` knows when the queue holds `q`. -/
def Enqueues (size : Nat) (s : LockFreeQueue T) (q : List T) : Producer T → Prop
  | .idle | .called _ => True
  | .loadedTail _ currentTail => currentTail = s.tail
  | .notFull _ currentTail => currentTail = s.tail ∧ q.length < size - 1
  | .written value currentTail =>
    currentTail = s.tail ∧ q.length < size - 1 ∧ s.buffer currentTail = value

/-- What the thread in `Dequeue` knows. -/
def Dequeues (s : LockFreeQueue T) (q : List T) : Consumer T → Prop
  | .idle | .called => True
  | .loadedHead currentHead => currentHead = s.head
  | .notEmpty currentHead => currentHead = s.head ∧ q ≠ []
  | .taken currentHead result => currentHead = s.head ∧ q.head? = some result

/-- The queue holds `q`, in the slots from `head` up to `tail`. -/
structure Holds (size : Nat) (s : LockFreeQueue T) (q : List T) : Prop where
  fifo : Fifo (size - 1) s.history q
  head_lt : s.head < size
  tail_eq : s.tail = (s.head + q.length) % size
  slots : InSlots size s.buffer s.head q
  producer : s.Enqueues size q s.producer
  consumer : s.Dequeues q s.consumer

namespace Holds

variable {size : Nat} {s s' : LockFreeQueue T} {q : List T}

section

variable (h : Holds size s q)
include h

theorem length_lt : q.length < size := by
  have := h.fifo.length_le
  have := h.head_lt
  omega

/-- The slot behind `tail` is `head` if and only if one slot is left. -/
theorem full_iff : (s.tail + 1) % size = s.head ↔ q.length = size - 1 := by
  have hlt := h.length_lt
  have hhead : (s.head + 0) % size = s.head := Nat.mod_eq_of_lt h.head_lt
  rw [h.tail_eq, Nat.mod_add_mod, Nat.add_assoc]
  constructor
  · intro heq
    by_contra hne
    exact absurd (slot_inj (by omega) (by omega) (heq.trans hhead.symm)) (Nat.succ_ne_zero _)
  · intro heq
    rw [heq, Nat.sub_add_cancel (by omega), Nat.add_mod_right]
    exact hhead

theorem empty_iff : s.head = s.tail ↔ q = [] := by
  have hlt := h.length_lt
  have hhead : (s.head + 0) % size = s.head := Nat.mod_eq_of_lt h.head_lt
  rw [h.tail_eq, ← List.length_eq_zero_iff]
  constructor
  · intro heq
    exact (slot_inj (by omega) hlt (hhead.trans heq)).symm
  · intro heq
    rw [heq, hhead]

/-- A step of the producer keeps the queue in its slots. -/
theorem enqueueStep (hs : s.enqueueStep size = some s') :
    ∃ q', Holds size s' q' := by
  have hknown := h.producer
  unfold LockFreeQueue.enqueueStep at hs
  cases hp : s.producer with
  | idle =>
    rw [hp] at hs
    cases hs
  | called value =>
    rw [hp] at hs
    cases hs
    exact ⟨q, { h with producer := rfl }⟩
  | loadedTail value currentTail =>
    rw [hp] at hs hknown
    cases (hknown : currentTail = s.tail)
    dsimp only at hs
    split at hs
    next hfull =>
      cases hs
      exact ⟨q, { h with fifo := h.fifo.full (h.full_iff.mp hfull), producer := trivial }⟩
    next hroom =>
      cases hs
      have hle := h.fifo.length_le
      have hne := mt h.full_iff.mpr hroom
      exact ⟨q, { h with producer := ⟨rfl, by omega⟩ }⟩
  | notFull value currentTail =>
    rw [hp] at hs hknown
    obtain ⟨rfl, hroom⟩ := hknown
    cases hs
    refine ⟨q, { h with slots := ?_, producer := ⟨rfl, hroom, Function.update_self ..⟩ }⟩
    rw [h.tail_eq]
    exact h.slots.update h.length_lt value
  | written value currentTail =>
    rw [hp] at hs hknown
    obtain ⟨rfl, hroom, hvalue⟩ := hknown
    cases hs
    rw [h.tail_eq] at hvalue
    refine ⟨q ++ [value], ?_⟩
    refine ⟨h.fifo.pushed value hroom, h.head_lt, ?_, h.slots.concat hvalue, trivial, ?_⟩
    · rw [h.tail_eq, List.length_append, Nat.mod_add_mod]
      rfl
    · have hcons := h.consumer
      cases hc : s.consumer with
      | idle | called => exact trivial
      | loadedHead currentHead =>
        rw [hc] at hcons
        exact hcons
      | notEmpty currentHead =>
        rw [hc] at hcons
        exact ⟨hcons.1, List.append_ne_nil_of_left_ne_nil hcons.2 _⟩
      | taken currentHead result =>
        rw [hc] at hcons
        exact ⟨hcons.1, by rw [List.head?_append, hcons.2]; rfl⟩

/-- A step of the consumer keeps the queue in its slots. -/
theorem dequeueStep (hs : s.dequeueStep size = some s') :
    ∃ q', Holds size s' q' := by
  have hknown := h.consumer
  unfold LockFreeQueue.dequeueStep at hs
  cases hc : s.consumer with
  | idle =>
    rw [hc] at hs
    cases hs
  | called =>
    rw [hc] at hs
    cases hs
    exact ⟨q, { h with consumer := rfl }⟩
  | loadedHead currentHead =>
    rw [hc] at hs hknown
    cases (hknown : currentHead = s.head)
    dsimp only at hs
    split at hs
    next hempty =>
      cases hs
      cases h.empty_iff.mp hempty
      exact ⟨[], { h with fifo := h.fifo.empty, consumer := trivial }⟩
    next hne =>
      cases hs
      exact ⟨q, { h with consumer := ⟨rfl, mt h.empty_iff.mpr hne⟩ }⟩
  | notEmpty currentHead =>
    rw [hc] at hs hknown
    obtain ⟨rfl, hne⟩ := hknown
    cases hs
    obtain ⟨v, q, rfl⟩ := List.exists_cons_of_ne_nil hne
    have hv : s.buffer ((s.head + 0) % size) = v := h.slots 0 v rfl
    rw [Nat.add_zero, Nat.mod_eq_of_lt h.head_lt] at hv
    exact ⟨v :: q, { h with consumer := ⟨rfl, congrArg some hv.symm⟩ }⟩
  | taken currentHead result =>
    rw [hc] at hs hknown
    obtain ⟨rfl, hresult⟩ := hknown
    cases hs
    obtain ⟨q, rfl⟩ := List.head?_eq_some_iff.mp hresult
    refine ⟨q, h.fifo.popped, Nat.mod_lt _ (by have := h.head_lt; omega), ?_, h.slots.tail, ?_,
      trivial⟩
    · show s.tail = _
      rw [h.tail_eq, Nat.mod_add_mod, Nat.add_assoc, Nat.add_comm 1]
      rfl
    · have hprod := h.producer
      cases hp : s.producer with
      | idle | called => exact trivial
      | loadedTail value currentTail =>
        rw [hp] at hprod
        exact hprod
      | notFull value currentTail =>
        rw [hp] at hprod
        exact ⟨hprod.1, Nat.lt_of_succ_lt hprod.2⟩
      | written value currentTail =>
        rw [hp] at hprod
        exact ⟨hprod.1, Nat.lt_of_succ_lt hprod.2.1, hprod.2.2⟩

theorem step {e : QueueStep T} (hs : s.step size e = some s') :
    ∃ q', Holds size s' q' := by
  cases e with
  | enqueue value =>
    unfold LockFreeQueue.step at hs
    dsimp only at hs
    split at hs
    next =>
      cases hs
      exact ⟨q, { h with producer := trivial }⟩
    next => cases hs
  | produce => exact h.enqueueStep hs
  | dequeue =>
    unfold LockFreeQueue.step at hs
    dsimp only at hs
    split at hs
    next =>
      cases hs
      exact ⟨q, { h with consumer := trivial }⟩
    next => cases hs
  | consume => exact h.dequeueStep hs

end

end Holds

theorem holds_init {size : Nat} (hsize : 0 < size) (buffer : Nat → T) :
    Holds size (init buffer) [] :=
  ⟨.nil, hsize, (Nat.zero_mod size).symm, nofun, trivial, trivial⟩

end LockFreeQueue

/-- **The queue is a bounded FIFO.** Whatever the order in which the two threads take their
steps: what was popped is the beginning of what was pushed, and the rest is in the slots from
`head` on; a call of `Enqueue` fails where `size - 1` values are pending, one of `Dequeue` where
none is. -/
theorem lockFreeQueue_fifo {size : Nat} (hsize : 0 < size) (buffer : Nat → T)
    (steps : List (QueueStep T)) {s : LockFreeQueue T}
    (hrun : run (LockFreeQueue.step size) (.init buffer) steps = some s) :
    (∃ pending, pushes s.history = pops s.history ++ pending ∧ pending.length ≤ size - 1 ∧
      InSlots size s.buffer s.head pending ∧ s.tail = (s.head + pending.length) % size) ∧
    (∀ past rest, s.history = past ++ .full :: rest →
      (pushes past).length = (pops past).length + (size - 1)) ∧
    ∀ past rest, s.history = past ++ .empty :: rest → pushes past = pops past := by
  obtain ⟨q, h⟩ := run_invariant (I := fun s => ∃ q, s.Holds size q)
    (fun _ _ _ ⟨_, h⟩ hs => h.step hs) steps ⟨[], LockFreeQueue.holds_init hsize buffer⟩ hrun
  exact ⟨⟨q, h.fifo.pushes_eq, h.fifo.length_le, h.slots, h.tail_eq⟩,
    fun _ _ heq => h.fifo.pushes_of_full heq, fun _ _ heq => h.fifo.pushes_of_empty heq⟩

/-- Of two slots one can be used. The second `Enqueue` fails, but not the third, for which the
consumer has made room. -/
def twoSlots : List (QueueStep Nat) :=
  [.dequeue, .enqueue 7, .produce, .produce, .consume, .produce, .produce, .enqueue 8, .produce,
    .produce, .consume, .consume, .consume, .enqueue 9, .produce, .produce, .produce, .produce]

theorem lockFreeQueue_fifo_twoSlots :
    ∃ s : LockFreeQueue Nat, run (LockFreeQueue.step 2) (.init fun _ => 0) twoSlots = some s ∧
      s.history = [.pushed 7, .full, .popped 7, .pushed 9] ∧
      ∃ pending, [7, 9] = [7] ++ pending ∧ pending.length ≤ 1 := by
  refine ⟨_, rfl, rfl, ?_⟩
  obtain ⟨⟨pending, hpushes, hlen, -⟩, -⟩ :=
    lockFreeQueue_fifo (by decide : 0 < 2) (fun _ => 0) twoSlots rfl
  exact ⟨pending, hpushes, hlen⟩

/-- **The threads never meet in a slot**: the one that `Enqueue` is about to store into is not the
one that `Dequeue` is about to load. -/
theorem lockFreeQueue_slots_apart {size : Nat} (hsize : 0 < size) (buffer : Nat → T)
    (steps : List (QueueStep T)) {s : LockFreeQueue T}
    (hrun : run (LockFreeQueue.step size) (.init buffer) steps = some s) {value : T} {w r : Nat}
    (hw : s.producer = .notFull value w) (hr : s.consumer = .notEmpty r) : w ≠ r := by
  obtain ⟨q, h⟩ := run_invariant (I := fun s => ∃ q, s.Holds size q)
    (fun _ _ _ ⟨_, h⟩ hs => h.step hs) steps ⟨[], LockFreeQueue.holds_init hsize buffer⟩ hrun
  have hproducer := h.producer
  have hconsumer := h.consumer
  rw [hw] at hproducer
  rw [hr] at hconsumer
  obtain ⟨rfl, -⟩ := hproducer
  obtain ⟨rfl, hne⟩ := hconsumer
  exact fun heq => hne (h.empty_iff.mp heq.symm)

/-- With three slots the producer stores into the second one while the consumer loads the first. -/
theorem lockFreeQueue_slots_apart_threeSlots :
    let steps := twoSlots.take 5 ++ [.produce, .produce, .consume, .enqueue 8, .produce, .produce]
    ∃ s : LockFreeQueue Nat, run (LockFreeQueue.step 3) (.init fun _ => 0) steps = some s ∧
      s.producer = .notFull 8 1 ∧ s.consumer = .notEmpty 0 ∧ 1 ≠ 0 :=
  ⟨_, rfl, rfl, rfl, lockFreeQueue_slots_apart (by decide : 0 < 3) (fun _ => 0)
    (twoSlots.take 5 ++ [.produce, .produce, .consume, .enqueue 8, .produce, .produce]) rfl rfl rfl⟩

end OpBase.Util
