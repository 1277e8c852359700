import OpBase.Lib.Run

/-!
# The spin lock

`OpSpinlock` of `nnopbase/common/inc/block_pool.h`, which guards the pools of this directory:
`lock` loads the flag until it reads 0 and then exchanges it for 1; when the exchange finds
another thread's 1, it starts again. The load is relaxed and may read any value that was once
stored. `unlock` stores 0, and `std::lock_guard` calls it in the thread that has the lock.

> `spinlock_excludes`: whatever the order of the steps of any number of threads, at most one
> has the lock, and an exchange gets it exactly if none has.
-/

namespace OpBase.Pool

open Function (update)
open OpBase.Lib

variable {Thread : Type} [DecidableEq Thread]

/-- Where a thread is in `lock`. -/
inductive LockPc
  | outside
  | loading
  | exchanging
  | inside
  deriving DecidableEq

structure OpSpinlock (Thread : Type) where
  atomicFlag : UInt32
  pc : Thread → LockPc

/-- A call begins, or a thread takes its next step; `value` is what a load reads. -/
inductive LockStep (Thread : Type)
  | lock (t : Thread)
  | load (t : Thread) (value : UInt32)
  | exchange (t : Thread)
  | unlock (t : Thread)

namespace OpSpinlock

def init : OpSpinlock Thread := ⟨0, fun _ => .outside⟩

def step (s : OpSpinlock Thread) : LockStep Thread → Option (OpSpinlock Thread)
  | .lock t =>
    if s.pc t = .outside then some { s with pc := update s.pc t .loading } else none
  | .load t value =>
    if s.pc t = .loading then
      some { s with pc := update s.pc t (if value ≠ 0 then .loading else .exchanging) }
    else none
  | .exchange t =>
    if s.pc t = .exchanging then
      some ⟨1, update s.pc t (if s.atomicFlag ≠ 0 then .loading else .inside)⟩
    else none
  | .unlock t => if s.pc t = .inside then some ⟨0, update s.pc t .outside⟩ else none

/-- The flag is 0, and nobody has the lock, or it is not, and one thread has. -/
def Guards (s : OpSpinlock Thread) : Prop :=
  if s.atomicFlag = 0 then ∀ u, s.pc u ≠ .inside else ∃ t, ∀ u, s.pc u = .inside ↔ u = t

variable {s s' : OpSpinlock Thread} {e : LockStep Thread} {t : Thread} {pc : LockPc}

/-- A thread without the lock goes on without it. -/
theorem Guards.move (h : s.Guards) (ht : s.pc t ≠ .inside) (hpc : pc ≠ .inside) :
    Guards ⟨s.atomicFlag, update s.pc t pc⟩ := by
  have hsame : ∀ u, update s.pc t pc u = .inside ↔ s.pc u = .inside := by
    intro u
    by_cases hu : u = t
    · rw [hu, Function.update_self]
      exact iff_of_false hpc ht
    · rw [Function.update_of_ne hu]
  unfold Guards at h ⊢
  simp only [ne_eq, hsame]
  exact h

theorem Guards.exchange (h : s.Guards) (ht : s.pc t ≠ .inside) :
    Guards ⟨1, update s.pc t (if s.atomicFlag ≠ 0 then .loading else .inside)⟩ := by
  by_cases hflag : s.atomicFlag = 0
  · rw [if_neg (not_not.mpr hflag)]
    unfold Guards at h
    rw [if_pos hflag] at h
    refine ⟨t, fun u => ?_⟩
    by_cases hu : u = t
    · simp [hu]
    · simp [hu, h u]
  · rw [if_pos hflag]
    have hmoved := h.move ht (show LockPc.loading ≠ .inside by decide)
    unfold Guards at hmoved ⊢
    rw [if_neg hflag] at hmoved
    exact hmoved

theorem Guards.unlock (h : s.Guards) (ht : s.pc t = .inside) :
    Guards ⟨0, update s.pc t .outside⟩ := by
  intro u (hu : update s.pc t .outside u = .inside)
  by_cases hut : u = t
  · rw [hut, Function.update_self] at hu
    cases hu
  · rw [Function.update_of_ne hut] at hu
    unfold Guards at h
    split at h
    next => exact h u hu
    next =>
      obtain ⟨owner, howner⟩ := h
      exact hut (((howner u).mp hu).trans ((howner t).mp ht).symm)

theorem Guards.step (h : s.Guards) (hs : s.step e = some s') : s'.Guards := by
  cases e with
  | lock t =>
    obtain ⟨ht, hs⟩ := Option.ite_none_right_eq_some.mp hs
    exact Option.some.inj hs ▸ h.move (by simp [ht]) (by decide)
  | load t value =>
    obtain ⟨ht, hs⟩ := Option.ite_none_right_eq_some.mp hs
    refine Option.some.inj hs ▸ h.move (by simp [ht]) ?_
    split <;> decide
  | exchange t =>
    obtain ⟨ht, hs⟩ := Option.ite_none_right_eq_some.mp hs
    exact Option.some.inj hs ▸ h.exchange (by simp [ht])
  | unlock t =>
    obtain ⟨ht, hs⟩ := Option.ite_none_right_eq_some.mp hs
    exact Option.some.inj hs ▸ h.unlock ht

/-- Mutual exclusion, and that a free lock is not missed. -/
theorem spinlock_excludes (steps : List (LockStep Thread))
    (hrun : run step init steps = some s) :
    (∀ t u, s.pc t = .inside → s.pc u = .inside → t = u) ∧
      ∀ t, s.pc t = .exchanging → ∃ s', s.step (.exchange t) = some s' ∧
        (s'.pc t = .inside ↔ ∀ u, s.pc u ≠ .inside) := by
  have h : s.Guards := run_invariant (fun _ _ _ h hs => h.step hs) steps
    (fun _ => LockPc.noConfusion) hrun
  unfold Guards at h
  by_cases hflag : s.atomicFlag = 0
  · rw [if_pos hflag] at h
    refine ⟨fun t u ht => absurd ht (h t), fun t ht => ⟨_, if_pos ht, ?_⟩⟩
    simp [hflag, h]
  · rw [if_neg hflag] at h
    obtain ⟨owner, h⟩ := h
    refine ⟨fun t u ht hu => ((h t).mp ht).trans ((h u).mp hu).symm, fun t ht => ⟨_, if_pos ht, ?_⟩⟩
    simp [hflag, h]

theorem spinlock_excludes_three : ∃ s : OpSpinlock (Fin 3),
    run step init [.lock 0, .lock 1, .load 0 0, .load 1 0, .exchange 0, .exchange 1] = some s ∧
      (∀ t u, s.pc t = .inside → s.pc u = .inside → t = u) :=
  ⟨_, rfl, (spinlock_excludes
    [.lock 0, .lock 1, .load 0 0, .load 1 0, .exchange 0, .exchange 1] rfl).1⟩

end OpSpinlock

end OpBase.Pool
