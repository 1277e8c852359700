import Mathlib

/-!
# Bounded first-in-first-out queues

What a queue answers to calls that put a value in or take one out. `Fifo room history q` says
that a queue for `room` values may have given these answers, in this order, and holds `q`.

> `Fifo.pushes_eq`: what was taken out is what was put in, up to what the queue holds.
>
> `Fifo.pushes_of_full`, `Fifo.pushes_of_empty`: where a call failed the queue was full, or
> empty.

`InSlots` lays the values out in a circle of slots.
-/

namespace OpBase.Lib

open List

open Function (update)

variable {α : Type}

/-! ## Answers -/

/-- A value was put in, or the queue was full; a value was taken out, or it was empty. -/
inductive Outcome (α : Type)
  | pushed (v : α)
  | full
  | popped (v : α)
  | empty

def pushes (history : List (Outcome α)) : List α :=
  history.filterMap fun
    | .pushed v => some v
    | _ => none

def pops (history : List (Outcome α)) : List α :=
  history.filterMap fun
    | .popped v => some v
    | _ => none

/-- The answers a queue for `room` values may give, and the values it then holds. -/
inductive Fifo (room : Nat) : List (Outcome α) → List α → Prop
  | nil : Fifo room [] []
  | pushed {h q} (v : α) : Fifo room h q → q.length < room → Fifo room (h ++ [.pushed v]) (q ++ [v])
  | full {h q} : Fifo room h q → q.length = room → Fifo room (h ++ [.full]) q
  | popped {h q} {v : α} : Fifo room h (v :: q) → Fifo room (h ++ [.popped v]) q
  | empty {h} : Fifo room h [] → Fifo room (h ++ [.empty]) []

namespace Fifo

variable {room : Nat} {history : List (Outcome α)} {q : List α}

section

variable (h : Fifo room history q)
include h

/-- What was pushed is what was popped, and the queue. -/
theorem pushes_eq : pushes history = pops history ++ q := by
  unfold pushes pops
  induction h with
  | nil => rfl
  | pushed v _ _ ih => simp [ih]
  | full _ _ ih => simp [ih]
  | popped _ ih => simp [ih]
  | empty _ ih => simp [ih]

/-- The queue never holds more than its room. -/
theorem length_le : q.length ≤ room := by
  induction h with
  | nil => exact Nat.zero_le _
  | pushed v _ hroom _ =>
    rw [length_append]
    exact hroom
  | full _ _ ih => exact ih
  | popped _ ih => exact Nat.le_of_succ_le ih
  | empty _ ih => exact ih

theorem before {past : List (Outcome α)} {o : Outcome α}
    (heq : history = past ++ [o]) :
    ∃ q₀, Fifo room past q₀ ∧ (o = .full → q₀.length = room) ∧ (o = .empty → q₀ = []) := by
  cases h with
  | nil => exact absurd heq.symm (append_ne_nil_of_right_ne_nil _ (cons_ne_nil _ _))
  | pushed v h hroom =>
    obtain ⟨rfl, ho⟩ := append_inj' heq rfl
    cases ho
    exact ⟨_, h, nofun, nofun⟩
  | full h hroom =>
    obtain ⟨rfl, ho⟩ := append_inj' heq rfl
    cases ho
    exact ⟨_, h, fun _ => hroom, nofun⟩
  | popped h =>
    obtain ⟨rfl, ho⟩ := append_inj' heq rfl
    cases ho
    exact ⟨_, h, nofun, nofun⟩
  | empty h =>
    obtain ⟨rfl, ho⟩ := append_inj' heq rfl
    cases ho
    exact ⟨_, h, nofun, fun _ => rfl⟩

theorem take {rest past : List (Outcome α)}
    (heq : history = past ++ rest) : ∃ q₀, Fifo room past q₀ := by
  induction rest using List.reverseRecOn generalizing history q with
  | nil =>
    rw [append_nil] at heq
    exact ⟨q, heq ▸ h⟩
  | append_singleton rest o ih =>
    obtain ⟨q₀, h₀, -⟩ := h.before (heq.trans (append_assoc _ _ _).symm)
    exact ih h₀ rfl

/-- A push fails only if the room is taken. -/
theorem pushes_of_full {past rest : List (Outcome α)}
    (heq : history = past ++ .full :: rest) :
    (pushes past).length = (pops past).length + room := by
  obtain ⟨q₁, h₁⟩ := h.take (heq.trans (append_cons _ _ _))
  obtain ⟨q₀, h₀, hfull, -⟩ := h₁.before rfl
  rw [h₀.pushes_eq, length_append, hfull rfl]

/-- A pop fails only if nothing is left. -/
theorem pushes_of_empty {past rest : List (Outcome α)}
    (heq : history = past ++ .empty :: rest) : pushes past = pops past := by
  obtain ⟨q₁, h₁⟩ := h.take (heq.trans (append_cons _ _ _))
  obtain ⟨q₀, h₀, -, hempty⟩ := h₁.before rfl
  rw [h₀.pushes_eq, hempty rfl, append_nil]

end

end Fifo

/-! ## Slots in a circle -/

/-- The values `q` from the slot `head` on, in a circle of `size` slots. -/
def InSlots (size : Nat) (buffer : Nat → α) (head : Nat) (q : List α) : Prop :=
  ∀ i v, q[i]? = some v → buffer ((head + i) % size) = v

theorem slot_inj {size head i j : Nat} (hi : i < size) (hj : j < size)
    (h : (head + i) % size = (head + j) % size) : i = j :=
  Nat.ModEq.eq_of_lt_of_lt (Nat.ModEq.add_left_cancel' head h) hi hj

namespace InSlots

variable {size head : Nat} {buffer : Nat → α} {q : List α} {v : α}

theorem update (h : InSlots size buffer head q) (hroom : q.length < size) (v : α) :
    InSlots size (update buffer ((head + q.length) % size) v) head q := by
  intro i w hw
  have hi := (List.getElem?_eq_some_iff.mp hw).1
  rw [Function.update_of_ne fun he => hi.ne (slot_inj (hi.trans hroom) hroom he)]
  exact h i w hw

/-- A value stored behind the last slot joins the queue. -/
theorem concat (h : InSlots size buffer head q) (hv : buffer ((head + q.length) % size) = v) :
    InSlots size buffer head (q ++ [v]) := by
  intro i w hw
  rcases Nat.lt_or_ge i q.length with hi | hi
  · rw [getElem?_append_left hi] at hw
    exact h i w hw
  · rw [getElem?_append_right hi, getElem?_singleton] at hw
    split at hw
    next hzero =>
      cases hw
      rw [← hv, show i = q.length by omega]
    next => cases hw

/-- The queue without its head starts one slot further on. -/
theorem tail (h : InSlots size buffer head (v :: q)) :
    InSlots size buffer ((head + 1) % size) q := by
  intro i w hw
  have := h (i + 1) w (by rw [getElem?_cons_succ]; exact hw)
  rw [Nat.mod_add_mod, Nat.add_assoc, Nat.add_comm 1]
  exact this

end InSlots

end OpBase.Lib
