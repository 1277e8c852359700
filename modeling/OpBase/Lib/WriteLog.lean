import OpBase.Lib.Extents

/-!
# What stands in a buffer that is written to

A buffer that is filled piece by piece, some of it more than once, is described by the log of
the writes: an extent and what goes there, in order. `Stands` says that a write is the last
to touch its extent, so that a reader finds it.

> `stands_snoc`, `Stands.append`: what was written last stands, and goes on to stand as long as
> later writes are apart from it.
> `inside_append`: writes are inside a buffer if each is.
-/

namespace OpBase.Lib

open Extent List

/-- Extents and what is written there. -/
abbrev WriteLog (α : Type) := List (Extent × α)

namespace WriteLog

variable {α : Type} {log ws : WriteLog α} {x : Extent} {v : α}

/-- The last write that touches `x` is `v`, at `x`. -/
def Stands (log : WriteLog α) (x : Extent) (v : α) : Prop :=
  ∃ front back, log = front ++ (x, v) :: back ∧ ∀ w ∈ back, w.1.Apart x

/-- The last write stands. -/
theorem stands_snoc (log : WriteLog α) (x : Extent) (v : α) : Stands (log ++ [(x, v)]) x v :=
  ⟨log, [], rfl, fun _ h => absurd h not_mem_nil⟩

/-- A write stands if the later ones are apart from it. -/
theorem Stands.append (h : Stands log x v) (hapart : ∀ w ∈ ws, w.1.Apart x) :
    Stands (log ++ ws) x v := by
  obtain ⟨front, back, rfl, hback⟩ := h
  refine ⟨front, back ++ ws, by rw [append_assoc, cons_append], ?_⟩
  intro w hw
  rcases mem_append.mp hw with hw | hw
  · exact hback w hw
  · exact hapart w hw

/-- Of writes that are apart all stand. -/
theorem stands_of_pairwise (log : WriteLog α) :
    ∀ {ws : WriteLog α}, ws.Pairwise (fun w w' => w'.1.Apart w.1) →
      ∀ w ∈ ws, Stands (log ++ ws) w.1 w.2
  | [], _, _, hw => absurd hw not_mem_nil
  | v :: ws, h, w, hw => by
    obtain ⟨hv, hws⟩ := pairwise_cons.mp h
    rw [show log ++ v :: ws = log ++ [v] ++ ws by rw [append_assoc, singleton_append]]
    rcases mem_cons.mp hw with rfl | hw
    · exact (stands_snoc log w.1 w.2).append hv
    · exact stands_of_pairwise (log ++ [v]) hws w hw

theorem Stands.mem (h : Stands log x v) : (x, v) ∈ log := by
  obtain ⟨front, back, rfl, -⟩ := h
  exact mem_append_right front mem_cons_self

/-! ## Writes inside a buffer -/

/-- No write goes behind `size`. -/
def Inside (size : Nat) (ws : WriteLog α) : Prop := ∀ w ∈ ws, w.1.stop ≤ size

variable {size : Nat} {ws' : WriteLog α}

@[simp] theorem inside_nil : Inside size ([] : WriteLog α) :=
  fun _ h => absurd h not_mem_nil

@[simp] theorem inside_cons {w : Extent × α} :
    Inside size (w :: ws) ↔ w.1.stop ≤ size ∧ Inside size ws :=
  forall_mem_cons

@[simp] theorem inside_append : Inside size (ws ++ ws') ↔ Inside size ws ∧ Inside size ws' :=
  forall_mem_append

end WriteLog

theorem Extent.Apart.symm {x y : Extent} (h : x.Apart y) : y.Apart x := Or.symm h

end OpBase.Lib
