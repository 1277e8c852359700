import Mathlib

/-!
# Machines that come to an end

A machine is a step function that stops by refusing a step. From a state from which only
finitely many can be come to, it stops if and only if it does not come to one of them twice.

> `halts_iff`: halting is not circling.
-/

namespace OpBase.Lib

variable {α : Type*} {f : α → Option α} {a b : α}

/-- The state after some steps; `none` if the machine has stopped before. -/
def trace (f : α → Option α) (a : α) : ℕ → Option α
  | 0 => some a
  | n + 1 => (f a).bind fun b => trace f b n

def Halts (f : α → Option α) (a : α) : Prop := ∃ n, trace f a n = none

def Steps (f : α → Option α) (a b : α) : Prop := f a = some b

/-- A state is come to from which it is come to again. -/
def Circles (f : α → Option α) (a : α) : Prop :=
  ∃ b, Relation.ReflTransGen (Steps f) a b ∧ Relation.TransGen (Steps f) b b

theorem trace_add (f : α → Option α) : ∀ (m n : ℕ) (a : α),
    trace f a (m + n) = (trace f a m).bind fun b => trace f b n
  | 0, n, a => by rw [Nat.zero_add]; rfl
  | m + 1, n, a => by
    rw [Nat.succ_add]
    show (f a).bind _ = ((f a).bind _).bind _
    rw [Option.bind_assoc]
    exact Option.bind_congr fun c _ => trace_add f m n c

theorem reaches_of_trace : ∀ {n : ℕ} {a : α}, trace f a n = some b →
    Relation.ReflTransGen (Steps f) a b
  | 0, _, h => Option.some.inj h ▸ Relation.ReflTransGen.refl
  | n + 1, a, h => by
    obtain ⟨c, hc, hb⟩ := Option.bind_eq_some_iff.mp h
    exact (reaches_of_trace hb).head hc

theorem circles_of_trace {n : ℕ} (h : trace f a (n + 1) = some a) :
    Relation.TransGen (Steps f) a a := by
  obtain ⟨c, hc, ha⟩ := Option.bind_eq_some_iff.mp h
  exact Relation.TransGen.head' hc (reaches_of_trace ha)

theorem step_of_circle {c : α} (hcircle : Relation.TransGen (Steps f) b b)
    (h : Relation.ReflTransGen (Steps f) c b) :
    ∃ d, f c = some d ∧ Relation.ReflTransGen (Steps f) d b := by
  rcases Relation.ReflTransGen.cases_head h with rfl | ⟨d, hd, hdb⟩
  · obtain ⟨d, hd, hdb⟩ := Relation.TransGen.head'_iff.mp hcircle
    exact ⟨d, hd, hdb⟩
  · exact ⟨d, hd, hdb⟩

theorem trace_of_circle (hcircle : Relation.TransGen (Steps f) b b) : ∀ (n : ℕ) {c : α},
    Relation.ReflTransGen (Steps f) c b → trace f c n ≠ none
  | 0, _, _ => Option.some_ne_none _
  | n + 1, c, h => by
    obtain ⟨d, hd, hdb⟩ := step_of_circle hcircle h
    rw [trace, hd]
    exact trace_of_circle hcircle n hdb

/-- With finitely many states in reach, the iteration ends just when none of them comes again. -/
theorem halts_iff (hfin : {b | Relation.ReflTransGen (Steps f) a b}.Finite) :
    Halts f a ↔ ¬ Circles f a := by
  constructor
  · rintro ⟨n, hn⟩ ⟨b, hab, hcircle⟩
    exact trace_of_circle hcircle n hab hn
  · intro hcircles
    by_contra hhalts
    have hgoes : ∀ n, ∃ b, trace f a n = some b := fun n =>
      Option.ne_none_iff_exists'.mp fun hn => hhalts ⟨n, hn⟩
    choose s hs using hgoes
    obtain ⟨i, j, hij, heq⟩ :=
      Set.Finite.exists_lt_map_eq_of_forall_mem (fun n => reaches_of_trace (hs n)) hfin
    obtain ⟨k, rfl⟩ := Nat.exists_eq_add_of_lt hij
    have hback : trace f (s i) (k + 1) = some (s i) := by
      have hj := hs (i + k + 1)
      rw [Nat.add_assoc, trace_add, hs i, Option.bind_some, ← Nat.add_assoc] at hj
      rw [hj, ← heq]
    exact hcircles ⟨s i, reaches_of_trace (hs i), circles_of_trace hback⟩

end OpBase.Lib
