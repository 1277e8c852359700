import Mathlib

/-!
# Runs of equal elements

A list of optional values as a sequence of runs: a missing value by itself, equal
values that stand side by side as one of them and how many there are.

> `expand_runs`: the runs say what the list is.
>
> `expand_inj`: runs are read back one by one if each is, also where only the
> lists are known to be alike and not where their runs end.
-/

namespace OpBase.Lib

open List

variable {α : Type}

/-- The elements of one run. -/
def expandRun : Option (α × Nat) → List (Option α)
  | none => [none]
  | some (x, n) => List.replicate n (some x)

def expand (rs : List (Option (α × Nat))) : List (Option α) := rs.flatMap expandRun

theorem expand_cons (r : Option (α × Nat)) (rs : List (Option (α × Nat))) :
    expand (r :: rs) = expandRun r ++ expand rs := rfl

section Runs

variable [DecidableEq α]

/-- So many more of a value in front. -/
def pushRun (x : α) (n : Nat) : List (Option (α × Nat)) → List (Option (α × Nat))
  | some (y, m) :: rs => if x = y then some (y, n + m) :: rs else some (x, n) :: some (y, m) :: rs
  | none :: rs => some (x, n) :: none :: rs
  | [] => [some (x, n)]

def runs : List (Option α) → List (Option (α × Nat))
  | [] => []
  | none :: xs => none :: runs xs
  | some x :: xs => pushRun x 1 (runs xs)

theorem pushRun_self (x : α) (n m : Nat) (rs : List (Option (α × Nat))) :
    pushRun x n (some (x, m) :: rs) = some (x, n + m) :: rs := if_pos rfl

theorem pushRun_cases (x : α) (n : Nat) (rs : List (Option (α × Nat))) :
    (∃ m rest, rs = some (x, m) :: rest ∧ pushRun x n rs = some (x, n + m) :: rest) ∨
      pushRun x n rs = some (x, n) :: rs := by
  match rs with
  | [] => exact Or.inr rfl
  | none :: _ => exact Or.inr rfl
  | some (y, m) :: rest =>
    by_cases h : x = y
    · subst h
      exact Or.inl ⟨m, rest, rfl, pushRun_self x n m rest⟩
    · exact Or.inr (if_neg h)

theorem pushRun_pushRun (x : α) (n m : Nat) (rs : List (Option (α × Nat))) :
    pushRun x n (pushRun x m rs) = pushRun x (n + m) rs := by
  rcases pushRun_cases x m rs with ⟨k, rest, rfl, hm⟩ | hm
  · rw [hm, pushRun_self, pushRun_self, Nat.add_assoc]
  · rw [hm, pushRun_self]
    -- a run of `x` in front of `rs` would have been taken in by the first push
    match rs, hm with
    | [], _ => rfl
    | none :: _, _ => rfl
    | some (y, k) :: rest, hm =>
      by_cases h : x = y
      · have hm' : some (y, m + k) :: rest = some (x, m) :: some (y, k) :: rest :=
          (if_pos h).symm.trans hm
        exact absurd (congrArg List.length hm') (by simp)
      · exact (if_neg h).symm

theorem pushRun_of_ne {x y : α} (h : x ≠ y) (n m : Nat) (rs : List (Option (α × Nat))) :
    pushRun x n (pushRun y m rs) = some (x, n) :: pushRun y m rs := by
  rcases pushRun_cases y m rs with ⟨k, rest, rfl, hm⟩ | hm
  · rw [hm]
    exact if_neg h
  · rw [hm]
    exact if_neg h

theorem expand_pushRun (x : α) (n : Nat) (rs : List (Option (α × Nat))) :
    expand (pushRun x n rs) = List.replicate n (some x) ++ expand rs := by
  rcases pushRun_cases x n rs with ⟨m, rest, rfl, hn⟩ | hn
  · rw [hn, expand_cons, expand_cons, ← append_assoc]
    show List.replicate (n + m) (some x) ++ _ = List.replicate n (some x) ++ List.replicate m _ ++ _
    rw [replicate_append_replicate]
  · rw [hn, expand_cons]
    rfl

/-- The runs expand to the list they were made of. -/
theorem expand_runs : ∀ xs : List (Option α), expand (runs xs) = xs
  | [] => rfl
  | none :: xs => congrArg (none :: ·) (expand_runs xs)
  | some x :: xs => by
    show expand (pushRun x 1 (runs xs)) = _
    rw [expand_pushRun, expand_runs xs]
    rfl

/-- No run is empty. -/
def Lasting (r : Option (α × Nat)) : Prop := ∀ p ∈ r, 0 < p.2

theorem lasting_pushRun {x : α} {n : Nat} {rs : List (Option (α × Nat))} (hn : 0 < n)
    (h : ∀ r ∈ rs, Lasting r) : ∀ r ∈ pushRun x n rs, Lasting r := by
  rcases pushRun_cases x n rs with ⟨m, rest, rfl, hpush⟩ | hpush
  · rw [hpush]
    refine forall_mem_cons.mpr ⟨?_, fun r hr => h r (mem_cons_of_mem _ hr)⟩
    rintro p ⟨⟩
    exact Nat.add_pos_left hn m
  · rw [hpush]
    refine forall_mem_cons.mpr ⟨?_, h⟩
    rintro p ⟨⟩
    exact hn

theorem lasting_runs : ∀ xs : List (Option α), ∀ r ∈ runs xs, Lasting r
  | [] => fun _ hr => absurd hr not_mem_nil
  | none :: xs => forall_mem_cons.mpr ⟨fun _ hp => absurd hp (by simp), lasting_runs xs⟩
  | some _ :: xs => lasting_pushRun Nat.one_pos (lasting_runs xs)

end Runs

/-! ## Reading runs back -/

variable {β γ : Type}

theorem expandRun_some {x : α} {n : Nat} (hn : 0 < n) :
    expandRun (some (x, n)) = some x :: List.replicate (n - 1) (some x) := by
  obtain ⟨m, rfl⟩ := Nat.exists_eq_succ_of_ne_zero (Nat.ne_of_gt hn)
  rfl

/-- Two encodings of runs that are strings of one list with the elements' `side` information
and the runs' `mark`: if one step reads a run of the one and of the other alike, the runs are
the same. -/
theorem expand_inj {enc : Option (α × Nat) → List β} {side : α → γ}
    {Marks : List (Option (α × Nat)) → List (Option (α × Nat)) → Prop}
    (hnone : ∀ {a b}, Marks (none :: a) (none :: b) → Marks a b)
    (hstep : ∀ {x y n m a b} {u v : List β}, 0 < n → 0 < m → side x = side y →
      Marks (some (x, n) :: a) (some (y, m) :: b) →
      (expand (some (x, n) :: a)).length = (expand (some (y, m) :: b)).length →
      enc (some (x, n)) ++ u = enc (some (y, m)) ++ v → (x = y ∧ n = m) ∧ u = v ∧ Marks a b) :
    ∀ {a b : List (Option (α × Nat))} {u v : List β}, (∀ r ∈ a, Lasting r) →
      (∀ r ∈ b, Lasting r) →
      (expand a).map (Option.map side) = (expand b).map (Option.map side) → Marks a b →
      a.flatMap enc ++ u = b.flatMap enc ++ v → a = b ∧ u = v
  | [], [], _, _, _, _, _, _, h => ⟨rfl, h⟩
  | [], none :: _, _, _, _, _, hside, _, _ => absurd hside (cons_ne_nil _ _).symm
  | none :: _, [], _, _, _, _, hside, _, _ => absurd hside (cons_ne_nil _ _)
  | [], some (y, m) :: b, _, _, _, hb, hside, _, _ => by
    have hm : 0 < m := hb _ mem_cons_self _ rfl
    rw [expand_cons, expandRun_some hm] at hside
    exact absurd hside (cons_ne_nil _ _).symm
  | some (x, n) :: a, [], _, _, ha, _, hside, _, _ => by
    have hn : 0 < n := ha _ mem_cons_self _ rfl
    rw [expand_cons, expandRun_some hn] at hside
    exact absurd hside (cons_ne_nil _ _)
  | none :: a, some (y, m) :: b, _, _, _, hb, hside, _, _ => by
    have hm : 0 < m := hb _ mem_cons_self _ rfl
    rw [expand_cons, expand_cons, expandRun_some hm] at hside
    exact absurd (List.cons.inj hside).1 (by simp)
  | some (x, n) :: a, none :: b, _, _, ha, _, hside, _, _ => by
    have hn : 0 < n := ha _ mem_cons_self _ rfl
    rw [expand_cons, expand_cons, expandRun_some hn] at hside
    exact absurd (List.cons.inj hside).1 (by simp)
  | none :: a, none :: b, u, v, ha, hb, hside, hmarks, h => by
    rw [flatMap_cons, flatMap_cons, append_assoc, append_assoc] at h
    obtain ⟨hab, huv⟩ := expand_inj hnone hstep
      (fun r hr => ha r (mem_cons_of_mem _ hr)) (fun r hr => hb r (mem_cons_of_mem _ hr))
      (List.cons.inj hside).2 (hnone hmarks) (append_cancel_left h)
    exact ⟨congrArg (none :: ·) hab, huv⟩
  | some (x, n) :: a, some (y, m) :: b, u, v, ha, hb, hside, hmarks, h => by
    have hn : 0 < n := ha _ mem_cons_self _ rfl
    have hm : 0 < m := hb _ mem_cons_self _ rfl
    have hlen := congrArg List.length hside
    rw [length_map, length_map] at hlen
    have hxy : side x = side y := by
      rw [expand_cons, expand_cons, expandRun_some hn, expandRun_some hm] at hside
      exact Option.some.inj (List.cons.inj hside).1
    rw [flatMap_cons, flatMap_cons, append_assoc, append_assoc] at h
    -- the first runs have one side, hence they are the same run
    obtain ⟨⟨rfl, rfl⟩, hrest, hmarks⟩ := hstep hn hm hxy hmarks hlen h
    rw [expand_cons, expand_cons, map_append, map_append] at hside
    obtain ⟨hab, huv⟩ := expand_inj hnone hstep
      (fun r hr => ha r (mem_cons_of_mem _ hr)) (fun r hr => hb r (mem_cons_of_mem _ hr))
      (append_cancel_left hside) hmarks hrest
    exact ⟨congrArg (some (x, n) :: ·) hab, huv⟩

end OpBase.Lib
